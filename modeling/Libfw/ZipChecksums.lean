import Libfw.SignedWords
import Libfw.ZipWriter

/-!
# The ZIP writer's checksum over JavaScript's numbers

`crc32` of `sdk/zip.js` as the engine runs it: `crc` and the entries of the table are numbers,
`^` and `&` give signed ones, `>>>` and the stores into the `Uint32Array` unsigned ones.

`crc32_exact`: the number returned is the CRC-32, taken bit by bit.
-/

namespace Libfw

open SignedWords

namespace SignedZip

/-- The inner loop that makes an entry of the table. -/
def crcEntry : Nat → Int → Int
  | 0, c => c
  | k + 1, c => crcEntry k (if and32 c 1 ≠ 0 then xor32 0xedb88320 (ushr32 c 1) else ushr32 c 1)

/-- The `Uint32Array`. -/
def CRC_TABLE : List Int :=
  (List.range 256).map fun (n : Nat) => toUint32 (ushr32 (crcEntry 8 n) 0)

/-- An index that is not one of the table's gives `undefined`, which the operators take for
zero. -/
def look (table : List Int) : Int → Int
  | .ofNat i => table.getD i 0
  | .negSucc _ => 0

/-- `crc32` -/
def crc32 (bytes : List UInt8) : Int :=
  let crc := bytes.foldl (fun (crc : Int) (byte : UInt8) =>
    xor32 (look CRC_TABLE (and32 (xor32 crc byte.toNat) 0xff)) (ushr32 crc 8)) 0xffffffff
  ushr32 (xor32 crc 0xffffffff) 0

/-! ## Numbers and words -/

theorem word_crcEntry (k : Nat) (c : Int) : word (crcEntry k c) = Libfw.crcEntry k (word c) := by
  induction k generalizing c with
  | zero => rfl
  | succ k ih =>
      have hcond : and32 c 1 ≠ 0 ↔ word c &&& 1 ≠ 0 := and32_ne_zero_iff c 1
      unfold crcEntry Libfw.crcEntry
      rw [ih]
      congr 1
      by_cases hone : word c &&& 1 ≠ 0
      · rw [if_pos hone, if_pos (hcond.2 hone), word_xor32, word_ushr32 c (by decide)]
        rfl
      · rw [if_neg hone, if_neg (fun h => hone (hcond.1 h)), word_ushr32 c (by decide)]

/-- The entries of the table stand for those of the table of words. -/
theorem word_look (c : BitVec 32) :
    word (look CRC_TABLE (c &&& 0xff).toNat) = Libfw.CRC_TABLE.getD (c &&& 0xff).toNat 0 := by
  have hlt : (c &&& 0xff).toNat < 256 := by
    rw [BitVec.toNat_and]
    exact Nat.lt_succ_of_le Nat.and_le_right
  have hentry : ∀ n : Nat, word (toUint32 (ushr32 (crcEntry 8 n) 0)) =
      Libfw.crcEntry 8 (BitVec.ofNat 32 n) := by
    intro n
    rw [word_toUint32, ushr32_zero, word_toNat, word_crcEntry]
    unfold word
    rw [BitVec.ofInt_natCast]
  change word (CRC_TABLE.getD (c &&& 0xff).toNat 0) = _
  unfold CRC_TABLE Libfw.CRC_TABLE
  rw [List.getD_eq_getElem?_getD, List.getD_eq_getElem?_getD, List.getElem?_map, List.getElem?_map,
    List.getElem?_range hlt, Option.map_some, Option.map_some, Option.getD_some, Option.getD_some,
    hentry]

/-- A byte is taken in as it is over words. -/
theorem word_step (crc : Int) (byte : UInt8) :
    word (xor32 (look CRC_TABLE (and32 (xor32 crc byte.toNat) 0xff)) (ushr32 crc 8)) =
      Libfw.CRC_TABLE.getD ((word crc ^^^ byte.toBitVec.setWidth 32) &&& 0xff).toNat 0 ^^^
        (word crc >>> 8) := by
  have hbyte : word byte.toNat = byte.toBitVec.setWidth 32 := by
    unfold word
    rw [BitVec.ofInt_natCast]
    exact BitVec.ofNat_toNat 32 byte.toBitVec
  have hmask : word 0xff = 0xff := rfl
  have hindex : and32 (xor32 crc byte.toNat) 0xff =
      ((word crc ^^^ byte.toBitVec.setWidth 32) &&& 0xff).toNat := by
    rw [and32_eq_toNat (by decide), word_xor32, hbyte, hmask]
  rw [word_xor32, word_ushr32 crc (by decide), hindex, word_look]

/-- **The number is that of the checksum over words.** -/
theorem crc32_eq_toNat (bytes : List UInt8) : crc32 bytes = (Libfw.crc32 bytes).toNat := by
  have hfold : ∀ crc : Int,
      word (bytes.foldl (fun (crc : Int) (byte : UInt8) =>
        xor32 (look CRC_TABLE (and32 (xor32 crc byte.toNat) 0xff)) (ushr32 crc 8)) crc) =
      bytes.foldl (fun (crc : BitVec 32) (byte : UInt8) =>
        Libfw.CRC_TABLE.getD ((crc ^^^ byte.toBitVec.setWidth 32) &&& 0xff).toNat 0 ^^^ (crc >>> 8))
        (word crc) := by
    induction bytes with
    | nil => exact fun _ => rfl
    | cons byte rest ih =>
        intro crc
        rw [List.foldl_cons, List.foldl_cons, ih, word_step]
  unfold crc32 Libfw.crc32
  rw [ushr32_zero, word_xor32, hfold]
  rfl

end SignedZip

/-- **`crc32` returns the CRC-32 of the ZIP format as an unsigned number.** -/
theorem crc32_exact (bytes : List UInt8) :
    SignedZip.crc32 bytes = (CyclicChecksums.serial zipPolynomial bytes).toNat ∧
      0 ≤ SignedZip.crc32 bytes ∧ SignedZip.crc32 bytes < 2 ^ 32 := by
  have hexact : SignedZip.crc32 bytes = (CyclicChecksums.serial zipPolynomial bytes).toNat := by
    rw [SignedZip.crc32_eq_toNat, crc32_eq_checksum, CyclicChecksums.checksum_eq_serial]
  have hlt := (CyclicChecksums.serial zipPolynomial bytes).isLt
  refine ⟨hexact, ?_, ?_⟩ <;> omega

/-- The check value of the format. -/
example : CyclicChecksums.serial zipPolynomial
    [0x31, 0x32, 0x33, 0x34, 0x35, 0x36, 0x37, 0x38, 0x39] = 0xcbf43926 := by
  decide +kernel

end Libfw

import Libfw.CyclicChecksums
import Libfw.StoragePaths
import Libfw.ZipArchives

/-!
# The browser SDK's ZIP writer

`createZip` and `crc32` of `sdk/zip.js`.  A JavaScript string is a list of UTF-16 code
units, which `TextEncoder` may have to repair; a number that is written through a
`DataView` is cut to the width of its field.

* `crc32_eq_checksum` — the table computes the CRC-32 of the ZIP format.
* `createZip_eq_archive` — an accepted archive has the classic layout, and every number
  fits its field.
* `createZip_round_trip` — a reader finds the entries again.
-/

namespace Libfw

open BinaryRecords

/-! ## Strings of the browser -/

/-- UTF-16 code units. -/
abbrev JsString := List UInt16

/-- A string literal of characters of the basic plane. -/
def js (t : Text) : JsString := t.map fun c => UInt16.ofNat c.toNat

def isHighSurrogate (u : UInt16) : Bool := 0xd800 ≤ u && u < 0xdc00

def isLowSurrogate (u : UInt16) : Bool := 0xdc00 ≤ u && u < 0xe000

/-- The character of a code unit that stands alone. -/
def loneUnit (u : UInt16) : Char :=
  if isHighSurrogate u || isLowSurrogate u then Char.ofNat 0xfffd else Char.ofNat u.toNat

/-- The characters of a string, with unpaired surrogates replaced. -/
def scalarValues : JsString → Text
  | [] => []
  | [u] => [loneUnit u]
  | u :: v :: rest =>
      if isHighSurrogate u && isLowSurrogate v then
        Char.ofNat (0x10000 + (u.toNat - 0xd800) * 0x400 + (v.toNat - 0xdc00)) ::
          scalarValues rest
      else loneUnit u :: scalarValues (v :: rest)

/-- `TextEncoder.encode`. -/
def textEncode (s : JsString) : List UInt8 := utf8 (scalarValues s)

/-! ## The checksum -/

/-- The inner loop that makes an entry of the table. -/
def crcEntry : Nat → BitVec 32 → BitVec 32
  | 0, c => c
  | k + 1, c => crcEntry k (if c &&& 1 ≠ 0 then 0xedb88320 ^^^ (c >>> 1) else c >>> 1)

def CRC_TABLE : List (BitVec 32) := (List.range 256).map fun n => crcEntry 8 (BitVec.ofNat 32 n)

/-- `crc32` -/
def crc32 (bytes : List UInt8) : BitVec 32 :=
  let crc := bytes.foldl (fun (crc : BitVec 32) (byte : UInt8) =>
    CRC_TABLE.getD ((crc ^^^ byte.toBitVec.setWidth 32) &&& 0xff).toNat 0 ^^^ (crc >>> 8))
    0xffffffff
  crc ^^^ 0xffffffff

/-! ## The archive -/

/-- An argument of `createZip`. -/
structure ZipEntry where
  name : JsString
  data : List UInt8
  deriving DecidableEq

/-- What is kept of an entry for the central directory. -/
structure CentralItem where
  nameBytes : List UInt8
  crc : BitVec 32
  size : Nat
  offset : Nat

def setUint16 (off value : Nat) : Nat × List UInt8 := (off, bytesOf 2 value)

def setUint32 (off value : Nat) : Nat × List UInt8 := (off, bytesOf 4 value)

/-- The local file header, 30 bytes and the name. -/
def localHeader (nameBytes : List UInt8) (crc : BitVec 32) (size : Nat) : List UInt8 :=
  fill (30 + nameBytes.length)
    [setUint32 0 0x04034b50, setUint16 4 20, setUint16 6 0x0800, setUint16 8 0, setUint16 10 0,
      setUint16 12 0x0021, setUint32 14 crc.toNat, setUint32 18 size, setUint32 22 size,
      setUint16 26 nameBytes.length, setUint16 28 0, (30, nameBytes)]

/-- A header of the central directory, 46 bytes and the name. -/
def centralHeader (c : CentralItem) : List UInt8 :=
  fill (46 + c.nameBytes.length)
    [setUint32 0 0x02014b50, setUint16 4 20, setUint16 6 20, setUint16 8 0x0800, setUint16 10 0,
      setUint16 12 0, setUint16 14 0x0021, setUint32 16 c.crc.toNat, setUint32 20 c.size,
      setUint32 24 c.size, setUint16 28 c.nameBytes.length, setUint16 30 0, setUint16 32 0,
      setUint16 34 0, setUint16 36 0, setUint32 38 0, setUint32 42 c.offset, (46, c.nameBytes)]

/-- The end of central directory record. -/
def endOfCentralDirectory (count cdSize cdOffset : Nat) : List UInt8 :=
  fill 22
    [setUint32 0 0x06054b50, setUint16 4 0, setUint16 6 0, setUint16 8 count, setUint16 10 count,
      setUint32 12 cdSize, setUint32 16 cdOffset, setUint16 20 0]

def MAX_U32 : Nat := 0xffffffff

def MAX_U16 : Nat := 0xffff

/-- The loop over the entries: the blob parts, the directory items, the offset. -/
def packEntries : List ZipEntry → List UInt8 → List CentralItem → Nat →
    Except JsString (List UInt8 × List CentralItem × Nat)
  | [], body, central, offset => .ok (body, central, offset)
  | entry :: rest, body, central, offset =>
      let nameBytes := textEncode entry.name
      if MAX_U16 < nameBytes.length then
        .error (js "zip entry name too long: ".toList ++ entry.name.take 64 ++ js ['…'])
      else
        let crc := crc32 entry.data
        let header := localHeader nameBytes crc entry.data.length
        let next := offset + (header.length + entry.data.length)
        if MAX_U32 < next then
          .error (js "zip archive exceeds the 4 GiB limit of this writer".toList)
        else
          packEntries rest (body ++ (header ++ entry.data))
            (central ++ [⟨nameBytes, crc, entry.data.length, offset⟩]) next

/-- The loop over the directory items: the headers, and their size. -/
def packDirectory : List CentralItem → List UInt8 → Nat → List UInt8 × Nat
  | [], dir, cdSize => (dir, cdSize)
  | c :: rest, dir, cdSize =>
      packDirectory rest (dir ++ centralHeader c) (cdSize + (centralHeader c).length)

/-- `createZip` -/
def createZip (entries : List ZipEntry) : Except JsString (List UInt8) :=
  if MAX_U16 < entries.length then
    .error (js ("too many zip entries: ".toList ++ decimal entries.length ++ " > ".toList
      ++ decimal MAX_U16))
  else do
    let (body, central, offset) ← packEntries entries [] [] 0
    let (dir, cdSize) := packDirectory central [] 0
    if MAX_U32 < cdSize then
      .error (js "zip central directory exceeds the 4 GiB limit of this writer".toList)
    else .ok (body ++ dir ++ endOfCentralDirectory central.length cdSize offset)

/-! ## The checksum is the CRC-32 -/

/-- The polynomial of the ZIP format, reflected. -/
def zipPolynomial : BitVec 32 := 0xedb88320

theorem crcEntry_eq_steps (k : Nat) (c : BitVec 32) :
    crcEntry k c = CyclicChecksums.steps zipPolynomial k c := by
  induction k generalizing c with
  | zero => rfl
  | succ k ih =>
      have hlow : (c &&& 1 ≠ 0) ↔ c.getLsbD 0 = true := by
        have hbit : c &&& 1 = (BitVec.ofBool (c.getLsbD 0)).setWidth 32 :=
          BitVec.and_one_eq_setWidth_ofBool_getLsbD
        rw [hbit]
        cases c.getLsbD 0 <;> decide
      unfold crcEntry CyclicChecksums.steps CyclicChecksums.step
      rw [ih]
      by_cases hone : c.getLsbD 0 = true
      · rw [if_pos (hlow.2 hone), if_pos hone]
        rfl
      · rw [if_neg (fun h => hone (hlow.1 h)), if_neg hone]

/-- The table holds what single bytes leave. -/
theorem CRC_TABLE_getD {c : BitVec 32} :
    CRC_TABLE.getD (c &&& 0xff).toNat 0 = CyclicChecksums.steps zipPolynomial 8 (c &&& 0xff) := by
  have hlt : (c &&& 0xff).toNat < 256 := by
    rw [BitVec.toNat_and]
    exact Nat.lt_succ_of_le Nat.and_le_right
  unfold CRC_TABLE
  rw [List.getD_eq_getElem?_getD, List.getElem?_map, List.getElem?_range hlt, Option.map_some,
    Option.getD_some, BitVec.ofNat_toNat, BitVec.setWidth_eq, crcEntry_eq_steps]

/-- **The table computes the CRC-32.** -/
theorem crc32_eq_checksum (bytes : List UInt8) :
    crc32 bytes = CyclicChecksums.checksum zipPolynomial bytes := by
  have hstep : (fun (crc : BitVec 32) (byte : UInt8) =>
      CRC_TABLE.getD ((crc ^^^ byte.toBitVec.setWidth 32) &&& 0xff).toNat 0 ^^^ (crc >>> 8)) =
      CyclicChecksums.update zipPolynomial := by
    funext crc byte
    rw [CRC_TABLE_getD, CyclicChecksums.update_eq_table]
    rfl
  unfold crc32 CyclicChecksums.checksum
  rw [hstep]
  rfl

/-! ## The layout of what is written -/

def zipStamp : ZipArchives.Stamp := ⟨20, 20, 0x0800, 0, 0x0021⟩

theorem zipStamp_fits : zipStamp.Fits := by
  constructor <;> decide

/-- The checksum field. -/
def crcField (data : List UInt8) : Nat := (crc32 data).toNat

/-- The member an entry becomes. -/
def ZipEntry.member (entry : ZipEntry) : ZipArchives.Member :=
  ⟨textEncode entry.name, entry.data⟩

theorem localHeader_eq_localRecord (entry : ZipEntry) :
    localHeader (textEncode entry.name) (crc32 entry.data) entry.data.length =
      ZipArchives.localRecord zipStamp crcField entry.member := by
  unfold localHeader
  rw [fill_contiguous]
  · simp [ZipArchives.localRecord, ZipArchives.localFields, ZipArchives.Member.header,
      ZipEntry.member, numbers, setUint16, setUint32, crcField, zipStamp,
      ZipArchives.localSignature]
  · simp only [Contiguous, setUint16, setUint32, length_bytesOf, and_self]

/-- What the loop keeps of the entries from an offset on. -/
def centralItems : Nat → List ZipEntry → List CentralItem
  | _, [] => []
  | off, entry :: rest =>
      ⟨textEncode entry.name, crc32 entry.data, entry.data.length, off⟩ ::
        centralItems (off + (ZipArchives.localRecord zipStamp crcField entry.member ++
          entry.data).length) rest

theorem centralHeader_eq_centralRecord (entry : ZipEntry) (off : Nat) :
    centralHeader ⟨textEncode entry.name, crc32 entry.data, entry.data.length, off⟩ =
      ZipArchives.centralRecord zipStamp crcField entry.member off := by
  unfold centralHeader
  rw [fill_contiguous]
  · simp [ZipArchives.centralRecord, ZipArchives.centralFields, ZipArchives.Member.header,
      ZipEntry.member, numbers, setUint16, setUint32, crcField, zipStamp,
      ZipArchives.centralSignature]
  · simp only [Contiguous, setUint16, setUint32, length_bytesOf, and_self]

theorem endOfCentralDirectory_eq (count size off : Nat) :
    endOfCentralDirectory count size off = numbers (ZipArchives.endFields count size off) := by
  unfold endOfCentralDirectory
  rw [fill_contiguous]
  · simp [ZipArchives.endFields, numbers, setUint16, setUint32, ZipArchives.endSignature]
  · simp only [Contiguous, setUint16, setUint32, length_bytesOf, and_self]

/-- **What the loop over the entries has written.** -/
theorem packEntries_spec {entries : List ZipEntry} {front bytes : List UInt8}
    {before central : List CentralItem} {off stop : Nat}
    (h : packEntries entries front before off = .ok (bytes, central, stop))
    (hoff : off ≤ MAX_U32) :
    bytes = front ++ ZipArchives.body zipStamp crcField (entries.map ZipEntry.member) ∧
      central = before ++ centralItems off entries ∧
      stop = off + (ZipArchives.body zipStamp crcField (entries.map ZipEntry.member)).length ∧
      stop ≤ MAX_U32 ∧ ∀ entry ∈ entries, (textEncode entry.name).length ≤ MAX_U16 := by
  induction entries generalizing front before off with
  | nil =>
      cases h
      simp [ZipArchives.body, centralItems, hoff]
  | cons entry rest ih =>
      unfold packEntries at h
      dsimp only at h
      split_ifs at h with hname hlimit
      rw [← List.length_append, localHeader_eq_localRecord] at h hlimit
      obtain ⟨hbytes, hcentral, hstop, hmax, hnames⟩ := ih h (Nat.le_of_not_lt hlimit)
      have hbody : ZipArchives.body zipStamp crcField ((entry :: rest).map ZipEntry.member) =
          ZipArchives.localRecord zipStamp crcField entry.member ++ entry.data ++
            ZipArchives.body zipStamp crcField (rest.map ZipEntry.member) := by
        unfold ZipArchives.body
        rw [List.map_cons, List.flatMap_cons]
        rfl
      refine ⟨?_, ?_, ?_, hmax, ?_⟩
      · rw [hbytes, hbody, List.append_assoc]
      · rw [hcentral, List.append_assoc]
        rfl
      · rw [hstop, hbody]
        simp only [List.length_append, Nat.add_assoc]
      · intro x hx
        rcases List.mem_cons.1 hx with hx | hx
        · rw [hx]
          exact Nat.le_of_not_lt hname
        · exact hnames x hx

/-- What the loop over the directory items has written. -/
theorem packDirectory_spec (entries : List ZipEntry) (off : Nat) (dir : List UInt8) :
    packDirectory (centralItems off entries) dir dir.length =
      (dir ++ ZipArchives.directory zipStamp crcField off (entries.map ZipEntry.member),
        (dir ++ ZipArchives.directory zipStamp crcField off
          (entries.map ZipEntry.member)).length) := by
  induction entries generalizing off dir with
  | nil => simp [packDirectory, centralItems, ZipArchives.directory]
  | cons entry rest ih =>
      unfold centralItems packDirectory
      rw [centralHeader_eq_centralRecord, ← List.length_append, ih, List.map_cons,
        ZipArchives.directory, ← List.append_assoc]
      rfl

theorem length_centralItems (off : Nat) (entries : List ZipEntry) :
    (centralItems off entries).length = entries.length := by
  induction entries generalizing off with
  | nil => rfl
  | cons entry rest ih =>
      unfold centralItems
      rw [List.length_cons, ih, List.length_cons]

/-- **An accepted archive has the classic layout, and its numbers fit.** -/
theorem createZip_eq_archive {entries : List ZipEntry} {bytes : List UInt8}
    (h : createZip entries = .ok bytes) :
    bytes = ZipArchives.archive zipStamp crcField (entries.map ZipEntry.member) ∧
      ZipArchives.Fits zipStamp crcField (entries.map ZipEntry.member) := by
  unfold createZip at h
  split_ifs at h with hcount
  cases hpack : packEntries entries [] [] 0 with
  | error e =>
      rw [hpack] at h
      cases h
  | ok packed =>
      obtain ⟨body, central, offset⟩ := packed
      obtain ⟨hbody, hcentral, hoffset, hmax, hnames⟩ := packEntries_spec hpack (Nat.zero_le _)
      rw [List.nil_append] at hbody hcentral
      rw [Nat.zero_add] at hoffset
      have hdir := packDirectory_spec entries 0 []
      rw [List.nil_append] at hdir
      rw [hpack, hcentral] at h
      simp only [bind, Except.bind, List.length_nil ▸ hdir, length_centralItems] at h
      split_ifs at h with hsize
      cases h
      constructor
      · unfold ZipArchives.archive
        rw [List.length_map, hbody, hoffset, List.append_assoc, endOfCentralDirectory_eq]
      · constructor
        · rw [List.length_map]
          exact Nat.lt_succ_of_le (Nat.le_of_not_lt hcount)
        · intro m hm
          obtain ⟨entry, hentry, hm⟩ := List.mem_map.1 hm
          rw [← hm]
          exact Nat.lt_succ_of_le (hnames entry hentry)
        · intro m hm
          exact (crc32 m.data).isLt
        · rw [← hoffset]
          exact Nat.lt_succ_of_le hmax
        · exact Nat.lt_succ_of_le (Nat.le_of_not_lt hsize)

/-! ## The round trip -/

/-- What a reader finds, from an offset on, is what the entries hold. -/
theorem foundFrom_members (off : Nat) (entries : List ZipEntry) :
    (ZipArchives.foundFrom zipStamp crcField off (entries.map ZipEntry.member)).map
        (fun m => (m.entry.header.name, m.data)) =
      entries.map fun entry => (textEncode entry.name, entry.data) := by
  induction entries generalizing off with
  | nil => rfl
  | cons entry rest ih =>
      rw [List.map_cons, ZipArchives.foundFrom, List.map_cons, ih]
      rfl

/-- **A reader finds the entries again, in order, and every number is what it says.** -/
theorem createZip_round_trip {entries : List ZipEntry} {bytes : List UInt8}
    (h : createZip entries = .ok bytes) :
    ∃ last members, ZipArchives.readArchive bytes = some (last, members) ∧
      members.map (fun m => (m.entry.header.name, m.data)) =
        entries.map (fun entry => (textEncode entry.name, entry.data)) ∧
      (∀ m ∈ members, m.localHeader = m.entry.header ∧ m.entry.header.flags = 0x0800 ∧
        m.entry.header.method = 0 ∧
        m.entry.header.crc = (CyclicChecksums.checksum zipPolynomial m.data).toNat ∧
        m.entry.header.compressedSize = m.data.length ∧
        m.entry.header.uncompressedSize = m.data.length) ∧
      last.entriesHere = entries.length ∧ last.entries = entries.length ∧
      last.offset + last.size + ZipArchives.endLength = bytes.length := by
  obtain ⟨hbytes, hfits⟩ := createZip_eq_archive h
  have hread := ZipArchives.readArchive_archive zipStamp_fits hfits
  rw [← hbytes] at hread
  refine ⟨_, _, hread, foundFrom_members 0 entries, ?_, ?_, ?_, ?_⟩
  · intro m hm
    obtain ⟨x, off, hx⟩ := ZipArchives.exists_of_mem_foundFrom hm
    rw [hx, ← crc32_eq_checksum]
    exact ⟨rfl, rfl, rfl, rfl, rfl, rfl⟩
  · exact List.length_map _
  · exact List.length_map _
  · rw [hbytes, ZipArchives.length_archive, Nat.add_assoc]

/-! ### Two files, one of them empty -/

def twoEntries : List ZipEntry :=
  [⟨js "docs/".toList ++ [0x4e2d, 0xd800], [1, 2, 3]⟩, ⟨js "docs/empty".toList, []⟩]

theorem twoEntries_round_trip :
    ∃ bytes, createZip twoEntries = .ok bytes ∧
      ∃ last members, ZipArchives.readArchive bytes = some (last, members) ∧
        members.map (fun m => (m.entry.header.name, m.data)) =
          twoEntries.map (fun entry => (textEncode entry.name, entry.data)) := by
  cases hzip : createZip twoEntries with
  | error e =>
      have hok : (createZip twoEntries).toOption.isSome = true := by decide +kernel
      rw [hzip] at hok
      cases hok
  | ok bytes =>
      obtain ⟨last, members, hread, hmembers, -⟩ := createZip_round_trip hzip
      exact ⟨bytes, rfl, last, members, hread, hmembers⟩

example : textEncode (js ['a'] ++ [0xd83d, 0xde00]) = [0x61, 0xf0, 0x9f, 0x98, 0x80] := by decide

example : crc32 (utf8 "123456789".toList) = 0xcbf43926 := by decide +kernel

end Libfw

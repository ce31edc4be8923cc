import Mathlib.Algebra.GroupWithZero.Nat
import Mathlib.Data.List.Basic

/-!
# Base64url without padding

RFC 4648 §5, as a bijection between byte strings and the texts it writes: three
bytes are four digits, a rest of one or two bytes is two or three digits whose
last has zeros in its unused bits.  Padding, other letters and set unused bits
are refused.

* `decode_encode` — decoding undoes encoding.
* `encode_of_decode` — and reads nothing else.
* `digit_of_mem_encode` — the letters of an encoding.
-/

namespace Base64Url

def alphabet : List Char :=
  "ABCDEFGHIJKLMNOPQRSTUVWXYZabcdefghijklmnopqrstuvwxyz0123456789-_".toList

/-- The digit of a value below 64. -/
def digit (n : Nat) : Char := alphabet.getD n 'A'

/-- The value of a digit. -/
def value (c : Char) : Option Nat :=
  let n := alphabet.idxOf c
  if n < 64 then some n else none

theorem alphabet_eq : alphabet =
    ['A', 'B', 'C', 'D', 'E', 'F', 'G', 'H', 'I', 'J', 'K', 'L', 'M', 'N', 'O', 'P', 'Q', 'R',
    'S', 'T', 'U', 'V', 'W', 'X', 'Y', 'Z', 'a', 'b', 'c', 'd', 'e', 'f', 'g', 'h', 'i', 'j', 'k',
    'l', 'm', 'n', 'o', 'p', 'q', 'r', 's', 't', 'u', 'v', 'w', 'x', 'y', 'z', '0', '1', '2', '3',
    '4', '5', '6', '7', '8', '9', '-', '_'] :=
  String.toList_ofList

theorem alphabet_length : alphabet.length = 64 := by
  rw [alphabet_eq]
  rfl

theorem alphabet_nodup : alphabet.Nodup := by
  rw [alphabet_eq]
  decide +kernel

theorem digit_eq {n : Nat} (h : n < alphabet.length) : digit n = alphabet[n] := by
  unfold digit
  rw [List.getD_eq_getElem?_getD, List.getElem?_eq_getElem, Option.getD_some]

theorem value_digit {n : Nat} (h : n < 64) : value (digit n) = some n := by
  have hlen : n < alphabet.length := by
    rw [alphabet_length]
    exact h
  have hidx : alphabet.idxOf (digit n) = n := by
    rw [digit_eq hlen]
    exact alphabet_nodup.idxOf_getElem n hlen
  unfold value
  dsimp only
  rw [hidx, if_pos h]

theorem digit_value {c : Char} {n : Nat} (h : value c = some n) : n < 64 ∧ digit n = c := by
  unfold value at h
  dsimp only at h
  split at h
  · next hlt =>
      cases h
      refine ⟨hlt, ?_⟩
      rw [digit_eq (by rw [alphabet_length]; exact hlt)]
      exact List.getElem_idxOf _
  · cases h

theorem digit_mem {n : Nat} (h : n < 64) : digit n ∈ alphabet := by
  rw [digit_eq (by rw [alphabet_length]; exact h)]
  exact List.getElem_mem _

/-! ## Groups -/

/-- A byte of a number. -/
def byteAt (n k : Nat) : UInt8 := UInt8.ofNat (n / 256 ^ k)

theorem toNat_byteAt (n k : Nat) : (byteAt n k).toNat = n / 256 ^ k % 256 := by
  unfold byteAt
  rw [UInt8.toNat_ofNat']

/-- Three bytes as one number. -/
def ofBytes (a b c : Nat) : Nat := a * 65536 + b * 256 + c

/-- Four digits as one number. -/
def ofDigits (w x y z : Nat) : Nat := w * 262144 + x * 4096 + y * 64 + z

theorem ofDigits_digits (n : Nat) :
    ofDigits (n / 262144) (n / 4096 % 64) (n / 64 % 64) (n % 64) = n := by
  unfold ofDigits
  omega

theorem ofBytes_bytes {n : Nat} (h : n < 16777216) :
    ofBytes (n / 256 ^ 2 % 256) (n / 256 ^ 1 % 256) (n / 256 ^ 0 % 256) = n := by
  unfold ofBytes
  omega

theorem digits_ofDigits {w x y z : Nat} (hx : x < 64) (hy : y < 64) (hz : z < 64) :
    ofDigits w x y z / 262144 = w ∧ ofDigits w x y z / 4096 % 64 = x ∧
      ofDigits w x y z / 64 % 64 = y ∧ ofDigits w x y z % 64 = z := by
  unfold ofDigits
  omega

theorem bytes_ofBytes {a b c : Nat} (ha : a < 256) (hb : b < 256) (hc : c < 256) :
    ofBytes a b c / 256 ^ 2 % 256 = a ∧ ofBytes a b c / 256 ^ 1 % 256 = b ∧
      ofBytes a b c / 256 ^ 0 % 256 = c := by
  unfold ofBytes
  omega

theorem ofBytes_lt {a b c : Nat} (ha : a < 256) (hb : b < 256) (hc : c < 256) :
    ofBytes a b c < 16777216 := by
  unfold ofBytes
  omega

theorem ofDigits_lt {w x y z : Nat} (hw : w < 64) (hx : x < 64) (hy : y < 64) (hz : z < 64) :
    ofDigits w x y z < 16777216 := by
  unfold ofDigits
  omega

/-- The letters of some bytes. -/
def encode : List UInt8 → List Char
  | [] => []
  | [a] =>
      let n := a.toNat * 16
      [digit (n / 64), digit (n % 64)]
  | [a, b] =>
      let n := (a.toNat * 256 + b.toNat) * 4
      [digit (n / 4096), digit (n / 64 % 64), digit (n % 64)]
  | a :: b :: c :: rest =>
      let n := ofBytes a.toNat b.toNat c.toNat
      digit (n / 262144) :: digit (n / 4096 % 64) :: digit (n / 64 % 64) :: digit (n % 64) ::
        encode rest

/-- The bytes of a last group, whose unused low bits must be zero. -/
def lastBytes (n unused : Nat) (bytes : Nat → List UInt8) : Option (List UInt8) :=
  if n % unused = 0 then some (bytes (n / unused)) else none

def decode : List Char → Option (List UInt8)
  | [] => some []
  | [_] => none
  | [w, x] => do
      let w ← value w
      let x ← value x
      lastBytes (w * 64 + x) 16 fun n => [byteAt n 0]
  | [w, x, y] => do
      let w ← value w
      let x ← value x
      let y ← value y
      lastBytes (w * 4096 + x * 64 + y) 4 fun n => [byteAt n 1, byteAt n 0]
  | w :: x :: y :: z :: rest => do
      let w ← value w
      let x ← value x
      let y ← value y
      let z ← value z
      let bytes ← decode rest
      let n := ofDigits w x y z
      some (byteAt n 2 :: byteAt n 1 :: byteAt n 0 :: bytes)

/-- **Decoding undoes encoding.** -/
theorem decode_encode (bytes : List UInt8) : decode (encode bytes) = some bytes := by
  induction bytes using encode.induct with
  | case1 => rfl
  | case2 a =>
      have ha := a.toNat_lt
      simp only [encode, decode]
      rw [value_digit (by omega), value_digit (by omega)]
      have hn : a.toNat * 16 / 64 * 64 + a.toNat * 16 % 64 = a.toNat * 16 := by omega
      simp only [Option.bind_eq_bind, Option.bind_some, lastBytes, hn]
      rw [if_pos (by omega)]
      have hbyte : byteAt (a.toNat * 16 / 16) 0 = a := by
        apply UInt8.toNat_inj.1
        rw [toNat_byteAt]
        omega
      rw [hbyte]
  | case3 a b =>
      have ha := a.toNat_lt
      have hb := b.toNat_lt
      simp only [encode, decode]
      rw [value_digit (by omega), value_digit (by omega), value_digit (by omega)]
      generalize hm : (a.toNat * 256 + b.toNat) * 4 = m
      have hn : m / 4096 * 4096 + m / 64 % 64 * 64 + m % 64 = m := by omega
      simp only [Option.bind_eq_bind, Option.bind_some, lastBytes, hn]
      rw [if_pos (by omega)]
      have hfirst : byteAt (m / 4) 1 = a := by
        apply UInt8.toNat_inj.1
        rw [toNat_byteAt]
        omega
      have hsecond : byteAt (m / 4) 0 = b := by
        apply UInt8.toNat_inj.1
        rw [toNat_byteAt]
        omega
      rw [hfirst, hsecond]
  | case4 a b c rest ih =>
      have ha := a.toNat_lt
      have hb := b.toNat_lt
      have hc := c.toNat_lt
      simp only [encode, decode]
      have hlt := ofBytes_lt ha hb hc
      rw [value_digit (by omega), value_digit (by omega), value_digit (by omega),
        value_digit (by omega), ih]
      simp only [Option.bind_eq_bind, Option.bind_some, ofDigits_digits]
      obtain ⟨hfirst, hsecond, hthird⟩ := bytes_ofBytes ha hb hc
      rw [← toNat_byteAt, UInt8.toNat_inj] at hfirst hsecond hthird
      rw [hfirst, hsecond, hthird]

/-- **Only encodings are decoded.** -/
theorem encode_of_decode {text : List Char} {bytes : List UInt8}
    (h : decode text = some bytes) : encode bytes = text := by
  induction text using decode.induct generalizing bytes with
  | case1 =>
      cases h
      rfl
  | case2 => cases h
  | case3 w x =>
      simp only [decode, Option.bind_eq_bind, Option.bind_eq_some_iff, lastBytes] at h
      obtain ⟨s, hs, t, ht, hlast⟩ := h
      obtain ⟨hs64, hw⟩ := digit_value hs
      obtain ⟨ht64, hx⟩ := digit_value ht
      split at hlast
      · next hunused =>
          cases hlast
          simp only [encode, toNat_byteAt]
          have hn : (s * 64 + t) / 16 / 256 ^ 0 % 256 * 16 = s * 64 + t := by omega
          have hhigh : (s * 64 + t) / 64 = s := by omega
          have hlow : (s * 64 + t) % 64 = t := by omega
          rw [hn, hhigh, hlow, hw, hx]
      · cases hlast
  | case4 w x y =>
      simp only [decode, Option.bind_eq_bind, Option.bind_eq_some_iff, lastBytes] at h
      obtain ⟨s, hs, t, ht, u, hu, hlast⟩ := h
      obtain ⟨hs64, hw⟩ := digit_value hs
      obtain ⟨ht64, hx⟩ := digit_value ht
      obtain ⟨hu64, hy⟩ := digit_value hu
      split at hlast
      · next hunused =>
          cases hlast
          simp only [encode, toNat_byteAt]
          obtain ⟨m, hm⟩ : ∃ m, s * 4096 + t * 64 + u = m := ⟨_, rfl⟩
          rw [hm] at hunused ⊢
          have hn : (m / 4 / 256 ^ 1 % 256 * 256 + m / 4 / 256 ^ 0 % 256) * 4 = m := by omega
          have hhigh : m / 4096 = s := by omega
          have hmid : m / 64 % 64 = t := by omega
          have hlow : m % 64 = u := by omega
          rw [hn, hhigh, hmid, hlow, hw, hx, hy]
      · cases hlast
  | case5 w x y z rest ih =>
      simp only [decode, Option.bind_eq_bind, Option.bind_eq_some_iff] at h
      obtain ⟨s, hs, t, ht, u, hu, v, hv, more, hmore, hbytes⟩ := h
      obtain ⟨hs64, hw⟩ := digit_value hs
      obtain ⟨ht64, hx⟩ := digit_value ht
      obtain ⟨hu64, hy⟩ := digit_value hu
      obtain ⟨hv64, hz⟩ := digit_value hv
      cases hbytes
      obtain ⟨hone, htwo, hthree, hfour⟩ := @digits_ofDigits s t u v ht64 hu64 hv64
      simp only [encode, toNat_byteAt]
      rw [ofBytes_bytes (ofDigits_lt hs64 ht64 hu64 hv64), hone, htwo, hthree, hfour, hw, hx, hy,
        hz, ih hmore]

/-- The letters of an encoding are digits. -/
theorem digit_of_mem_encode {bytes : List UInt8} {c : Char} (h : c ∈ encode bytes) :
    c ∈ alphabet := by
  induction bytes using encode.induct with
  | case1 => cases h
  | case2 a =>
      have ha := a.toNat_lt
      simp only [encode, List.mem_cons, List.not_mem_nil, or_false] at h
      rcases h with rfl | rfl
      · exact digit_mem (by omega)
      · exact digit_mem (by omega)
  | case3 a b =>
      have ha := a.toNat_lt
      have hb := b.toNat_lt
      simp only [encode, List.mem_cons, List.not_mem_nil, or_false] at h
      rcases h with rfl | rfl | rfl
      · exact digit_mem (by omega)
      · exact digit_mem (by omega)
      · exact digit_mem (by omega)
  | case4 a b c rest ih =>
      have ha := a.toNat_lt
      have hb := b.toNat_lt
      have hc := c.toNat_lt
      have hlt := ofBytes_lt ha hb hc
      simp only [encode, List.mem_cons] at h
      rcases h with rfl | rfl | rfl | rfl | h
      · exact digit_mem (by omega)
      · exact digit_mem (by omega)
      · exact digit_mem (by omega)
      · exact digit_mem (by omega)
      · exact ih h

example : encode [0x4D, 0x61, 0x6E, 0xFF] = "TWFu_w".toList := by decide +kernel

end Base64Url

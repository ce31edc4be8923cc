import Mathlib.Data.BitVec

/-!
# Bit operators on signed numbers

The 32-bit operators of a language that has numbers only: an operand stands for its 32 low
bits (`word`), the result is read as a signed number by `^` and `&`, and as an unsigned one by
`>>>`.  `word` turns each of them into the operation on words.
-/

namespace SignedWords

/-- `ToInt32`, `ToUint32`: the 32 low bits of a number, in two's complement. -/
def word (x : Int) : BitVec 32 := BitVec.ofInt 32 x

/-- The word as an unsigned number. -/
def toUint32 (x : Int) : Int := (word x).toNat

/-- `x ^ y` -/
def xor32 (x y : Int) : Int := (word x ^^^ word y).toInt

/-- `x & y` -/
def and32 (x y : Int) : Int := (word x &&& word y).toInt

/-- `x >>> n`: the count is taken modulo 32. -/
def ushr32 (x : Int) (n : Nat) : Int := (word x >>> (n % 32)).toNat

@[simp] theorem word_toInt (c : BitVec 32) : word c.toInt = c := BitVec.ofInt_toInt

@[simp] theorem word_toNat (c : BitVec 32) : word c.toNat = c := by
  unfold word
  rw [BitVec.ofInt_natCast, BitVec.ofNat_toNat, BitVec.setWidth_eq]

@[simp] theorem word_toUint32 (x : Int) : word (toUint32 x) = word x := word_toNat _

@[simp] theorem word_xor32 (x y : Int) : word (xor32 x y) = word x ^^^ word y := word_toInt _

@[simp] theorem word_and32 (x y : Int) : word (and32 x y) = word x &&& word y := word_toInt _

theorem word_ushr32 (x : Int) {n : Nat} (h : n < 32) : word (ushr32 x n) = word x >>> n := by
  unfold ushr32
  rw [word_toNat, Nat.mod_eq_of_lt h]

/-- An unsigned number is the number of its word. -/
theorem ushr32_zero (x : Int) : ushr32 x 0 = (word x).toNat := rfl

/-- The result of `&` is a false condition exactly where its word is zero. -/
theorem and32_ne_zero_iff (x y : Int) : and32 x y ≠ 0 ↔ word x &&& word y ≠ 0 := by
  unfold and32
  rw [Ne, Ne, ← BitVec.toInt_inj]
  rfl

/-- A mask below the sign bit leaves a number that is not negative. -/
theorem and32_eq_toNat {x y : Int} (h : (word y).toNat < 2 ^ 31) :
    and32 x y = (word x &&& word y).toNat := by
  have hle : (word x &&& word y).toNat ≤ (word y).toNat := by
    rw [BitVec.toNat_and]
    exact Nat.and_le_right
  unfold and32
  rw [BitVec.toInt_eq_toNat_of_lt (by omega)]

end SignedWords

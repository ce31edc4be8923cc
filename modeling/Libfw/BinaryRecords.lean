import Mathlib.Algebra.GroupWithZero.Nat
import Mathlib.Data.List.Basic

/-!
# Records of little-endian fields

A record is laid out by writing each of its fields at an offset of a zeroed buffer; a
reader takes the fields from the front, one after another.  Where the offsets leave no
gap the buffer is the fields one after another (`fill_contiguous`), and then the reader
finds the values (`readFields_numbers`).
-/

namespace BinaryRecords

/-! ## Numbers -/

/-- The `width` low bytes of a number, the lowest first. -/
def bytesOf : Nat → Nat → List UInt8
  | 0, _ => []
  | width + 1, n => UInt8.ofNat n :: bytesOf width (n / 256)

/-- The number with the given bytes, the lowest first. -/
def numberOf : List UInt8 → Nat
  | [] => 0
  | b :: rest => b.toNat + 256 * numberOf rest

@[simp] theorem length_bytesOf (width n : Nat) : (bytesOf width n).length = width := by
  induction width generalizing n with
  | zero => rfl
  | succ width ih =>
      unfold bytesOf
      rw [List.length_cons, ih]

/-- A number that fits its width is read back. -/
theorem numberOf_bytesOf {width n : Nat} (h : n < 256 ^ width) :
    numberOf (bytesOf width n) = n := by
  induction width generalizing n with
  | zero =>
      unfold bytesOf numberOf
      omega
  | succ width ih =>
      have hrest : n / 256 < 256 ^ width := by
        rw [Nat.pow_succ] at h
        omega
      unfold bytesOf numberOf
      rw [ih hrest, UInt8.toNat_ofNat']
      omega

/-! ## Buffers -/

/-- Write bytes over a buffer. -/
def setAt (buf : List UInt8) (off : Nat) (bytes : List UInt8) : List UInt8 :=
  buf.take off ++ bytes ++ buf.drop (off + bytes.length)

/-- A zeroed buffer with bytes written at offsets. -/
def fill (size : Nat) (writes : List (Nat × List UInt8)) : List UInt8 :=
  writes.foldl (fun buf w => setAt buf w.1 w.2) (List.replicate size 0)

/-- Every write begins where the one before it ended, and the last ends at `stop`. -/
def Contiguous : Nat → Nat → List (Nat × List UInt8) → Prop
  | off, stop, [] => off = stop
  | off, stop, w :: rest => w.1 = off ∧ Contiguous (off + w.2.length) stop rest

theorem Contiguous.le {off stop : Nat} {writes : List (Nat × List UInt8)}
    (h : Contiguous off stop writes) : off ≤ stop := by
  induction writes generalizing off with
  | nil => exact Nat.le_of_eq h
  | cons w rest ih =>
      have := ih h.2
      omega

/-- Behind what is written, the buffer is still zero. -/
theorem foldl_setAt_contiguous {off stop : Nat} {writes : List (Nat × List UInt8)}
    (h : Contiguous off stop writes) {front : List UInt8} (hfront : front.length = off) :
    writes.foldl (fun buf w => setAt buf w.1 w.2) (front ++ List.replicate (stop - off) 0) =
      front ++ writes.flatMap Prod.snd := by
  induction writes generalizing off front with
  | nil =>
      have hdone : off = stop := h
      rw [hdone, Nat.sub_self]
      simp
  | cons w rest ih =>
      obtain ⟨hoff, hrest⟩ := h
      have hle := hrest.le
      have hwrite : setAt (front ++ List.replicate (stop - off) 0) w.1 w.2 =
          (front ++ w.2) ++ List.replicate (stop - (off + w.2.length)) 0 := by
        have hdrop : (front ++ List.replicate (stop - off) (0 : UInt8)).drop (off + w.2.length) =
            List.replicate (stop - (off + w.2.length)) 0 := by
          rw [← hfront, List.drop_append, List.drop_of_length_le (by omega), List.nil_append,
            List.drop_replicate]
          congr 1
          omega
        unfold setAt
        rw [hoff, hdrop, ← hfront, List.take_left]
      rw [List.foldl_cons, hwrite, ih hrest (by simp [hfront]), List.flatMap_cons,
        List.append_assoc]

/-- **A buffer written without gaps is its fields, one after another.** -/
theorem fill_contiguous {size : Nat} {writes : List (Nat × List UInt8)}
    (h : Contiguous 0 size writes) : fill size writes = writes.flatMap Prod.snd := by
  have hfill := @foldl_setAt_contiguous 0 size writes h [] rfl
  simpa [fill] using hfill

/-! ## Readers -/

/-- Take numbers of the given widths from the front. -/
def readFields : List Nat → List UInt8 → Option (List Nat × List UInt8)
  | [], bytes => some ([], bytes)
  | width :: widths, bytes =>
      if bytes.length < width then none
      else (readFields widths (bytes.drop width)).map fun read =>
        (numberOf (bytes.take width) :: read.1, read.2)

/-- Numbers of the given widths, one after another. -/
def numbers (fields : List (Nat × Nat)) : List UInt8 := fields.flatMap fun f => bytesOf f.1 f.2

theorem length_numbers (fields : List (Nat × Nat)) :
    (numbers fields).length = (fields.map Prod.fst).sum := by
  unfold numbers
  simp [List.length_flatMap]

/-- **A reader finds the numbers that were written, if they fit.** -/
theorem readFields_numbers {fields : List (Nat × Nat)} (h : ∀ f ∈ fields, f.2 < 256 ^ f.1)
    (rest : List UInt8) :
    readFields (fields.map Prod.fst) (numbers fields ++ rest) =
      some (fields.map Prod.snd, rest) := by
  induction fields with
  | nil => rfl
  | cons f fields ih =>
      have hf := h f List.mem_cons_self
      have hfields := ih fun g hg => h g (List.mem_cons_of_mem _ hg)
      have hcut : numbers (f :: fields) ++ rest = bytesOf f.1 f.2 ++ (numbers fields ++ rest) := by
        unfold numbers
        rw [List.flatMap_cons, List.append_assoc]
      rw [hcut, List.map_cons, readFields, if_neg (by simp), List.take_left' (by simp),
        List.drop_left' (by simp), hfields, Option.map_some, numberOf_bytesOf hf]
      rfl

end BinaryRecords

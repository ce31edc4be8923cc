import Mathlib.Data.BitVec

/-!
# Cyclic redundancy checks

A reflected 32-bit CRC: the register is shifted bit by bit, and the polynomial is added
whenever a one falls out.  Shifting is linear (`steps_xor`), so a table of the registers
that single bytes leave does eight shifts at once (`update_eq_table`).  Taking in a byte is
taking in its bits one by one, the lowest first (`checksum_eq_serial`).
-/

namespace CyclicChecksums

variable (poly : BitVec 32)

/-- One shift of the register. -/
def step (c : BitVec 32) : BitVec 32 :=
  if c.getLsbD 0 then poly ^^^ (c >>> 1) else c >>> 1

/-- Some shifts of the register. -/
def steps : Nat → BitVec 32 → BitVec 32
  | 0, c => c
  | n + 1, c => steps n (step poly c)

/-- A byte, as wide as the register. -/
def widen (b : UInt8) : BitVec 32 := b.toBitVec.setWidth 32

/-- The register takes in a byte. -/
def update (c : BitVec 32) (b : UInt8) : BitVec 32 := steps poly 8 (c ^^^ widen b)

/-- The checksum of a message. -/
def checksum (bytes : List UInt8) : BitVec 32 :=
  bytes.foldl (update poly) (BitVec.allOnes 32) ^^^ BitVec.allOnes 32

/-- The register takes in a bit. -/
def feed (c : BitVec 32) (bit : Bool) : BitVec 32 :=
  if (c.getLsbD 0 ^^ bit) = true then poly ^^^ (c >>> 1) else c >>> 1

/-- The bits of a message, the lowest of each byte first. -/
def messageBits (bytes : List UInt8) : List Bool :=
  bytes.flatMap fun b => (List.range 8).map b.toBitVec.getLsbD

/-- The checksum of a message, bit by bit. -/
def serial (bytes : List UInt8) : BitVec 32 :=
  (messageBits bytes).foldl (feed poly) (BitVec.allOnes 32) ^^^ BitVec.allOnes 32

/-! ## Linearity -/

theorem step_xor (c d : BitVec 32) : step poly (c ^^^ d) = step poly c ^^^ step poly d := by
  have htwice : ∀ x y : BitVec 32, poly ^^^ x ^^^ (poly ^^^ y) = x ^^^ y := by
    intro x y
    apply BitVec.eq_of_getLsbD_eq
    intro i hi
    simp only [BitVec.getLsbD_xor]
    cases poly.getLsbD i <;> cases x.getLsbD i <;> cases y.getLsbD i <;> rfl
  have hright : ∀ x y : BitVec 32, poly ^^^ (x ^^^ y) = x ^^^ (poly ^^^ y) := by
    intro x y
    rw [← BitVec.xor_assoc, BitVec.xor_comm poly, BitVec.xor_assoc]
  unfold step
  rw [BitVec.getLsbD_xor, BitVec.ushiftRight_xor_distrib]
  cases c.getLsbD 0 <;> cases d.getLsbD 0
  · simp
  · simp [hright]
  · simp [BitVec.xor_assoc]
  · simp [htwice]

/-- Shifting is linear. -/
theorem steps_xor (n : Nat) (c d : BitVec 32) :
    steps poly n (c ^^^ d) = steps poly n c ^^^ steps poly n d := by
  induction n generalizing c d with
  | zero => rfl
  | succ n ih =>
      unfold steps
      rw [step_xor, ih]

/-- Where only zeros fall out, the polynomial is not added. -/
theorem steps_of_zeros {n : Nat} {c : BitVec 32} (h : ∀ i < n, c.getLsbD i = false) :
    steps poly n c = c >>> n := by
  induction n generalizing c with
  | zero => simp [steps]
  | succ n ih =>
      have hfirst : step poly c = c >>> 1 := by
        unfold step
        rw [h 0 (Nat.succ_pos n)]
        rfl
      have hrest : ∀ i < n, (c >>> 1).getLsbD i = false := by
        intro i hi
        rw [BitVec.getLsbD_ushiftRight]
        exact h (1 + i) (by omega)
      rw [steps, hfirst, ih hrest, ← BitVec.shiftRight_add, Nat.add_comm]

/-- The bits of a byte. -/
theorem getLsbD_byteMask (i : Nat) : (255 : BitVec 32).getLsbD i = decide (i < 8) := by
  have hmask : (255 : BitVec 32) = (BitVec.allOnes 8).setWidth 32 := by decide
  rw [hmask, BitVec.getLsbD_setWidth, BitVec.getLsbD_allOnes]
  grind

/-- **Eight shifts are a shift by a byte, added to what its register leaves.** -/
theorem steps_eq_table (c : BitVec 32) :
    steps poly 8 c = steps poly 8 (c &&& 255) ^^^ (c >>> 8) := by
  have hsplit : c = (c &&& 255) ^^^ (c &&& ~~~255) := by
    apply BitVec.eq_of_getLsbD_eq
    intro i hi
    simp only [BitVec.getLsbD_xor, BitVec.getLsbD_and, BitVec.getLsbD_not, hi, decide_true,
      Bool.true_and]
    cases c.getLsbD i <;> cases (255 : BitVec 32).getLsbD i <;> rfl
  have hzeros : ∀ i < 8, (c &&& ~~~255).getLsbD i = false := by
    intro i hi
    rw [BitVec.getLsbD_and, BitVec.getLsbD_not, getLsbD_byteMask]
    simp [hi]
  have hhigh : (c &&& ~~~255) >>> 8 = c >>> 8 := by
    apply BitVec.eq_of_getLsbD_eq
    intro i hi
    rw [BitVec.getLsbD_ushiftRight, BitVec.getLsbD_ushiftRight, BitVec.getLsbD_and,
      BitVec.getLsbD_not, getLsbD_byteMask]
    by_cases hin : 8 + i < 32
    · simp [hin]
    · simp [BitVec.getLsbD_of_ge c (8 + i) (by omega)]
  calc steps poly 8 c = steps poly 8 ((c &&& 255) ^^^ (c &&& ~~~255)) := by rw [← hsplit]
    _ = steps poly 8 (c &&& 255) ^^^ (c >>> 8) := by
        rw [steps_xor, steps_of_zeros poly hzeros, hhigh]

/-- **A byte is taken in by one look at the table.** -/
theorem update_eq_table (c : BitVec 32) (b : UInt8) :
    update poly c b = steps poly 8 ((c ^^^ widen b) &&& 255) ^^^ (c >>> 8) := by
  have hbyte : (c ^^^ widen b) >>> 8 = c >>> 8 := by
    apply BitVec.eq_of_getLsbD_eq
    intro i hi
    rw [BitVec.getLsbD_ushiftRight, BitVec.getLsbD_ushiftRight, BitVec.getLsbD_xor, widen,
      BitVec.getLsbD_setWidth, BitVec.getLsbD_of_ge b.toBitVec (8 + i) (by omega)]
    simp
  unfold update
  rw [steps_eq_table, hbyte]

/-! ## Bit by bit -/

/-- The bits still to come stay above those taken in. -/
theorem step_xor_eq_feed (c d : BitVec 32) :
    step poly (c ^^^ d) = feed poly c (d.getLsbD 0) ^^^ (d >>> 1) := by
  unfold step feed
  rw [BitVec.getLsbD_xor, BitVec.ushiftRight_xor_distrib]
  split
  · rw [BitVec.xor_assoc]
  · rfl

theorem steps_xor_eq_feeds (n : Nat) (c d : BitVec 32) :
    steps poly n (c ^^^ d) =
      ((List.range n).map d.getLsbD).foldl (feed poly) c ^^^ (d >>> n) := by
  induction n generalizing c d with
  | zero => simp [steps]
  | succ n ih =>
      have hbits : (List.range (n + 1)).map d.getLsbD =
          d.getLsbD 0 :: (List.range n).map (d >>> 1).getLsbD := by
        rw [List.range_succ_eq_map, List.map_cons, List.map_map]
        congr 1
        apply List.map_congr_left
        intro i _
        rw [BitVec.getLsbD_ushiftRight, Function.comp_apply, Nat.succ_eq_one_add]
      rw [steps, step_xor_eq_feed, ih, hbits, List.foldl_cons, ← BitVec.shiftRight_add,
        Nat.add_comm 1 n]

/-- A byte is taken in bit by bit. -/
theorem update_eq_feeds (c : BitVec 32) (b : UInt8) :
    update poly c b = ((List.range 8).map b.toBitVec.getLsbD).foldl (feed poly) c := by
  have hgone : widen b >>> 8 = 0#32 := by
    apply BitVec.eq_of_getLsbD_eq
    intro i _
    rw [BitVec.getLsbD_ushiftRight, widen, BitVec.getLsbD_setWidth,
      BitVec.getLsbD_of_ge b.toBitVec (8 + i) (by omega)]
    simp
  have hbits : (List.range 8).map (widen b).getLsbD = (List.range 8).map b.toBitVec.getLsbD := by
    apply List.map_congr_left
    intro i hi
    have hlt : i < 8 := List.mem_range.1 hi
    rw [widen, BitVec.getLsbD_setWidth, decide_eq_true (by omega), Bool.true_and]
  unfold update
  rw [steps_xor_eq_feeds, hgone, hbits, BitVec.xor_zero]

/-- **The checksum is the bit-by-bit one.** -/
theorem checksum_eq_serial (bytes : List UInt8) : checksum poly bytes = serial poly bytes := by
  have hfold : ∀ c, bytes.foldl (update poly) c = (messageBits bytes).foldl (feed poly) c := by
    induction bytes with
    | nil => exact fun _ => rfl
    | cons b rest ih =>
        intro c
        have hcut : messageBits (b :: rest) =
            (List.range 8).map b.toBitVec.getLsbD ++ messageBits rest := rfl
        rw [List.foldl_cons, ih, hcut, List.foldl_append, update_eq_feeds]
  unfold checksum serial
  rw [hfold]

end CyclicChecksums

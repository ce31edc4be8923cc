import Libfw.HalfOpenRanges

/-!
# The received ranges of a session

`libfw-core/src/metadata.rs` (`ChunkRange`) and `merge_range` of
`libfw-server/src/storage.rs`.  Merging keeps a separated list separated and
adds exactly the positions of the new range.
-/

namespace Libfw

open HalfOpenRanges

/-- Rust's `u64::saturating_add`. -/
def satAdd (a b : Nat) : Nat := min (a + b) (2 ^ 64 - 1)

/-- `ChunkRange`: a byte range `[start, stop)` of a file. -/
abbrev ChunkRange := Span Nat

/-- `ChunkRange::is_empty`. -/
def isEmptyRange (r : ChunkRange) : Bool := r.length = 0

/-- `merge_range`: push, sort by start, coalesce overlaps and adjacencies. -/
def mergeRange (ranges : List ChunkRange) (new : ChunkRange) : List ChunkRange :=
  if isEmptyRange new then ranges
  else coalesce ((ranges ++ [new]).insertionSort fun a b => a.start ≤ b.start)

/-- The list that `merge_range` coalesces: a sorted rearrangement. -/
theorem sorted_pushed (ranges : List ChunkRange) (new : ChunkRange) :
    ((ranges ++ [new]).insertionSort fun a b => a.start ≤ b.start).Pairwise
      fun a b => a.start ≤ b.start :=
  List.pairwise_insertionSort _ _

theorem mem_pushed {ranges : List ChunkRange} {new r : ChunkRange} :
    r ∈ (ranges ++ [new]).insertionSort (fun a b => a.start ≤ b.start) ↔
      r ∈ ranges ++ [new] :=
  (List.perm_insertionSort _ _).mem_iff

theorem nonempty_pushed {ranges : List ChunkRange} {new : ChunkRange}
    (hsep : Separated ranges) (hnew : new.start < new.stop) :
    ∀ r ∈ (ranges ++ [new]).insertionSort (fun a b => a.start ≤ b.start),
      r.start < r.stop := by
  intro r hr
  rcases List.mem_append.1 (mem_pushed.1 hr) with hr | hr
  · exact hsep.nonempty r hr
  · rw [List.mem_singleton.1 hr]
    exact hnew

theorem mergeRange_of_nonempty (ranges : List ChunkRange) {new : ChunkRange}
    (hnew : new.start < new.stop) : mergeRange ranges new =
      coalesce ((ranges ++ [new]).insertionSort fun a b => a.start ≤ b.start) := by
  have hne : isEmptyRange new = false := by
    unfold isEmptyRange Span.length
    rw [decide_eq_false_iff_not]
    omega
  unfold mergeRange
  rw [hne]
  rfl

theorem separated_mergeRange {ranges : List ChunkRange} {new : ChunkRange}
    (hsep : Separated ranges) (hnew : new.start < new.stop) :
    Separated (mergeRange ranges new) := by
  rw [mergeRange_of_nonempty ranges hnew]
  exact separated_coalesce (nonempty_pushed hsep hnew) (sorted_pushed ranges new)

theorem covers_mergeRange {ranges : List ChunkRange} {new : ChunkRange}
    (hsep : Separated ranges) (hnew : new.start < new.stop) (x : Nat) :
    Covers (mergeRange ranges new) x ↔ Covers ranges x ∨ new.Has x := by
  rw [mergeRange_of_nonempty ranges hnew,
    covers_coalesce (nonempty_pushed hsep hnew) (sorted_pushed ranges new),
    covers_of_mem_iff fun r => mem_pushed, covers_append, covers_singleton]

example : mergeRange [⟨0, 10⟩, ⟨20, 30⟩] ⟨10, 20⟩ = [⟨0, 30⟩] := by decide

end Libfw

import Libfw.ChunkPlans

/-!
# What is missing, and what is covered

`missing_ranges` and `aligned_missing` subtract what the server has received from the blocks
of a file; `covered_bytes` (all in `libfw-client/src/upload.rs`) merges and adds it up.

* `missing_exact` — for any received ranges, the missing ones are the exact complement, block
  by block, and the two computations agree.
-/

namespace Libfw

open HalfOpenRanges

/-! ## `covered_bytes` -/

/-- The received ranges, reversed ones turned round, without the empty ones. -/
def orientRanges (received : List (Nat × Nat)) : List (Nat × Nat) :=
  (received.map fun r => (min r.1 r.2, max r.1 r.2)).filter fun r => r.1 < r.2

/-- One turn of the loop of `covered_bytes`: the total so far, and the current span. -/
def coverStep : Nat × Option (Nat × Nat) → Nat × Nat → Nat × Option (Nat × Nat)
  | (total, none), r => (total, some r)
  | (total, some (cs, ce)), (s, e) =>
      if s ≤ ce then (total, some (cs, max ce e))
      else (satAdd total (ce - cs), some (s, e))

/-- `covered_bytes`. -/
def coveredBytesOf (received : List (Nat × Nat)) : Nat :=
  let ranges := (orientRanges received).insertionSort fun a b => a.1 ≤ b.1
  match ranges.foldl coverStep (0, none) with
  | (total, none) => total
  | (total, some (cs, ce)) => satAdd total (ce - cs)

/-! ## Ranges as spans -/

def asSpan (r : Nat × Nat) : Span Nat := ⟨r.1, r.2⟩

theorem asSpan_injective : Function.Injective asSpan := by
  intro r t h
  cases r
  cases t
  cases h
  rfl

/-- The byte lies in one of the ranges. -/
def InRanges (rs : List (Nat × Nat)) (x : Nat) : Prop := ∃ r ∈ rs, r.1 ≤ x ∧ x < r.2

theorem covers_asSpan {rs : List (Nat × Nat)} {x : Nat} :
    Covers (rs.map asSpan) x ↔ InRanges rs x := by
  unfold Covers InRanges Span.Has asSpan
  simp

theorem inRanges_cons {r : Nat × Nat} {rs : List (Nat × Nat)} {x : Nat} :
    InRanges (r :: rs) x ↔ (r.1 ≤ x ∧ x < r.2) ∨ InRanges rs x := by
  simp [InRanges]

theorem inRanges_flatMap {f : Nat × Nat → List (Nat × Nat)} {rs : List (Nat × Nat)} {x : Nat} :
    InRanges (rs.flatMap f) x ↔ ∃ r ∈ rs, InRanges (f r) x := by
  simp only [InRanges, List.mem_flatMap]
  constructor
  · intro h
    obtain ⟨t, ⟨r, hr, ht⟩, hx⟩ := h
    exact ⟨r, hr, t, ht, hx⟩
  · intro h
    obtain ⟨r, hr, t, ht, hx⟩ := h
    exact ⟨t, ⟨r, hr, ht⟩, hx⟩

/-- Non-empty ranges in order, with a gap between any two, as pairs. -/
structure Gapped (rs : List (Nat × Nat)) : Prop where
  nonempty : ∀ r ∈ rs, r.1 < r.2
  gaps : rs.Pairwise fun a b => a.2 < b.1

theorem Gapped.separated {rs : List (Nat × Nat)} (h : Gapped rs) : Separated (rs.map asSpan) where
  nonempty := by
    intro r hr
    obtain ⟨t, ht, rfl⟩ := List.mem_map.1 hr
    exact h.nonempty t ht
  gaps := List.pairwise_map.2 h.gaps

/-- Such lists are determined by their bytes. -/
theorem Gapped.ext {rs ts : List (Nat × Nat)} (hrs : Gapped rs) (hts : Gapped ts)
    (h : ∀ x, InRanges rs x ↔ InRanges ts x) : rs = ts := by
  apply List.map_injective_iff.2 asSpan_injective
  apply hrs.separated.ext hts.separated
  intro x
  rw [covers_asSpan, covers_asSpan, h]

/-! ## Subtraction -/

section Cut

variable {rs re : Nat} {r : Nat × Nat}

/-- What is cut out of one range. -/
theorem gapped_cutOut (hcut : rs < re) (hr : r.1 < r.2) : Gapped (cutOut rs re r) := by
  obtain ⟨ms, me⟩ := r
  unfold cutOut
  dsimp only at hr ⊢
  by_cases hapart : re ≤ ms ∨ me ≤ rs
  · rw [if_pos hapart]
    exact ⟨fun t ht => by rw [List.mem_singleton.1 ht]; exact hr, List.pairwise_singleton _ _⟩
  · rw [if_neg hapart]
    by_cases hleft : ms < rs <;> by_cases hright : re < me
    · rw [if_pos hleft, if_pos hright]
      constructor
      · intro t ht
        rcases List.mem_pair.1 ht with rfl | rfl
        · exact hleft
        · exact hright
      · exact List.pairwise_pair.2 hcut
    · rw [if_pos hleft, if_neg hright]
      exact ⟨fun t ht => by rw [List.mem_singleton.1 ht]; exact hleft, List.pairwise_singleton _ _⟩
    · rw [if_neg hleft, if_pos hright]
      exact ⟨fun t ht => by rw [List.mem_singleton.1 ht]; exact hright, List.pairwise_singleton _ _⟩
    · rw [if_neg hleft, if_neg hright]
      exact ⟨fun t ht => absurd ht List.not_mem_nil, List.Pairwise.nil⟩

theorem inRanges_cutOut (hcut : rs < re) (x : Nat) :
    InRanges (cutOut rs re r) x ↔ (r.1 ≤ x ∧ x < r.2) ∧ ¬ (rs ≤ x ∧ x < re) := by
  obtain ⟨ms, me⟩ := r
  unfold cutOut InRanges
  dsimp only
  by_cases hapart : re ≤ ms ∨ me ≤ rs
  · rw [if_pos hapart]
    simp only [List.mem_singleton, exists_eq_left]
    omega
  · rw [if_neg hapart]
    by_cases hleft : ms < rs <;> by_cases hright : re < me <;>
      simp [hleft, hright] <;> omega

/-- The pieces lie in the range they were cut from. -/
theorem cutOut_within {t : Nat × Nat} (ht : t ∈ cutOut rs re r) : r.1 ≤ t.1 ∧ t.2 ≤ r.2 := by
  obtain ⟨ms, me⟩ := r
  unfold cutOut at ht
  dsimp only at ht ⊢
  by_cases hapart : re ≤ ms ∨ me ≤ rs
  · rw [if_pos hapart, List.mem_singleton] at ht
    rw [ht]
    exact ⟨Nat.le_refl _, Nat.le_refl _⟩
  · rw [if_neg hapart] at ht
    rcases List.mem_append.1 ht with ht | ht
    · split at ht
      · rw [List.mem_singleton.1 ht]
        dsimp only
        omega
      · cases ht
    · split at ht
      · rw [List.mem_singleton.1 ht]
        dsimp only
        omega
      · cases ht

end Cut

/-- Cutting one received range out of a list of missing ones. -/
theorem gapped_flatMap_cutOut {rs re : Nat} (hcut : rs < re) {missing : List (Nat × Nat)}
    (h : Gapped missing) : Gapped (missing.flatMap (cutOut rs re)) where
  nonempty := by
    intro t ht
    obtain ⟨r, hr, ht⟩ := List.mem_flatMap.1 ht
    exact (gapped_cutOut hcut (h.nonempty r hr)).nonempty t ht
  gaps := by
    apply List.pairwise_flatMap.2
    refine ⟨fun r hr => (gapped_cutOut hcut (h.nonempty r hr)).gaps, ?_⟩
    apply h.gaps.imp
    intro a b hab t ht u hu
    have hleft := (cutOut_within ht).2
    have hright := (cutOut_within hu).1
    omega

/-- The ranges are gapped and lie in the block. -/
structure InBlock (start stop : Nat) (missing : List (Nat × Nat)) : Prop where
  gapped : Gapped missing
  within : ∀ r ∈ missing, start ≤ r.1 ∧ r.2 ≤ stop

section Blocks

variable {start stop : Nat}

/-- **Step lemma.**  A received range is taken out, whatever it is. -/
theorem takeReceived_exact {missing : List (Nat × Nat)} (h : InBlock start stop missing)
    (range : Nat × Nat) :
    InBlock start stop (takeReceived start stop missing range) ∧
      ∀ x, InRanges (takeReceived start stop missing range) x ↔
        InRanges missing x ∧ ¬ (range.1 ≤ x ∧ x < range.2) := by
  unfold takeReceived
  dsimp only
  -- a byte that is missing lies in the block, so clamping does not matter to it
  have hin : ∀ x, InRanges missing x → start ≤ x ∧ x < stop := by
    intro x hx
    obtain ⟨r, hr, hlo, hhi⟩ := hx
    have hwithin := h.within r hr
    omega
  by_cases hempty : max (min range.2 stop) (max range.1 start) ≤ max range.1 start
  · rw [if_pos hempty]
    refine ⟨h, ?_⟩
    intro x
    constructor
    · intro hx
      have hblock := hin x hx
      exact ⟨hx, by omega⟩
    · exact And.left
  · rw [if_neg hempty]
    have hcut : max range.1 start < max (min range.2 stop) (max range.1 start) := by omega
    refine ⟨⟨gapped_flatMap_cutOut hcut h.gapped, ?_⟩, ?_⟩
    · intro t ht
      obtain ⟨r, hr, ht⟩ := List.mem_flatMap.1 ht
      have hpiece := cutOut_within ht
      have hwithin := h.within r hr
      omega
    · intro x
      rw [inRanges_flatMap]
      simp only [inRanges_cutOut hcut]
      constructor
      · intro hx
        obtain ⟨r, hr, hxr, hout⟩ := hx
        have hblock := hin x ⟨r, hr, hxr⟩
        exact ⟨⟨r, hr, hxr⟩, by omega⟩
      · intro hx
        obtain ⟨⟨r, hr, hxr⟩, hout⟩ := hx
        have hblock := hin x ⟨r, hr, hxr⟩
        exact ⟨r, hr, hxr, by omega⟩

theorem foldl_takeReceived (received : List (Nat × Nat)) {missing : List (Nat × Nat)}
    (h : InBlock start stop missing) :
    InBlock start stop (received.foldl (takeReceived start stop) missing) ∧
      ∀ x, InRanges (received.foldl (takeReceived start stop) missing) x ↔
        InRanges missing x ∧ ¬ InRanges received x := by
  induction received generalizing missing with
  | nil =>
      refine ⟨h, ?_⟩
      intro x
      simp [InRanges]
  | cons range received ih =>
      obtain ⟨hstep, hcover⟩ := takeReceived_exact h range
      obtain ⟨hrest, hall⟩ := ih hstep
      refine ⟨hrest, ?_⟩
      intro x
      rw [List.foldl_cons, hall, hcover, inRanges_cons, not_or, and_assoc]

/-- **The missing ranges of a block.** -/
theorem missingRanges_exact (hblock : start < stop) (received : List (Nat × Nat)) :
    InBlock start stop (missingRanges start stop received) ∧
      ∀ x, InRanges (missingRanges start stop received) x ↔
        (start ≤ x ∧ x < stop) ∧ ¬ InRanges received x := by
  have hwhole : InBlock start stop [(start, stop)] := by
    refine ⟨⟨?_, List.pairwise_singleton _ _⟩, ?_⟩
    · intro r hr
      rw [List.mem_singleton.1 hr]
      exact hblock
    · intro r hr
      rw [List.mem_singleton.1 hr]
      exact ⟨Nat.le_refl _, Nat.le_refl _⟩
  obtain ⟨hin, hcover⟩ := foldl_takeReceived received hwhole
  refine ⟨hin, ?_⟩
  intro x
  unfold missingRanges
  rw [hcover]
  simp [InRanges]

/-- The order of the received ranges does not matter, nor how they cover what they cover. -/
theorem missingRanges_congr (hblock : start < stop) {received received' : List (Nat × Nat)}
    (h : ∀ x, InRanges received x ↔ InRanges received' x) :
    missingRanges start stop received = missingRanges start stop received' := by
  obtain ⟨hin, hcover⟩ := missingRanges_exact hblock received
  obtain ⟨hin', hcover'⟩ := missingRanges_exact hblock received'
  apply hin.gapped.ext hin'.gapped
  intro x
  rw [hcover, hcover', h]

end Blocks

/-! ## The whole file -/

section Aligned

variable {size chunkSize : Nat} (hchunk : 0 < chunkSize) (received : List (Nat × Nat))

include hchunk

/-- A block of the file: on the grid of the chunk size. -/
theorem block_of_mem {block : Nat × Nat} (h : block ∈ chunkBounds size chunkSize 0) :
    block.1 < block.2 ∧ block.2 ≤ size ∧
      ∃ k, k * chunkSize = block.1 ∧ block.2 ≤ (k + 1) * chunkSize := by
  obtain ⟨-, hend, k, -, hk⟩ := mem_chunksFrom h
  have hin := (chunkBounds_tiles hchunk (Nat.zero_le size)).bounds h
  rw [Nat.min_eq_left (Nat.zero_le size), Nat.zero_add] at hk
  refine ⟨hin.2.1, hin.2.2, k, hk.symm, ?_⟩
  rw [Nat.succ_mul]
  omega

/-- The ranges stand in order and do not overlap. -/
theorem alignedMissing_ordered :
    (alignedMissing size chunkSize received).Pairwise fun a b => a.2 ≤ b.1 := by
  apply List.pairwise_flatMap.2
  constructor
  · intro block hblock
    have hlt := (block_of_mem hchunk hblock).1
    exact (missingRanges_exact hlt received).1.gapped.gaps.imp fun h => Nat.le_of_lt h
  · apply List.Pairwise.imp_of_mem _ (chunkBounds_tiles hchunk (Nat.zero_le size)).ordered
    intro a b ha hb hab t ht u hu
    have hleft := (missingRanges_exact (block_of_mem hchunk ha).1 received).1.within t ht
    have hright := (missingRanges_exact (block_of_mem hchunk hb).1 received).1.within u hu
    omega

theorem alignedMissing_block {r : Nat × Nat} (hr : r ∈ alignedMissing size chunkSize received) :
    r.1 < r.2 ∧ r.2 ≤ size ∧ ∃ k, k * chunkSize ≤ r.1 ∧ r.2 ≤ (k + 1) * chunkSize := by
  obtain ⟨block, hblock, hr⟩ := List.mem_flatMap.1 hr
  obtain ⟨hlt, hsize, k, hstart, hstop⟩ := block_of_mem hchunk hblock
  have hmissing := (missingRanges_exact hlt received).1
  have hwithin := hmissing.within r hr
  exact ⟨hmissing.gapped.nonempty r hr, by omega, k, by omega, by omega⟩

/-- The bytes of the file that have not been received. -/
theorem inRanges_alignedMissing (x : Nat) :
    InRanges (alignedMissing size chunkSize received) x ↔ x < size ∧ ¬ InRanges received x := by
  have htiles := (chunkBounds_tiles hchunk (Nat.zero_le size)).covers_iff x
  unfold alignedMissing
  rw [inRanges_flatMap]
  constructor
  · intro hx
    obtain ⟨block, hblock, hx⟩ := hx
    obtain ⟨hin, hout⟩ := ((missingRanges_exact (block_of_mem hchunk hblock).1 received).2 x).1 hx
    exact ⟨(htiles.1 ⟨block, hblock, hin⟩).2, hout⟩
  · intro hx
    obtain ⟨block, hblock, hin⟩ := htiles.2 ⟨Nat.zero_le x, hx.1⟩
    exact ⟨block, hblock,
      ((missingRanges_exact (block_of_mem hchunk hblock).1 received).2 x).2 ⟨hin, hx.2⟩⟩

theorem alignedMissing_congr {received' : List (Nat × Nat)}
    (h : ∀ x, InRanges received x ↔ InRanges received' x) :
    alignedMissing size chunkSize received = alignedMissing size chunkSize received' := by
  unfold alignedMissing
  apply List.flatMap_congr
  intro block hblock
  exact missingRanges_congr (block_of_mem hchunk hblock).1 h

end Aligned

/-! ## Merging and adding up -/

/-- The state of `covered_bytes` against the spans merged so far, in reverse. -/
def Tracks : Nat × Option (Nat × Nat) → List (Span Nat) → Prop
  | (total, none), acc => total = 0 ∧ acc = []
  | (total, some (cs, ce)), acc =>
      ∃ rest, acc = ⟨cs, ce⟩ :: rest ∧ total = min (totalLength rest) (2 ^ 64 - 1)

theorem Tracks.step {state : Nat × Option (Nat × Nat)} {acc : List (Span Nat)}
    (h : Tracks state acc) (r : Nat × Nat) : Tracks (coverStep state r) (absorb acc (asSpan r)) := by
  obtain ⟨total, cur⟩ := state
  obtain ⟨s, e⟩ := r
  cases cur with
  | none =>
      obtain ⟨rfl, rfl⟩ := h
      exact ⟨[], rfl, rfl⟩
  | some span =>
      obtain ⟨cs, ce⟩ := span
      obtain ⟨rest, rfl, htotal⟩ := h
      unfold coverStep
      dsimp only
      by_cases htouch : s ≤ ce
      · rw [if_pos htouch, absorb_touching (show (asSpan (s, e)).start ≤ ce from htouch)]
        refine ⟨rest, ?_, htotal⟩
        unfold asSpan
        dsimp only
        by_cases hlonger : ce < e
        · rw [if_pos hlonger, Nat.max_eq_right (Nat.le_of_lt hlonger)]
        · rw [if_neg hlonger, Nat.max_eq_left (Nat.le_of_not_lt hlonger)]
      · rw [if_neg htouch, absorb_behind (show ¬ (asSpan (s, e)).start ≤ ce from htouch)]
        refine ⟨⟨cs, ce⟩ :: rest, rfl, ?_⟩
        rw [totalLength_cons]
        unfold satAdd
        dsimp only
        omega

theorem tracks_foldl (rs : List (Nat × Nat)) {state : Nat × Option (Nat × Nat)}
    {acc : List (Span Nat)} (h : Tracks state acc) :
    Tracks (rs.foldl coverStep state) ((rs.map asSpan).foldl absorb acc) := by
  induction rs generalizing state acc with
  | nil => exact h
  | cons r rs ih => exact ih (h.step r)

/-- The received ranges as `covered_bytes` merges them. -/
def mergedRanges (received : List (Nat × Nat)) : List (Span Nat) :=
  coalesce (((orientRanges received).insertionSort fun a b => a.1 ≤ b.1).map asSpan)

/-- **`covered_bytes` is the length of the merged ranges.** -/
theorem coveredBytesOf_eq (received : List (Nat × Nat)) :
    coveredBytesOf received = min (totalLength (mergedRanges received)) (2 ^ 64 - 1) := by
  have htracks := tracks_foldl ((orientRanges received).insertionSort fun a b => a.1 ≤ b.1)
    (show Tracks (0, none) [] from ⟨rfl, rfl⟩)
  have hreverse : ∀ acc : List (Span Nat), totalLength acc.reverse = totalLength acc := by
    intro acc
    unfold totalLength
    rw [List.map_reverse, List.sum_reverse]
  unfold coveredBytesOf mergedRanges coalesce
  rw [hreverse]
  dsimp only
  generalize (((orientRanges received).insertionSort fun a b => a.1 ≤ b.1).foldl coverStep
    (0, none)) = state at htracks
  generalize ((((orientRanges received).insertionSort fun a b => a.1 ≤ b.1).map asSpan).foldl
    absorb []) = acc at htracks
  obtain ⟨total, cur⟩ := state
  cases cur with
  | none =>
      obtain ⟨rfl, rfl⟩ := htracks
      rfl
  | some span =>
      obtain ⟨cs, ce⟩ := span
      obtain ⟨rest, rfl, htotal⟩ := htracks
      rw [totalLength_cons, htotal]
      unfold satAdd
      dsimp only
      omega

theorem mergedRanges_exact (received : List (Nat × Nat)) :
    Separated (mergedRanges received) ∧
      ∀ x, Covers (mergedRanges received) x ↔ InRanges (orientRanges received) x := by
  have hmem : ∀ r, r ∈ (orientRanges received).insertionSort (fun a b => a.1 ≤ b.1) ↔
      r ∈ orientRanges received := fun r => (List.perm_insertionSort _ _).mem_iff
  have hne : ∀ r ∈ ((orientRanges received).insertionSort fun a b => a.1 ≤ b.1).map asSpan,
      r.start < r.stop := by
    intro r hr
    obtain ⟨t, ht, rfl⟩ := List.mem_map.1 hr
    exact of_decide_eq_true (List.mem_filter.1 ((hmem t).1 ht)).2
  have hsorted : (((orientRanges received).insertionSort fun a b => a.1 ≤ b.1).map asSpan).Pairwise
      fun a b => a.start ≤ b.start := List.pairwise_map.2 (List.pairwise_insertionSort _ _)
  refine ⟨separated_coalesce hne hsorted, ?_⟩
  intro x
  rw [mergedRanges, covers_coalesce hne hsorted, covers_asSpan]
  simp only [InRanges, hmem]

/-- Ranges the right way round stay as they are, up to empty ones. -/
theorem inRanges_orientRanges {received : List (Nat × Nat)} (h : ∀ r ∈ received, r.1 ≤ r.2)
    (x : Nat) : InRanges (orientRanges received) x ↔ InRanges received x := by
  unfold orientRanges InRanges
  constructor
  · intro hx
    obtain ⟨t, ht, hin⟩ := hx
    obtain ⟨r, hr, rfl⟩ := List.mem_map.1 (List.mem_filter.1 ht).1
    have hle := h r hr
    exact ⟨r, hr, by omega⟩
  · intro hx
    obtain ⟨r, hr, hin⟩ := hx
    have hle := h r hr
    refine ⟨(min r.1 r.2, max r.1 r.2), List.mem_filter.2 ⟨List.mem_map_of_mem hr, ?_⟩, ?_⟩
    · apply decide_eq_true
      dsimp only
      omega
    · dsimp only
      omega

/-! ## The two computations agree -/

/-- The missing ranges of a file are exact. -/
structure MissingExact (size chunkSize : Nat) (received : List (Nat × Nat)) : Prop where
  nonempty : ∀ r ∈ alignedMissing size chunkSize received, r.1 < r.2
  ordered : (alignedMissing size chunkSize received).Pairwise fun a b => a.2 ≤ b.1
  aligned : ∀ r ∈ alignedMissing size chunkSize received,
    ∃ k, k * chunkSize ≤ r.1 ∧ r.2 ≤ (k + 1) * chunkSize
  complement : ∀ x, InRanges (alignedMissing size chunkSize received) x ↔
    x < size ∧ ¬ InRanges received x
  reordered : ∀ received', received'.Perm received →
    alignedMissing size chunkSize received' = alignedMissing size chunkSize received
  total : (∀ r ∈ received, r.1 ≤ r.2 ∧ r.2 ≤ size) → coveredBytesOf received +
    ((alignedMissing size chunkSize received).map fun r => r.2 - r.1).sum = size

/-- **Whatever has been received, the missing ranges are the exact complement, block by
block; and what is covered and what is missing add up to the file.** -/
theorem missing_exact {size chunkSize : Nat} (hchunk : 1 ≤ chunkSize)
    (hsmall : size + chunkSize < 2 ^ 64) (received : List (Nat × Nat)) :
    MissingExact size chunkSize received where
  nonempty := fun r hr => (alignedMissing_block hchunk received hr).1
  ordered := alignedMissing_ordered hchunk received
  aligned := fun r hr => (alignedMissing_block hchunk received hr).2.2
  complement := inRanges_alignedMissing hchunk received
  reordered := by
    intro received' hperm
    apply alignedMissing_congr hchunk
    intro x
    simp only [InRanges, hperm.mem_iff]
  total := by
    intro hvalid
    obtain ⟨hsep, hcover⟩ := mergedRanges_exact received
    have hreceived : ∀ x, Covers (mergedRanges received) x ↔ InRanges received x := fun x =>
      (hcover x).trans (inRanges_orientRanges (fun r hr => (hvalid r hr).1) x)
    have hmissing : ((alignedMissing size chunkSize received).map fun r => r.2 - r.1).sum =
        totalLength ((alignedMissing size chunkSize received).map asSpan) := by
      unfold totalLength
      rw [List.map_map]
      rfl
    have hsum : totalLength (mergedRanges received) +
        totalLength ((alignedMissing size chunkSize received).map asSpan) = size := by
      apply totalLength_add (hsep.gaps.imp fun h => Nat.le_of_lt h)
        (List.pairwise_map.2 (alignedMissing_ordered hchunk received))
      · intro r hr
        rcases List.mem_append.1 hr with hr | hr
        · have hne := hsep.nonempty r hr
          have hlast : Covers (mergedRanges received) (r.stop - 1) :=
            ⟨r, hr, by unfold Span.Has; omega⟩
          obtain ⟨t, ht, -, hlt⟩ := (hreceived _).1 hlast
          have hle := (hvalid t ht).2
          omega
        · obtain ⟨t, ht, rfl⟩ := List.mem_map.1 hr
          have hblock := alignedMissing_block hchunk received ht
          exact ⟨Nat.le_of_lt hblock.1, hblock.2.1⟩
      · intro x hx
        rw [covers_asSpan, inRanges_alignedMissing hchunk received, hreceived]
        exact ⟨And.right, fun h => ⟨hx, h⟩⟩
    rw [coveredBytesOf_eq, hmissing]
    omega

/-! ### Overlapping, reversed and too long -/

theorem messy_missing_exact :
    MissingExact 20 8 [(10, 30), (5, 5), (2, 6), (4, 7), (9, 3)] ∧
      coveredBytesOf [(10, 20), (5, 5), (2, 6), (4, 7)] +
        ((alignedMissing 20 8 [(10, 20), (5, 5), (2, 6), (4, 7)]).map fun r => r.2 - r.1).sum =
          20 :=
  ⟨missing_exact (by decide) (by decide) _,
    (missing_exact (by decide) (by decide) [(10, 20), (5, 5), (2, 6), (4, 7)]).total (by decide)⟩

example : alignedMissing 20 8 [(10, 30), (5, 5), (2, 6), (4, 7), (9, 3)] =
    [(0, 2), (7, 8), (8, 10)] := by decide

end Libfw

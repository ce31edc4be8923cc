import Libfw.UploadHandlers

/-!
# The books a session keeps

The range list after any sequence of `write_at` calls, and what the two checks of a final
request (`upload_session` in `libfw-server/src/handlers.rs`) say about it.

* `ranges_exact` — the list is canonical, covers exactly what was written, and the checks
  pass exactly if what was written is `[0, meta.size)`.
* `longer_temp_refused` — bytes beyond the declared size make the checks fail, though no
  byte below it is missing.
-/

namespace Libfw

open HalfOpenRanges

/-! ## Writes -/

/-- The range one `write_at` records, given offset and length. -/
def writtenRange (w : Nat × Nat) : ChunkRange := ⟨w.1, satAdd w.1 w.2⟩

/-- The range list after these writes, from an empty one. -/
def recordWrites (writes : List (Nat × Nat)) : List ChunkRange :=
  writes.foldl (fun ranges w => mergeRange ranges (writtenRange w)) []

/-- The byte was written. -/
def WrittenBy (writes : List (Nat × Nat)) (x : Nat) : Prop :=
  ∃ w ∈ writes, w.1 ≤ x ∧ x < w.1 + w.2

/-- The end of what was written, 0 if nothing was. -/
def largestWrittenEnd (writes : List (Nat × Nat)) : Nat :=
  ((writes.filter fun w => w.2 ≠ 0).map fun w => w.1 + w.2).foldr max 0

/-- Offset and length stay below `2^64`. -/
def Fits (writes : List (Nat × Nat)) : Prop := ∀ w ∈ writes, w.1 + w.2 < 2 ^ 64

/-- The two checks of a final request: the length of the temporary, and what its ranges
cover. -/
def Accepted (len : Nat) (received : List ChunkRange) (size : Nat) : Prop :=
  len = size ∧ ¬ (received ≠ [] ∧ coveredBytes received ≠ size)

instance (len : Nat) (received : List ChunkRange) (size : Nat) :
    Decidable (Accepted len received size) := by
  unfold Accepted
  infer_instance

theorem has_writtenRange {w : Nat × Nat} (h : w.1 + w.2 < 2 ^ 64) (x : Nat) :
    (writtenRange w).Has x ↔ w.1 ≤ x ∧ x < w.1 + w.2 := by
  unfold writtenRange satAdd Span.Has
  dsimp only
  omega

/-- **Step lemma.**  One write keeps a separated list separated, and adds its bytes. -/
theorem mergeRange_written {ranges : List ChunkRange} (hsep : Separated ranges) {w : Nat × Nat}
    (hw : w.1 + w.2 < 2 ^ 64) :
    Separated (mergeRange ranges (writtenRange w)) ∧
      ∀ x, Covers (mergeRange ranges (writtenRange w)) x ↔
        Covers ranges x ∨ (w.1 ≤ x ∧ x < w.1 + w.2) := by
  by_cases hempty : w.2 = 0
  · have hnothing : isEmptyRange (writtenRange w) = true := by
      unfold isEmptyRange writtenRange satAdd Span.length
      apply decide_eq_true
      dsimp only
      omega
    unfold mergeRange
    rw [if_pos hnothing]
    refine ⟨hsep, ?_⟩
    intro x
    have hno : ¬ (w.1 ≤ x ∧ x < w.1 + w.2) := by omega
    simp only [hno, or_false]
  · have hnew : (writtenRange w).start < (writtenRange w).stop := by
      unfold writtenRange satAdd
      dsimp only
      omega
    refine ⟨separated_mergeRange hsep hnew, ?_⟩
    intro x
    rw [covers_mergeRange hsep hnew, has_writtenRange hw]

/-- The list after any writes, from any separated list. -/
theorem foldl_mergeRange {writes : List (Nat × Nat)} (hfits : Fits writes)
    {ranges : List ChunkRange} (hsep : Separated ranges) :
    Separated (writes.foldl (fun ranges w => mergeRange ranges (writtenRange w)) ranges) ∧
      ∀ x, Covers (writes.foldl (fun ranges w => mergeRange ranges (writtenRange w)) ranges) x ↔
        Covers ranges x ∨ WrittenBy writes x := by
  induction writes generalizing ranges with
  | nil =>
      refine ⟨hsep, ?_⟩
      intro x
      simp [WrittenBy]
  | cons w writes ih =>
      obtain ⟨hstep, hcover⟩ := mergeRange_written hsep (hfits w List.mem_cons_self)
      obtain ⟨hrest, hall⟩ := ih (fun v hv => hfits v (List.mem_cons_of_mem _ hv)) hstep
      refine ⟨hrest, ?_⟩
      intro x
      rw [List.foldl_cons, hall, hcover, or_assoc]
      simp [WrittenBy]

theorem separated_recordWrites {writes : List (Nat × Nat)} (hfits : Fits writes) :
    Separated (recordWrites writes) := (foldl_mergeRange hfits separated_nil).1

theorem covers_recordWrites {writes : List (Nat × Nat)} (hfits : Fits writes) (x : Nat) :
    Covers (recordWrites writes) x ↔ WrittenBy writes x := by
  have h := (foldl_mergeRange hfits separated_nil).2 x
  rw [recordWrites, h]
  simp [not_covers_nil]

/-- Writes of the same bytes leave the same list. -/
theorem recordWrites_congr {writes writes' : List (Nat × Nat)} (hfits : Fits writes)
    (hfits' : Fits writes') (h : ∀ x, WrittenBy writes x ↔ WrittenBy writes' x) :
    recordWrites writes = recordWrites writes' := by
  apply (separated_recordWrites hfits).ext (separated_recordWrites hfits')
  intro x
  rw [covers_recordWrites hfits, covers_recordWrites hfits', h]

/-! ## The end of what was written -/

theorem largestWrittenEnd_cons (w : Nat × Nat) (writes : List (Nat × Nat)) :
    largestWrittenEnd (w :: writes) =
      if w.2 = 0 then largestWrittenEnd writes
      else max (w.1 + w.2) (largestWrittenEnd writes) := by
  unfold largestWrittenEnd
  by_cases hw : w.2 = 0 <;> simp [hw]

theorem writtenBy_cons {w : Nat × Nat} {writes : List (Nat × Nat)} {x : Nat} :
    WrittenBy (w :: writes) x ↔ (w.1 ≤ x ∧ x < w.1 + w.2) ∨ WrittenBy writes x := by
  simp [WrittenBy]

theorem lt_largestWrittenEnd {writes : List (Nat × Nat)} {x : Nat} (h : WrittenBy writes x) :
    x < largestWrittenEnd writes := by
  induction writes with
  | nil =>
      obtain ⟨w, hw, -⟩ := h
      cases hw
  | cons w writes ih =>
      rw [largestWrittenEnd_cons]
      rcases writtenBy_cons.1 h with hin | hrest
      · rw [if_neg (by omega)]
        omega
      · have hlt := ih hrest
        split <;> omega

/-- What was written reaches that end. -/
theorem writtenBy_last {writes : List (Nat × Nat)} (h : 0 < largestWrittenEnd writes) :
    WrittenBy writes (largestWrittenEnd writes - 1) := by
  induction writes with
  | nil => cases h
  | cons w writes ih =>
      rw [writtenBy_cons]
      rw [largestWrittenEnd_cons] at h ⊢
      by_cases hw : w.2 = 0
      · rw [if_pos hw] at h ⊢
        exact Or.inr (ih h)
      · rw [if_neg hw] at h ⊢
        rcases Nat.le_total (largestWrittenEnd writes) (w.1 + w.2) with hle | hle
        · rw [Nat.max_eq_left hle]
          left
          omega
        · rw [Nat.max_eq_right hle] at h ⊢
          exact Or.inr (ih h)

/-- Everything written ends by `n`, and something at it, exactly if `n` is that end. -/
theorem largestWrittenEnd_eq {writes : List (Nat × Nat)} {n : Nat}
    (h : ∀ x, WrittenBy writes x ↔ x < n) : largestWrittenEnd writes = n := by
  apply Nat.le_antisymm
  · by_contra hlt
    have hlast := (h _).1 (writtenBy_last (by omega : 0 < largestWrittenEnd writes))
    omega
  · by_contra hlt
    have hend := lt_largestWrittenEnd ((h (largestWrittenEnd writes)).2 (by omega))
    omega

/-! ## The checks of a final request -/

/-- No sum of recorded ranges wraps. -/
theorem coveredBytes_recordWrites {writes : List (Nat × Nat)} (hfits : Fits writes) :
    coveredBytes (recordWrites writes) = totalLength (recordWrites writes) := by
  have hstop : ∀ r ∈ recordWrites writes, r.stop ≤ 2 ^ 64 - 1 := by
    intro r hr
    have hne := (separated_recordWrites hfits).nonempty r hr
    have hlast : Covers (recordWrites writes) (r.stop - 1) := ⟨r, hr, by unfold Span.Has; omega⟩
    obtain ⟨w, hw, -, hlt⟩ := (covers_recordWrites hfits _).1 hlast
    have hsmall := hfits w hw
    omega
  have hle := (totalLength_le (separated_recordWrites hfits) (fun r _ => Nat.zero_le r.start)
    hstop).1
  unfold coveredBytes
  omega

/-- The list and the length agree on what was written. -/
theorem checks_iff {writes : List (Nat × Nat)} (hfits : Fits writes) (size : Nat) :
    (largestWrittenEnd writes = size ∧ coveredBytes (recordWrites writes) = size) ↔
      ∀ x, WrittenBy writes x ↔ x < size := by
  have hsep := separated_recordWrites hfits
  have hcover : (∀ x, WrittenBy writes x ↔ x < size) ↔
      ∀ x, Covers (recordWrites writes) x ↔ x < size := by
    simp only [covers_recordWrites hfits]
  rw [coveredBytes_recordWrites hfits]
  constructor
  · intro h
    obtain ⟨hlen, htotal⟩ := h
    rw [hcover, ← totalLength_eq_iff hsep]
    refine ⟨htotal, ?_⟩
    intro r hr
    have hne := hsep.nonempty r hr
    have hlast : Covers (recordWrites writes) (r.stop - 1) := ⟨r, hr, by unfold Span.Has; omega⟩
    have hlt := lt_largestWrittenEnd ((covers_recordWrites hfits _).1 hlast)
    omega
  · intro h
    exact ⟨largestWrittenEnd_eq h, ((totalLength_eq_iff hsep).2 (hcover.1 h)).1⟩

/-- An empty list is let through, and rightly: nothing has been written. -/
theorem accepted_iff {writes : List (Nat × Nat)} (hfits : Fits writes) (size : Nat) :
    Accepted (largestWrittenEnd writes) (recordWrites writes) size ↔
      largestWrittenEnd writes = size ∧ coveredBytes (recordWrites writes) = size := by
  unfold Accepted
  by_cases hnil : recordWrites writes = []
  · have hnone : largestWrittenEnd writes = 0 := by
      apply largestWrittenEnd_eq
      intro x
      rw [← covers_recordWrites hfits, hnil]
      simp [not_covers_nil]
    rw [hnil, hnone]
    constructor
    · intro h
      exact ⟨h.1, h.1⟩
    · intro h
      exact ⟨h.1, fun hbad => hbad.1 rfl⟩
  · simp only [hnil, ne_eq, not_false_eq_true, true_and, Decidable.not_not]

/-- The books of a session are right. -/
structure RangesExact (writes : List (Nat × Nat)) : Prop where
  separated : Separated (recordWrites writes)
  covers : ∀ x, Covers (recordWrites writes) x ↔ WrittenBy writes x
  reordered : ∀ writes', writes'.Perm writes → recordWrites writes' = recordWrites writes
  repeated : ∀ w ∈ writes, mergeRange (recordWrites writes) (writtenRange w) = recordWrites writes
  checks : ∀ size, (largestWrittenEnd writes = size ∧
    coveredBytes (recordWrites writes) = size) ↔ ∀ x, WrittenBy writes x ↔ x < size
  accepted : ∀ size, Accepted (largestWrittenEnd writes) (recordWrites writes) size ↔
    ∀ x, WrittenBy writes x ↔ x < size

/-- **After any writes, in any order and however often, the list is canonical and covers
exactly what was written; and where the temporary ends with the last byte written, the
checks pass exactly if what was written is `[0, meta.size)`.** -/
theorem ranges_exact {writes : List (Nat × Nat)} (hfits : Fits writes) : RangesExact writes where
  separated := separated_recordWrites hfits
  covers := covers_recordWrites hfits
  reordered := by
    intro writes' hperm
    apply recordWrites_congr (fun w hw => hfits w (hperm.subset hw)) hfits
    intro x
    unfold WrittenBy
    simp only [hperm.mem_iff]
  repeated := by
    intro w hw
    obtain ⟨hstep, hcover⟩ := mergeRange_written (separated_recordWrites hfits) (hfits w hw)
    apply hstep.ext (separated_recordWrites hfits)
    intro x
    rw [hcover, covers_recordWrites hfits]
    constructor
    · intro h
      rcases h with h | h
      · exact h
      · exact ⟨w, hw, h⟩
    · exact Or.inl
  checks := checks_iff hfits
  accepted := fun size => (accepted_iff hfits size).trans (checks_iff hfits size)

/-! ### Three writes, and one that goes too far -/

theorem three_writes_exact : RangesExact [(4, 4), (0, 4), (2, 4)] :=
  ranges_exact (by unfold Fits; decide)

/-- **The checks fail though every byte below the declared size was written: there are more
behind it.** -/
theorem longer_temp_refused :
    ¬ ∀ writes size, Fits writes →
      ((largestWrittenEnd writes = size ∧ coveredBytes (recordWrites writes) = size) ↔
        ∀ x < size, WrittenBy writes x) := by
  intro hall
  have hten := hall [(0, 10)] 5 (by unfold Fits; decide)
  have hwritten : ∀ x < 5, WrittenBy [(0, 10)] x := fun x hx =>
    ⟨(0, 10), List.mem_cons_self, Nat.zero_le x, by omega⟩
  exact absurd (hten.2 hwritten).1 (by decide)

end Libfw

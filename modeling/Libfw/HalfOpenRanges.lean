import Mathlib.Algebra.GroupWithZero.Nat
import Mathlib.Data.List.Sort
import Mathlib.Order.Basic
import Mathlib.Order.Interval.Finset.Nat

/-!
# Lists of half-open ranges

A set of positions written as a list of half-open ranges `[start, stop)`.

`coalesce` is one left-to-right pass over a list sorted by start: a range that
touches the previous one is merged into it.  Its result is `Separated` (sorted,
no empty range, a gap between any two neighbours) and covers the same positions
(`separated_coalesce`, `covers_coalesce`).  A separated list is determined by the
positions it covers (`Separated.ext`).

For natural numbers, ranges that lie in `[0, n)`, are separated, and whose
lengths add up to `n` cover all of it (`covers_of_total`).
-/

namespace HalfOpenRanges

/-- A half-open range. -/
structure Span (α : Type*) where
  start : α
  stop : α
  deriving DecidableEq

section Order

variable {α : Type*} [LinearOrder α]

/-- The position lies in the range. -/
def Span.Has (r : Span α) (x : α) : Prop := r.start ≤ x ∧ x < r.stop

/-- The position lies in one of the ranges. -/
def Covers (rs : List (Span α)) (x : α) : Prop := ∃ r ∈ rs, r.Has x

/-- Sorted, without empty ranges, and with a gap between any two. -/
structure Separated (rs : List (Span α)) : Prop where
  nonempty : ∀ r ∈ rs, r.start < r.stop
  gaps : rs.Pairwise fun a b => a.stop < b.start

theorem not_covers_nil (x : α) : ¬ Covers ([] : List (Span α)) x := by
  rintro ⟨r, hr, -⟩
  cases hr

theorem covers_cons {r : Span α} {rs : List (Span α)} {x : α} :
    Covers (r :: rs) x ↔ r.Has x ∨ Covers rs x := by
  unfold Covers
  simp only [List.mem_cons, exists_eq_or_imp]

theorem covers_append {rs ts : List (Span α)} {x : α} :
    Covers (rs ++ ts) x ↔ Covers rs x ∨ Covers ts x := by
  unfold Covers
  simp only [List.mem_append, or_and_right, exists_or]

theorem covers_singleton {r : Span α} {x : α} : Covers [r] x ↔ r.Has x := by
  rw [covers_cons]
  simp only [not_covers_nil, or_false]

theorem covers_of_mem_iff {rs ts : List (Span α)} (h : ∀ r, r ∈ rs ↔ r ∈ ts) {x : α} :
    Covers rs x ↔ Covers ts x := by
  unfold Covers
  simp only [h]

theorem separated_nil : Separated ([] : List (Span α)) :=
  ⟨fun _ h => absurd h (List.not_mem_nil), List.Pairwise.nil⟩

/-- Put a range behind the ones collected so far, which stand in reverse. -/
def absorb (acc : List (Span α)) (r : Span α) : List (Span α) :=
  match acc with
  | [] => [r]
  | last :: rest =>
      if r.start ≤ last.stop then
        (if last.stop < r.stop then ⟨last.start, r.stop⟩ else last) :: rest
      else r :: last :: rest

theorem absorb_touching {last r : Span α} {rest : List (Span α)}
    (h : r.start ≤ last.stop) : absorb (last :: rest) r =
      (if last.stop < r.stop then ⟨last.start, r.stop⟩ else last) :: rest := if_pos h

theorem absorb_behind {last r : Span α} {rest : List (Span α)}
    (h : ¬ r.start ≤ last.stop) : absorb (last :: rest) r = r :: last :: rest := if_neg h

/-- Merge touching neighbours of a list sorted by start. -/
def coalesce (rs : List (Span α)) : List (Span α) := (rs.foldl absorb []).reverse

/-- What `absorb` keeps of the ranges collected so far, in reverse. -/
structure Collected (acc : List (Span α)) : Prop where
  nonempty : ∀ r ∈ acc, r.start < r.stop
  gaps : acc.Pairwise fun a b => b.stop < a.start

theorem Collected.absorb {acc : List (Span α)} (hacc : Collected acc) {r : Span α}
    (hr : r.start < r.stop) : Collected (absorb acc r) := by
  cases acc with
  | nil =>
      refine ⟨?_, List.pairwise_singleton _ _⟩
      intro t ht
      rw [HalfOpenRanges.absorb, List.mem_singleton] at ht
      rw [ht]
      exact hr
  | cons last rest =>
      obtain ⟨hgap, hrest⟩ := List.pairwise_cons.1 hacc.gaps
      have hlast := hacc.nonempty last (List.mem_cons_self ..)
      have hne : ∀ t ∈ rest, t.start < t.stop :=
        fun t ht => hacc.nonempty t (List.mem_cons_of_mem _ ht)
      by_cases htouch : r.start ≤ last.stop
      · rw [absorb_touching htouch]
        by_cases hlonger : last.stop < r.stop
        · rw [if_pos hlonger]
          refine ⟨?_, List.pairwise_cons.2 ⟨hgap, hrest⟩⟩
          intro t ht
          rcases List.mem_cons.1 ht with rfl | ht
          · exact lt_trans hlast hlonger
          · exact hne t ht
        · rw [if_neg hlonger]
          exact hacc
      · rw [absorb_behind htouch]
        have hbehind : last.stop < r.start := not_le.1 htouch
        refine ⟨?_, List.pairwise_cons.2 ⟨?_, hacc.gaps⟩⟩
        · intro t ht
          rcases List.mem_cons.1 ht with rfl | ht
          · exact hr
          · exact hacc.nonempty t ht
        · intro t ht
          rcases List.mem_cons.1 ht with rfl | ht
          · exact hbehind
          · exact lt_trans (hgap t ht) (lt_trans hlast hbehind)

/-- Merging loses and invents no position, as long as the new range does not
start before the last one. -/
theorem covers_absorb {acc : List (Span α)} {r : Span α}
    (hafter : ∀ t ∈ acc, t.start ≤ r.start) {x : α} :
    Covers (absorb acc r) x ↔ Covers acc x ∨ r.Has x := by
  cases acc with
  | nil =>
      rw [HalfOpenRanges.absorb, covers_singleton]
      simp only [not_covers_nil, false_or]
  | cons last rest =>
      have hstart := hafter last (List.mem_cons_self ..)
      by_cases htouch : r.start ≤ last.stop
      · rw [absorb_touching htouch, covers_cons, covers_cons]
        have hmerge : (if last.stop < r.stop then (⟨last.start, r.stop⟩ : Span α)
            else last).Has x ↔ last.Has x ∨ r.Has x := by
          by_cases hlonger : last.stop < r.stop
          · rw [if_pos hlonger]
            constructor
            · rintro ⟨hlo, hhi⟩
              by_cases hx : x < last.stop
              · exact Or.inl ⟨hlo, hx⟩
              · exact Or.inr ⟨le_trans htouch (not_lt.1 hx), hhi⟩
            · rintro (⟨hlo, hhi⟩ | ⟨hlo, hhi⟩)
              · exact ⟨hlo, lt_trans hhi hlonger⟩
              · exact ⟨le_trans hstart hlo, hhi⟩
          · rw [if_neg hlonger]
            constructor
            · exact Or.inl
            · rintro (h | ⟨hlo, hhi⟩)
              · exact h
              · exact ⟨le_trans hstart hlo, lt_of_lt_of_le hhi (not_lt.1 hlonger)⟩
        rw [hmerge, or_right_comm]
      · rw [absorb_behind htouch, covers_cons, or_comm]

/-- No range of the result starts before all ranges that went in. -/
theorem start_le_of_mem_absorb {acc : List (Span α)} {r : Span α} {b : α}
    (hacc : ∀ t ∈ acc, t.start ≤ b) (hr : r.start ≤ b) :
    ∀ t ∈ absorb acc r, t.start ≤ b := by
  cases acc with
  | nil =>
      intro t ht
      rw [HalfOpenRanges.absorb, List.mem_singleton] at ht
      rw [ht]
      exact hr
  | cons last rest =>
      intro t ht
      by_cases htouch : r.start ≤ last.stop
      · rw [absorb_touching htouch] at ht
        rcases List.mem_cons.1 ht with rfl | ht
        · have hlast := hacc last (List.mem_cons_self ..)
          by_cases hlonger : last.stop < r.stop
          · rw [if_pos hlonger]
            exact hlast
          · rw [if_neg hlonger]
            exact hlast
        · exact hacc t (List.mem_cons_of_mem _ ht)
      · rw [absorb_behind htouch] at ht
        rcases List.mem_cons.1 ht with rfl | ht
        · exact hr
        · exact hacc t ht

/-- The pass over a sorted list, from any collected state. -/
theorem foldl_absorb {rs acc : List (Span α)} (hacc : Collected acc)
    (hne : ∀ r ∈ rs, r.start < r.stop)
    (hsorted : rs.Pairwise fun a b => a.start ≤ b.start)
    (hafter : ∀ t ∈ acc, ∀ r ∈ rs, t.start ≤ r.start) :
    Collected (rs.foldl absorb acc) ∧
      ∀ x, Covers (rs.foldl absorb acc) x ↔ Covers acc x ∨ Covers rs x := by
  induction rs generalizing acc with
  | nil => exact ⟨hacc, fun x => by simp only [List.foldl_nil, not_covers_nil, or_false]⟩
  | cons r rs ih =>
      obtain ⟨hle, hrest⟩ := List.pairwise_cons.1 hsorted
      have hr := hne r (List.mem_cons_self ..)
      have hnext : ∀ t ∈ absorb acc r, ∀ q ∈ rs, t.start ≤ q.start := by
        intro t ht q hq
        refine start_le_of_mem_absorb ?_ (hle q hq) t ht
        intro u hu
        exact hafter u hu q (List.mem_cons_of_mem _ hq)
      obtain ⟨hcoll, hcov⟩ := ih (hacc.absorb hr)
        (fun q hq => hne q (List.mem_cons_of_mem _ hq)) hrest hnext
      refine ⟨hcoll, ?_⟩
      intro x
      rw [List.foldl_cons, hcov, covers_cons, or_assoc.symm,
        covers_absorb fun t ht => hafter t ht r (List.mem_cons_self ..)]

theorem separated_coalesce {rs : List (Span α)} (hne : ∀ r ∈ rs, r.start < r.stop)
    (hsorted : rs.Pairwise fun a b => a.start ≤ b.start) :
    Separated (coalesce rs) := by
  have hnil : Collected ([] : List (Span α)) :=
    ⟨fun _ h => absurd h List.not_mem_nil, List.Pairwise.nil⟩
  obtain ⟨hcoll, -⟩ := foldl_absorb hnil hne hsorted (by simp)
  refine ⟨?_, List.pairwise_reverse.2 hcoll.gaps⟩
  intro r hr
  exact hcoll.nonempty r (List.mem_reverse.1 hr)

theorem covers_coalesce {rs : List (Span α)} (hne : ∀ r ∈ rs, r.start < r.stop)
    (hsorted : rs.Pairwise fun a b => a.start ≤ b.start) (x : α) :
    Covers (coalesce rs) x ↔ Covers rs x := by
  have hnil : Collected ([] : List (Span α)) :=
    ⟨fun _ h => absurd h List.not_mem_nil, List.Pairwise.nil⟩
  obtain ⟨-, hcov⟩ := foldl_absorb hnil hne hsorted (by simp)
  unfold coalesce
  rw [covers_of_mem_iff fun r => List.mem_reverse, hcov]
  simp only [not_covers_nil, false_or]

/-! ### Separated lists are canonical -/

theorem Separated.of_cons {r : Span α} {rs : List (Span α)} (h : Separated (r :: rs)) :
    Separated rs ∧ ∀ t ∈ rs, r.stop < t.start :=
  ⟨⟨fun t ht => h.nonempty t (List.mem_cons_of_mem _ ht), (List.pairwise_cons.1 h.gaps).2⟩,
    (List.pairwise_cons.1 h.gaps).1⟩

/-- The ranges behind the first lie behind its end. -/
theorem Separated.stop_lt_of_covers {r : Span α} {rs : List (Span α)} (h : Separated (r :: rs))
    {x : α} (hx : Covers rs x) : r.stop < x := by
  obtain ⟨t, ht, hstart, -⟩ := hx
  exact lt_of_lt_of_le (h.of_cons.2 t ht) hstart

/-- Nothing before the first range is covered. -/
theorem Separated.start_le_of_covers {r : Span α} {rs : List (Span α)} (h : Separated (r :: rs))
    {x : α} (hx : Covers (r :: rs) x) : r.start ≤ x := by
  rcases covers_cons.1 hx with hr | hrest
  · exact hr.1
  · exact le_of_lt (lt_trans (h.nonempty r List.mem_cons_self) (h.stop_lt_of_covers hrest))

theorem Separated.covers_start {r : Span α} {rs : List (Span α)} (h : Separated (r :: rs)) :
    Covers (r :: rs) r.start :=
  covers_cons.2 (Or.inl ⟨le_refl _, h.nonempty r List.mem_cons_self⟩)

/-- The end of the first range is a gap. -/
theorem Separated.not_covers_stop {r : Span α} {rs : List (Span α)} (h : Separated (r :: rs)) :
    ¬ Covers (r :: rs) r.stop := by
  intro hx
  rcases covers_cons.1 hx with hr | hrest
  · exact lt_irrefl _ hr.2
  · exact lt_irrefl _ (h.stop_lt_of_covers hrest)

/-- The first range does not end before the first range of a list that covers no less. -/
theorem Separated.stop_le {r t : Span α} {rs ts : List (Span α)} (hr : Separated (r :: rs))
    (hstart : r.start = t.start)
    (hcover : ∀ x, Covers (t :: ts) x → Covers (r :: rs) x) : t.stop ≤ r.stop := by
  by_contra hlt
  have hrange := hr.nonempty r List.mem_cons_self
  have hin : Covers (t :: ts) r.stop := by
    apply covers_cons.2
    left
    exact ⟨hstart ▸ le_of_lt hrange, not_le.1 hlt⟩
  exact hr.not_covers_stop (hcover _ hin)

/-- **Separated lists that cover the same positions are equal.** -/
theorem Separated.ext {rs ts : List (Span α)} (hr : Separated rs) (ht : Separated ts)
    (hcover : ∀ x, Covers rs x ↔ Covers ts x) : rs = ts := by
  induction rs generalizing ts with
  | nil =>
      cases ts with
      | nil => rfl
      | cons t ts => exact absurd ((hcover _).2 ht.covers_start) (not_covers_nil _)
  | cons r rs ih =>
      cases ts with
      | nil => exact absurd ((hcover _).1 hr.covers_start) (not_covers_nil _)
      | cons t ts =>
          have hstart : r.start = t.start :=
            le_antisymm (hr.start_le_of_covers ((hcover _).2 ht.covers_start))
              (ht.start_le_of_covers ((hcover _).1 hr.covers_start))
          have hstop : r.stop = t.stop :=
            le_antisymm (ht.stop_le hstart.symm fun x => (hcover x).1)
              (hr.stop_le hstart fun x => (hcover x).2)
          have hsame : r = t := by
            cases r
            cases t
            cases hstart
            cases hstop
            rfl
          subst hsame
          rw [ih hr.of_cons.1 ht.of_cons.1]
          -- what the rest covers lies behind the first range
          intro x
          constructor
          · intro hx
            rcases covers_cons.1 ((hcover x).1 (covers_cons.2 (Or.inr hx))) with hin | hts
            · exact absurd hin.2 (not_lt.2 (le_of_lt (hr.stop_lt_of_covers hx)))
            · exact hts
          · intro hx
            rcases covers_cons.1 ((hcover x).2 (covers_cons.2 (Or.inr hx))) with hin | hrs
            · exact absurd hin.2 (not_lt.2 (le_of_lt (ht.stop_lt_of_covers hx)))
            · exact hrs

end Order

/-! ## Counting positions -/

/-- The number of positions in a range of natural numbers. -/
def Span.length (r : Span Nat) : Nat := r.stop - r.start

def totalLength (rs : List (Span Nat)) : Nat := (rs.map Span.length).sum

theorem totalLength_cons (r : Span Nat) (rs : List (Span Nat)) :
    totalLength (r :: rs) = (r.stop - r.start) + totalLength rs := by
  unfold totalLength
  rw [List.map_cons, List.sum_cons]
  rfl

/-- Separated ranges inside `[lo, n)` have at most `n - lo` positions, and if
they have as many, they cover it. -/
theorem totalLength_le {rs : List (Span Nat)} {lo n : Nat} (hsep : Separated rs)
    (hlo : ∀ r ∈ rs, lo ≤ r.start) (hn : ∀ r ∈ rs, r.stop ≤ n) :
    totalLength rs ≤ n - lo ∧
      (totalLength rs = n - lo → ∀ x, lo ≤ x → x < n → Covers rs x) := by
  induction rs generalizing lo with
  | nil =>
      constructor
      · exact Nat.zero_le _
      · intro h x hx hxn
        have hzero : totalLength ([] : List (Span Nat)) = 0 := rfl
        omega
  | cons r rs ih =>
      obtain ⟨hrest, hgap⟩ := hsep.of_cons
      have hr := hsep.nonempty r (List.mem_cons_self ..)
      have hrlo := hlo r (List.mem_cons_self ..)
      have hrn := hn r (List.mem_cons_self ..)
      have hbelow : ∀ t ∈ rs, r.stop ≤ t.start := fun t ht => Nat.le_of_lt (hgap t ht)
      obtain ⟨hle, hfull⟩ := ih hrest hbelow
        (fun t ht => hn t (List.mem_cons_of_mem _ ht))
      rw [totalLength_cons]
      constructor
      · omega
      · intro h x hx hxn
        rw [covers_cons]
        by_cases hin : x < r.stop
        · left
          exact ⟨by omega, hin⟩
        · right
          exact hfull (by omega) x (by omega) hxn

/-- Separated ranges inside `[0, n)` with `n` positions leave no gap. -/
theorem covers_of_total {rs : List (Span Nat)} {n : Nat} (hsep : Separated rs)
    (hn : ∀ r ∈ rs, r.stop ≤ n) (htotal : totalLength rs = n) {x : Nat} (hx : x < n) :
    Covers rs x :=
  (totalLength_le hsep (fun r _ => Nat.zero_le r.start) hn).2 htotal x
    (Nat.zero_le x) hx

instance (rs : List (Span Nat)) : DecidablePred (Covers rs) := fun x => by
  unfold Covers Span.Has
  infer_instance

/-- Ranges one behind the other have as many positions as they cover. -/
theorem totalLength_eq_card {rs : List (Span Nat)} {n : Nat}
    (hsorted : rs.Pairwise fun a b => a.stop ≤ b.start) (hvalid : ∀ r ∈ rs, r.start ≤ r.stop)
    (hn : ∀ r ∈ rs, r.stop ≤ n) :
    totalLength rs = ((Finset.range n).filter (Covers rs)).card := by
  induction rs with
  | nil =>
      have hnone : (Finset.range n).filter (Covers ([] : List (Span Nat))) = ∅ := by
        apply Finset.filter_eq_empty_iff.2
        intro x _
        exact not_covers_nil x
      rw [hnone]
      rfl
  | cons r rs ih =>
      obtain ⟨hbehind, hrest⟩ := List.pairwise_cons.1 hsorted
      have hr := hvalid r List.mem_cons_self
      have hrn := hn r List.mem_cons_self
      have hsplit : (Finset.range n).filter (Covers (r :: rs)) =
          Finset.Ico r.start r.stop ∪ (Finset.range n).filter (Covers rs) := by
        ext x
        simp only [Finset.mem_filter, Finset.mem_range, Finset.mem_union, Finset.mem_Ico,
          covers_cons, Span.Has]
        constructor
        · intro hx
          exact hx.2.imp_right fun h => ⟨hx.1, h⟩
        · intro hx
          rcases hx with hx | hx
          · exact ⟨by omega, Or.inl hx⟩
          · exact ⟨hx.1, Or.inr hx.2⟩
      have hdisjoint : Disjoint (Finset.Ico r.start r.stop)
          ((Finset.range n).filter (Covers rs)) := by
        apply Finset.disjoint_left.2
        intro x hx hcover
        obtain ⟨t, ht, hstart, -⟩ := (Finset.mem_filter.1 hcover).2
        have hle := hbehind t ht
        have hlt := (Finset.mem_Ico.1 hx).2
        omega
      rw [totalLength_cons, hsplit, Finset.card_union_of_disjoint hdisjoint, Nat.card_Ico,
        ih hrest (fun t ht => hvalid t (List.mem_cons_of_mem _ ht))
          fun t ht => hn t (List.mem_cons_of_mem _ ht)]

/-- **Ranges that cover of `[0, n)` what the others leave have together `n` positions.** -/
theorem totalLength_add {rs ts : List (Span Nat)} {n : Nat}
    (hrs : rs.Pairwise fun a b => a.stop ≤ b.start) (hts : ts.Pairwise fun a b => a.stop ≤ b.start)
    (hvalid : ∀ r ∈ rs ++ ts, r.start ≤ r.stop ∧ r.stop ≤ n)
    (hcover : ∀ x < n, Covers ts x ↔ ¬ Covers rs x) : totalLength rs + totalLength ts = n := by
  have hleft : ∀ r ∈ rs, r.start ≤ r.stop ∧ r.stop ≤ n :=
    fun r hr => hvalid r (List.mem_append_left ts hr)
  have hright : ∀ r ∈ ts, r.start ≤ r.stop ∧ r.stop ≤ n :=
    fun r hr => hvalid r (List.mem_append_right rs hr)
  have hrest : (Finset.range n).filter (Covers ts) =
      (Finset.range n).filter fun x => ¬ Covers rs x := by
    apply Finset.filter_congr
    intro x hx
    exact hcover x (Finset.mem_range.1 hx)
  rw [totalLength_eq_card hrs (fun r hr => (hleft r hr).1) fun r hr => (hleft r hr).2,
    totalLength_eq_card hts (fun r hr => (hright r hr).1) fun r hr => (hright r hr).2, hrest,
    Finset.card_filter_add_card_filter_not, Finset.card_range]

/-- Separated ranges that cover exactly `[0, n)` are that range. -/
theorem eq_of_covers_all {rs : List (Span Nat)} {n : Nat} (hsep : Separated rs)
    (hcover : ∀ x, Covers rs x ↔ x < n) : rs = if n = 0 then [] else [⟨0, n⟩] := by
  by_cases hn : n = 0
  · rw [if_pos hn]
    apply hsep.ext separated_nil
    intro x
    simp only [hcover, hn, Nat.not_lt_zero, not_covers_nil]
  · rw [if_neg hn]
    apply hsep.ext
    · constructor
      · intro r hr
        rw [List.mem_singleton.1 hr]
        exact Nat.pos_of_ne_zero hn
      · exact List.pairwise_singleton _ _
    · intro x
      rw [hcover, covers_singleton]
      exact ⟨fun h => ⟨Nat.zero_le x, h⟩, And.right⟩

/-- Separated ranges have `n` positions and end by `n` exactly if they cover `[0, n)` and no
more. -/
theorem totalLength_eq_iff {rs : List (Span Nat)} {n : Nat} (hsep : Separated rs) :
    (totalLength rs = n ∧ ∀ r ∈ rs, r.stop ≤ n) ↔ ∀ x, Covers rs x ↔ x < n := by
  constructor
  · intro h
    obtain ⟨htotal, hstop⟩ := h
    intro x
    constructor
    · intro hx
      obtain ⟨r, hr, -, hlt⟩ := hx
      exact Nat.lt_of_lt_of_le hlt (hstop r hr)
    · exact covers_of_total hsep hstop htotal
  · intro hcover
    rw [eq_of_covers_all hsep hcover]
    by_cases hn : n = 0
    · rw [if_pos hn]
      exact ⟨hn.symm, fun r hr => absurd hr List.not_mem_nil⟩
    · rw [if_neg hn]
      constructor
      · rw [totalLength_cons]
        rfl
      · intro r hr
        rw [List.mem_singleton.1 hr]

end HalfOpenRanges

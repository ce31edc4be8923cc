import Mathlib.Algebra.GroupWithZero.Nat
import Mathlib.Data.List.Basic
import Mathlib.Data.List.Infix
import Mathlib.Data.List.Nodup

/-!
# Words split at a separator

A *path* over an alphabet `α` is a list of letters in which one letter, the
separator, delimits words.  This file develops the correspondence between such
paths and the lists of words ("segments") they spell:

* `join` and `split` are inverse to each other on lists of genuine segments;
* `Covers` (a prefix that ends at a word boundary) is exactly list-prefix on
  the segment side (`covers_join_iff`);
* what follows a covering prefix spells the remaining segments
  (`join_drop_of_prefix`).

Nothing here knows what the letters are.
-/

namespace SegmentPaths

variable {α : Type*} (sep : α)

/-- A word that may stand between two separators. -/
def IsSegment (w : List α) : Prop := w ≠ [] ∧ sep ∉ w

/-- Spell a list of segments, one separator between neighbours. -/
def join : List (List α) → List α
  | [] => []
  | [w] => w
  | w :: v :: rest => w ++ sep :: join (v :: rest)

/-- `p` is a prefix of `q` that ends at a segment boundary.  The empty path
covers everything. -/
def Covers (p q : List α) : Prop :=
  p = [] ∨ q = p ∨ p ++ [sep] <+: q

@[simp] theorem join_nil : join sep ([] : List (List α)) = [] := rfl

@[simp] theorem join_singleton (w : List α) : join sep [w] = w := rfl

theorem join_cons_cons (w v : List α) (rest : List (List α)) :
    join sep (w :: v :: rest) = w ++ sep :: join sep (v :: rest) := rfl

theorem join_cons {ws : List (List α)} (w : List α) (hne : ws ≠ []) :
    join sep (w :: ws) = w ++ sep :: join sep ws := by
  cases ws with
  | nil => exact absurd rfl hne
  | cons v rest => rfl

/-- Joining is Mathlib's `intercalate` with a one-letter separator. -/
theorem join_eq_intercalate (ws : List (List α)) :
    join sep ws = [sep].intercalate ws := by
  induction ws with
  | nil => rfl
  | cons w rest ih =>
      cases rest with
      | nil => simp [join, List.intercalate]
      | cons v rest =>
          rw [join_cons_cons, ih]
          simp [List.intercalate, List.intersperse]

theorem join_append {us vs : List (List α)} (hu : us ≠ []) (hv : vs ≠ []) :
    join sep (us ++ vs) = join sep us ++ sep :: join sep vs := by
  induction us with
  | nil => exact absurd rfl hu
  | cons u rest ih =>
      by_cases hrest : rest = []
      · subst hrest
        exact join_cons sep u hv
      · rw [List.cons_append, join_cons sep u (by simp [hrest]), ih hrest,
          join_cons sep u hrest]
        simp

/-- Only the empty list of segments spells the empty path. -/
theorem join_eq_nil_iff {ws : List (List α)} (h : ∀ w ∈ ws, IsSegment sep w) :
    join sep ws = [] ↔ ws = [] := by
  cases ws with
  | nil => simp
  | cons w rest =>
      have hw : w ≠ [] := (h w List.mem_cons_self).1
      cases rest with
      | nil => simpa using hw
      | cons v rest => simp [join_cons_cons]

/-- A segment list that is a prefix spells a covering path. -/
theorem covers_of_prefix {us vs : List (List α)} (h : us <+: vs) :
    Covers sep (join sep us) (join sep vs) := by
  obtain ⟨rest, rfl⟩ := h
  by_cases hu : us = []
  · exact Or.inl (by simp [hu])
  · by_cases hr : rest = []
    · exact Or.inr (Or.inl (by simp [hr]))
    · refine Or.inr (Or.inr ⟨join sep rest, ?_⟩)
      rw [join_append sep hu hr]
      simp

/-- Reading off the first segment of a path that goes on after it. -/
theorem first_segment_unique {w v a b : List α} (hw : sep ∉ w) (hv : sep ∉ v)
    (h : w ++ sep :: a = v ++ sep :: b) : w = v ∧ a = b := by
  induction w generalizing v with
  | nil =>
      cases v with
      | nil => simpa using h
      | cons y ys =>
          have hy : sep = y := by simpa using congrArg List.head? h
          exact absurd (hy ▸ List.mem_cons_self) hv
  | cons x xs ih =>
      cases v with
      | nil =>
          have hx : x = sep := by simpa using congrArg List.head? h
          exact absurd (hx ▸ List.mem_cons_self) hw
      | cons y ys =>
          simp only [List.cons_append, List.cons.injEq] at h
          have hx : sep ∉ xs := fun hm => hw (List.mem_cons_of_mem _ hm)
          have hy : sep ∉ ys := fun hm => hv (List.mem_cons_of_mem _ hm)
          obtain ⟨hws, hab⟩ := ih hx hy h.2
          exact ⟨by rw [h.1, hws], hab⟩

/-- A prefix that is followed by a separator spells a prefix of the
segments. -/
theorem prefix_of_sep_prefix {us vs : List (List α)}
    (hu : ∀ w ∈ us, IsSegment sep w) (hv : ∀ w ∈ vs, IsSegment sep w)
    (hne : us ≠ []) (h : join sep us ++ [sep] <+: join sep vs) : us <+: vs := by
  induction us generalizing vs with
  | nil => exact absurd rfl hne
  | cons u us ih =>
      have hsu : sep ∉ u := (hu u List.mem_cons_self).2
      obtain ⟨rest, hrest⟩ := h
      match vs, hv, hrest with
      | [], _, hrest => simp at hrest
      | [v], hv, hrest =>
          have hsv : sep ∉ v := (hv v List.mem_cons_self).2
          rw [join_singleton] at hrest
          exact absurd (hrest ▸ by simp) hsv
      | v :: v' :: vs, hv, hrest =>
          have hsv : sep ∉ v := (hv v List.mem_cons_self).2
          rw [join_cons_cons] at hrest
          by_cases hus : us = []
          · subst hus
            have hfirst : u ++ sep :: rest = v ++ sep :: join sep (v' :: vs) := by
              simpa using hrest
            obtain ⟨huv, -⟩ := first_segment_unique sep hsu hsv hfirst
            exact ⟨v' :: vs, by simp [huv]⟩
          · rw [join_cons sep u hus] at hrest
            have hfirst : u ++ sep :: (join sep us ++ [sep] ++ rest)
                = v ++ sep :: join sep (v' :: vs) := by
              simpa using hrest
            obtain ⟨huv, htail⟩ := first_segment_unique sep hsu hsv hfirst
            have hpre : us <+: v' :: vs :=
              ih (fun w hw => hu w (List.mem_cons_of_mem _ hw))
                (fun w hw => hv w (List.mem_cons_of_mem _ hw)) hus ⟨rest, htail⟩
            rw [huv]
            exact List.cons_prefix_cons.2 ⟨rfl, hpre⟩

/-- A longer segment list has a longer spelling. -/
theorem join_length_lt_append {us more : List (List α)}
    (h : ∀ w ∈ more, IsSegment sep w) (hne : more ≠ []) :
    (join sep us).length < (join sep (us ++ more)).length := by
  by_cases hus : us = []
  · have hpos : join sep more ≠ [] := fun he => hne ((join_eq_nil_iff sep h).1 he)
    simpa [hus] using List.length_pos_iff.2 hpos
  · rw [join_append sep hus hne]
    simp only [List.length_append, List.length_cons]
    omega

/-- Among prefixes of one segment list, the spelled length orders as the
number of segments does. -/
theorem join_length_le_iff {us vs ws : List (List α)}
    (hw : ∀ w ∈ ws, IsSegment sep w) (hu : us <+: ws) (hv : vs <+: ws) :
    (join sep vs).length ≤ (join sep us).length ↔ vs.length ≤ us.length := by
  have hlt : ∀ {as bs : List (List α)}, as <+: ws → bs <+: ws →
      as.length < bs.length → (join sep as).length < (join sep bs).length := by
    intro as bs ha hb hlen
    obtain ⟨more, rfl⟩ := List.prefix_of_prefix_length_le ha hb (by omega)
    apply join_length_lt_append
    · intro w hwm
      exact hw w (hb.subset (List.mem_append_right _ hwm))
    · intro hnil
      simp [hnil] at hlen
  constructor
  · intro h
    by_contra hgt
    have := hlt hu hv (by omega)
    omega
  · intro h
    rcases Nat.lt_or_eq_of_le h with h | h
    · exact Nat.le_of_lt (hlt hv hu h)
    · obtain ⟨r, hr⟩ := List.prefix_of_prefix_length_le hv hu (by omega)
      have hnil : r = [] := by
        have := congrArg List.length hr
        simp only [List.length_append] at this
        exact List.length_eq_zero_iff.1 (by omega)
      rw [← hr, hnil, List.append_nil]

/-- A covering path is a prefix. -/
theorem Covers.isPrefix {p q : List α} (h : Covers sep p q) : p <+: q := by
  rcases h with h | h | h
  · simp [h]
  · simp [h]
  · exact (List.prefix_append p [sep]).trans h

/-- Below what is covered everything is. -/
theorem Covers.trans {p q r : List α} (h : Covers sep p q) (h' : Covers sep q r) :
    Covers sep p r := by
  rcases h with hnil | hsame | hslash
  · exact Or.inl hnil
  · rw [← hsame]
    exact h'
  · exact Or.inr (Or.inr (hslash.trans (h'.isPrefix sep)))

section Splitting

variable [DecidableEq α]

/-- Read a path back as its segments; the empty path has none. -/
def split (p : List α) : List (List α) :=
  if p = [] then [] else p.splitOn sep

/-- A path whose words are genuine segments splits into exactly these, also
for Mathlib's `splitOn`, unless there are none. -/
theorem splitOn_join {ws : List (List α)} (h : ∀ w ∈ ws, IsSegment sep w)
    (hne : ws ≠ []) : (join sep ws).splitOn sep = ws := by
  rw [join_eq_intercalate]
  exact List.splitOn_intercalate sep (fun w hw => (h w hw).2) hne

/-- Splitting undoes joining. -/
theorem split_join {ws : List (List α)} (h : ∀ w ∈ ws, IsSegment sep w) :
    split sep (join sep ws) = ws := by
  by_cases hws : ws = []
  · simp [hws, split]
  · have hne : join sep ws ≠ [] := fun he => hws ((join_eq_nil_iff sep h).1 he)
    rw [split, if_neg hne, splitOn_join sep h hws]

/-- A path is determined by its segments and conversely. -/
theorem join_injective {us vs : List (List α)}
    (hu : ∀ w ∈ us, IsSegment sep w) (hv : ∀ w ∈ vs, IsSegment sep w)
    (h : join sep us = join sep vs) : us = vs := by
  rw [← split_join sep hu, h, split_join sep hv]

/-- Joining undoes splitting, for every path. -/
theorem join_split (p : List α) : join sep (split sep p) = p := by
  unfold split
  split
  · next h => simp [h]
  · rw [join_eq_intercalate, List.intercalate_splitOn]

/-- **Boundary prefixes are segment prefixes.** -/
theorem covers_join_iff {us vs : List (List α)}
    (hu : ∀ w ∈ us, IsSegment sep w) (hv : ∀ w ∈ vs, IsSegment sep w) :
    Covers sep (join sep us) (join sep vs) ↔ us <+: vs := by
  constructor
  · rintro (h | h | h)
    · rw [join_eq_nil_iff sep hu] at h
      simp [h]
    · rw [join_injective sep hv hu h]
    · by_cases hus : us = []
      · simp [hus]
      · exact prefix_of_sep_prefix sep hu hv hus h
  · exact covers_of_prefix sep

/-- What a covering prefix leaves over, without the separator that follows
it, spells the remaining segments. -/
theorem join_drop_of_prefix {us rest : List (List α)}
    (hr : ∀ w ∈ rest, IsSegment sep w) :
    ((join sep (us ++ rest)).drop (join sep us).length).dropWhile (· = sep)
      = join sep rest := by
  have hstart : (join sep rest).dropWhile (· = sep) = join sep rest := by
    cases rest with
    | nil => simp
    | cons w rest =>
        obtain ⟨hne, hsep⟩ := hr w List.mem_cons_self
        cases w with
        | nil => exact absurd rfl hne
        | cons x xs =>
            have hx : x ≠ sep := fun h => hsep (h ▸ List.mem_cons_self)
            cases rest <;> simp [join, hx]
  by_cases hu : us = []
  · simpa [hu] using hstart
  · by_cases hrest : rest = []
    · simp [hrest]
    · rw [join_append sep hu hrest, List.drop_left]
      simpa using hstart

/-- The words of a split do not contain the separator. -/
theorem sep_not_mem_splitOn {p w : List α} (h : w ∈ p.splitOn sep) : sep ∉ w := by
  induction p generalizing w with
  | nil =>
      have hw : w = [] := by simpa using h
      simp [hw]
  | cons c cs ih =>
      rw [List.splitOn_cons_eq_if_modifyHead] at h
      by_cases hc : c = sep
      · rcases List.mem_cons.1 (by simpa [hc] using h) with rfl | h
        · simp
        · exact ih h
      · obtain ⟨v, vs, hvs⟩ := List.exists_cons_of_ne_nil
          (List.splitOn_ne_nil sep cs)
        rw [hvs] at h ih
        rcases List.mem_cons.1 (by simpa [hc] using h) with rfl | h
        · have hv : sep ∉ v := ih List.mem_cons_self
          simp [hv, Ne.symm hc]
        · exact ih (List.mem_cons_of_mem _ h)

/-- The letters of a split's words come from the path. -/
theorem mem_of_mem_splitOn {p w : List α} {x : α} (h : w ∈ p.splitOn sep)
    (hx : x ∈ w) : x ∈ p := by
  induction p generalizing w with
  | nil =>
      have hw : w = [] := by simpa using h
      simp [hw] at hx
  | cons c cs ih =>
      rw [List.splitOn_cons_eq_if_modifyHead] at h
      by_cases hc : c = sep
      · rcases List.mem_cons.1 (by simpa [hc] using h) with rfl | h
        · simp at hx
        · exact List.mem_cons_of_mem _ (ih h hx)
      · obtain ⟨v, vs, hvs⟩ := List.exists_cons_of_ne_nil
          (List.splitOn_ne_nil sep cs)
        rw [hvs] at h ih
        rcases List.mem_cons.1 (by simpa [hc] using h) with rfl | h
        · rcases List.mem_cons.1 hx with rfl | hx
          · exact List.mem_cons_self
          · exact List.mem_cons_of_mem _ (ih List.mem_cons_self hx)
        · exact List.mem_cons_of_mem _ (ih (List.mem_cons_of_mem _ h) hx)

end Splitting

end SegmentPaths

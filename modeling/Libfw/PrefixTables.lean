import Mathlib.Data.List.Basic
import Mathlib.Data.List.Infix

/-!
# Rewriting the longest matching prefix

A table pairs words of two alphabets' worth of names: each entry has a word on
one side and a word on the other.  A word is translated by finding the entry
whose word on the source side is the longest prefix of it and replacing that
prefix by the entry's word on the other side.

The question answered here is when translating there and back returns to the
start.  The answer (`there_and_back_iff`) is that the way back must pick the
same entry: a more specific entry on the target side always leads elsewhere.
-/

namespace PrefixTables

/-- The last of the elements whose key is largest. -/
def lastMaxBy {ε : Type*} (key : ε → Nat) : List ε → Option ε
  | [] => none
  | e :: rest =>
      match lastMaxBy key rest with
      | none => some e
      | some best => if key e ≤ key best then some best else some e

theorem lastMaxBy_eq_none_iff {ε : Type*} {key : ε → Nat} {es : List ε} :
    lastMaxBy key es = none ↔ es = [] := by
  cases es with
  | nil => simp [lastMaxBy]
  | cons e rest =>
      simp only [lastMaxBy]
      split
      · simp
      · split <;> simp

/-- The chosen element is in the list and no key exceeds its key. -/
theorem lastMaxBy_spec {ε : Type*} {key : ε → Nat} {es : List ε} {e : ε}
    (h : lastMaxBy key es = some e) :
    e ∈ es ∧ ∀ e' ∈ es, key e' ≤ key e := by
  induction es generalizing e with
  | nil => simp [lastMaxBy] at h
  | cons x rest ih =>
      simp only [lastMaxBy] at h
      cases hrest : lastMaxBy key rest with
      | none =>
          rw [hrest] at h
          have hnil : rest = [] := lastMaxBy_eq_none_iff.1 hrest
          have hx : x = e := by simpa using h
          subst hx hnil
          simp
      | some best =>
          rw [hrest] at h
          obtain ⟨hmem, hmax⟩ := ih hrest
          by_cases hle : key x ≤ key best
          · have hb : best = e := by simpa [hle] using h
            subst hb
            refine ⟨List.mem_cons_of_mem _ hmem, ?_⟩
            intro e' he'
            rcases List.mem_cons.1 he' with rfl | he'
            · exact hle
            · exact hmax e' he'
          · have hx : x = e := by simpa [hle] using h
            subst hx
            refine ⟨List.mem_cons_self, ?_⟩
            intro e' he'
            rcases List.mem_cons.1 he' with rfl | he'
            · exact le_rfl
            · have := hmax e' he'
              omega

variable {ε σ : Type*} {src dst : ε → List σ} {table : List ε}

/-- `e` is a most specific entry of the table for the word `p`. -/
def Longest (src : ε → List σ) (table : List ε) (p : List σ) (e : ε) : Prop :=
  e ∈ table ∧ src e <+: p ∧
    ∀ e' ∈ table, src e' <+: p → (src e').length ≤ (src e).length

/-- Two most specific entries for one word spell the same prefix. -/
theorem Longest.src_eq {p : List σ} {e e' : ε}
    (h : Longest src table p e) (h' : Longest src table p e') :
    src e = src e' := by
  have hle := h.2.2 e' h'.1 h'.2.1
  have hge := h'.2.2 e h.1 h.2.1
  obtain ⟨r, hr⟩ := List.prefix_of_prefix_length_le h.2.1 h'.2.1 hge
  have hlen : r.length = 0 := by
    have := congrArg List.length hr
    simp only [List.length_append] at this
    omega
  rw [List.length_eq_zero_iff] at hlen
  simpa [hlen] using hr

/-- **There and back.**  Translate `src e ++ rest` through a most specific
entry `e`, and translate the result back through the entry `e'` that is most
specific on the other side.  The round trip returns to the start exactly when
`e'` spells the same prefix as `e` there. -/
theorem there_and_back_iff {e e' : ε} {rest rest' : List σ}
    (he : Longest src table (src e ++ rest) e)
    (he' : Longest dst table (dst e ++ rest) e')
    (hback : dst e' ++ rest' = dst e ++ rest)
    (hinj : ∀ a ∈ table, ∀ b ∈ table, dst a = dst b → a = b) :
    src e' ++ rest' = src e ++ rest ↔ dst e' = dst e := by
  constructor
  · intro hreturn
    have hle : (dst e).length ≤ (dst e').length :=
      he'.2.2 e he.1 ⟨rest, rfl⟩
    obtain ⟨m, hm⟩ :=
      List.prefix_of_prefix_length_le ⟨rest, rfl⟩ he'.2.1 hle
    have hrest : rest = m ++ rest' := by
      rw [← hm, List.append_assoc] at hback
      exact (List.append_cancel_left hback).symm
    have hsrc : src e' = src e ++ m := by
      rw [hrest, ← List.append_assoc] at hreturn
      exact List.append_cancel_right hreturn
    have hcover : src e' <+: src e ++ rest := by
      rw [hsrc, hrest, ← List.append_assoc]
      exact ⟨rest', rfl⟩
    have hshort := he.2.2 e' he'.1 hcover
    have hnil : m = [] := by
      rw [hsrc, List.length_append] at hshort
      exact List.length_eq_zero_iff.1 (by omega)
    simpa [hnil] using hm.symm
  · intro hsame
    have hee : e' = e := hinj e' he'.1 e he.1 hsame
    subst hee
    have hrest : rest' = rest := List.append_cancel_left hback
    rw [hrest]

end PrefixTables

/-!
# Runs of a state machine under a condition

A machine is a function `step`, `none` where an action cannot happen.  A run may
take an action only where `ok` permits it, judged on the state before the step.

* `Reaches.invariant` — what every permitted step preserves holds throughout.
* `Traced.invariant` — the same of a run with its history.
* `reaches_of_runIf`, `traced_of_traceIf` — a computed run whose steps pass a test
  is a run.
-/

namespace GuardedRuns

variable {σ α : Type} {step : σ → α → Option σ} {ok : σ → α → Prop}

/-- The states a run of permitted steps leads to. -/
inductive Reaches (step : σ → α → Option σ) (ok : σ → α → Prop) (s : σ) : σ → Prop where
  | refl : Reaches step ok s s
  | tail {t u : σ} {a : α} :
      Reaches step ok s t → ok t a → step t a = some u → Reaches step ok s u

namespace Reaches

theorem trans {s t u : σ} (hst : Reaches step ok s t) (htu : Reaches step ok t u) :
    Reaches step ok s u := by
  induction htu with
  | refl => exact hst
  | tail _ hok hstep ih => exact ih.tail hok hstep

/-- What permitted steps preserve holds in every state a run leads to. -/
theorem invariant {I : σ → Prop}
    (hI : ∀ t a u, I t → ok t a → step t a = some u → I u) {s t : σ}
    (hrun : Reaches step ok s t) (hs : I s) : I t := by
  induction hrun with
  | refl => exact hs
  | tail _ hok hstep ih => exact hI _ _ _ ih hok hstep

end Reaches

/-- A step taken: the state before it, the action, the state after it. -/
structure Taken (σ α : Type) where
  before : σ
  action : α
  after : σ

/-- The runs of permitted steps with their histories, the last step first. -/
inductive Traced (step : σ → α → Option σ) (ok : σ → α → Prop) (s : σ) :
    List (Taken σ α) → σ → Prop where
  | refl : Traced step ok s [] s
  | tail {history : List (Taken σ α)} {t u : σ} {a : α} :
      Traced step ok s history t → ok t a → step t a = some u →
      Traced step ok s (⟨t, a, u⟩ :: history) u

/-- What permitted steps preserve, judged with the history, holds throughout. -/
theorem Traced.invariant {I : List (Taken σ α) → σ → Prop}
    (hI : ∀ history t a u, I history t → ok t a → step t a = some u →
      I (⟨t, a, u⟩ :: history) u) {s t : σ} {history : List (Taken σ α)}
    (hrun : Traced step ok s history t) (hs : I [] s) : I history t := by
  induction hrun with
  | refl => exact hs
  | tail _ hok hstep ih => exact hI _ _ _ _ ih hok hstep

/-- The state after given actions, each of which must pass a test. -/
def runIf (step : σ → α → Option σ) (test : σ → α → Bool) (s : σ) : List α → Option σ
  | [] => some s
  | a :: rest => if test s a then (step s a).bind fun t => runIf step test t rest else none

theorem reaches_of_runIf {test : σ → α → Bool} (hok : ∀ t a, test t a = true → ok t a)
    {s t : σ} {acts : List α} (h : runIf step test s acts = some t) :
    Reaches step ok s t := by
  induction acts generalizing s with
  | nil =>
      cases h
      exact .refl
  | cons a rest ih =>
      unfold runIf at h
      split at h
      · next htest =>
          obtain ⟨u, hu, hrest⟩ := Option.bind_eq_some_iff.1 h
          exact (Reaches.refl.tail (hok s a htest) hu).trans (ih hrest)
      · cases h

/-- The history and the state after given actions. -/
def traceIf (step : σ → α → Option σ) (test : σ → α → Bool) (history : List (Taken σ α))
    (s : σ) : List α → Option (List (Taken σ α) × σ)
  | [] => some (history, s)
  | a :: rest =>
      if test s a then (step s a).bind fun t => traceIf step test (⟨s, a, t⟩ :: history) t rest
      else none

theorem traced_of_traceIf {test : σ → α → Bool} (hok : ∀ t a, test t a = true → ok t a)
    {s t u : σ} {acts : List α} {history history' : List (Taken σ α)}
    (hbefore : Traced step ok s history t)
    (h : traceIf step test history t acts = some (history', u)) :
    Traced step ok s history' u := by
  induction acts generalizing t history with
  | nil =>
      cases h
      exact hbefore
  | cons a rest ih =>
      unfold traceIf at h
      split at h
      · next htest =>
          obtain ⟨v, hv, hrest⟩ := Option.bind_eq_some_iff.1 h
          exact ih (hbefore.tail (hok t a htest) hv) hrest
      · cases h

end GuardedRuns

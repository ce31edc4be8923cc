import Libfw.TuneRuns

/-!
# Degraded parameters and later transfers

An error halves the current dimension and degrades the transfer.  Its reduced
parameters are meant to be forgotten: `post_degrade_settle` keeps a settle that
ends a degraded hold out of memory and store.  The flag is set by the second
window held, but the decision counts the same windows and settles at the second
one without gain, before the flag is up.

* `held_off_runs_forget_degraded`: nothing of a degraded transfer is remembered in
  the runs where no unflagged window of it settles.
* `holdsOff_of_loneWindows`: such are those in which no two of its windows close in a row
  without an error, away from the cap of the last dimension.
* `degraded_settle_is_remembered`: otherwise two clean windows after an error
  store the halved parameters.
-/

namespace Libfw

open Float64 GuardedRuns

variable {F : Type} [Float64 F]

/-- No window of a degraded transfer settles while `post_degrade_settle` is down. -/
def HoldsOff (w : TuneWorld F) : TuneAct F → Prop
  | (i, .tick nowMs _ _ error) =>
      (w.log i).degraded = true → (w.engine i).postDegradeSettle = false →
        ∀ caps, (w.engine i).Closes nowMs caps → (w.engine i).errorsWith error = 0 →
          ¬ (w.engine i).SettlesIdle caps
  | _ => True

/-- In every run a tick of a degraded transfer does not store a settle: memory and
store stay as they are. -/
def ForgetsDegraded (ok : TuneWorld F → TuneAct F → Prop) : Prop :=
  ∀ sha (w₀ w v : TuneWorld F) i nowMs done rttMs error, w₀.Fresh →
    Reaches (TuneWorld.next sha) ok w₀ w → ok w (i, .tick nowMs done rttMs error) →
    (w.log i).degraded = true →
    TuneWorld.next sha w (i, .tick nowMs done rttMs error) = some v →
      (∀ t, (TuneCall.tick nowMs done rttMs error).observe sha (w.engine i) w.store ≠
        .stored t) ∧
      KeepsSettle (w.engine i) (v.engine i) w.store v.store

/-! ## A degraded transfer does not ramp -/

/-- A transfer that has degraded is not ramping. -/
def DegradedHeld (w : TuneWorld F) : Prop :=
  ∀ i, (w.log i).degraded = true → (w.engine i).phase ≠ .ramping

namespace TuneWorld

variable {sha : Capabilities → Text}

theorem Fresh.degradedHeld {w : TuneWorld F} (h : w.Fresh) : DegradedHeld w := by
  intro i hdegraded
  rw [h.log i] at hdegraded
  cases hdegraded

/-- **Step lemma.** -/
theorem degradedHeld_next {w v : TuneWorld F} {a : TuneAct F} (hheld : DegradedHeld w)
    (hnext : next sha w a = some v) : DegradedHeld v := by
  obtain ⟨i, call⟩ := a
  intro j hdegraded
  by_cases hj : j = i
  · subst hj
    rw [next_log_self hnext] at hdegraded
    rw [next_engine_self hnext]
    cases call with
    | setOrigin url => exact hheld j hdegraded
    | setDirection kind => exact hheld j hdegraded
    | setEnabled enabled => exact hheld j hdegraded
    | beginTransfer caps nowMs staticParams => cases hdegraded
    | transferEnd ended => cases hdegraded
    | tick nowMs done rttMs error =>
        apply TuningEngine.tick_phase_ne_ramping
        cases hseen : (TuneCall.tick nowMs done rttMs error).observe sha (w.engine j) w.store with
        | degraded => exact Or.inr rfl
        | began source p =>
            rw [hseen] at hdegraded
            cases hdegraded
        | ended =>
            rw [hseen] at hdegraded
            cases hdegraded
        | stored | other =>
            rw [hseen] at hdegraded
            exact Or.inl (hheld j hdegraded)
  · rw [next_log_ne hnext hj] at hdegraded
    rw [next_engine_ne hnext hj]
    exact hheld j hdegraded

/-- A window of a degraded transfer that is held off stores nothing. -/
theorem not_stored_of_holdsOff {w : TuneWorld F} {i : Nat} {nowMs : F} {done : Nat}
    {rttMs : Option F} {error : Bool} (hheld : DegradedHeld w)
    (hoff : HoldsOff w (i, .tick nowMs done rttMs error))
    (hdegraded : (w.log i).degraded = true) (t : F) :
    (TuneCall.tick nowMs done rttMs error).observe sha (w.engine i) w.store ≠ .stored t := by
  intro hstored
  by_cases hcloses : ∃ caps, (w.engine i).Closes nowMs caps
  · obtain ⟨caps, hcaps⟩ := hcloses
    rw [observe_of_closes hcaps] at hstored
    cases haction : ((w.engine i).evaluateTick caps nowMs done rttMs error).2 with
    | settle =>
        obtain ⟨herrors, hsettles⟩ :=
          (TuningEngine.evaluateTick_settle_iff (hheld i hdegraded)).1 haction
        cases hpost : (w.engine i).postDegradeSettle with
        | true =>
            rw [haction] at hstored
            simp only [hpost, if_true, reduceCtorEq] at hstored
        | false => exact hoff hdegraded hpost caps hcaps herrors hsettles
    | raise | advanceDim | degrade | hold =>
        rw [haction] at hstored
        cases hstored
  · rw [observe_of_not_closes fun caps h => hcloses ⟨caps, h⟩] at hstored
    cases hstored

end TuneWorld

/-- **Degraded parameters are forgotten, where every unflagged settle is held off.** -/
theorem held_off_runs_forget_degraded : ForgetsDegraded (F := F) HoldsOff := by
  intro sha w₀ w v i nowMs done rttMs error hfresh hrun hoff hdegraded hnext
  have hheld : DegradedHeld w := hrun.invariant
    (fun _ _ _ hI _ hstep => TuneWorld.degradedHeld_next hI hstep) hfresh.degradedHeld
  have hnot : ∀ t, (TuneCall.tick nowMs done rttMs error).observe sha (w.engine i) w.store ≠
      .stored t := TuneWorld.not_stored_of_holdsOff hheld hoff hdegraded
  constructor
  · exact hnot
  · rw [TuneWorld.next_engine_self hnext, TuneWorld.next_store hnext]
    exact keepsSettle_tick hnot

/-! ## The windows that are held off -/

/-- What a degraded transfer closes without an error comes alone, right after a window with one,
and away from the cap of the last dimension. -/
def LoneWindows (sha : Capabilities → Text) (history : List (Taken (TuneWorld F) (TuneAct F)))
    (w : TuneWorld F) : TuneAct F → Prop
  | (i, .tick nowMs _ _ error) =>
      (w.log i).degraded = true → (w.engine i).postDegradeSettle = false →
        ∀ caps, (w.engine i).Closes nowMs caps → (w.engine i).errorsWith error = 0 →
          cleanWindows sha i history = 0 ∧
            ((w.engine i).dimAtCap caps = true → (w.engine i).dim ≠ .concurrency)
  | _ => True

/-- **Windows without an error that come one at a time are held off**: it takes a second one in a
row to settle. -/
theorem holdsOff_of_loneWindows {sha : Capabilities → Text}
    {ok : TuneWorld F → TuneAct F → Prop} {w₀ w : TuneWorld F}
    {history : List (Taken (TuneWorld F) (TuneAct F))} (hfresh : w₀.Fresh)
    (hrun : Traced (TuneWorld.next sha) ok w₀ history w) {a : TuneAct F}
    (h : LoneWindows sha history w a) : HoldsOff w a := by
  obtain ⟨i, call⟩ := a
  cases call with
  | tick nowMs done rttMs error =>
      intro hdegraded hpost caps hcloses herrors
      obtain ⟨hfirst, hcap⟩ := h hdegraded hpost caps hcloses herrors
      exact not_settlesIdle_of_first hfresh hrun hfirst hcap
  | setOrigin | setDirection | setEnabled | beginTransfer | transferEnd => trivial

/-! ### A degraded run that is held off -/

/-- Plain reasons for an event to be held off. -/
def plainlyHeldOff (w : TuneWorld ℚ) : TuneAct ℚ → Bool
  | (i, .tick _ _ _ error) =>
      match (w.engine i).caps with
      | none => true
      | some caps => (w.engine i).errorsWith error ≠ 0 || !((w.log i).degraded) ||
          !(decide ((w.engine i).SettlesIdle caps))
  | _ => true

theorem holdsOff_of_plainlyHeldOff (w : TuneWorld ℚ) (a : TuneAct ℚ)
    (h : plainlyHeldOff w a = true) : HoldsOff w a := by
  obtain ⟨i, call⟩ := a
  cases call with
  | tick nowMs done rttMs error =>
      intro hdegraded _ caps hcloses herrors hsettles
      simp only [plainlyHeldOff, hcloses.2.2, herrors, hdegraded, hsettles] at h
      exact Bool.false_ne_true h
  | setOrigin | setDirection | setEnabled | beginTransfer | transferEnd => trivial

/-- Errors in the first and in the third window: the fourth is held. -/
theorem held_off_run_forgets_degraded :
    ∃ w v, Reaches (TuneWorld.next sampleSha) HoldsOff sampleWorld w ∧
      (w.log 0).degraded = true ∧
      TuneWorld.next sampleSha w (0, .tick 4000 9000000 none false) = some v ∧
      KeepsSettle (w.engine 0) (v.engine 0) w.store v.store := by
  have hrun : ((runIf (TuneWorld.next sampleSha) plainlyHeldOff sampleWorld
      [(0, .setOrigin "https://fw.example".toList), (0, .beginTransfer .dflt 0 sampleStatic),
        (0, .tick 1000 0 none true), (0, .tick 2000 4000000 none false),
        (0, .tick 3000 5000000 none true)]).any fun w =>
          (w.log 0).degraded ∧
            plainlyHeldOff w (0, .tick 4000 9000000 none false)) = true := by
    decide +kernel
  obtain ⟨w, hw, hend⟩ := (Option.any_eq_true _ _).1 hrun
  obtain ⟨hdegraded, hheld⟩ := of_decide_eq_true hend
  have hreach := reaches_of_runIf (fun w a h => holdsOff_of_plainlyHeldOff w a h) hw
  have hforgets := held_off_runs_forget_degraded sampleSha sampleWorld w _ 0 4000 9000000 none
    false sampleWorld_fresh hreach (holdsOff_of_plainlyHeldOff w _ hheld) hdegraded rfl
  exact ⟨w, _, hreach, hdegraded, rfl, hforgets.2⟩

/-! ### A degraded run that settles -/

/-- **Two clean windows after an error settle, and the halved parameters are
stored.** -/
theorem degraded_settle_is_remembered :
    ¬ ForgetsDegraded (F := ℚ) fun _ _ => True := by
  intro hall
  have hrun : ((runIf (TuneWorld.next sampleSha) (fun _ _ => true) sampleWorld
      [(0, .setOrigin "https://fw.example".toList), (0, .beginTransfer .dflt 0 sampleStatic),
        (0, .tick 1000 0 none true), (0, .tick 2000 1000000 none false)]).any fun w =>
          (w.log 0).degraded ∧ (w.engine 0).settled = none ∧
            ((TuneCall.tick 3000 2000000 none false).apply sampleSha (w.engine 0)
              w.store).1.settled ≠ none) = true := by
    decide +kernel
  obtain ⟨w, hw, hend⟩ := (Option.any_eq_true _ _).1 hrun
  obtain ⟨hdegraded, hnone, hsome⟩ := of_decide_eq_true hend
  have hreach : Reaches (TuneWorld.next sampleSha) (fun _ _ => True) sampleWorld w :=
    reaches_of_runIf (fun _ _ _ => trivial) hw
  have hkeeps := (hall sampleSha sampleWorld w _ 0 3000 2000000 none false sampleWorld_fresh
    hreach trivial hdegraded rfl).2.settled
  rw [TuneWorld.next_engine_self rfl, hnone] at hkeeps
  exact hsome hkeeps

end Libfw

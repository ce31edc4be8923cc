import Libfw.TuneRuns

/-!
# Tuned parameters and the advertised ranges

Where a server advertises proper ranges, concurrency and both windows stay in
them over every run of every engine, whatever is measured, except that an error
halves the current dimension down to one without looking at the advertised
minimum.

* `roomy_runs_stay_in_range`: they stay in range in the runs whose error windows
  leave at least the minimum.
* `error_window_leaves_range`: otherwise one error takes a window out of range.
-/

namespace Libfw

open Float64 GuardedRuns

variable {F : Type} [Float64 F]

namespace TuningEngine

variable {e : TuningEngine F} {store : TuneStore} {caps : Capabilities}

omit [Float64 F] in
theorem dimRange_proper (h : caps.Sane) : (e.dimRange caps).Proper 64 := by
  unfold dimRange
  cases e.dim with
  | concurrency => exact h.concurrency
  | window =>
      cases e.direction with
      | upload => exact h.uploadWindow
      | download => exact h.downloadWindow

omit [Float64 F] in
theorem dimValue_holds (h : e.params.Within caps) : (e.dimRange caps).Holds e.dimValue := by
  unfold dimRange dimValue window
  cases e.dim with
  | concurrency => exact h.concurrency
  | window =>
      cases e.direction with
      | upload => exact h.uploadWindow
      | download => exact h.downloadWindow

omit [Float64 F] in
theorem setDim_within {v : Nat} (h : e.params.Within caps) (hv : (e.dimRange caps).Holds v) :
    (e.setDim v).params.Within caps := by
  unfold dimRange at hv
  unfold setDim
  cases hdim : e.dim with
  | concurrency =>
      simp only [hdim] at hv
      exact ⟨hv, h.uploadWindow, h.downloadWindow⟩
  | window =>
      cases hdir : e.direction with
      | upload =>
          simp only [hdim, hdir] at hv
          exact ⟨h.concurrency, hv, h.downloadWindow⟩
      | download =>
          simp only [hdim, hdir] at hv
          exact ⟨h.concurrency, h.uploadWindow, hv⟩

omit [Float64 F] in
theorem dimMax_eq (h : caps.Sane) : e.dimMax caps = (e.dimRange caps).max := by
  obtain ⟨hlow, hrange, hhigh⟩ := dimRange_proper (e := e) h
  unfold dimMax
  cases e.dim with
  | window =>
      simp only [HARD_MAX_WINDOW]
      omega
  | concurrency =>
      simp only [HARD_MAX_CONCURRENCY]
      omega

theorem asI64_of_holds {range : IntRange} {v : Nat} (hrange : range.Proper 64)
    (hv : range.Holds v) : asI64 v = v := by
  obtain ⟨hlow, hle, hhigh⟩ := hrange
  obtain ⟨-, hmax⟩ := hv
  refine if_pos ?_
  omega

omit [Float64 F] in
/-- Raising never leaves the range. -/
theorem raiseDim_within (hcaps : caps.Sane) (h : e.params.Within caps) :
    (e.raiseDim caps).params.Within caps := by
  have hproper := dimRange_proper (e := e) hcaps
  have hvalue := dimValue_holds h
  refine setDim_within h ?_
  rw [asI64_of_holds hproper hvalue, dimMax_eq hcaps]
  obtain ⟨hlow, hrange, hhigh⟩ := hproper
  obtain ⟨hmin, hmax⟩ := hvalue
  unfold raised IntRange.Holds
  constructor
  · grind
  · grind

omit [Float64 F] in
/-- Halving stays in the range where half of the value does. -/
theorem halveDim_within (hcaps : caps.Sane) (h : e.params.Within caps)
    (hroom : (e.dimRange caps).min ≤ halved (asI64 e.dimValue)) :
    e.halveDim.params.Within caps := by
  have hproper := dimRange_proper (e := e) hcaps
  have hvalue := dimValue_holds h
  refine setDim_within h ?_
  rw [asI64_of_holds hproper hvalue] at hroom ⊢
  obtain ⟨hlow, hrange, hhigh⟩ := hproper
  obtain ⟨hmin, hmax⟩ := hvalue
  unfold halved at hroom ⊢
  constructor
  · omega
  · omega

theorem act_within {action : RampAction} {nowMs : F} (hcaps : caps.Sane)
    (h : e.params.Within caps)
    (hroom : action = .degrade → (e.dimRange caps).min ≤ halved (asI64 e.dimValue)) :
    (e.act store caps nowMs action).1.params.Within caps := by
  cases action with
  | raise => exact (raiseDim_within hcaps h).enforceInFlightBudget
  | advanceDim => exact h
  | settle =>
      cases hpost : e.postDegradeSettle with
      | true =>
          rw [act_settle_of_postDegrade hpost]
          exact h
      | false =>
          rw [act_settle hpost]
          exact h
  | degrade => exact halveDim_within hcaps h (hroom rfl)
  | hold =>
      obtain ⟨count, heq | ⟨-, heq⟩⟩ := e.act_hold store caps nowMs
      · rw [heq]
        exact h
      · rw [heq]
        exact h

/-- Every beginning clamps into the range. -/
theorem beginTransfer_within {sha : Capabilities → Text} {nowMs : F} {staticParams : TuneParams}
    (hcaps : caps.Sane) :
    (e.beginTransfer store sha caps nowMs staticParams).1.params.Within caps := by
  unfold beginTransfer
  dsimp only
  split
  · exact (TuneParams.clampedInto_within hcaps _).enforceInFlightBudget
  · refine TuneParams.Within.enforceInFlightBudget ?_
    cases (reusable _ store nowMs).2 with
    | none =>
        have hmins := TuneParams.fromCapsMins_within hcaps
        exact ⟨hmins.concurrency, hmins.uploadWindow, hmins.downloadWindow⟩
    | some settled =>
        have hclamped := TuneParams.clampedInto_within hcaps settled
        exact ⟨hclamped.concurrency, hclamped.uploadWindow, hclamped.downloadWindow⟩

theorem beginTransfer_caps {sha : Capabilities → Text} {nowMs : F} {staticParams : TuneParams} :
    (e.beginTransfer store sha caps nowMs staticParams).1.caps = some caps := by
  unfold beginTransfer
  dsimp only
  split
  · rfl
  · cases (reusable _ store nowMs).2 <;> rfl

end TuningEngine

/-! ## Runs -/

/-- The advertisements of the run are sane. -/
def SaneCaps (_ : TuneWorld F) : TuneAct F → Prop
  | (_, .beginTransfer caps _ _) => caps.Sane
  | _ => True

/-- An error window leaves the current dimension at least its advertised minimum. -/
def RoomToHalve (w : TuneWorld F) (a : TuneAct F) : Prop :=
  SaneCaps w a ∧
    match a with
    | (i, .tick nowMs _ _ error) => ∀ caps, (w.engine i).Closes nowMs caps →
        0 < (w.engine i).errorsWith error →
          ((w.engine i).dimRange caps).min ≤
            TuningEngine.halved (asI64 (w.engine i).dimValue)
    | _ => True

/-- In every state of every run the parameters of an engine lie in the ranges of
the capabilities of its current transfer. -/
def StaysInRange (ok : TuneWorld F → TuneAct F → Prop) : Prop :=
  ∀ sha (w₀ w : TuneWorld F), w₀.Fresh → Reaches (TuneWorld.next sha) ok w₀ w →
    ∀ i caps, (w.engine i).caps = some caps → (w.engine i).params.Within caps

/-- The capabilities of every transfer are sane, and its parameters in range. -/
def InRange (w : TuneWorld F) : Prop :=
  ∀ i caps, (w.engine i).caps = some caps → caps.Sane ∧ (w.engine i).params.Within caps

namespace TuneWorld

theorem Fresh.inRange {w : TuneWorld F} (h : w.Fresh) : InRange w := by
  intro i caps hcaps
  obtain ⟨enabled, heq | ⟨ttlMs, heq⟩⟩ := h.engine i
  · rw [heq] at hcaps
    cases hcaps
  · rw [heq] at hcaps
    cases hcaps

variable {sha : Capabilities → Text}

/-- What a tick with room to halve does to the parameters. -/
theorem tick_inRange {w : TuneWorld F} {i : Nat} {nowMs : F} {done : Nat} {rttMs : Option F}
    {error : Bool} (hrange : InRange w)
    (hok : RoomToHalve w (i, .tick nowMs done rttMs error)) {caps : Capabilities}
    (hcaps : ((TuneCall.tick nowMs done rttMs error).apply sha (w.engine i) w.store).1.caps =
      some caps) :
    caps.Sane ∧ ((TuneCall.tick nowMs done rttMs error).apply sha (w.engine i)
      w.store).1.params.Within caps := by
  rcases (w.engine i).tick_cases sha w.store nowMs done rttMs error with
    ⟨errors, base, avg, -, heq⟩ | ⟨caps', hcloses, heq⟩
  · rw [heq] at hcaps ⊢
    exact hrange i caps hcaps
  · have hbefore := hrange i caps' hcloses.2.2
    rw [heq] at hcaps ⊢
    obtain ⟨errors, base, avg, chunk, stats, low, closed, mbps, heval⟩ :=
      (w.engine i).evaluateTick_eq caps' nowMs done rttMs error
    have hsame : caps = caps' := by
      have h : ((w.engine i).evaluateTick caps' nowMs done rttMs error).1.caps = some caps :=
        TuningEngine.act_keeps.1.symm.trans hcaps
      rw [heval] at h
      exact Option.some.inj (h.symm.trans hcloses.2.2)
    subst hsame
    refine ⟨hbefore.1, ?_⟩
    refine TuningEngine.act_within hbefore.1 ?_ ?_
    · rw [heval]
      exact ⟨hbefore.2.concurrency, hbefore.2.uploadWindow, hbefore.2.downloadWindow⟩
    · intro hdegrade
      rw [heval]
      exact hok.2 caps hcloses (TuningEngine.evaluateTick_degrade_iff.1 hdegrade)

/-- **Step lemma.** -/
theorem inRange_next {w v : TuneWorld F} {a : TuneAct F} (hrange : InRange w)
    (hok : RoomToHalve w a) (hnext : next sha w a = some v) : InRange v := by
  obtain ⟨i, call⟩ := a
  intro j caps hcaps
  by_cases hj : j = i
  · subst hj
    rw [next_engine_self hnext] at hcaps ⊢
    cases call with
    | setOrigin url => exact hrange j caps hcaps
    | setDirection kind => exact hrange j caps hcaps
    | setEnabled enabled => exact hrange j caps hcaps
    | beginTransfer caps' nowMs staticParams =>
        have hsame := TuningEngine.beginTransfer_caps.symm.trans hcaps
        cases hsame
        exact ⟨hok.1, TuningEngine.beginTransfer_within hok.1⟩
    | tick nowMs done rttMs error => exact tick_inRange hrange hok hcaps
    | transferEnd ended =>
        have hsame := (w.engine j).transferEnd_caps w.store ended
        have hbefore := hrange j caps (hsame.1.symm.trans hcaps)
        refine ⟨hbefore.1, ?_⟩
        have hwithin : ((w.engine j).transferEnd w.store ended).1.params.Within caps := by
          rw [TuningEngine.transferEnd_params]
          exact hbefore.2
        exact hwithin
  · rw [next_engine_ne hnext hj] at hcaps ⊢
    exact hrange j caps hcaps

end TuneWorld

/-- **With room to halve the parameters stay in range.** -/
theorem roomy_runs_stay_in_range : StaysInRange (F := F) RoomToHalve := by
  intro sha w₀ w hfresh hrun i caps hcaps
  have hrange : InRange w := hrun.invariant
    (fun _ _ _ hI hok hnext => TuneWorld.inRange_next hI hok hnext) hfresh.inRange
  exact (hrange i caps hcaps).2

/-! ### A run with room -/

/-- At least two downloads at a time are advertised. -/
def narrowCaps : Capabilities :=
  { Capabilities.dflt with
    limits := { Capabilities.dflt.limits with downloadWindow := ⟨4, 4, 2⟩ } }

theorem narrowCaps_sane : narrowCaps.Sane := by
  refine ⟨?_, ?_, ?_⟩
  · decide
  · decide
  · decide

/-- Plain reasons for an event to have room. -/
def plainlyRoomy (w : TuneWorld ℚ) : TuneAct ℚ → Bool
  | (_, .beginTransfer caps _ _) => caps = narrowCaps
  | (i, .tick _ _ _ error) =>
      match (w.engine i).caps with
      | none => true
      | some caps => (w.engine i).errorsWith error = 0 ||
          ((w.engine i).dimRange caps).min ≤ TuningEngine.halved (asI64 (w.engine i).dimValue)
  | _ => true

theorem roomToHalve_of_plainlyRoomy (w : TuneWorld ℚ) (a : TuneAct ℚ)
    (h : plainlyRoomy w a = true) : RoomToHalve w a := by
  obtain ⟨i, call⟩ := a
  cases call with
  | beginTransfer caps nowMs staticParams =>
      have hcaps : caps = narrowCaps := of_decide_eq_true h
      rw [hcaps]
      exact ⟨narrowCaps_sane, trivial⟩
  | tick nowMs done rttMs error =>
      refine ⟨trivial, ?_⟩
      intro caps hcloses herrors
      simp only [plainlyRoomy, hcloses.2.2, Bool.or_eq_true, decide_eq_true_eq] at h
      rcases h with hnone | hroom
      · omega
      · exact hroom
  | setOrigin | setDirection | setEnabled | transferEnd => exact ⟨trivial, trivial⟩

/-- An error takes the window from four to two. -/
theorem roomy_run_stays_in_range :
    ∃ w, Reaches (TuneWorld.next sampleSha) RoomToHalve sampleWorld w ∧
      (w.engine 0).phase = .degraded ∧ (w.engine 0).params.Within narrowCaps := by
  have hrun : ((runIf (TuneWorld.next sampleSha) plainlyRoomy sampleWorld
      [(0, .beginTransfer narrowCaps 0 sampleStatic), (0, .tick 1000 1000000 none false),
        (0, .tick 2000 2000000 none true)]).any fun w =>
          (w.engine 0).phase = .degraded ∧ (w.engine 0).caps = some narrowCaps) = true := by
    decide +kernel
  obtain ⟨w, hw, hend⟩ := (Option.any_eq_true _ _).1 hrun
  obtain ⟨hphase, hcaps⟩ := of_decide_eq_true hend
  have hreach := reaches_of_runIf (fun w a h => roomToHalve_of_plainlyRoomy w a h) hw
  exact ⟨w, hreach, hphase,
    roomy_runs_stay_in_range sampleSha sampleWorld w sampleWorld_fresh hreach 0 narrowCaps hcaps⟩

/-! ### A run that leaves the range -/

/-- **An error in the first window halves the window to one, below the advertised
two.** -/
theorem error_window_leaves_range : ¬ StaysInRange (F := ℚ) SaneCaps := by
  intro hall
  have hrun : ((runIf (TuneWorld.next sampleSha) (fun _ a =>
        match a with
        | (_, .beginTransfer caps _ _) => caps = narrowCaps
        | _ => true) sampleWorld
      [(0, .beginTransfer narrowCaps 0 sampleStatic), (0, .tick 1000 0 none true)]).any fun w =>
          (w.engine 0).caps = some narrowCaps ∧ (w.engine 0).params.downloadWindow = 1) =
      true := by
    decide +kernel
  obtain ⟨w, hw, hend⟩ := (Option.any_eq_true _ _).1 hrun
  obtain ⟨hcaps, hone⟩ := of_decide_eq_true hend
  have hreach : Reaches (TuneWorld.next sampleSha) SaneCaps sampleWorld w := by
    refine reaches_of_runIf ?_ hw
    intro u a ha
    obtain ⟨i, call⟩ := a
    cases call with
    | beginTransfer caps nowMs staticParams =>
        have hsame : caps = narrowCaps := of_decide_eq_true ha
        rw [hsame]
        exact narrowCaps_sane
    | setOrigin | setDirection | setEnabled | tick | transferEnd => trivial
  obtain ⟨hmin, -⟩ := (hall sampleSha sampleWorld w sampleWorld_fresh hreach 0 narrowCaps
    hcaps).downloadWindow
  rw [hone] at hmin
  exact absurd hmin (by decide)

end Libfw

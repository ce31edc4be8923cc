import Libfw.TuneCeilings

/-!
# Every ramp ends

A ramp explores the window of its direction and then the concurrency.  A window of
it that closes without an error settles, moves on to the next dimension, raises the
dimension, or holds once (`QuietDecision`).  What is left of the ramp, `rampLeft`,
adds up the head-room of the dimensions to come and of the current one, twice, and
the hold that is not yet spent; every window that does not end the ramp takes from
it (`closed_rampLeft`).

After a ramp nothing is raised: only a ramp raises, and only a transfer that begins
or fails starts one.

* `ramps_end_and_stay_down`: both, for every run of any engines over one store.
-/

namespace Libfw

open Float64 GuardedRuns

variable {F : Type} [Float64 F]

/-- What an error-free window decides. -/
theorem rampAction_quiet {input : RampInput F} (herrors : input.errors = 0) :
    (rampAction input).1 = .settle ∨
      (rampAction input = (.advanceDim, 0) ∧ input.lastDim = false) ∨
      (rampAction input = (.raise, 0) ∧ input.atCap = false) ∨
      (rampAction input = (.hold, 1) ∧ input.lowGainWindows = 0) := by
  unfold rampAction
  grind

/-- As many windows end every ramp that meets no error: twice the hard ceilings. -/
def RAMP_WINDOWS : Nat := 2 * (HARD_MAX_WINDOW.toNat + HARD_MAX_CONCURRENCY.toNat)

namespace TuningEngine

/-- A closed window without error: it settles; or the window is done with; or the
dimension is raised below its cap; or a first window without gain is held. -/
inductive QuietDecision (e : TuningEngine F) (caps : Capabilities) :
    RampAction → Nat → Prop where
  | settle (low : Nat) : QuietDecision e caps .settle low
  | advance (hdim : e.dim = .window) : QuietDecision e caps .advanceDim 0
  | raise (hcap : e.dimAtCap caps = false) : QuietDecision e caps .raise 0
  | hold (hlow : e.lowGainWindows = 0) : QuietDecision e caps .hold 1

/-- Twice the head-room of the dimensions a ramp comes to later. -/
def laterRoom : RampDim → Nat
  | .window => 2 * HARD_MAX_CONCURRENCY.toNat
  | .concurrency => 0

/-- What is left of a ramp. -/
def rampLeft (e : TuningEngine F) : Nat :=
  laterRoom e.dim + 2 * (64 - e.dimValue) + (1 - e.lowGainWindows)

section Window

variable {e : TuningEngine F} {store : TuneStore} {caps : Capabilities} {nowMs : F} {done : Nat}
  {rttMs : Option F} {elapsed : F}

theorem evaluate_quiet (herrors : e.windowErrors = 0) :
    e.QuietDecision caps (e.evaluate caps done elapsed).2
      (e.evaluate caps done elapsed).1.lowGainWindows := by
  obtain ⟨chunk, stats, hmeasured⟩ := e.measured_eq caps (e.throughput done elapsed)
  unfold evaluate
  dsimp only
  rw [hmeasured]
  generalize hinput : rampInput (F := F) _ caps _ = input
  have hquiet : input.errors = 0 := by
    rw [← hinput]
    exact herrors
  rcases rampAction_quiet hquiet with hsettle | ⟨heq, hlast⟩ | ⟨heq, hcap⟩ | ⟨heq, hlow⟩
  · rw [hsettle]
    exact .settle _
  · rw [heq]
    apply QuietDecision.advance
    rw [← hinput] at hlast
    have hdim : e.dim ≠ .concurrency := of_decide_eq_false hlast
    cases h : e.dim with
    | window => rfl
    | concurrency => exact absurd h hdim
  · rw [heq]
    apply QuietDecision.raise
    rw [← hinput] at hcap
    exact hcap
  · rw [heq]
    apply QuietDecision.hold
    rw [← hinput] at hlow
    exact hlow

omit [Float64 F] in
/-- The decision only looks at the dimension and at the windows without gain. -/
theorem QuietDecision.congr {e' : TuningEngine F} {action : RampAction} {low : Nat}
    (h : e'.QuietDecision caps action low) (hdim : e'.dim = e.dim)
    (hcap : e'.dimAtCap caps = e.dimAtCap caps) (hlow : e'.lowGainWindows = e.lowGainWindows) :
    e.QuietDecision caps action low := by
  cases h with
  | settle low => exact .settle low
  | advance h => exact .advance (hdim.symm.trans h)
  | raise h => exact .raise (hcap.symm.trans h)
  | hold h => exact .hold (hlow.symm.trans h)

theorem evaluateTick_quiet (herrors : e.windowErrors = 0) :
    e.QuietDecision caps (e.evaluateTick caps nowMs done rttMs false).2
      (e.evaluateTick caps nowMs done rttMs false).1.lowGainWindows := by
  obtain ⟨base, avg, hsample⟩ := e.sample_eq rttMs false
  have hquiet : (e.sample rttMs false).windowErrors = 0 := by
    rw [hsample]
    exact herrors
  have hdecision : (e.sample rttMs false).QuietDecision caps
      (e.evaluateTick caps nowMs done rttMs false).2
      (e.evaluateTick caps nowMs done rttMs false).1.lowGainWindows := evaluate_quiet hquiet
  rw [hsample] at hdecision
  apply hdecision.congr
  · rfl
  · rfl
  · rfl

/-! ## What a window takes from the ramp -/

omit [Float64 F] in
/-- Setting the dimension sets its value. -/
theorem setDim_dimValue (e : TuningEngine F) (v : Nat) :
    (e.setDim v).dimValue = v ∧ (e.setDim v).dim = e.dim ∧
      (e.setDim v).lowGainWindows = e.lowGainWindows := by
  unfold setDim
  cases hdim : e.dim with
  | concurrency =>
      unfold dimValue
      exact ⟨rfl, rfl, rfl⟩
  | window =>
      cases hdir : e.direction with
      | upload =>
          unfold dimValue window
          exact ⟨rfl, rfl, rfl⟩
      | download =>
          unfold dimValue window
          exact ⟨rfl, rfl, rfl⟩

/-- A raise below the cap raises. -/
theorem lt_raised {v dimMax : Int} (hpos : 1 ≤ v) (hcap : v < dimMax) :
    v < max (raised v dimMax) 1 := by
  unfold raised
  rw [if_neg (by omega)]
  split
  · omega
  · omega

omit [Float64 F] in
/-- A raise gives the dimension more than it had. -/
theorem lt_raiseDim_dimValue (h : e.params.Bounded) (hcap : e.dimAtCap caps = false) :
    e.dimValue < (e.raiseDim caps).dimValue := by
  obtain ⟨hpos, hle⟩ := dimValue_bounded h
  have hcast : asI64 e.dimValue = e.dimValue := if_pos (by omega)
  have hbelow : (e.dimValue : Int) < e.dimMax caps := by
    have hnot : ¬ e.dimMax caps ≤ asI64 e.dimValue := of_decide_eq_false hcap
    rw [hcast] at hnot
    omega
  have hraised := lt_raised (Int.ofNat_le.2 hpos) hbelow
  unfold raiseDim
  rw [(e.setDim_dimValue _).1, hcast]
  omega

/-- **What a window takes from the ramp**: if it does not end it, at least one of
what is left. -/
theorem act_rampLeft {action : RampAction} {low : Nat} {e' : TuningEngine F}
    (hdecision : e.QuietDecision caps action low) (h : e'.params.Bounded)
    (hphase : e'.phase = .ramping) (hdim : e'.dim = e.dim) (hvalue : e'.dimValue = e.dimValue)
    (hcap : e'.dimAtCap caps = e.dimAtCap caps) (hlow : e'.lowGainWindows = low) :
    (e'.act store caps nowMs action).1.phase ≠ .ramping ∨
      (e'.act store caps nowMs action).1.rampLeft + 1 ≤ e.rampLeft := by
  cases hdecision with
  | settle low =>
      left
      cases hpost : e'.postDegradeSettle with
      | true =>
          rw [act_settle_of_postDegrade hpost]
          exact TunePhase.noConfusion
      | false =>
          rw [act_settle hpost]
          exact TunePhase.noConfusion
  | advance hwindow =>
      right
      have hconcurrency := h.concurrency
      have hleft : e.rampLeft = 128 + 2 * (64 - e.dimValue) + (1 - e.lowGainWindows) := by
        unfold rampLeft
        rw [hwindow]
        rfl
      have hafter : (e'.act store caps nowMs .advanceDim).1.rampLeft =
          0 + 2 * (64 - e'.params.concurrency) + (1 - e'.lowGainWindows) := by
        unfold act rampLeft dimValue
        dsimp only
        rw [hdim, hwindow]
        rfl
      omega
  | raise hbelow =>
      right
      have hmore := lt_raiseDim_dimValue h (hcap.trans hbelow)
      obtain ⟨-, hsame, hkept⟩ :=
        e'.setDim_dimValue (max (raised (asI64 e'.dimValue) (e'.dimMax caps)) 1).toNat
      have hafter : (e'.act store caps nowMs .raise).1.rampLeft =
          laterRoom e'.dim + 2 * (64 - (e'.raiseDim caps).dimValue) + (1 - 0) := by
        rw [← hlow, ← hkept, ← hsame]
        rfl
      have hleft : e.rampLeft =
          laterRoom e'.dim + 2 * (64 - e'.dimValue) + (1 - e.lowGainWindows) := by
        unfold rampLeft
        rw [hdim, hvalue]
      have hraised : (e'.raiseDim caps).params.Bounded := raiseDim_bounded h
      have hbound := (dimValue_bounded hraised).2
      omega
  | hold hnone =>
      right
      obtain ⟨count, heq | ⟨hdegraded, -⟩⟩ := e'.act_hold store caps nowMs
      · have hafter : (e'.act store caps nowMs .hold).1.rampLeft =
            laterRoom e'.dim + 2 * (64 - e'.dimValue) + (1 - e'.lowGainWindows) := by
          rw [heq]
          rfl
        have hleft : e.rampLeft =
            laterRoom e'.dim + 2 * (64 - e'.dimValue) + (1 - e.lowGainWindows) := by
          unfold rampLeft
          rw [hdim, hvalue]
        omega
      · rw [hphase] at hdegraded
        cases hdegraded

end Window

/-! ## One call -/

/-- The tick closes a window. -/
def closesWindow (e : TuningEngine F) (nowMs : F) : Bool :=
  !lt (nowMs - e.windowStartMs) TUNE_WINDOW_MS && e.enabled && e.caps.isSome

section Call

variable {sha : Capabilities → Text} {e : TuningEngine F} {store : TuneStore} {nowMs : F}
  {done : Nat} {rttMs : Option F} {error : Bool}

theorem closesWindow_iff : e.closesWindow nowMs = true ↔ ∃ caps, e.Closes nowMs caps := by
  unfold closesWindow Closes
  cases lt (nowMs - e.windowStartMs) TUNE_WINDOW_MS with
  | true => exact iff_of_false Bool.false_ne_true (by grind)
  | false =>
      cases e.enabled with
      | false => exact iff_of_false Bool.false_ne_true (by grind)
      | true =>
          cases e.caps with
          | none => exact iff_of_false Bool.false_ne_true (by grind)
          | some caps => exact iff_of_true rfl ⟨caps, rfl, rfl, rfl⟩

/-- **A tick without error in a ramp** ends it, or takes one of what is left of it if
it closes a window. -/
theorem tick_rampLeft (sha : Capabilities → Text) (store : TuneStore) (nowMs : F) (done : Nat)
    (rttMs : Option F) (h : e.params.WithinCeilings) (hphase : e.phase = .ramping)
    (herrors : e.windowErrors = 0) :
    let e' := ((TuneCall.tick nowMs done rttMs false).apply sha e store).1
    e'.windowErrors = 0 ∧
      (e'.phase ≠ .ramping ∨
        e'.rampLeft + (if e.closesWindow nowMs then 1 else 0) ≤ e.rampLeft) := by
  rcases e.tick_cases sha store nowMs done rttMs false with
    ⟨-, -, -, hnot, -⟩ | ⟨caps, hcloses, heq⟩
  · have hopen : ¬ e.closesWindow nowMs = true := by
      intro hcloses
      obtain ⟨caps, hcaps⟩ := closesWindow_iff.1 hcloses
      exact hnot caps hcaps
    obtain ⟨base, avg, hsample⟩ := e.sample_eq rttMs false
    have hstays : ((TuneCall.tick nowMs done rttMs false).apply sha e store).1 =
        e.sample rttMs false := by
      unfold TuneCall.apply
      dsimp only
      rw [tick_of_not_closes hnot]
    rw [if_neg hopen, hstays, hsample]
    exact ⟨herrors, Or.inr (Nat.le_refl _)⟩
  · rw [if_pos (closesWindow_iff.2 ⟨caps, hcloses⟩), heq]
    have hdecision : e.QuietDecision caps (e.evaluateTick caps nowMs done rttMs false).2
        (e.evaluateTick caps nowMs done rttMs false).1.lowGainWindows :=
      evaluateTick_quiet herrors
    have hbounded := (evaluateTick_withinCeilings h caps nowMs done rttMs false).toBounded
    obtain ⟨errors, base, avg, chunk, stats, low, closed, mbps, heval⟩ :=
      e.evaluateTick_eq caps nowMs done rttMs false
    refine ⟨rfl, ?_⟩
    apply act_rampLeft hdecision hbounded
    · rw [heval]
      exact hphase
    · rw [heval]
    · rw [heval]
      rfl
    · rw [heval]
      rfl
    · rfl

end Call

end TuningEngine

/-! ## After a ramp -/

/-- Neither the concurrency nor a window is above that of the other table. -/
structure TuneParams.NoHigher (p q : TuneParams) : Prop where
  concurrency : p.concurrency ≤ q.concurrency
  uploadWindow : p.uploadWindow ≤ q.uploadWindow
  downloadWindow : p.downloadWindow ≤ q.downloadWindow

namespace TuneParams.NoHigher

theorem refl (p : TuneParams) : p.NoHigher p := ⟨Nat.le_refl _, Nat.le_refl _, Nat.le_refl _⟩

theorem trans {p q r : TuneParams} (hpq : p.NoHigher q) (hqr : q.NoHigher r) : p.NoHigher r :=
  ⟨Nat.le_trans hpq.concurrency hqr.concurrency,
    Nat.le_trans hpq.uploadWindow hqr.uploadWindow,
    Nat.le_trans hpq.downloadWindow hqr.downloadWindow⟩

end TuneParams.NoHigher

/-- A call of the transfer under way: no beginning, no failed end. -/
def TuneCall.midTransfer : TuneCall F → Bool
  | .beginTransfer _ _ _ => false
  | .transferEnd ok => ok
  | _ => true

namespace TuningEngine

section After

variable {sha : Capabilities → Text} {e : TuningEngine F} {store : TuneStore}
  {caps : Capabilities} {nowMs : F}

omit [Float64 F] in
theorem setDim_noHigher {v : Nat} (hv : v ≤ e.dimValue) :
    (e.setDim v).params.NoHigher e.params := by
  unfold dimValue window at hv
  unfold setDim
  cases hdim : e.dim with
  | concurrency =>
      rw [hdim] at hv
      exact ⟨hv, Nat.le_refl _, Nat.le_refl _⟩
  | window =>
      cases hdir : e.direction with
      | upload =>
          rw [hdim, hdir] at hv
          exact ⟨Nat.le_refl _, hv, Nat.le_refl _⟩
      | download =>
          rw [hdim, hdir] at hv
          exact ⟨Nat.le_refl _, Nat.le_refl _, hv⟩

omit [Float64 F] in
theorem halveDim_noHigher (h : e.params.Bounded) : e.halveDim.params.NoHigher e.params := by
  obtain ⟨hpos, hle⟩ := dimValue_bounded h
  have hcast : asI64 e.dimValue = e.dimValue := if_pos (by omega)
  apply setDim_noHigher
  unfold halved
  rw [hcast]
  omega

/-- Only a raise gives a dimension more. -/
theorem act_noHigher {action : RampAction} (h : e.params.Bounded) (hraise : action ≠ .raise) :
    (e.act store caps nowMs action).1.params.NoHigher e.params := by
  cases action with
  | raise => exact absurd rfl hraise
  | advanceDim => exact .refl _
  | settle =>
      cases hpost : e.postDegradeSettle with
      | true =>
          rw [act_settle_of_postDegrade hpost]
          exact .refl _
      | false =>
          rw [act_settle hpost]
          exact .refl _
  | degrade => exact halveDim_noHigher h
  | hold =>
      obtain ⟨count, heq | ⟨-, heq⟩⟩ := e.act_hold store caps nowMs
      · rw [heq]
        exact .refl _
      · rw [heq]
        exact .refl _

theorem tick_noHigher {done : Nat} {rttMs : Option F} {error : Bool}
    (h : e.params.WithinCeilings) (hphase : e.phase ≠ .ramping) :
    ((TuneCall.tick nowMs done rttMs error).apply sha e store).1.params.NoHigher e.params := by
  rcases e.tick_cases sha store nowMs done rttMs error with
    ⟨errors, base, avg, -, heq⟩ | ⟨caps, -, heq⟩
  · rw [heq]
    exact .refl _
  · have hbounded := (evaluateTick_withinCeilings h caps nowMs done rttMs error).toBounded
    have hraise : (e.evaluateTick caps nowMs done rttMs error).2 ≠ .raise :=
      fun hraise => hphase (of_evaluateTick_raise hraise).1
    have hact : ((e.evaluateTick caps nowMs done rttMs error).1.act store caps nowMs
        (e.evaluateTick caps nowMs done rttMs error).2).1.params.NoHigher
          (e.evaluateTick caps nowMs done rttMs error).1.params := act_noHigher hbounded hraise
    obtain ⟨errors, base, avg, chunk, stats, low, closed, mbps, heval⟩ :=
      e.evaluateTick_eq caps nowMs done rttMs error
    have hmeasured : (e.evaluateTick caps nowMs done rttMs error).1.params.NoHigher e.params := by
      rw [heval]
      exact ⟨Nat.le_refl _, Nat.le_refl _, Nat.le_refl _⟩
    rw [heq]
    exact hact.trans hmeasured

/-- **Outside a ramp no call of a transfer gives a dimension more, or starts one.** -/
theorem apply_noHigher {call : TuneCall F} (h : e.params.WithinCeilings)
    (hphase : e.phase ≠ .ramping) (hcall : call.midTransfer = true) :
    (call.apply sha e store).1.phase ≠ .ramping ∧
      (call.apply sha e store).1.params.NoHigher e.params := by
  cases call with
  | setOrigin url => exact ⟨hphase, .refl _⟩
  | setDirection kind => exact ⟨hphase, .refl _⟩
  | setEnabled enabled => exact ⟨hphase, .refl _⟩
  | beginTransfer caps nowMs staticParams => cases hcall
  | tick nowMs done rttMs error =>
      exact ⟨tick_phase_ne_ramping (Or.inl hphase), tick_noHigher h hphase⟩
  | transferEnd ok =>
      have hok : ok = true := hcall
      have hkeeps : e.transferEnd store ok = (e, store) := by
        unfold transferEnd
        rw [hok]
        split
        · rfl
        · rfl
      have happly : (TuneCall.transferEnd ok).apply sha e store = (e, store) := hkeeps
      rw [happly]
      exact ⟨hphase, .refl _⟩

end After

end TuningEngine

/-! ## Runs -/

/-- Engine `i` only ticks, and reports no error. -/
def QuietTicks (i : Nat) (_ : TuneWorld F) (a : TuneAct F) : Prop :=
  a.1 = i → ∃ nowMs done rttMs, a.2 = .tick nowMs done rttMs false

/-- Engine `i` begins no transfer, and ends none as failed. -/
def MidTransfer (i : Nat) (_ : TuneWorld F) (a : TuneAct F) : Prop :=
  a.1 = i → a.2.midTransfer = true

/-- The step closes a window of engine `i`. -/
def closesWindowOf (i : Nat) (x : Taken (TuneWorld F) (TuneAct F)) : Bool :=
  match x.action with
  | (j, .tick nowMs _ _ _) => j == i && (x.before.engine i).closesWindow nowMs
  | _ => false

/-- The windows engine `i` has closed. -/
def windowsClosedBy (i : Nat) (history : List (Taken (TuneWorld F) (TuneAct F))) : Nat :=
  history.countP (closesWindowOf i)

/-- The ramp of engine `i` has met no error, and what is left of it makes up the
windows with those it has closed. -/
structure RampGoesOn (i : Nat) (history : List (Taken (TuneWorld F) (TuneAct F)))
    (w : TuneWorld F) : Prop where
  errors : (w.engine i).windowErrors = 0
  left : (w.engine i).rampLeft + windowsClosedBy i history < RAMP_WINDOWS

namespace TuneWorld

variable {sha : Capabilities → Text} {i : Nat}

theorem closesWindowOf_self {t u : TuneWorld F} {nowMs : F} {done : Nat} {rttMs : Option F}
    {error : Bool} : closesWindowOf i ⟨t, (i, .tick nowMs done rttMs error), u⟩ =
      (t.engine i).closesWindow nowMs := by
  unfold closesWindowOf
  dsimp only
  rw [beq_self_eq_true, Bool.true_and]

/-- A step of another engine closes no window of this one. -/
theorem closesWindowOf_ne {x : Taken (TuneWorld F) (TuneAct F)} (h : x.action.1 ≠ i) :
    closesWindowOf i x = false := by
  unfold closesWindowOf
  split
  · next j nowMs _ _ _ heq =>
      rw [heq] at h
      rw [beq_false_of_ne h]
      rfl
  · rfl

/-- **Step lemma of a ramp.** -/
theorem rampGoesOn_next {history : List (Taken (TuneWorld F) (TuneAct F))} {t u : TuneWorld F}
    {a : TuneAct F} (hceil : CeilingsHold t)
    (h : (t.engine i).phase = .ramping → RampGoesOn i history t) (hok : QuietTicks i t a)
    (hnext : next sha t a = some u) :
    (u.engine i).phase = .ramping → RampGoesOn i (⟨t, a, u⟩ :: history) u := by
  intro hphase
  obtain ⟨j, call⟩ := a
  by_cases hj : i = j
  · subst hj
    obtain ⟨nowMs, done, rttMs, rfl⟩ := hok rfl
    rw [next_engine_self hnext] at hphase
    have hbefore : (t.engine i).phase = .ramping := by
      by_contra hnot
      exact TuningEngine.tick_phase_ne_ramping (Or.inl hnot) hphase
    obtain ⟨herrors, hleft⟩ := h hbefore
    obtain ⟨herrors', hended | hless⟩ :=
      TuningEngine.tick_rampLeft sha t.store nowMs done rttMs (hceil i) hbefore herrors
    · exact absurd hphase hended
    · have hcounted : windowsClosedBy i (⟨t, (i, .tick nowMs done rttMs false), u⟩ :: history) =
          windowsClosedBy i history +
            if (t.engine i).closesWindow nowMs then 1 else 0 := by
        unfold windowsClosedBy
        rw [List.countP_cons, closesWindowOf_self]
      constructor
      · rw [next_engine_self hnext]
        exact herrors'
      · rw [next_engine_self hnext, hcounted]
        omega
  · rw [next_engine_ne hnext hj] at hphase
    obtain ⟨herrors, hleft⟩ := h hphase
    have hcounted : windowsClosedBy i (⟨t, (j, call), u⟩ :: history) =
        windowsClosedBy i history := by
      unfold windowsClosedBy
      rw [List.countP_cons_of_neg]
      rw [closesWindowOf_ne (Ne.symm hj)]
      exact Bool.false_ne_true
    constructor
    · rw [next_engine_ne hnext hj]
      exact herrors
    · rw [next_engine_ne hnext hj, hcounted]
      exact hleft

/-- **Step lemma after a ramp.** -/
theorem noHigher_next {t u : TuneWorld F} {a : TuneAct F} (hceil : CeilingsHold t)
    (hphase : (t.engine i).phase ≠ .ramping) (hok : MidTransfer i t a)
    (hnext : next sha t a = some u) :
    (u.engine i).phase ≠ .ramping ∧ (u.engine i).params.NoHigher (t.engine i).params := by
  obtain ⟨j, call⟩ := a
  by_cases hj : i = j
  · subst hj
    rw [next_engine_self hnext]
    exact TuningEngine.apply_noHigher (hceil i) hphase (hok rfl)
  · rw [next_engine_ne hnext hj]
    exact ⟨hphase, .refl _⟩

/-- **Run lemma after a ramp.** -/
theorem noHigher_of_reaches {t u : TuneWorld F} (hceil : CeilingsHold t)
    (hphase : (t.engine i).phase ≠ .ramping) (hrun : Reaches (next sha) (MidTransfer i) t u) :
    CeilingsHold u ∧ (u.engine i).phase ≠ .ramping ∧
      (u.engine i).params.NoHigher (t.engine i).params := by
  apply hrun.invariant (I := fun v => CeilingsHold v ∧ (v.engine i).phase ≠ .ramping ∧
    (v.engine i).params.NoHigher (t.engine i).params)
  · intro v a x hI hok hnext
    obtain ⟨hceil, hphase, hlower⟩ := hI
    obtain ⟨hphase', hlower'⟩ := noHigher_next hceil hphase hok hnext
    exact ⟨ceilings_next hceil hnext, hphase', hlower'.trans hlower⟩
  · exact ⟨hceil, hphase, .refl _⟩

omit [Float64 F] in
/-- Any ramp has fewer windows left than end every ramp. -/
theorem rampLeft_lt {w : TuneWorld F} (hceil : CeilingsHold w) :
    (w.engine i).rampLeft < RAMP_WINDOWS := by
  obtain ⟨hpos, -⟩ := TuningEngine.dimValue_bounded (hceil i).toBounded
  have hlater : TuningEngine.laterRoom (w.engine i).dim ≤ 128 := by
    cases (w.engine i).dim <;> decide
  have hall : RAMP_WINDOWS = 256 := by decide
  unfold TuningEngine.rampLeft
  omega

/-- A transfer begins without errors. -/
theorem windowErrors_of_begin {v w : TuneWorld F} {caps : Capabilities} {nowMs : F}
    {staticParams : TuneParams}
    (h : next sha w (i, .beginTransfer caps nowMs staticParams) = some v) :
    (v.engine i).windowErrors = 0 := by
  rw [next_engine_self h]
  unfold TuneCall.apply TuningEngine.beginTransfer
  dsimp only
  split
  · rfl
  · cases (TuningEngine.reusable _ w.store nowMs).2 with
    | none => rfl
    | some settled => rfl

end TuneWorld

/-- **Every ramp that meets no error ends, and nothing climbs after a ramp.**  In
any run of any engines over one store: a transfer that begins as a ramp and only sees
ticks without error has left it when it has closed `RAMP_WINDOWS` windows; and from a
tick that leaves a ramp until the next transfer begins or fails, neither the
concurrency nor a window ever increases. -/
theorem ramps_end_and_stay_down {sha : Capabilities → Text} {w₀ w : TuneWorld F}
    (hfresh : w₀.Fresh) (hrun : Reaches (TuneWorld.next sha) (fun _ _ => True) w₀ w) (i : Nat) :
    (∀ caps nowMs staticParams v u history,
      TuneWorld.next sha w (i, .beginTransfer caps nowMs staticParams) = some v →
      (v.engine i).phase = .ramping →
      Traced (TuneWorld.next sha) (QuietTicks i) v history u →
      RAMP_WINDOWS ≤ windowsClosedBy i history → (u.engine i).phase ≠ .ramping) ∧
    ∀ nowMs done rttMs error v t u, (w.engine i).phase = .ramping →
      TuneWorld.next sha w (i, .tick nowMs done rttMs error) = some v →
      (v.engine i).phase ≠ .ramping →
      Reaches (TuneWorld.next sha) (MidTransfer i) v t →
      Reaches (TuneWorld.next sha) (MidTransfer i) t u →
      (u.engine i).params.NoHigher (t.engine i).params := by
  have hceil : CeilingsHold w := hrun.invariant
    (fun _ _ _ hI _ hnext => TuneWorld.ceilings_next hI hnext) hfresh.ceilings
  constructor
  · intro caps nowMs staticParams v u history hbegin _ htrace hmany hphase
    have hbegun : RampGoesOn i [] v := by
      constructor
      · exact TuneWorld.windowErrors_of_begin hbegin
      · exact TuneWorld.rampLeft_lt (TuneWorld.ceilings_next hceil hbegin)
    have hgoes : CeilingsHold u ∧ ((u.engine i).phase = .ramping → RampGoesOn i history u) := by
      apply htrace.invariant (I := fun history x => CeilingsHold x ∧
        ((x.engine i).phase = .ramping → RampGoesOn i history x))
      · intro history x a y hI hok hnext
        exact ⟨TuneWorld.ceilings_next hI.1 hnext,
          TuneWorld.rampGoesOn_next hI.1 hI.2 hok hnext⟩
      · exact ⟨TuneWorld.ceilings_next hceil hbegin, fun _ => hbegun⟩
    have hleft := (hgoes.2 hphase).left
    omega
  · intro nowMs done rttMs error v t u _ htick hleft hmid hmid'
    obtain ⟨hceil', hphase', -⟩ :=
      TuneWorld.noHigher_of_reaches (TuneWorld.ceilings_next hceil htick) hleft hmid
    exact (TuneWorld.noHigher_of_reaches hceil' hphase' hmid').2.2

/-- A ramp to four windows of four transfers settles, and a window with an error then
halves the concurrency. -/
theorem ramp_ends_and_stays_down :
    ∃ w v u, Reaches (TuneWorld.next sampleSha) (fun _ _ => True) sampleWorld w ∧
      TuneWorld.next sampleSha w (0, .tick 6000 63000000 none false) = some v ∧
      TuneWorld.next sampleSha v (0, .tick 7000 64000000 none true) = some u ∧
      (v.engine 0).params.concurrency = 4 ∧ (u.engine 0).params.concurrency = 2 ∧
      (u.engine 0).params.NoHigher (v.engine 0).params := by
  have hrun : ((runIf (TuneWorld.next sampleSha) (fun _ _ => true) sampleWorld
      (rampActs.take 7)).any fun w =>
        (w.engine 0).phase = .ramping ∧
          ((TuneWorld.next sampleSha w (0, .tick 6000 63000000 none false)).any fun v =>
            (v.engine 0).phase ≠ .ramping ∧ (v.engine 0).params.concurrency = 4 ∧
              ((TuneWorld.next sampleSha v (0, .tick 7000 64000000 none true)).any fun u =>
                (u.engine 0).params.concurrency = 2))) = true := by
    decide +kernel
  obtain ⟨w, hw, hend⟩ := (Option.any_eq_true _ _).1 hrun
  obtain ⟨hramping, hnext⟩ := of_decide_eq_true hend
  obtain ⟨v, hv, hend⟩ := (Option.any_eq_true _ _).1 hnext
  obtain ⟨hended, hfour, hnext⟩ := of_decide_eq_true hend
  obtain ⟨u, hu, hend⟩ := (Option.any_eq_true _ _).1 hnext
  have hreach : Reaches (TuneWorld.next sampleSha) (fun _ _ => True) sampleWorld w :=
    reaches_of_runIf (fun _ _ _ => trivial) hw
  have hdown := (ramps_end_and_stay_down sampleWorld_fresh hreach 0).2 6000 63000000 none false
    v v u hramping hv hended .refl (Reaches.refl.tail (fun _ => rfl) hu)
  exact ⟨w, v, u, hreach, hv, hu, hfour, of_decide_eq_true hend, hdown⟩

end Libfw

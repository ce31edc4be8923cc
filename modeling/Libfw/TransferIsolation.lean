import Libfw.TuneRuns

/-!
# What a transfer inherits

Two engines that agree on what `begin_transfer` reads, and on nothing else, begin the same
transfer and are given the same ticks.  After `begin_transfer` they differ in the statistics
at most, and only where a settle was reused (`alike_beginTransfer`); the statistics are read
while a ramp is under way, and no tick starts one (`alike_tick`).

* `no_measurement_leaks` — the phases, the parameters and the store writes are the same.
-/

namespace Libfw

open Float64

variable {F : Type} [Float64 F]

/-- The arguments of a tick. -/
structure TickSample (F : Type) where
  nowMs : F
  done : Nat
  rttMs : Option F
  error : Bool

/-- What a call leaves to be seen: the phase, the parameters, what it returns of the store,
and what it does to a store, whatever that holds. -/
structure TuneView where
  phase : TunePhase
  params : TuneParams
  store : TuneStore
  writes : TuneStore → TuneStore

namespace TuningEngine

/-- One tick, and the view after it. -/
def tickView (w : TuningEngine F × TuneStore) (x : TickSample F) :
    (TuningEngine F × TuneStore) × TuneView :=
  let after := w.1.tick w.2 x.nowMs x.done x.rttMs x.error
  ((after.1, after.2.1), ⟨after.1.phase, after.1.params, after.2.1,
    fun st => (w.1.tick st x.nowMs x.done x.rttMs x.error).2.1⟩)

/-- The views of a sequence of ticks. -/
def tickViews (w : TuningEngine F × TuneStore) : List (TickSample F) → List TuneView
  | [] => []
  | x :: rest => (tickView w x).2 :: tickViews (tickView w x).1 rest

/-- A transfer: `begin_transfer`, then ticks. -/
def transferViews (e : TuningEngine F) (store : TuneStore) (sha : Capabilities → Text)
    (caps : Capabilities) (nowMs : F) (staticParams : TuneParams)
    (ticks : List (TickSample F)) : List TuneView :=
  let begun := e.beginTransfer store sha caps nowMs staticParams
  ⟨begun.1.phase, begun.1.params, begun.2,
      fun st => (e.beginTransfer st sha caps nowMs staticParams).2⟩ ::
    tickViews begun ticks

/-- The engines agree on the configuration, the origin, the direction, the cache and the
settle in memory. -/
structure SameSetup (e e' : TuningEngine F) : Prop where
  enabled : e'.enabled = e.enabled
  direction : e'.direction = e.direction
  hasStore : e'.hasStore = e.hasStore
  cacheTtlMs : e'.cacheTtlMs = e.cacheTtlMs
  origin : e'.origin = e.origin
  settled : e'.settled = e.settled
  settledCapsHash : e'.settledCapsHash = e.settledCapsHash
  settledDirection : e'.settledDirection = e.settledDirection

/-- The engine with other statistics. -/
def withStats (e : TuningEngine F) (s : TuneStats F) : TuningEngine F := { e with stats := s }

/-- **The relation two engines keep**: they differ in the statistics at most, and in nothing
while a ramp is under way. -/
structure Alike (e e' : TuningEngine F) : Prop where
  eq : e' = e.withStats e'.stats
  ramping : e.phase = .ramping → e' = e

omit [Float64 F] in
theorem Alike.phase_eq {e e' : TuningEngine F} (h : Alike e e') : e'.phase = e.phase := by
  rw [h.eq]
  rfl

omit [Float64 F] in
theorem Alike.params_eq {e e' : TuningEngine F} (h : Alike e e') : e'.params = e.params := by
  rw [h.eq]
  rfl

/-! ## Beginning -/

section Begin

variable {e e' : TuningEngine F} {caps : Capabilities} {nowMs : F} {staticParams : TuneParams}
  {sha : Capabilities → Text}

/-- What `begin_transfer` resets is all that the setup does not fix, but for the phase, the
parameters, the dimension and the statistics. -/
theorem SameSetup.resetTransfer (h : SameSetup e e') (hash : Text) (caps : Capabilities)
    (nowMs : F) (staticParams : TuneParams) :
    e'.resetTransfer hash caps nowMs staticParams =
      { e.resetTransfer hash caps nowMs staticParams with
        phase := e'.phase
        params := e'.params
        dim := e'.dim
        stats := e'.stats } := by
  obtain ⟨h1, h2, h3, h4, h5, h6, h7, h8⟩ := h
  unfold TuningEngine.resetTransfer
  rw [h1, h2, h3, h4, h5, h6, h7, h8]

/-- A transfer of an enabled engine starts from what can be reused. -/
theorem beginTransfer_of_enabled (hon : e.enabled = true) (store : TuneStore) :
    e.beginTransfer store sha caps nowMs staticParams =
      let r := e.resetTransfer (sha caps) caps nowMs staticParams
      let started := r.startFrom caps staticParams.compressLevel (r.reusable store nowMs).2
      ({ started with dim := .window, params := started.params.enforceInFlightBudget },
        (r.reusable store nowMs).1) := by
  have hreset : ¬ (e.resetTransfer (sha caps) caps nowMs staticParams).enabled = false := by
    rw [show (e.resetTransfer (sha caps) caps nowMs staticParams).enabled = e.enabled from rfl, hon]
    exact Bool.noConfusion
  exact if_neg hreset

/-- Both begin alike, and do the same to the store. -/
theorem alike_beginTransfer (h : SameSetup e e') (hon : e.enabled = true) (store : TuneStore)
    (sha : Capabilities → Text) (caps : Capabilities) (nowMs : F) (staticParams : TuneParams) :
    Alike (e.beginTransfer store sha caps nowMs staticParams).1
        (e'.beginTransfer store sha caps nowMs staticParams).1 ∧
      (e'.beginTransfer store sha caps nowMs staticParams).2 =
        (e.beginTransfer store sha caps nowMs staticParams).2 := by
  have hreset := h.resetTransfer (sha caps) caps nowMs staticParams
  have hreuse : (e'.resetTransfer (sha caps) caps nowMs staticParams).reusable store nowMs =
      (e.resetTransfer (sha caps) caps nowMs staticParams).reusable store nowMs := by
    rw [hreset]
    rfl
  rw [beginTransfer_of_enabled hon, beginTransfer_of_enabled (h.enabled.trans hon)]
  dsimp only
  rw [hreuse]
  refine ⟨?_, rfl⟩
  rw [hreset]
  -- A reused settle keeps the statistics, and is no ramp; a fresh ramp resets them.
  cases ((e.resetTransfer (sha caps) caps nowMs staticParams).reusable store nowMs).2 with
  | none => exact ⟨rfl, fun _ => rfl⟩
  | some settled => exact ⟨rfl, fun hramping => TunePhase.noConfusion hramping⟩

end Begin

/-! ## Ticking -/

section Tick

variable {e : TuningEngine F} {s : TuneStats F} {caps : Capabilities} {nowMs : F} {done : Nat}
  {rttMs : Option F} {error : Bool} {store : TuneStore}

theorem sample_withStats :
    (e.withStats s).sample rttMs error = (e.sample rttMs error).withStats s := by
  unfold sample
  cases error with
  | true => cases rttMs.filter fun r => lt (lit 0) r <;> rfl
  | false => cases rttMs.filter fun r => lt (lit 0) r <;> rfl

theorem measured_withStats (mbps : F) : ∃ s',
    (e.withStats s).measured caps mbps = (e.measured caps mbps).withStats s' := by
  unfold measured retuneChunkSize withStats
  dsimp only
  split
  · exact ⟨_, rfl⟩
  · exact ⟨_, rfl⟩

/-- The statistics weigh in no decision, but in a ramp. -/
theorem rampInput_withStats (hphase : e.phase ≠ .ramping) (mbps : F) :
    (e.withStats s).rampInput caps mbps = e.rampInput caps mbps := by
  have hbdp : ∀ b : Nat, (if e.phase = .ramping ∧ e.dim = .concurrency then b else 0) = 0 :=
    fun _ => if_neg fun h => hphase h.1
  unfold rampInput withStats
  dsimp only
  rw [hbdp, hbdp]
  rfl

theorem evaluate_withStats (hphase : e.phase ≠ .ramping) (elapsed : F) : ∃ s',
    (e.withStats s).evaluate caps done elapsed =
      ((e.evaluate caps done elapsed).1.withStats s', (e.evaluate caps done elapsed).2) := by
  have hmbps : (e.withStats s).throughput done elapsed = e.throughput done elapsed := rfl
  obtain ⟨s', hmeasured⟩ : ∃ s', (e.withStats s).measured caps (e.throughput done elapsed) =
      (e.measured caps (e.throughput done elapsed)).withStats s' := measured_withStats _
  have hstill : (e.measured caps (e.throughput done elapsed)).phase ≠ .ramping := by
    obtain ⟨chunk, stats, heq⟩ := e.measured_eq caps (e.throughput done elapsed)
    rw [heq]
    exact hphase
  refine ⟨s', ?_⟩
  unfold evaluate
  dsimp only
  rw [hmbps, hmeasured, rampInput_withStats hstill]
  rfl

omit [Float64 F] in
theorem setDim_withStats (v : Nat) : (e.withStats s).setDim v = (e.setDim v).withStats s := by
  unfold setDim
  rw [show (e.withStats s).dim = e.dim from rfl,
    show (e.withStats s).direction = e.direction from rfl]
  cases e.dim with
  | concurrency => rfl
  | window =>
      cases e.direction with
      | upload => rfl
      | download => rfl

/-- Acting neither reads nor moves the statistics. -/
theorem act_withStats {action : RampAction} :
    (e.withStats s).act store caps nowMs action =
      ((e.act store caps nowMs action).1.withStats s, (e.act store caps nowMs action).2) := by
  cases action with
  | raise =>
      have hraise : (e.withStats s).raiseDim caps = (e.raiseDim caps).withStats s :=
        setDim_withStats _
      unfold act
      dsimp only
      rw [hraise]
      rfl
  | advanceDim => rfl
  | settle =>
      cases hpost : e.postDegradeSettle with
      | true =>
          have hpost' : (e.withStats s).postDegradeSettle = true := hpost
          rw [act_settle_of_postDegrade hpost, act_settle_of_postDegrade hpost']
          rfl
      | false =>
          have hpost' : (e.withStats s).postDegradeSettle = false := hpost
          rw [act_settle hpost, act_settle hpost']
          rfl
  | degrade =>
      have hhalve : (e.withStats s).halveDim = e.halveDim.withStats s := setDim_withStats _
      unfold act
      dsimp only
      rw [hhalve]
      rfl
  | hold =>
      unfold act
      dsimp only
      rw [show (e.withStats s).phase = e.phase from rfl,
        show (e.withStats s).degradedWindows = e.degradedWindows from rfl]
      split_ifs <;> rfl

theorem closeWindow_withStats (hphase : e.phase ≠ .ramping) (s : TuneStats F) (store : TuneStore)
    (caps : Capabilities) (nowMs : F) (done : Nat) (elapsed : F) : ∃ s',
    (e.withStats s).closeWindow store caps nowMs done elapsed =
      ((e.closeWindow store caps nowMs done elapsed).1.withStats s',
        (e.closeWindow store caps nowMs done elapsed).2) := by
  obtain ⟨s', heval⟩ : ∃ s', (e.withStats s).evaluate caps done elapsed =
      ((e.evaluate caps done elapsed).1.withStats s', (e.evaluate caps done elapsed).2) :=
    evaluate_withStats hphase elapsed
  refine ⟨s', ?_⟩
  unfold closeWindow
  rw [heval]
  dsimp only
  rw [act_withStats]
  rfl

/-- Where no ramp is under way, the statistics change nothing of what a tick does. -/
theorem tick_withStats (hphase : e.phase ≠ .ramping) : ∃ s',
    ((e.withStats s).tick store nowMs done rttMs error).1 =
        (e.tick store nowMs done rttMs error).1.withStats s' ∧
      ((e.withStats s).tick store nowMs done rttMs error).2.1 =
        (e.tick store nowMs done rttMs error).2.1 := by
  by_cases hcloses : ∃ caps, e.Closes nowMs caps
  · obtain ⟨caps, hcaps⟩ := hcloses
    have hcaps' : (e.withStats s).Closes nowMs caps := hcaps
    obtain ⟨base, avg, hsample⟩ := e.sample_eq rttMs error
    have hsampled : (e.sample rttMs error).phase ≠ .ramping := by
      rw [hsample]
      exact hphase
    obtain ⟨s', hclose⟩ :=
      closeWindow_withStats hsampled s store caps nowMs done (nowMs - e.windowStartMs)
    refine ⟨s', ?_⟩
    rw [(tick_of_closes hcaps).1, (tick_of_closes hcaps).2, (tick_of_closes hcaps').1,
      (tick_of_closes hcaps').2, sample_withStats]
    rw [show (e.withStats s).windowStartMs = e.windowStartMs from rfl, hclose]
    exact ⟨rfl, rfl⟩
  · have hnot : ∀ caps, ¬ e.Closes nowMs caps := fun caps h => hcloses ⟨caps, h⟩
    have hnot' : ∀ caps, ¬ (e.withStats s).Closes nowMs caps := hnot
    rw [tick_of_not_closes hnot, tick_of_not_closes hnot', sample_withStats]
    exact ⟨s, rfl, rfl⟩

/-- **One tick keeps two engines alike**, and does the same to every store. -/
theorem alike_tick {e' : TuningEngine F} (h : Alike e e') (store : TuneStore) (nowMs : F)
    (done : Nat) (rttMs : Option F) (error : Bool) :
    Alike (e.tick store nowMs done rttMs error).1 (e'.tick store nowMs done rttMs error).1 ∧
      (e'.tick store nowMs done rttMs error).2.1 = (e.tick store nowMs done rttMs error).2.1 := by
  by_cases hphase : e.phase = .ramping
  · rw [h.ramping hphase]
    exact ⟨⟨rfl, fun _ => rfl⟩, rfl⟩
  · obtain ⟨s', hengine, hstore⟩ : ∃ s',
        ((e.withStats e'.stats).tick store nowMs done rttMs error).1 =
            (e.tick store nowMs done rttMs error).1.withStats s' ∧
          ((e.withStats e'.stats).tick store nowMs done rttMs error).2.1 =
            (e.tick store nowMs done rttMs error).2.1 := tick_withStats hphase
    rw [h.eq, hengine, hstore]
    refine ⟨⟨rfl, ?_⟩, rfl⟩
    intro hramping
    have hnone : ((TuneCall.tick nowMs done rttMs error).apply (fun _ => []) e store).1.phase ≠
        .ramping := tick_phase_ne_ramping (Or.inl hphase)
    exact absurd hramping hnone

end Tick

/-! ## The views of two transfers -/

theorem Alike.tickView {e e' : TuningEngine F} (h : Alike e e') (store : TuneStore)
    (x : TickSample F) :
    Alike (tickView (e, store) x).1.1 (tickView (e', store) x).1.1 ∧
      (tickView (e', store) x).1.2 = (tickView (e, store) x).1.2 ∧
        (tickView (e', store) x).2 = (tickView (e, store) x).2 := by
  obtain ⟨halike, hstore⟩ := alike_tick h store x.nowMs x.done x.rttMs x.error
  refine ⟨halike, hstore, ?_⟩
  have hwrites : (fun st => (e'.tick st x.nowMs x.done x.rttMs x.error).2.1) =
      fun st => (e.tick st x.nowMs x.done x.rttMs x.error).2.1 :=
    funext fun st => (alike_tick h st x.nowMs x.done x.rttMs x.error).2
  unfold TuningEngine.tickView
  dsimp only
  rw [hstore, hwrites, halike.phase_eq, halike.params_eq]

theorem Alike.tickViews {ticks : List (TickSample F)} : ∀ {e e' : TuningEngine F},
    Alike e e' → ∀ store : TuneStore, tickViews (e', store) ticks = tickViews (e, store) ticks := by
  induction ticks with
  | nil =>
      intro e e' h store
      rfl
  | cons x rest ih =>
      intro e e' h store
      obtain ⟨halike, hstore, hview⟩ := h.tickView store x
      have hrest := ih halike (TuningEngine.tickView (e, store) x).1.2
      unfold TuningEngine.tickViews
      rw [hview, ← hrest, ← hstore]

/-- **No measurement leaks between transfers**: whatever the engines have measured before, a
transfer begun with the same arguments goes through the same phases and parameters, and
writes the same to the store. -/
theorem no_measurement_leaks {e e' : TuningEngine F} (h : SameSetup e e')
    (hon : e.enabled = true) (store : TuneStore) (sha : Capabilities → Text)
    (caps : Capabilities) (nowMs : F) (staticParams : TuneParams) (ticks : List (TickSample F)) :
    e'.transferViews store sha caps nowMs staticParams ticks =
      e.transferViews store sha caps nowMs staticParams ticks := by
  obtain ⟨halike, hstore⟩ := alike_beginTransfer h hon store sha caps nowMs staticParams
  have hwrites : (fun st => (e'.beginTransfer st sha caps nowMs staticParams).2) =
      fun st => (e.beginTransfer st sha caps nowMs staticParams).2 :=
    funext fun st => (alike_beginTransfer h hon st sha caps nowMs staticParams).2
  have hticks : tickViews _ ticks = tickViews _ ticks :=
    halike.tickViews (e.beginTransfer store sha caps nowMs staticParams).2
  unfold transferViews
  dsimp only
  rw [hwrites, halike.phase_eq, halike.params_eq, hstore, ← hticks, ← hstore]

/-- An engine that has measured two windows of a transfer. -/
def warmEngine : TuningEngine ℚ :=
  let fresh := (sampleWorld.engine 0).beginTransfer sampleWorld.store sampleSha .dflt 0 sampleStatic
  (((fresh.1.tick fresh.2 1000 1000000 (some 40) false).1).tick fresh.2 2000 3000000 none true).1

/-- The two windows leave no trace in the next transfer. -/
theorem warm_engine_starts_over :
    (sampleWorld.engine 0).enabled = true ∧ SameSetup (sampleWorld.engine 0) warmEngine ∧
      warmEngine.phase = .degraded ∧
      ∀ ticks, warmEngine.transferViews sampleWorld.store sampleSha .dflt 5000 sampleStatic ticks =
        (sampleWorld.engine 0).transferViews sampleWorld.store sampleSha .dflt 5000 sampleStatic
          ticks := by
  have hsame : SameSetup (sampleWorld.engine 0) warmEngine :=
    ⟨by decide +kernel, by decide +kernel, by decide +kernel, by decide +kernel,
      by decide +kernel, by decide +kernel, by decide +kernel, by decide +kernel⟩
  exact ⟨rfl, hsame, by decide +kernel, no_measurement_leaks hsame rfl _ _ _ _ _⟩

end TuningEngine

end Libfw

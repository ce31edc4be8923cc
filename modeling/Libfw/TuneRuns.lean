import Libfw.GuardedRuns
import Libfw.TuningEngine

/-!
# Runs of tuning engines over one store

Any number of engines, in any order of calls, over one store of settled results.
Beside the engines a run keeps a log, which no engine reads: what the current
transfer of an engine was begun with, whether a window of it has degraded, and
for every settle in memory and every stored row, where it was measured.

`tick_cases` says everything a tick can do.
-/

namespace Libfw

open Float64 GuardedRuns

/-- The calls of an engine that matter for its parameters. -/
inductive TuneCall (F : Type) where
  | setOrigin (url : Text)
  | setDirection (kind : TransferKind)
  | setEnabled (enabled : Bool)
  | beginTransfer (caps : Capabilities) (nowMs : F) (staticParams : TuneParams)
  | tick (nowMs : F) (done : Nat) (rttMs : Option F) (error : Bool)
  | transferEnd (ok : Bool)

variable {F : Type} [Float64 F]

def TuneCall.apply (sha : Capabilities → Text) (e : TuningEngine F) (store : TuneStore) :
    TuneCall F → TuningEngine F × TuneStore
  | .setOrigin url => (e.setOrigin url, store)
  | .setDirection kind => (e.setDirection kind, store)
  | .setEnabled enabled => (e.setEnabled enabled, store)
  | .beginTransfer caps nowMs staticParams => e.beginTransfer store sha caps nowMs staticParams
  | .tick nowMs done rttMs error =>
      ((e.tick store nowMs done rttMs error).1, (e.tick store nowMs done rttMs error).2.1)
  | .transferEnd ok => e.transferEnd store ok

/-! ## What a tick can do -/

namespace TuningEngine

/-- The engine as it is when the window of this tick acts, and the action. -/
def evaluateTick (e : TuningEngine F) (caps : Capabilities) (nowMs : F) (done : Nat)
    (rttMs : Option F) (error : Bool) : TuningEngine F × RampAction :=
  (e.sample rttMs error).evaluate caps done (nowMs - e.windowStartMs)

/-- The errors of the window, with the one this tick reports. -/
def errorsWith (e : TuningEngine F) (error : Bool) : Nat :=
  if error then (e.windowErrors + 1) % 2 ^ 32 else e.windowErrors

variable {e : TuningEngine F} {store : TuneStore} {caps : Capabilities} {nowMs : F} {done : Nat}
  {rttMs : Option F} {error : Bool}

/-- Before it acts, a tick moves only samples, counters and the chunk size. -/
theorem evaluateTick_eq (e : TuningEngine F) (caps : Capabilities) (nowMs : F) (done : Nat)
    (rttMs : Option F) (error : Bool) :
    ∃ errors base avg chunkSize stats low closed mbps,
      (e.evaluateTick caps nowMs done rttMs error).1 =
        { e with
          windowErrors := errors
          rttBaseline := base
          rttEwma := avg
          stats := stats
          params := { e.params with chunkSize := chunkSize }
          lowGainWindows := low
          windowsClosed := closed
          prevMbps := mbps } := by
  obtain ⟨base, avg, hsample⟩ := e.sample_eq rttMs error
  unfold evaluateTick
  rw [hsample]
  obtain ⟨chunk, stats, low, closed, mbps, heq⟩ := evaluate_eq { e with
    windowErrors := if error then (e.windowErrors + 1) % 2 ^ 32 else e.windowErrors
    rttBaseline := base
    rttEwma := avg } caps done (nowMs - e.windowStartMs)
  rw [heq]
  exact ⟨_, _, _, _, _, _, _, _, rfl⟩

theorem evaluateTick_degrade_iff :
    (e.evaluateTick caps nowMs done rttMs error).2 = .degrade ↔ 0 < e.errorsWith error := by
  obtain ⟨base, avg, hsample⟩ := e.sample_eq rttMs error
  unfold evaluateTick
  rw [hsample]
  exact evaluate_degrade_iff

theorem of_evaluateTick_raise (h : (e.evaluateTick caps nowMs done rttMs error).2 = .raise) :
    e.phase = .ramping ∧ e.dimAtCap caps = false := by
  obtain ⟨base, avg, hsample⟩ := e.sample_eq rttMs error
  unfold evaluateTick at h
  rw [hsample] at h
  have hraise := of_evaluate_raise h
  exact hraise

theorem evaluateTick_settle_iff (hphase : e.phase ≠ .ramping) :
    (e.evaluateTick caps nowMs done rttMs error).2 = .settle ↔
      e.errorsWith error = 0 ∧ e.SettlesIdle caps := by
  obtain ⟨base, avg, hsample⟩ := e.sample_eq rttMs error
  unfold evaluateTick
  rw [hsample]
  exact evaluate_settle_iff hphase

/-- **Everything a tick can do**: take its samples; or close a window, which
acts on the engine as it is then. -/
theorem tick_cases (sha : Capabilities → Text) (e : TuningEngine F) (store : TuneStore)
    (nowMs : F) (done : Nat) (rttMs : Option F) (error : Bool) :
    (∃ errors base avg, (∀ caps, ¬ e.Closes nowMs caps) ∧
      (TuneCall.tick nowMs done rttMs error).apply sha e store =
        ({ e with windowErrors := errors, rttBaseline := base, rttEwma := avg }, store)) ∨
    ∃ caps, e.Closes nowMs caps ∧
      (TuneCall.tick nowMs done rttMs error).apply sha e store =
        ({ ((e.evaluateTick caps nowMs done rttMs error).1.act store caps nowMs
              (e.evaluateTick caps nowMs done rttMs error).2).1 with
            windowStartMs := nowMs, windowDoneBase := done, windowErrors := 0 },
          ((e.evaluateTick caps nowMs done rttMs error).1.act store caps nowMs
              (e.evaluateTick caps nowMs done rttMs error).2).2) := by
  by_cases hcloses : ∃ caps, e.Closes nowMs caps
  · right
    obtain ⟨caps, hcaps⟩ := hcloses
    refine ⟨caps, hcaps, ?_⟩
    exact Prod.ext (tick_of_closes hcaps).1 (tick_of_closes hcaps).2
  · left
    obtain ⟨base, avg, hsample⟩ := e.sample_eq rttMs error
    have hnot : ∀ caps, ¬ e.Closes nowMs caps := fun caps h => hcloses ⟨caps, h⟩
    refine ⟨e.errorsWith error, base, avg, hnot, ?_⟩
    unfold TuneCall.apply
    dsimp only
    rw [tick_of_not_closes hnot, hsample]
    rfl

/-! ## What a beginning can do -/

/-- Where a transfer takes its parameters from. -/
inductive Source where
  | memory
  | cache
  deriving DecidableEq

/-- The reuse `begin_transfer` decides for; `none` is a fresh start. -/
def source (e : TuningEngine F) (store : TuneStore) (nowMs : F) : Option Source :=
  if e.enabled = false then none
  else if e.inMemory.isSome then some .memory
  else if (e.loadCachedSettle store nowMs e.capsHash).2.isSome then some .cache
  else none

theorem loadCachedSettle_cases (e : TuningEngine F) (store : TuneStore) (nowMs : F)
    (hash : Text) :
    (∃ key entry, e.cacheKey = some key ∧ store key = some (.entry entry) ∧
      e.entryUsable entry nowMs hash = true ∧ e.loadCachedSettle store nowMs hash =
        (store, some (entry.params.intoParams e.policyLevel))) ∨
    ((e.loadCachedSettle store nowMs hash).2 = none ∧
      ((e.loadCachedSettle store nowMs hash).1 = store ∨
        ∃ key, (e.loadCachedSettle store nowMs hash).1 = store.remove key)) := by
  unfold loadCachedSettle
  cases hkey : e.cacheKey with
  | none => exact Or.inr ⟨rfl, Or.inl rfl⟩
  | some key =>
      dsimp only
      cases hrow : store key with
      | none => exact Or.inr ⟨rfl, Or.inl rfl⟩
      | some row =>
          cases row with
          | unreadable text => exact Or.inr ⟨rfl, Or.inr ⟨key, rfl⟩⟩
          | entry entry =>
              dsimp only
              by_cases husable : e.entryUsable entry nowMs hash = true
              · left
                refine ⟨key, entry, rfl, hrow, husable, ?_⟩
                rw [if_pos husable]
              · right
                rw [if_neg husable]
                exact ⟨rfl, Or.inr ⟨key, rfl⟩⟩

/-- Beginning a transfer writes nothing into the store. -/
theorem beginTransfer_store {sha : Capabilities → Text} {staticParams : TuneParams} {key : Text}
    {row : TuneRow} (h : (e.beginTransfer store sha caps nowMs staticParams).2 key = some row) :
    store key = some row := by
  unfold beginTransfer at h
  dsimp only at h
  split at h
  · exact h
  · have hreusable : ∀ e' : TuningEngine F, (e'.reusable store nowMs).1 key = some row →
        store key = some row := by
      intro e' h'
      unfold reusable at h'
      split at h'
      · exact h'
      · rcases e'.loadCachedSettle_cases store nowMs e'.capsHash with
          ⟨_, _, _, _, _, heq⟩ | ⟨-, heq | ⟨removed, heq⟩⟩
        · rw [heq] at h'
          exact h'
        · rw [heq] at h'
          exact h'
        · rw [heq] at h'
          unfold TuneStore.remove at h'
          split at h'
          · cases h'
          · exact h'
    exact hreusable _ h

/-- Beginning a transfer labels the engine with the advertisement, and keeps what is
remembered. -/
theorem beginTransfer_keeps (e : TuningEngine F) (store : TuneStore)
    (sha : Capabilities → Text) (caps : Capabilities) (nowMs : F) (staticParams : TuneParams) :
    (e.beginTransfer store sha caps nowMs staticParams).1.capsHash = sha caps ∧
      (e.beginTransfer store sha caps nowMs staticParams).1.settled = e.settled ∧
      (e.beginTransfer store sha caps nowMs staticParams).1.settledCapsHash =
        e.settledCapsHash ∧
      (e.beginTransfer store sha caps nowMs staticParams).1.settledDirection =
        e.settledDirection := by
  unfold beginTransfer
  dsimp only
  split
  · exact ⟨rfl, rfl, rfl, rfl⟩
  · cases (reusable _ store nowMs).2 with
    | none => exact ⟨rfl, rfl, rfl, rfl⟩
    | some p => exact ⟨rfl, rfl, rfl, rfl⟩

/-! ## What an end can do -/

omit [Float64 F] in
/-- Ending a transfer forgets or keeps what is remembered, and adds nothing. -/
theorem transferEnd_cases (e : TuningEngine F) (store : TuneStore) (ok : Bool) :
    e.transferEnd store ok = (e, store) ∨
      ((e.transferEnd store ok).1.settled = none ∧ ∀ key row,
        (e.transferEnd store ok).2 key = some row → store key = some row) := by
  unfold transferEnd
  split
  · exact Or.inl rfl
  · split
    · exact Or.inl rfl
    · right
      constructor
      · rfl
      · intro key row hrow
        unfold removeCacheEntry at hrow
        cases hkey : e.cacheKey with
        | none =>
            rw [hkey] at hrow
            exact hrow
        | some own =>
            rw [hkey] at hrow
            dsimp only [TuneStore.remove] at hrow
            split at hrow
            · cases hrow
            · exact hrow

omit [Float64 F] in
theorem transferEnd_params (e : TuningEngine F) (store : TuneStore) (ok : Bool) :
    (e.transferEnd store ok).1.params = e.params := by
  unfold transferEnd
  split
  · rfl
  · split
    · rfl
    · rfl

omit [Float64 F] in
theorem transferEnd_caps (e : TuningEngine F) (store : TuneStore) (ok : Bool) :
    (e.transferEnd store ok).1.caps = e.caps ∧
      (e.transferEnd store ok).1.capsHash = e.capsHash := by
  unfold transferEnd
  split
  · exact ⟨rfl, rfl⟩
  · split
    · exact ⟨rfl, rfl⟩
    · exact ⟨rfl, rfl⟩

end TuningEngine

/-! ## The log -/

/-- Where something was measured. -/
structure Provenance where
  origin : Text
  direction : TransferKind
  capsHash : Text
  deriving DecidableEq

/-- What happened in a call, as far as the log is concerned. -/
inductive Observed (F : Type) where
  | began (source : Option TuningEngine.Source) (p : Provenance)
  | degraded
  | stored (nowMs : F)
  | ended
  | other

def TuneCall.observe (sha : Capabilities → Text) (e : TuningEngine F) (store : TuneStore) :
    TuneCall F → Observed F
  | .beginTransfer caps nowMs staticParams =>
      .began ((e.resetTransfer (sha caps) caps nowMs staticParams).source store nowMs)
        ⟨e.origin, e.direction, sha caps⟩
  | .tick nowMs done rttMs error =>
      if lt (nowMs - e.windowStartMs) TUNE_WINDOW_MS || !e.enabled then .other
      else
        match e.caps with
        | none => .other
        | some caps =>
            match (e.evaluateTick caps nowMs done rttMs error).2 with
            | .degrade => .degraded
            | .settle => if e.postDegradeSettle then .other else .stored nowMs
            | _ => .other
  | .transferEnd _ => .ended
  | _ => .other

/-- What is remembered of an engine: its current transfer, whether that began as
a ramp and has degraded, where its parameters were measured; and of the settle in
memory, where it was measured, under which origin it was taken and when. -/
structure TransferLog (F : Type) where
  running : Bool
  begun : Provenance
  ramp : Bool
  degraded : Bool
  table : Provenance
  memory : Provenance
  memoryOrigin : Text
  memoryAt : F

/-- Nothing has happened yet. -/
def TransferLog.blank : TransferLog F :=
  let nowhere : Provenance := ⟨[], .download, []⟩
  ⟨false, nowhere, false, false, nowhere, nowhere, [], lit 0⟩

def TransferLog.next (l : TransferLog F) (e : TuningEngine F) (rows : Text → Provenance) :
    Observed F → TransferLog F
  | .began source p =>
      { l with
        running := true
        begun := p
        ramp := e.enabled && source.isNone
        degraded := false
        table := match source with
          | none => p
          | some .memory => l.memory
          | some .cache => rows (tuneKey p.origin p.direction) }
  | .degraded => { l with degraded := true }
  | .stored nowMs => { l with memory := l.table, memoryOrigin := e.origin, memoryAt := nowMs }
  | .ended => { l with running := false, degraded := false }
  | .other => l

/-- The rows a call stores carry the provenance of the engine's table. -/
def rowsNext (rows : Text → Provenance) (e : TuningEngine F) (l : TransferLog F) :
    Observed F → Text → Provenance
  | .stored _ => fun k => if e.cacheKey = some k then l.table else rows k
  | _ => rows

/-! ## The world -/

/-- Engines over one store, with the log. -/
structure TuneWorld (F : Type) where
  engine : Nat → TuningEngine F
  store : TuneStore
  log : Nat → TransferLog F
  rows : Text → Provenance

abbrev TuneAct (F : Type) := Nat × TuneCall F

namespace TuneWorld

/-- Engine `i` takes a call.  Engines and store do what the code does. -/
def next (sha : Capabilities → Text) (w : TuneWorld F) (a : TuneAct F) : Option (TuneWorld F) :=
  let (i, call) := a
  let after := call.apply sha (w.engine i) w.store
  let seen := call.observe sha (w.engine i) w.store
  some
    { engine := fun j => if j = i then after.1 else w.engine j
      store := after.2
      log := fun j => if j = i then (w.log i).next (w.engine i) w.rows seen else w.log j
      rows := rowsNext w.rows (w.engine i) (w.log i) seen }

/-- Engines that have just been made, some with a store and a time to live. -/
structure Fresh (w : TuneWorld F) : Prop where
  engine : ∀ i, ∃ enabled, w.engine i = .new enabled ∨
    ∃ ttlMs, w.engine i = (TuningEngine.new enabled).setCache ttlMs
  log : ∀ i, w.log i = .blank

variable {sha : Capabilities → Text} {w v : TuneWorld F} {i j : Nat} {call : TuneCall F}

theorem next_engine_self (h : next sha w (i, call) = some v) :
    v.engine i = (call.apply sha (w.engine i) w.store).1 := by
  cases h
  exact if_pos rfl

theorem next_engine_ne (h : next sha w (i, call) = some v) (hj : j ≠ i) :
    v.engine j = w.engine j := by
  cases h
  exact if_neg hj

theorem next_store (h : next sha w (i, call) = some v) :
    v.store = (call.apply sha (w.engine i) w.store).2 := by
  cases h
  rfl

theorem next_log_self (h : next sha w (i, call) = some v) :
    v.log i = (w.log i).next (w.engine i) w.rows (call.observe sha (w.engine i) w.store) := by
  cases h
  exact if_pos rfl

theorem next_log_ne (h : next sha w (i, call) = some v) (hj : j ≠ i) : v.log j = w.log j := by
  cases h
  exact if_neg hj

theorem next_rows (h : next sha w (i, call) = some v) :
    v.rows = rowsNext w.rows (w.engine i) (w.log i) (call.observe sha (w.engine i) w.store) := by
  cases h
  rfl

end TuneWorld

/-! ## What the log sees of a tick -/

section Observe

variable {sha : Capabilities → Text} {e : TuningEngine F} {store : TuneStore}
  {caps : Capabilities} {nowMs : F} {done : Nat} {rttMs : Option F} {error : Bool}

theorem observe_of_not_closes (h : ∀ caps, ¬ e.Closes nowMs caps) :
    (TuneCall.tick nowMs done rttMs error).observe sha e store = .other := by
  unfold TuneCall.observe
  dsimp only
  cases hlt : lt (nowMs - e.windowStartMs) TUNE_WINDOW_MS with
  | true => exact if_pos rfl
  | false =>
      cases henabled : e.enabled with
      | false => exact if_pos rfl
      | true =>
          cases hcaps : e.caps with
          | none => exact if_neg Bool.false_ne_true
          | some caps => exact absurd ⟨hlt, henabled, hcaps⟩ (h caps)

theorem observe_of_closes (h : e.Closes nowMs caps) :
    (TuneCall.tick nowMs done rttMs error).observe sha e store =
      match (e.evaluateTick caps nowMs done rttMs error).2 with
      | .degrade => .degraded
      | .settle => if e.postDegradeSettle then .other else .stored nowMs
      | _ => .other := by
  obtain ⟨hlt, henabled, hcaps⟩ := h
  unfold TuneCall.observe
  simp only [hlt, henabled, hcaps, Bool.not_true, Bool.or_self, Bool.false_eq_true, if_false]

theorem observe_tick_ne_began {source : Option TuningEngine.Source} {p : Provenance} :
    (TuneCall.tick nowMs done rttMs error).observe sha e store ≠ .began source p := by
  unfold TuneCall.observe
  grind

theorem observe_tick_ne_ended :
    (TuneCall.tick nowMs done rttMs error).observe sha e store ≠ .ended := by
  unfold TuneCall.observe
  grind

end Observe

/-- Memory and store are as before. -/
structure KeepsSettle (e e' : TuningEngine F) (store store' : TuneStore) : Prop where
  settled : e'.settled = e.settled
  capsHash : e'.settledCapsHash = e.settledCapsHash
  direction : e'.settledDirection = e.settledDirection
  store : store' = store

section Keeps

variable {sha : Capabilities → Text} {e : TuningEngine F} {store : TuneStore}
  {caps : Capabilities} {nowMs : F} {done : Nat} {rttMs : Option F} {error : Bool}

/-- Only a settle changes what is remembered. -/
theorem keepsSettle_act (e : TuningEngine F) (store : TuneStore) (caps : Capabilities)
    (nowMs : F) {action : RampAction}
    (h : action = .settle → e.postDegradeSettle = true) :
    KeepsSettle e (e.act store caps nowMs action).1 store (e.act store caps nowMs action).2 := by
  cases action with
  | raise =>
      obtain ⟨p, hp⟩ := e.setDim_eq
        (max (TuningEngine.raised (asI64 e.dimValue) (e.dimMax caps)) 1).toNat
      unfold TuningEngine.act TuningEngine.raiseDim
      dsimp only
      rw [hp]
      exact ⟨rfl, rfl, rfl, rfl⟩
  | advanceDim => exact ⟨rfl, rfl, rfl, rfl⟩
  | settle =>
      rw [TuningEngine.act_settle_of_postDegrade (h rfl)]
      exact ⟨rfl, rfl, rfl, rfl⟩
  | degrade =>
      obtain ⟨p, hp⟩ := e.act_degrade store caps nowMs
      rw [hp]
      exact ⟨rfl, rfl, rfl, rfl⟩
  | hold =>
      obtain ⟨count, heq | ⟨-, heq⟩⟩ := e.act_hold store caps nowMs
      · rw [heq]
        exact ⟨rfl, rfl, rfl, rfl⟩
      · rw [heq]
        exact ⟨rfl, rfl, rfl, rfl⟩

/-- A tick that is not seen to store a settle changes nothing that is remembered. -/
theorem keepsSettle_tick
    (h : ∀ t, (TuneCall.tick nowMs done rttMs error).observe sha e store ≠ .stored t) :
    KeepsSettle e ((TuneCall.tick nowMs done rttMs error).apply sha e store).1 store
      ((TuneCall.tick nowMs done rttMs error).apply sha e store).2 := by
  rcases e.tick_cases sha store nowMs done rttMs error with
    ⟨errors, base, avg, -, heq⟩ | ⟨caps, hcloses, heq⟩
  · rw [heq]
    exact ⟨rfl, rfl, rfl, rfl⟩
  · rw [heq]
    rw [observe_of_closes hcloses] at h
    obtain ⟨errors, base, avg, chunk, stats, low, closed, mbps, heval⟩ :=
      e.evaluateTick_eq caps nowMs done rttMs error
    generalize hresult : e.evaluateTick caps nowMs done rttMs error = result at heval h
    obtain ⟨e', action⟩ := result
    cases heval
    have hsettle : action = .settle → e.postDegradeSettle = true := by
      rintro rfl
      cases hpost : e.postDegradeSettle with
      | true => rfl
      | false =>
          simp only [hpost, Bool.false_eq_true, if_false] at h
          exact absurd rfl (h nowMs)
    obtain ⟨hsettled, hhash, hdirection, hstore⟩ :=
      keepsSettle_act { e with
        windowErrors := errors
        rttBaseline := base
        rttEwma := avg
        stats := stats
        params := { e.params with chunkSize := chunk }
        lowGainWindows := low
        windowsClosed := closed
        prevMbps := mbps } store caps nowMs hsettle
    exact ⟨hsettled, hhash, hdirection, hstore⟩

end Keeps

/-! ## Phases and settles -/

namespace TuningEngine

variable {e : TuningEngine F} {store : TuneStore} {caps : Capabilities} {nowMs : F}

/-- Acting never starts a ramp, other than by raising. -/
theorem act_phase_ne_ramping {action : RampAction} (hphase : e.phase ≠ .ramping)
    (hraise : action ≠ .raise) : (e.act store caps nowMs action).1.phase ≠ .ramping := by
  cases action with
  | raise => exact absurd rfl hraise
  | advanceDim => exact hphase
  | settle =>
      cases hpost : e.postDegradeSettle with
      | true =>
          rw [act_settle_of_postDegrade hpost]
          exact TunePhase.noConfusion
      | false =>
          rw [act_settle hpost]
          exact TunePhase.noConfusion
  | degrade =>
      obtain ⟨p, hp⟩ := e.act_degrade store caps nowMs
      rw [hp]
      exact TunePhase.noConfusion
  | hold =>
      obtain ⟨count, heq | ⟨-, heq⟩⟩ := e.act_hold store caps nowMs
      · rw [heq]
        exact hphase
      · rw [heq]
        exact TunePhase.noConfusion

/-- A tick starts no ramp either, and one that degrades ends it. -/
theorem tick_phase_ne_ramping {sha : Capabilities → Text} {done : Nat} {rttMs : Option F}
    {error : Bool}
    (h : e.phase ≠ .ramping ∨
      (TuneCall.tick nowMs done rttMs error).observe sha e store = .degraded) :
    ((TuneCall.tick nowMs done rttMs error).apply sha e store).1.phase ≠ .ramping := by
  rcases e.tick_cases sha store nowMs done rttMs error with
    ⟨errors, base, avg, hnot, heq⟩ | ⟨caps, hcloses, heq⟩
  · rw [heq]
    rcases h with hphase | hseen
    · exact hphase
    · rw [observe_of_not_closes hnot] at hseen
      cases hseen
  · rw [heq]
    obtain ⟨errors, base, avg, chunk, stats, low, closed, mbps, heval⟩ :=
      e.evaluateTick_eq caps nowMs done rttMs error
    rcases h with hphase | hseen
    · apply act_phase_ne_ramping
      · rw [heval]
        exact hphase
      · intro hraise
        exact hphase (of_evaluateTick_raise hraise).1
    · rw [observe_of_closes hcloses] at hseen
      have hdegrade : (e.evaluateTick caps nowMs done rttMs error).2 = .degrade := by
        cases haction : (e.evaluateTick caps nowMs done rttMs error).2 with
        | degrade => rfl
        | settle =>
            rw [haction] at hseen
            dsimp only at hseen
            split at hseen
            · cases hseen
            · cases hseen
        | raise | advanceDim | hold =>
            rw [haction] at hseen
            cases hseen
      rw [hdegrade]
      obtain ⟨p, hp⟩ :=
        (e.evaluateTick caps nowMs done rttMs error).1.act_degrade store caps nowMs
      rw [hp]
      exact TunePhase.noConfusion

/-- A tick keeps what a transfer was begun with. -/
theorem tick_caps (e : TuningEngine F) (sha : Capabilities → Text) (store : TuneStore)
    (nowMs : F) (done : Nat) (rttMs : Option F) (error : Bool) :
    ((TuneCall.tick nowMs done rttMs error).apply sha e store).1.caps = e.caps ∧
      ((TuneCall.tick nowMs done rttMs error).apply sha e store).1.capsHash = e.capsHash := by
  rcases e.tick_cases sha store nowMs done rttMs error with
    ⟨errors, base, avg, -, heq⟩ | ⟨caps, hcloses, heq⟩
  · rw [heq]
    exact ⟨rfl, rfl⟩
  · obtain ⟨errors, base, avg, chunk, stats, low, closed, mbps, heval⟩ :=
      e.evaluateTick_eq caps nowMs done rttMs error
    rw [heq]
    dsimp only
    rw [act_keeps.1, act_keeps.2, heval]
    exact ⟨rfl, rfl⟩

/-- What a settle leaves behind: it is remembered, and written under the key of the
engine if that has one. -/
structure Stores (e e' : TuningEngine F) (store store' : TuneStore) (nowMs : F) : Prop where
  phase : e'.phase = .settled
  settled : e'.settled = some e'.params
  capsHash : e'.settledCapsHash = e.capsHash
  direction : e'.settledDirection = some e.direction
  store : store' = match e.cacheKey with
    | none => store
    | some key =>
        store.set key (.entry ⟨TUNE_CACHE_VERSION, e.capsHash, toMs nowMs, .ofParams e'.params⟩)

/-- **What a tick does that is seen to store a settle.** -/
theorem tick_of_stored {sha : Capabilities → Text} {done : Nat} {rttMs : Option F} {error : Bool}
    {t : F} (h : (TuneCall.tick nowMs done rttMs error).observe sha e store = .stored t) :
    t = nowMs ∧
      (∃ caps, e.Closes nowMs caps ∧ e.errorsWith error = 0 ∧ e.postDegradeSettle = false ∧
        (e.phase ≠ .ramping → e.SettlesIdle caps)) ∧
      e.Stores ((TuneCall.tick nowMs done rttMs error).apply sha e store).1 store
        ((TuneCall.tick nowMs done rttMs error).apply sha e store).2 nowMs := by
  rcases e.tick_cases sha store nowMs done rttMs error with
    ⟨errors, base, avg, hnot, heq⟩ | ⟨caps, hcloses, heq⟩
  · rw [observe_of_not_closes hnot] at h
    cases h
  · rw [observe_of_closes hcloses] at h
    have herrors : (e.evaluateTick caps nowMs done rttMs error).2 = .settle →
        e.errorsWith error = 0 := by
      intro hsettle
      by_contra hne
      have hdegrade : (e.evaluateTick caps nowMs done rttMs error).2 = .degrade :=
        evaluateTick_degrade_iff.2 (Nat.pos_of_ne_zero hne)
      rw [hsettle] at hdegrade
      cases hdegrade
    cases haction : (e.evaluateTick caps nowMs done rttMs error).2 with
    | raise | advanceDim | degrade | hold =>
        rw [haction] at h
        cases h
    | settle =>
        rw [haction] at h heq
        cases hpost : e.postDegradeSettle with
        | true =>
            simp only [hpost, if_true, reduceCtorEq] at h
        | false =>
            simp only [hpost, Bool.false_eq_true, if_false, Observed.stored.injEq] at h
            obtain ⟨errors, base, avg, chunk, stats, low, closed, mbps, heval⟩ :=
              e.evaluateTick_eq caps nowMs done rttMs error
            have hflag : (e.evaluateTick caps nowMs done rttMs error).1.postDegradeSettle =
                false := by
              rw [heval]
              exact hpost
            rw [act_settle hflag, heval] at heq
            refine ⟨h.symm, ⟨caps, hcloses, herrors haction, rfl, ?_⟩, ?_⟩
            · intro hphase
              exact ((evaluateTick_settle_iff hphase).1 haction).2
            · rw [heq]
              exact ⟨rfl, rfl, rfl, rfl, rfl⟩

end TuningEngine

/-! ## A sample world -/

/-- Engines of a browser, over an empty store. -/
def sampleWorld : TuneWorld ℚ where
  engine := fun _ => (TuningEngine.new true).setCache DEFAULT_TUNE_TTL_MS
  store := fun _ => none
  log := fun _ => .blank
  rows := fun _ => ⟨[], .download, []⟩

theorem sampleWorld_fresh : sampleWorld.Fresh :=
  ⟨fun _ => ⟨true, Or.inr ⟨DEFAULT_TUNE_TTL_MS, rfl⟩⟩, fun _ => rfl⟩

/-- The hash of the one advertisement a sample run uses. -/
def sampleSha (_ : Capabilities) : Text := "sha256-0".toList

def sampleStatic : TuneParams := ⟨4, 8, 4, 2 * 1024 * 1024, 1⟩

/-- A ramp to four windows of four transfers, over six seconds. -/
def rampActs : List (TuneAct ℚ) :=
  [(0, .setOrigin "https://fw.example".toList), (0, .beginTransfer .dflt 0 sampleStatic),
    (0, .tick 1000 1000000 none false), (0, .tick 2000 3000000 none false),
    (0, .tick 3000 7000000 none false), (0, .tick 4000 15000000 none false),
    (0, .tick 5000 31000000 none false), (0, .tick 6000 63000000 none false),
    (0, .transferEnd true)]

/-! ## Windows in a row -/

/-- The call closes a window of the engine. -/
def TuneCall.closes (e : TuningEngine F) : TuneCall F → Bool
  | .tick nowMs _ _ _ =>
      !lt (nowMs - e.windowStartMs) TUNE_WINDOW_MS && e.enabled && e.caps.isSome
  | _ => false

theorem closes_of_closes {e : TuningEngine F} {caps : Capabilities} {nowMs : F} {done : Nat}
    {rttMs : Option F} {error : Bool} (h : e.Closes nowMs caps) :
    (TuneCall.tick nowMs done rttMs error).closes e = true := by
  obtain ⟨hlt, henabled, hcaps⟩ := h
  unfold TuneCall.closes
  dsimp only
  rw [hlt, henabled, hcaps]
  rfl

/-- How many windows engine `i` has closed since it last degraded, stored a settle or began a
transfer. -/
def cleanWindows (sha : Capabilities → Text) (i : Nat) :
    List (Taken (TuneWorld F) (TuneAct F)) → Nat
  | [] => 0
  | x :: earlier =>
      if x.action.1 = i then
        match x.action.2.observe sha (x.before.engine i) x.before.store with
        | .other =>
            cleanWindows sha i earlier + if x.action.2.closes (x.before.engine i) then 1 else 0
        | .ended => cleanWindows sha i earlier
        | _ => 0
      else cleanWindows sha i earlier

namespace TuningEngine

variable {e : TuningEngine F} {store : TuneStore} {caps : Capabilities} {nowMs : F}
  {sha : Capabilities → Text}

theorem beginTransfer_lowGainWindows (e : TuningEngine F) (store : TuneStore)
    (sha : Capabilities → Text) (caps : Capabilities) (nowMs : F) (staticParams : TuneParams) :
    (e.beginTransfer store sha caps nowMs staticParams).1.lowGainWindows = 0 := by
  unfold beginTransfer
  dsimp only
  split
  · rfl
  · unfold startFrom
    split <;> rfl

omit [Float64 F] in
theorem transferEnd_lowGainWindows (e : TuningEngine F) (store : TuneStore) (ok : Bool) :
    (e.transferEnd store ok).1.lowGainWindows = e.lowGainWindows := by
  unfold transferEnd
  split
  · rfl
  · split <;> rfl

/-- An action counts no further window, and a settle none at all. -/
theorem act_lowGainWindows {action : RampAction} :
    (e.act store caps nowMs action).1.lowGainWindows ≤
      if action = .settle ∨ action = .degrade then 0 else e.lowGainWindows := by
  cases action with
  | raise =>
      obtain ⟨p, hp⟩ := e.setDim_eq (max (raised (asI64 e.dimValue) (e.dimMax caps)) 1).toNat
      unfold act raiseDim
      dsimp only
      rw [hp]
      exact Nat.le_refl _
  | advanceDim => exact Nat.le_refl _
  | settle =>
      cases hpost : e.postDegradeSettle with
      | true =>
          rw [act_settle_of_postDegrade hpost]
          exact Nat.le_refl _
      | false =>
          rw [act_settle hpost]
          exact Nat.le_refl _
  | degrade =>
      obtain ⟨p, hp⟩ := e.act_degrade store caps nowMs
      rw [hp]
      exact Nat.le_refl _
  | hold =>
      obtain ⟨count, heq | ⟨-, heq⟩⟩ := e.act_hold store caps nowMs
      · rw [heq]
        exact Nat.le_refl _
      · rw [heq]
        exact Nat.le_refl _

theorem evaluateTick_lowGainWindows_le {done : Nat} {rttMs : Option F} {error : Bool} :
    (e.evaluateTick caps nowMs done rttMs error).1.lowGainWindows ≤ e.lowGainWindows + 1 := by
  obtain ⟨base, avg, hsample⟩ := e.sample_eq rttMs error
  have hlow : (e.sample rttMs error).lowGainWindows = e.lowGainWindows := by rw [hsample]
  unfold evaluateTick
  rw [← hlow]
  exact evaluate_lowGainWindows_le

/-- **Step lemma**, of one engine: a window it closes counts once. -/
theorem apply_lowGainWindows (sha : Capabilities → Text) (e : TuningEngine F)
    (store : TuneStore) (call : TuneCall F) :
    (call.apply sha e store).1.lowGainWindows ≤
      match call.observe sha e store with
      | .other => e.lowGainWindows + if call.closes e then 1 else 0
      | .ended => e.lowGainWindows
      | _ => 0 := by
  cases call with
  | setOrigin | setDirection | setEnabled => exact Nat.le_refl _
  | beginTransfer caps nowMs staticParams =>
      exact Nat.le_of_eq (beginTransfer_lowGainWindows e store sha caps nowMs staticParams)
  | transferEnd ok => exact Nat.le_of_eq (transferEnd_lowGainWindows e store ok)
  | tick nowMs done rttMs error =>
      rcases e.tick_cases sha store nowMs done rttMs error with
        ⟨errors, base, avg, hnot, heq⟩ | ⟨caps, hcloses, heq⟩
      · rw [heq, observe_of_not_closes hnot]
        exact Nat.le_add_right _ _
      · have hlow : (e.evaluateTick caps nowMs done rttMs error).1.lowGainWindows ≤
            e.lowGainWindows + 1 := evaluateTick_lowGainWindows_le
        have hact := @act_lowGainWindows _ _ (e.evaluateTick caps nowMs done rttMs error).1 store
          caps nowMs (e.evaluateTick caps nowMs done rttMs error).2
        rw [heq, observe_of_closes hcloses, closes_of_closes hcloses]
        cases haction : (e.evaluateTick caps nowMs done rttMs error).2 with
        | raise | advanceDim | hold =>
            rw [haction] at hact
            exact hact.trans hlow
        | degrade =>
            rw [haction] at hact
            exact hact
        | settle =>
            rw [haction] at hact
            exact hact.trans (Nat.zero_le _)

end TuningEngine

section Windows

variable {sha : Capabilities → Text} {ok : TuneWorld F → TuneAct F → Prop} {w₀ w : TuneWorld F}
  {history : List (Taken (TuneWorld F) (TuneAct F))} {i : Nat} {caps : Capabilities}

/-- **Run lemma.**  What an engine counts as windows without gain it has closed. -/
theorem lowGainWindows_le_cleanWindows (hfresh : w₀.Fresh)
    (hrun : Traced (TuneWorld.next sha) ok w₀ history w) (i : Nat) :
    (w.engine i).lowGainWindows ≤ cleanWindows sha i history := by
  have hall : ∀ i, (w.engine i).lowGainWindows ≤ cleanWindows sha i history := by
    apply hrun.invariant (I := fun history w => ∀ i,
      (w.engine i).lowGainWindows ≤ cleanWindows sha i history)
    · rintro earlier u ⟨j, call⟩ v hle _ hnext i
      unfold cleanWindows
      dsimp only
      split
      · next hj =>
          subst hj
          have hstep := TuningEngine.apply_lowGainWindows sha (u.engine j) u.store call
          have hbefore := hle j
          rw [TuneWorld.next_engine_self hnext]
          cases hseen : call.observe sha (u.engine j) u.store with
          | other =>
              rw [hseen] at hstep
              exact hstep.trans (Nat.add_le_add_right hbefore _)
          | ended =>
              rw [hseen] at hstep
              exact hstep.trans hbefore
          | began | degraded | stored =>
              rw [hseen] at hstep
              exact hstep
      · next hj =>
          rw [TuneWorld.next_engine_ne hnext fun h => hj h.symm]
          exact hle i
    · intro i
      obtain ⟨enabled, h | ⟨ttlMs, h⟩⟩ := hfresh.engine i
      · rw [h]
        exact Nat.le_refl _
      · rw [h]
        exact Nat.le_refl _
  exact hall i

/-- **The first window in a row settles nothing** without a ramp, but at the last cap. -/
theorem not_settlesIdle_of_first (hfresh : w₀.Fresh)
    (hrun : Traced (TuneWorld.next sha) ok w₀ history w)
    (hfirst : cleanWindows sha i history = 0)
    (hcap : (w.engine i).dimAtCap caps = true → (w.engine i).dim ≠ .concurrency) :
    ¬ (w.engine i).SettlesIdle caps := by
  have hnone := lowGainWindows_le_cleanWindows hfresh hrun i
  rw [hfirst] at hnone
  rintro (⟨hat, hdim⟩ | ⟨-, hlow, -⟩)
  · exact hcap hat hdim
  · exact absurd (hlow.trans hnone) (Nat.not_succ_le_zero 0)

end Windows

end Libfw

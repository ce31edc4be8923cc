import Libfw.TuneParams

/-!
# The tuning engine

`TuningEngine` of `libfw-client/src/tune.rs`, with its store of settled results.
A row of the store is kept as the entry its JSON encodes; a row that does not
parse is kept as it is.  The JS callback and the level benchmark are left out:
they neither read nor write the parameters.

`tick` closes at most one window.  `tick_of_closes` says how: it measures,
decides (`evaluate`) and acts; measuring moves nothing but the samples and
the chunk size (`measured_eq`).
-/

namespace Libfw

open Float64

inductive TunePhase where
  | uninitialized
  | ramping
  | settled
  | degraded
  deriving DecidableEq

inductive TransferKind where
  | upload
  | download
  deriving DecidableEq

structure TuneStats (F : Type) where
  rttMs : F
  mbps : F

/-! ## The store -/

/-- `TuneParamsCache`: the table without its level. -/
structure TuneParamsCache where
  concurrency : Nat
  uploadWindow : Nat
  downloadWindow : Nat
  chunkSize : Nat
  deriving DecidableEq

namespace TuneParamsCache

/-- `of`. -/
def ofParams (p : TuneParams) : TuneParamsCache :=
  ⟨p.concurrency, p.uploadWindow, p.downloadWindow, p.chunkSize⟩

def intoParams (p : TuneParamsCache) (compressLevel : Int) : TuneParams :=
  ⟨p.concurrency, p.uploadWindow, p.downloadWindow, p.chunkSize, compressLevel⟩

end TuneParamsCache

/-- `TuneCache`: a stored settle. -/
structure TuneCache where
  v : Nat
  capsHash : Text
  savedAtMs : Nat
  params : TuneParamsCache
  deriving DecidableEq

/-- A row of the store: a readable entry, or some other text. -/
inductive TuneRow where
  | entry (e : TuneCache)
  | unreadable (text : Text)
  deriving DecidableEq

abbrev TuneStore := Text → Option TuneRow

namespace TuneStore

def set (store : TuneStore) (key : Text) (row : TuneRow) : TuneStore :=
  fun k => if k = key then some row else store k

def remove (store : TuneStore) (key : Text) : TuneStore :=
  fun k => if k = key then none else store k

end TuneStore

def TransferKind.dir : TransferKind → Text
  | .upload => "upload".toList
  | .download => "download".toList

/-- `tune_key`. -/
def tuneKey (origin : Text) (direction : TransferKind) : Text :=
  "libfw.tune.v1.".toList ++ (direction.dir ++ '.' :: origin)

/-- One row, one origin and direction. -/
theorem tuneKey_injective {o o' : Text} {d d' : TransferKind}
    (h : tuneKey o d = tuneKey o' d') : o = o' ∧ d = d' := by
  have hrest : d.dir ++ '.' :: o = d'.dir ++ '.' :: o' := List.append_cancel_left h
  have hup : TransferKind.upload.dir = 'u' :: "pload".toList := by decide
  have hdown : TransferKind.download.dir = 'd' :: "ownload".toList := by decide
  cases d with
  | upload =>
      cases d' with
      | upload => exact ⟨(List.cons.inj (List.append_cancel_left hrest)).2, rfl⟩
      | download =>
          rw [hup, hdown] at hrest
          exact absurd (List.cons.inj hrest).1 (by decide)
  | download =>
      cases d' with
      | download => exact ⟨(List.cons.inj (List.append_cancel_left hrest)).2, rfl⟩
      | upload =>
          rw [hup, hdown] at hrest
          exact absurd (List.cons.inj hrest).1 (by decide)

/-- `split_once("://")`. -/
def splitScheme : Text → Option (Text × Text)
  | [] => none
  | c :: rest =>
      if "://".toList <+: c :: rest then some ([], rest.drop 2)
      else (splitScheme rest).map fun (scheme, after) => (c :: scheme, after)

/-- `char::is_whitespace`. -/
def isWhiteSpace (c : Char) : Bool :=
  (9 ≤ c.val && c.val ≤ 13) || c.val = 0x20 || c.val = 0x85 || c.val = 0xA0 ||
    c.val = 0x1680 || (0x2000 ≤ c.val && c.val ≤ 0x200A) || c.val = 0x2028 ||
    c.val = 0x2029 || c.val = 0x202F || c.val = 0x205F || c.val = 0x3000

/-- `origin_of`. -/
def originOf (url : Text) : Text :=
  match splitScheme url with
  | none => []
  | some (scheme, rest) =>
      let scheme := scheme.map Char.toLower
      if scheme ≠ "http".toList ∧ scheme ≠ "https".toList then []
      else
        let authority := rest.takeWhile fun c => !(c = '/' || c = '?' || c = '#')
        let authority := ((authority.dropWhile isWhiteSpace).reverse.dropWhile isWhiteSpace).reverse
        if authority = [] then [] else scheme ++ "://".toList ++ authority.map Char.toLower

/-! ## The engine -/

structure TuningEngine (F : Type) where
  enabled : Bool
  policyLevel : Int
  phase : TunePhase
  caps : Option Capabilities
  capsHash : Text
  params : TuneParams
  stats : TuneStats F
  windowStartMs : F
  windowDoneBase : Nat
  windowErrors : Nat
  windowsClosed : Nat
  rttEwma : Option F
  rttBaseline : Option F
  prevMbps : F
  lowGainWindows : Nat
  dim : RampDim
  degradedWindows : Nat
  settled : Option TuneParams
  settledCapsHash : Text
  settledDirection : Option TransferKind
  postDegradeSettle : Bool
  direction : TransferKind
  /-- `set_cache` has installed a store. -/
  hasStore : Bool
  cacheTtlMs : Nat
  origin : Text

/-- `TuneEvent`. -/
structure TuneEvent (F : Type) where
  phase : TunePhase
  params : TuneParams
  stats : TuneStats F

namespace TuningEngine

variable {F : Type} [Float64 F]

/-- `new`. -/
def new (enabled : Bool) : TuningEngine F where
  enabled := enabled
  policyLevel := 1
  phase := .uninitialized
  caps := none
  capsHash := []
  params := ⟨1, 1, 1, 1, 0⟩
  stats := ⟨lit 0, lit 0⟩
  windowStartMs := lit 0
  windowDoneBase := 0
  windowErrors := 0
  windowsClosed := 0
  rttEwma := none
  rttBaseline := none
  prevMbps := lit 0
  lowGainWindows := 0
  dim := .window
  degradedWindows := 0
  settled := none
  settledCapsHash := []
  settledDirection := none
  postDegradeSettle := false
  direction := .download
  hasStore := false
  cacheTtlMs := DEFAULT_TUNE_TTL_MS
  origin := []

/-- `set_cache`. -/
def setCache (e : TuningEngine F) (ttlMs : Nat) : TuningEngine F :=
  { e with hasStore := true, cacheTtlMs := ttlMs }

def setOrigin (e : TuningEngine F) (url : Text) : TuningEngine F := { e with origin := originOf url }

def setDirection (e : TuningEngine F) (kind : TransferKind) : TuningEngine F :=
  { e with direction := kind }

def setEnabled (e : TuningEngine F) (enabled : Bool) : TuningEngine F := { e with enabled := enabled }

/-! ### Cached results -/

def cacheKey (e : TuningEngine F) : Option Text :=
  if e.hasStore = false ∨ e.cacheTtlMs = 0 ∨ e.origin = [] then none
  else some (tuneKey e.origin e.direction)

def removeCacheEntry (e : TuningEngine F) (store : TuneStore) : TuneStore :=
  match e.cacheKey with
  | some key => store.remove key
  | none => store

/-- The stored entry can be used now. -/
def entryUsable (e : TuningEngine F) (entry : TuneCache) (nowMs : F) (hash : Text) : Bool :=
  let aged := nowMs - ofU64 entry.savedAtMs
  let fresh := le (lit 0) aged && le aged (ofU64 e.cacheTtlMs)
  entry.v = TUNE_CACHE_VERSION && entry.capsHash = hash && fresh

/-- `load_cached_settle`; `hash` is `caps.caps_hash()`. -/
def loadCachedSettle (e : TuningEngine F) (store : TuneStore) (nowMs : F) (hash : Text) :
    TuneStore × Option TuneParams :=
  match e.cacheKey with
  | none => (store, none)
  | some key =>
      match store key with
      | none => (store, none)
      | some (.unreadable _) => (store.remove key, none)
      | some (.entry entry) =>
          if e.entryUsable entry nowMs hash then
            (store, some (entry.params.intoParams e.policyLevel))
          else (store.remove key, none)

def toMs (nowMs : F) : Nat := if lt (lit 0) nowMs then toU64 nowMs else 0

/-- The entry `save_cached_settle` writes. -/
def cacheEntry (e : TuningEngine F) (nowMs : F) : TuneCache :=
  ⟨TUNE_CACHE_VERSION, e.capsHash, toMs nowMs, .ofParams e.params⟩

def saveCachedSettle (e : TuningEngine F) (store : TuneStore) (nowMs : F) : TuneStore :=
  match e.cacheKey with
  | none => store
  | some key => store.set key (.entry (e.cacheEntry nowMs))

/-! ### Beginning a transfer -/

/-- What `begin_transfer` resets before anything else. -/
def resetTransfer (e : TuningEngine F) (hash : Text) (caps : Capabilities) (nowMs : F)
    (staticParams : TuneParams) : TuningEngine F :=
  { e with
    caps := some caps
    capsHash := hash
    windowsClosed := 0
    windowErrors := 0
    windowDoneBase := 0
    windowStartMs := nowMs
    postDegradeSettle := false
    prevMbps := lit 0
    lowGainWindows := 0
    rttEwma := none
    rttBaseline := none
    degradedWindows := 0
    policyLevel := staticParams.compressLevel }

/-- The in-memory settle, if it is of these capabilities and this direction. -/
def inMemory (e : TuningEngine F) : Option TuneParams :=
  e.settled.filter fun _ => e.settledCapsHash = e.capsHash ∧ e.settledDirection = some e.direction

/-- Where the parameters come from: memory, else the store. -/
def reusable (e : TuningEngine F) (store : TuneStore) (nowMs : F) :
    TuneStore × Option TuneParams :=
  match e.inMemory with
  | some settled => (store, some settled)
  | none => e.loadCachedSettle store nowMs e.capsHash

/-- Start from a settle, or from the advertised minimums. -/
def startFrom (e : TuningEngine F) (caps : Capabilities) (policyLevel : Int) :
    Option TuneParams → TuningEngine F
  | some settled =>
      { e with
        params := { settled.clampedInto caps with compressLevel := policyLevel }
        phase := .settled }
  | none =>
      { e with
        params := { TuneParams.fromCapsMins caps with compressLevel := policyLevel }
        stats := ⟨lit 0, lit 0⟩
        phase := .ramping }

/-- `begin_transfer`; `sha` is the hash of the JSON text of an advertisement. -/
def beginTransfer (e : TuningEngine F) (store : TuneStore) (sha : Capabilities → Text)
    (caps : Capabilities) (nowMs : F) (staticParams : TuneParams) :
    TuningEngine F × TuneStore :=
  let e := e.resetTransfer (sha caps) caps nowMs staticParams
  if e.enabled = false then
    ({ e with
        phase := .uninitialized
        params := (staticParams.clampedInto caps).enforceInFlightBudget }, store)
  else
    let (store, reused) := e.reusable store nowMs
    let e := e.startFrom caps staticParams.compressLevel reused
    ({ e with dim := .window, params := e.params.enforceInFlightBudget }, store)

/-! ### The dimension being ramped -/

/-- The window of the active direction. -/
def window (e : TuningEngine F) : Nat :=
  match e.direction with
  | .upload => e.params.uploadWindow
  | .download => e.params.downloadWindow

def inFlight (e : TuningEngine F) : Nat :=
  match e.direction with
  | .upload => e.params.uploadInFlight
  | .download => e.params.downloadInFlight

/-- The current value of the dimension. -/
def dimValue (e : TuningEngine F) : Nat :=
  match e.dim with
  | .window => e.window
  | .concurrency => e.params.concurrency

/-- What is advertised for it. -/
def dimRange (e : TuningEngine F) (caps : Capabilities) : IntRange :=
  match e.dim, e.direction with
  | .window, .upload => caps.limits.uploadWindow
  | .window, .download => caps.limits.downloadWindow
  | .concurrency, _ => caps.limits.concurrency

def dimMax (e : TuningEngine F) (caps : Capabilities) : Int :=
  let hard := match e.dim with
    | .window => HARD_MAX_WINDOW
    | .concurrency => HARD_MAX_CONCURRENCY
  max (min (e.dimRange caps).max hard) 1

def dimAtCap (e : TuningEngine F) (caps : Capabilities) : Bool := e.dimMax caps ≤ asI64 e.dimValue

/-- Give the dimension another value. -/
def setDim (e : TuningEngine F) (v : Nat) : TuningEngine F :=
  match e.dim, e.direction with
  | .window, .upload => { e with params := { e.params with uploadWindow := v } }
  | .window, .download => { e with params := { e.params with downloadWindow := v } }
  | .concurrency, _ => { e with params := { e.params with concurrency := v } }

/-- The step of `raise_dim`: double, near the cap add one. -/
def raised (v dimMax : Int) : Int :=
  if v ≤ 0 then 1 else if v * 2 ≤ dimMax then v * 2 else min (v + 1) dimMax

def raiseDim (e : TuningEngine F) (caps : Capabilities) : TuningEngine F :=
  e.setDim (max (raised (asI64 e.dimValue) (e.dimMax caps)) 1).toNat

/-- The step of `halve_dim`.  Halving and rounding down is exact in `f64` below
`2^53`. -/
def halved (v : Int) : Int := max (v / 2) 1

def halveDim (e : TuningEngine F) : TuningEngine F := e.setDim (halved (asI64 e.dimValue)).toNat

/-! ### Measuring -/

/-- A sample of `tick`: an error, a round-trip time. -/
def sample (e : TuningEngine F) (rttMs : Option F) (error : Bool) : TuningEngine F :=
  let e := if error then { e with windowErrors := (e.windowErrors + 1) % 2 ^ 32 } else e
  match rttMs.filter fun r => lt (lit 0) r with
  | none => e
  | some r =>
      let newEwma := ewma e.rttEwma r RTT_EWMA_ALPHA
      { e with
        rttBaseline :=
          if e.enabled ∧ e.rttBaseline.isNone then some newEwma else e.rttBaseline
        rttEwma := some newEwma }

def rttInflation (e : TuningEngine F) : F :=
  match e.rttEwma, e.rttBaseline with
  | some cur, some base =>
      if lt (lit 0) base then Float64.max (cur / base - lit 1) (lit 0) else lit 0
  | _, _ => lit 0

/-- The throughput of the window. -/
def throughput (e : TuningEngine F) (done : Nat) (elapsed : F) : F :=
  let bytes := done - e.windowDoneBase
  if lt (lit 0) elapsed then ofU64 bytes / elapsed * lit 1000 * lit 8 / lit 1000000 else lit 0

/-- `retune_chunk_size`. -/
def retuneChunkSize (e : TuningEngine F) (mbps : F) (caps : Capabilities) : TuningEngine F :=
  let target := chunkForLink mbps caps.limits.chunkSize e.params.maxChunkForBudget
  let current := max e.params.chunkSize 1
  let grow := min (current * 3) (2 ^ 64 - 1) / 2
  let shrink := max (current / 2) 1
  if grow < target ∨ target < shrink then
    { e with params := { e.params with chunkSize := target }.enforceInFlightBudget }
  else e

/-- What `tick` does before it decides. -/
def measured (e : TuningEngine F) (caps : Capabilities) (mbps : F) : TuningEngine F :=
  let e := { e with stats := ⟨e.rttEwma.getD e.stats.rttMs, mbps⟩ }
  e.retuneChunkSize mbps caps

def rampInput (e : TuningEngine F) (caps : Capabilities) (mbps : F) : RampInput F where
  mbps := mbps
  prevMbps := e.prevMbps
  rttInflation := if e.phase = .ramping then e.rttInflation else lit 0
  errors := e.windowErrors
  degraded := e.phase = .degraded
  ramping := e.phase = .ramping
  lowGainWindows := e.lowGainWindows
  inFlight := e.inFlight
  bdp :=
    if e.phase = .ramping ∧ e.dim = .concurrency then
      bdpBytes mbps (e.rttEwma.getD e.stats.rttMs)
    else 0
  atCap := e.dimAtCap caps
  lastDim := e.dim = .concurrency

/-! ### Acting -/

/-- A settle is remembered and persisted, unless it ends a degraded hold. -/
def rememberSettle (e : TuningEngine F) (store : TuneStore) (nowMs : F) :
    TuningEngine F × TuneStore :=
  if e.postDegradeSettle then (e, store)
  else
    ({ e with
        settled := some e.params
        settledCapsHash := e.capsHash
        settledDirection := some e.direction }, e.saveCachedSettle store nowMs)

/-- The `match action` of `tick`. -/
def act (e : TuningEngine F) (store : TuneStore) (caps : Capabilities) (nowMs : F) :
    RampAction → TuningEngine F × TuneStore
  | .raise =>
      let e := e.raiseDim caps
      ({ e with
          params := e.params.enforceInFlightBudget
          phase := if e.phase = .degraded then .ramping else e.phase }, store)
  | .advanceDim => ({ e with dim := nextDim e.dim }, store)
  | .settle => rememberSettle { e with phase := .settled, lowGainWindows := 0 } store nowMs
  | .degrade =>
      ({ e.halveDim with phase := .degraded, degradedWindows := 0, lowGainWindows := 0 }, store)
  | .hold =>
      if e.phase = .degraded then
        let e := { e with degradedWindows := e.degradedWindows + 1 }
        if 2 ≤ e.degradedWindows then
          ({ e with phase := .settled, postDegradeSettle := true }, store)
        else (e, store)
      else (e, store)

/-- The engine after measuring, and what the window decides. -/
def evaluate (e : TuningEngine F) (caps : Capabilities) (done : Nat) (elapsed : F) :
    TuningEngine F × RampAction :=
  let mbps := e.throughput done elapsed
  let e := e.measured caps mbps
  let decision := rampAction (e.rampInput caps mbps)
  ({ e with
      lowGainWindows := decision.2
      windowsClosed := (e.windowsClosed + 1) % 2 ^ 32
      prevMbps := mbps }, decision.1)

/-- The end of a window: measure, decide, act, reset the accumulator. -/
def closeWindow (e : TuningEngine F) (store : TuneStore) (caps : Capabilities) (nowMs : F)
    (done : Nat) (elapsed : F) : TuningEngine F × TuneStore :=
  let (e, action) := e.evaluate caps done elapsed
  let (e, store) := e.act store caps nowMs action
  ({ e with windowStartMs := nowMs, windowDoneBase := done, windowErrors := 0 }, store)

/-- `tick`. -/
def tick (e : TuningEngine F) (store : TuneStore) (nowMs : F) (done : Nat)
    (rttMs : Option F) (error : Bool) :
    TuningEngine F × TuneStore × Option (TuneEvent F) :=
  let e := e.sample rttMs error
  let elapsed := nowMs - e.windowStartMs
  if lt elapsed TUNE_WINDOW_MS then (e, store, none)
  else if e.enabled = false then (e, store, none)
  else
    match e.caps with
    | none => (e, store, none)
    | some caps =>
        let (e, store) := e.closeWindow store caps nowMs done elapsed
        (e, store, some ⟨e.phase, e.params, e.stats⟩)

/-- `transfer_end`. -/
def transferEnd (e : TuningEngine F) (store : TuneStore) (ok : Bool) :
    TuningEngine F × TuneStore :=
  if e.enabled = false then (e, store)
  else if ok then (e, store)
  else
    ({ e with settled := none, settledCapsHash := [], settledDirection := none, phase := .ramping },
      e.removeCacheEntry store)

/-! ### What an action does -/

section Act

variable {e : TuningEngine F} {store : TuneStore} {caps : Capabilities} {nowMs : F}

/-- A settle after a degraded hold only ends the phase. -/
theorem act_settle_of_postDegrade (h : e.postDegradeSettle = true) :
    e.act store caps nowMs .settle = ({ e with phase := .settled, lowGainWindows := 0 }, store) :=
  if_pos h

theorem act_settle (h : e.postDegradeSettle = false) :
    e.act store caps nowMs .settle =
      ({ e with
          phase := .settled
          lowGainWindows := 0
          settled := some e.params
          settledCapsHash := e.capsHash
          settledDirection := some e.direction }, e.saveCachedSettle store nowMs) := by
  refine (if_neg ?_).trans rfl
  dsimp only
  rw [h]
  exact Bool.false_ne_true

/-- Holding counts the windows of a degraded phase, and ends it after the second. -/
theorem act_hold (e : TuningEngine F) (store : TuneStore) (caps : Capabilities) (nowMs : F) :
    ∃ count, e.act store caps nowMs .hold =
      ({ e with degradedWindows := count }, store) ∨
    (e.phase = .degraded ∧ e.act store caps nowMs .hold =
      ({ e with degradedWindows := count, phase := .settled, postDegradeSettle := true },
        store)) := by
  by_cases hphase : e.phase = .degraded
  · refine ⟨e.degradedWindows + 1, ?_⟩
    unfold act
    simp only [if_pos hphase]
    by_cases hcount : 2 ≤ e.degradedWindows + 1
    · right
      exact ⟨hphase, if_pos hcount⟩
    · left
      exact if_neg hcount
  · refine ⟨e.degradedWindows, Or.inl ?_⟩
    unfold act
    simp only [if_neg hphase]

omit [Float64 F] in
/-- Setting the dimension moves nothing but the parameters. -/
theorem setDim_eq (e : TuningEngine F) (v : Nat) :
    ∃ p, e.setDim v = { e with params := p } := by
  unfold setDim
  cases e.dim with
  | concurrency => exact ⟨_, rfl⟩
  | window =>
      cases e.direction with
      | upload => exact ⟨_, rfl⟩
      | download => exact ⟨_, rfl⟩

theorem act_degrade (e : TuningEngine F) (store : TuneStore) (caps : Capabilities) (nowMs : F) :
    ∃ p, e.act store caps nowMs .degrade =
    ({ e with params := p, phase := .degraded, degradedWindows := 0, lowGainWindows := 0 },
      store) := by
  obtain ⟨p, hp⟩ := e.setDim_eq (halved (asI64 e.dimValue)).toNat
  unfold act halveDim
  dsimp only
  rw [hp]
  exact ⟨_, rfl⟩

/-- An action keeps what a transfer was begun with. -/
theorem act_keeps {action : RampAction} :
    (e.act store caps nowMs action).1.caps = e.caps ∧
      (e.act store caps nowMs action).1.capsHash = e.capsHash := by
  cases action with
  | raise =>
      obtain ⟨p, hp⟩ := e.setDim_eq (max (raised (asI64 e.dimValue) (e.dimMax caps)) 1).toNat
      unfold act raiseDim
      dsimp only
      rw [hp]
      exact ⟨rfl, rfl⟩
  | advanceDim => exact ⟨rfl, rfl⟩
  | settle =>
      cases hpost : e.postDegradeSettle with
      | true =>
          rw [act_settle_of_postDegrade hpost]
          exact ⟨rfl, rfl⟩
      | false =>
          rw [act_settle hpost]
          exact ⟨rfl, rfl⟩
  | degrade =>
      obtain ⟨p, hp⟩ := e.act_degrade store caps nowMs
      rw [hp]
      exact ⟨rfl, rfl⟩
  | hold =>
      obtain ⟨count, heq | ⟨-, heq⟩⟩ := e.act_hold store caps nowMs
      · rw [heq]
        exact ⟨rfl, rfl⟩
      · rw [heq]
        exact ⟨rfl, rfl⟩

end Act

/-! ## How a tick closes a window -/

/-- The tick closes a window of a transfer with these capabilities. -/
def Closes (e : TuningEngine F) (nowMs : F) (caps : Capabilities) : Prop :=
  lt (nowMs - e.windowStartMs) TUNE_WINDOW_MS = false ∧ e.enabled = true ∧ e.caps = some caps

/-- A window that closes without an error settles although no ramp is under way:
at the cap of the last dimension, or below the cap after another window without
gain, in a degraded hold or on the last dimension. -/
def SettlesIdle (e : TuningEngine F) (caps : Capabilities) : Prop :=
  (e.dimAtCap caps = true ∧ e.dim = .concurrency) ∨
    (e.dimAtCap caps = false ∧ 1 ≤ e.lowGainWindows ∧
      (e.phase = .degraded ∨ e.dim = .concurrency))

instance (e : TuningEngine F) (caps : Capabilities) : Decidable (e.SettlesIdle caps) :=
  inferInstanceAs (Decidable (_ ∨ _))

theorem sample_eq (e : TuningEngine F) (rttMs : Option F) (error : Bool) :
    ∃ rttBaseline rttEwma, e.sample rttMs error = { e with
      windowErrors := if error then (e.windowErrors + 1) % 2 ^ 32 else e.windowErrors
      rttBaseline := rttBaseline
      rttEwma := rttEwma } := by
  unfold sample
  cases error with
  | true => cases rttMs.filter fun r => lt (lit 0) r <;> exact ⟨_, _, rfl⟩
  | false => cases rttMs.filter fun r => lt (lit 0) r <;> exact ⟨_, _, rfl⟩

theorem measured_eq (e : TuningEngine F) (caps : Capabilities) (mbps : F) :
    ∃ chunkSize stats, e.measured caps mbps =
      { e with stats := stats, params := { e.params with chunkSize := chunkSize } } := by
  unfold measured retuneChunkSize
  dsimp only
  split
  · exact ⟨_, _, rfl⟩
  · exact ⟨_, _, rfl⟩

theorem evaluate_eq (e : TuningEngine F) (caps : Capabilities) (done : Nat) (elapsed : F) :
    ∃ chunkSize stats low closed mbps, (e.evaluate caps done elapsed).1 =
      { e with
        stats := stats
        params := { e.params with chunkSize := chunkSize }
        lowGainWindows := low
        windowsClosed := closed
        prevMbps := mbps } := by
  obtain ⟨chunk, stats, hmeasured⟩ := e.measured_eq caps (e.throughput done elapsed)
  unfold evaluate
  dsimp only
  rw [hmeasured]
  exact ⟨_, _, _, _, _, rfl⟩

section Action

variable {e : TuningEngine F} {caps : Capabilities} {done : Nat} {elapsed : F}

theorem evaluate_degrade_iff :
    (e.evaluate caps done elapsed).2 = .degrade ↔ 0 < e.windowErrors := by
  obtain ⟨chunk, stats, hmeasured⟩ := e.measured_eq caps (e.throughput done elapsed)
  unfold evaluate
  dsimp only
  rw [hmeasured]
  exact rampAction_degrade_iff

theorem evaluate_lowGainWindows_le :
    (e.evaluate caps done elapsed).1.lowGainWindows ≤ e.lowGainWindows + 1 := by
  obtain ⟨chunk, stats, hmeasured⟩ := e.measured_eq caps (e.throughput done elapsed)
  unfold evaluate
  dsimp only
  rw [hmeasured]
  exact rampAction_low_le

theorem of_evaluate_raise (h : (e.evaluate caps done elapsed).2 = .raise) :
    e.phase = .ramping ∧ e.dimAtCap caps = false := by
  obtain ⟨chunk, stats, hmeasured⟩ := e.measured_eq caps (e.throughput done elapsed)
  unfold evaluate at h
  dsimp only at h
  rw [hmeasured] at h
  obtain ⟨hramping, hcap⟩ := of_rampAction_raise h
  exact ⟨of_decide_eq_true hramping, hcap⟩

theorem evaluate_settle_iff (hphase : e.phase ≠ .ramping) :
    (e.evaluate caps done elapsed).2 = .settle ↔ e.windowErrors = 0 ∧ e.SettlesIdle caps := by
  obtain ⟨chunk, stats, hmeasured⟩ := e.measured_eq caps (e.throughput done elapsed)
  unfold evaluate
  dsimp only
  rw [hmeasured]
  refine (rampAction_settle_idle ?_ ?_ ?_).trans ?_
  · exact decide_eq_false hphase
  · exact if_neg fun h => hphase h.1
  · exact if_neg hphase
  · simp only [rampInput, decide_eq_true_iff]
    exact Iff.rfl

end Action

/-- A tick that closes no window only takes its samples. -/
theorem tick_of_not_closes {e : TuningEngine F} {store : TuneStore} {nowMs : F} {done : Nat}
    {rttMs : Option F} {error : Bool} (h : ∀ caps, ¬ e.Closes nowMs caps) :
    e.tick store nowMs done rttMs error = (e.sample rttMs error, store, none) := by
  obtain ⟨base, avg, hsample⟩ := e.sample_eq rttMs error
  unfold tick
  rw [hsample]
  cases hlt : lt (nowMs - e.windowStartMs) TUNE_WINDOW_MS with
  | true => simp only [hlt, if_true]
  | false =>
      cases henabled : e.enabled with
      | false => simp only [hlt, if_true, Bool.false_eq_true, if_false]
      | true =>
          cases hcaps : e.caps with
          | none => simp only [hlt, Bool.false_eq_true, if_false, reduceCtorEq]
          | some caps => exact absurd ⟨hlt, henabled, hcaps⟩ (h caps)

/-- A tick that closes a window takes its samples and then does so. -/
theorem tick_of_closes {e : TuningEngine F} {store : TuneStore} {nowMs : F} {done : Nat}
    {rttMs : Option F} {error : Bool} {caps : Capabilities} (h : e.Closes nowMs caps) :
    (e.tick store nowMs done rttMs error).1 =
        ((e.sample rttMs error).closeWindow store caps nowMs done (nowMs - e.windowStartMs)).1 ∧
      (e.tick store nowMs done rttMs error).2.1 =
        ((e.sample rttMs error).closeWindow store caps nowMs done
          (nowMs - e.windowStartMs)).2 := by
  obtain ⟨hlt, henabled, hcaps⟩ := h
  obtain ⟨base, avg, hsample⟩ := e.sample_eq rttMs error
  unfold tick
  rw [hsample]
  simp only [hlt, henabled, hcaps, Bool.false_eq_true, if_false, reduceCtorEq, and_self]

end TuningEngine

end Libfw

import Mathlib.Data.Rat.Floor
import Mathlib.Data.Rat.Defs
import Libfw.VirtualPaths

/-!
# The tuned parameters and the ramp decision

The pure part of `libfw-client/src/tune.rs`: the capabilities a server
advertises, the parameter table and how it is clamped into them, and
`ramp_action`, the decision for one measurement window.

`f64` is a type parameter with the operations the engine uses (`Float64`); of
how they round only one thing is assumed, that literals keep their order.  The
rational numbers are an instance, in which decisions can be computed.

* `clampedInto_within` / `fromCapsMins_within` — a table that comes from the
  advertisement lies in the advertised ranges, where these are proper.
* `rampAction_settle_idle` — when a window settles although no ramp is under way.
-/

namespace Libfw

/-- `f64`, as far as the engine computes with it. -/
class Float64 (F : Type) extends Add F, Sub F, Mul F, Div F where
  /-- A decimal literal. -/
  lit : ℚ → F
  /-- `as f64` -/
  ofU64 : Nat → F
  /-- `as u64`, saturating. -/
  toU64 : F → Nat
  lt : F → F → Bool
  le : F → F → Bool
  max : F → F → F
  isFinite : F → Bool
  /-- Rounding keeps the order of literals. -/
  not_lt_lit : ∀ {a b : ℚ}, a ≤ b → lt (lit b) (lit a) = false

open Float64

/-- Exact arithmetic. -/
instance : Float64 ℚ where
  lit := id
  ofU64 := fun n => n
  toU64 := fun q => min q.floor.toNat (2 ^ 64 - 1)
  lt := fun a b => a < b
  le := fun a b => a ≤ b
  max := fun a b => if a < b then b else a
  isFinite := fun _ => true
  not_lt_lit := fun h => decide_eq_false (not_lt.2 h)

/-- `f64::clamp`, for proper bounds. -/
def Float64.clamp {F : Type} [Float64 F] (x lo hi : F) : F :=
  if lt x lo then lo else if lt hi x then hi else x

section Constants

variable {F : Type} [Float64 F]

def TUNE_WINDOW_MS : F := lit 1000
def GAIN_THRESHOLD : F := lit (5 / 100)
def RTT_INFLATE_THRESHOLD : F := lit (30 / 100)
def RTT_EWMA_ALPHA : F := lit (25 / 100)
def TARGET_CHUNK_SPAN_MS : F := lit 100

end Constants

def HARD_MAX_CONCURRENCY : Int := 64
def HARD_MAX_WINDOW : Int := 64
def HARD_MAX_CHUNK_SIZE : Int := 16 * 1024 * 1024
def HARD_MAX_IN_FLIGHT_BYTES : Nat := 256 * 1024 * 1024
def HARD_MAX_IN_FLIGHT_REQUESTS : Nat := 64
def DEFAULT_TUNE_TTL_MS : Nat := 60 * 60 * 1000
def TUNE_CACHE_VERSION : Nat := 1
def CHUNK_ALIGN : Nat := 64 * 1024

/-! ## Capabilities -/

/-- `IntRange`: what the server advertises for one parameter. -/
structure IntRange where
  default : Int
  max : Int
  min : Int
  deriving DecidableEq

structure ZripLevels where
  default : Int
  max : Int
  min : Int
  deriving DecidableEq

inductive CompressionFormat where
  | none
  | zrip
  deriving DecidableEq

structure CompressionCaps where
  formats : List CompressionFormat
  zripLevels : ZripLevels
  deriving DecidableEq

structure Limits where
  concurrency : IntRange
  uploadWindow : IntRange
  downloadWindow : IntRange
  chunkSize : IntRange
  maxUploadSize : Nat
  maxRetries : Nat
  timeoutMs : Nat
  deriving DecidableEq

structure Capabilities where
  protocol : Text
  compression : CompressionCaps
  limits : Limits
  deriving DecidableEq

/-- `i64::clamp`, for proper bounds. -/
def clampInt (v lo hi : Int) : Int := max lo (min v hi)

/-- `ZripLevels::clamp_level`. -/
def ZripLevels.clampLevel (z : ZripLevels) (level : Int) : Int :=
  if z.min ≤ z.max then clampInt level z.min z.max else z.default

def Capabilities.clampLevel (caps : Capabilities) (level : Int) : Int :=
  caps.compression.zripLevels.clampLevel level

/-- `Capabilities::default`. -/
def Capabilities.dflt : Capabilities where
  protocol := "libfw/1".toList
  compression := ⟨[.none, .zrip], ⟨1, 4, -8⟩⟩
  limits :=
    { concurrency := ⟨4, 4, 1⟩
      uploadWindow := ⟨8, 8, 1⟩
      downloadWindow := ⟨4, 4, 1⟩
      chunkSize := ⟨2 * 1024 * 1024, 8 * 1024 * 1024, 256 * 1024⟩
      maxUploadSize := 20 * 1024 * 1024 * 1024
      maxRetries := 3
      timeoutMs := 60000 }

/-! ## The table -/

/-- `TuneParams`, the live parameter table. -/
structure TuneParams where
  concurrency : Nat
  uploadWindow : Nat
  downloadWindow : Nat
  chunkSize : Nat
  compressLevel : Int
  deriving DecidableEq

/-- `usize as i64`. -/
def asI64 (n : Nat) : Int := if n < 2 ^ 63 then n else (n : Int) - 2 ^ 64

/-- `floor_of`. -/
def floorOf (range : IntRange) (hardMax : Int) : Int := clampInt range.min 1 (max hardMax 1)

/-- `bounded`. -/
def bounded (v : Int) (range : IntRange) (hardMax : Int) : Int :=
  let hardMax := max hardMax 1
  let v := max v 1
  if range.max < range.min then max (min v hardMax) 1
  else
    let lo := clampInt range.min 1 hardMax
    let hi := max (min range.max hardMax) lo
    clampInt v lo hi

/-- `request_budget`. -/
def requestBudget (concurrency perFileWindow : Nat) : Nat :=
  max 1 (min (max concurrency 1 * max perFileWindow 1) HARD_MAX_IN_FLIGHT_REQUESTS)

namespace TuneParams

def requestBudget (p : TuneParams) : Nat :=
  Libfw.requestBudget p.concurrency (max p.uploadWindow p.downloadWindow)

theorem requestBudget_pos (p : TuneParams) : 1 ≤ p.requestBudget := le_max_left _ _

/-- `from_caps_mins`: where a ramp starts. -/
def fromCapsMins (caps : Capabilities) : TuneParams where
  concurrency := (floorOf caps.limits.concurrency HARD_MAX_CONCURRENCY).toNat
  uploadWindow := (floorOf caps.limits.uploadWindow HARD_MAX_WINDOW).toNat
  downloadWindow := (floorOf caps.limits.downloadWindow HARD_MAX_WINDOW).toNat
  chunkSize := (floorOf caps.limits.chunkSize HARD_MAX_CHUNK_SIZE).toNat
  compressLevel := caps.compression.zripLevels.min

/-- `clamped_into`. -/
def clampedInto (p : TuneParams) (caps : Capabilities) : TuneParams where
  concurrency := (bounded (asI64 p.concurrency) caps.limits.concurrency
    HARD_MAX_CONCURRENCY).toNat
  uploadWindow := (bounded (asI64 p.uploadWindow) caps.limits.uploadWindow
    HARD_MAX_WINDOW).toNat
  downloadWindow := (bounded (asI64 p.downloadWindow) caps.limits.downloadWindow
    HARD_MAX_WINDOW).toNat
  chunkSize := (bounded (asI64 p.chunkSize) caps.limits.chunkSize HARD_MAX_CHUNK_SIZE).toNat
  compressLevel := caps.clampLevel p.compressLevel

/-- `upload_in_flight` and `download_in_flight`. -/
def uploadInFlight (p : TuneParams) : Nat := p.concurrency * p.uploadWindow * p.chunkSize
def downloadInFlight (p : TuneParams) : Nat := p.concurrency * p.downloadWindow * p.chunkSize

/-- `max_chunk_for_budget`. -/
def maxChunkForBudget (p : TuneParams) : Nat :=
  max (HARD_MAX_IN_FLIGHT_BYTES / (max p.concurrency 1 *
    max (max p.uploadWindow p.downloadWindow) 1)) 1

/-- `enforce_in_flight_budget`. -/
def enforceInFlightBudget (p : TuneParams) : TuneParams :=
  { p with chunkSize := max 1 (min p.chunkSize p.maxChunkForBudget) }

@[simp] theorem enforceInFlightBudget_concurrency (p : TuneParams) :
    p.enforceInFlightBudget.concurrency = p.concurrency := rfl

@[simp] theorem enforceInFlightBudget_uploadWindow (p : TuneParams) :
    p.enforceInFlightBudget.uploadWindow = p.uploadWindow := rfl

@[simp] theorem enforceInFlightBudget_downloadWindow (p : TuneParams) :
    p.enforceInFlightBudget.downloadWindow = p.downloadWindow := rfl

end TuneParams

/-! ### Inside the advertised ranges -/

/-- The value lies in the advertised range. -/
def IntRange.Holds (range : IntRange) (v : Nat) : Prop := range.min ≤ v ∧ v ≤ range.max

/-- A range a client can honour: `1 ≤ min ≤ max ≤` the hard ceiling. -/
def IntRange.Proper (range : IntRange) (hardMax : Int) : Prop :=
  1 ≤ range.min ∧ range.min ≤ range.max ∧ range.max ≤ hardMax

instance (range : IntRange) (hardMax : Int) : Decidable (range.Proper hardMax) :=
  inferInstanceAs (Decidable (_ ∧ _))

theorem floorOf_holds {range : IntRange} {hardMax : Int} (h : range.Proper hardMax) :
    range.Holds (floorOf range hardMax).toNat := by
  obtain ⟨hlow, hrange, hhigh⟩ := h
  unfold floorOf clampInt IntRange.Holds
  constructor
  · omega
  · omega

theorem bounded_holds {range : IntRange} {hardMax : Int} (h : range.Proper hardMax) (v : Int) :
    range.Holds (bounded v range hardMax).toNat := by
  obtain ⟨hlow, hrange, hhigh⟩ := h
  have hproper : ¬ range.max < range.min := Int.not_lt.2 hrange
  simp only [bounded, if_neg hproper, clampInt, IntRange.Holds]
  constructor
  · omega
  · omega

/-- Concurrency and windows are advertised in proper ranges. -/
structure Capabilities.Sane (caps : Capabilities) : Prop where
  concurrency : caps.limits.concurrency.Proper HARD_MAX_CONCURRENCY
  uploadWindow : caps.limits.uploadWindow.Proper HARD_MAX_WINDOW
  downloadWindow : caps.limits.downloadWindow.Proper HARD_MAX_WINDOW

/-- Concurrency and both windows lie in the advertised ranges. -/
structure TuneParams.Within (caps : Capabilities) (p : TuneParams) : Prop where
  concurrency : caps.limits.concurrency.Holds p.concurrency
  uploadWindow : caps.limits.uploadWindow.Holds p.uploadWindow
  downloadWindow : caps.limits.downloadWindow.Holds p.downloadWindow

namespace TuneParams

variable {caps : Capabilities}

theorem fromCapsMins_within (h : caps.Sane) : (fromCapsMins caps).Within caps where
  concurrency := floorOf_holds h.concurrency
  uploadWindow := floorOf_holds h.uploadWindow
  downloadWindow := floorOf_holds h.downloadWindow

theorem clampedInto_within (h : caps.Sane) (p : TuneParams) : (p.clampedInto caps).Within caps where
  concurrency := bounded_holds h.concurrency _
  uploadWindow := bounded_holds h.uploadWindow _
  downloadWindow := bounded_holds h.downloadWindow _

theorem Within.enforceInFlightBudget {p : TuneParams} (h : p.Within caps) :
    p.enforceInFlightBudget.Within caps :=
  ⟨h.concurrency, h.uploadWindow, h.downloadWindow⟩

end TuneParams

/-! ## The ramp decision -/

section Decision

variable {F : Type} [Float64 F]

/-- `ewma`. -/
def ewma (prev : Option F) (sample alpha : F) : F :=
  match prev with
  | none => sample
  | some p => alpha * sample + (lit 1 - alpha) * p

/-- `bdp_bytes`. -/
def bdpBytes (mbps rttMs : F) : Nat :=
  toU64 (Float64.max (mbps * lit 1000000 / lit 8 * rttMs / lit 1000) (lit 0))

/-- `chunk_for_link`. -/
def chunkForLink (mbps : F) (range : IntRange) (budgetMax : Nat) : Nat :=
  let floor := (max (floorOf range HARD_MAX_CHUNK_SIZE) 1).toNat
  if !isFinite mbps || le mbps (lit 0) then max (min floor (max budgetMax 1)) 1
  else
    let bytes := toU64 (Float64.clamp (mbps * lit 1000000 / lit 8 * TARGET_CHUNK_SPAN_MS / lit 1000)
      (lit 0) (ofU64 (2 ^ 63 - 1)))
    let aligned := min (bytes / CHUNK_ALIGN * CHUNK_ALIGN) (2 ^ 64 - 1)
    let clamped := (bounded (asI64 (max aligned 1)) range HARD_MAX_CHUNK_SIZE).toNat
    max 1 (min clamped (max budgetMax 1))

/-- The dimension being raised. -/
inductive RampDim where
  | window
  | concurrency
  deriving DecidableEq

/-- `next_dim`. -/
def nextDim : RampDim → RampDim
  | .window => .concurrency
  | .concurrency => .concurrency

inductive RampAction where
  | raise
  | advanceDim
  | settle
  | degrade
  | hold
  deriving DecidableEq

/-- The inputs of the decision. -/
structure RampInput (F : Type) where
  mbps : F
  prevMbps : F
  rttInflation : F
  errors : Nat
  degraded : Bool
  ramping : Bool
  lowGainWindows : Nat
  inFlight : Nat
  bdp : Nat
  atCap : Bool
  lastDim : Bool

/-- The gain `ramp_action` sees. -/
def RampInput.gain (input : RampInput F) : F :=
  if input.degraded then lit 0
  else if lt (lit 0) input.prevMbps then input.mbps / input.prevMbps - lit 1
  else if input.ramping then lit 1
  else lit 0

/-- `ramp_action`: the action, and the new count of low-gain windows. -/
def rampAction (input : RampInput F) : RampAction × Nat :=
  if 0 < input.errors then (.degrade, 0)
  else if input.atCap then
    if input.lastDim then (.settle, 0) else (.advanceDim, 0)
  else if 0 < input.bdp ∧ input.bdp ≤ input.inFlight then (.settle, 0)
  else if lt RTT_INFLATE_THRESHOLD input.rttInflation then (.settle, 0)
  else if input.ramping && le GAIN_THRESHOLD input.gain then (.raise, 0)
  else
    let low := input.lowGainWindows + 1
    if 2 ≤ low then
      if input.degraded || input.lastDim then (.settle, low) else (.advanceDim, 0)
    else (.hold, low)

variable {input : RampInput F}

/-- Errors degrade, and nothing else does. -/
theorem rampAction_degrade_iff : (rampAction input).1 = .degrade ↔ 0 < input.errors := by
  unfold rampAction
  grind

/-- Only a ramp raises, and only below the cap. -/
theorem of_rampAction_raise (h : (rampAction input).1 = .raise) :
    input.ramping = true ∧ input.atCap = false := by
  unfold rampAction at h
  grind

/-- A window counts one more low-gain window at most. -/
theorem rampAction_low_le : (rampAction input).2 ≤ input.lowGainWindows + 1 := by
  unfold rampAction
  grind

/-- Without a ramp under way a window settles at the cap of the last dimension,
or below the cap after another window without gain, in a degraded hold or on the
last dimension. -/
theorem rampAction_settle_idle (hramping : input.ramping = false) (hbdp : input.bdp = 0)
    (hrtt : input.rttInflation = lit 0) :
    (rampAction input).1 = .settle ↔ input.errors = 0 ∧
      ((input.atCap = true ∧ input.lastDim = true) ∨
        (input.atCap = false ∧ 1 ≤ input.lowGainWindows ∧
          (input.degraded = true ∨ input.lastDim = true))) := by
  have hflat : lt (RTT_INFLATE_THRESHOLD : F) input.rttInflation = false := by
    rw [hrtt]
    exact not_lt_lit (by norm_num)
  unfold rampAction
  grind

end Decision

end Libfw

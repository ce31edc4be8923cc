import Libfw.TuneRuns
import Libfw.UploadPlans
import Libfw.ZstdStreams

/-!
# Hard ceilings of the tuned table

What a server advertises is untrusted: ranges may be inverted, huge or negative,
and so may stored rows and static tables.  Whatever they are, and whatever is
measured, the table stays inside the client's own ceilings
(`runs_stay_within_ceilings`).

The bounds of the four dimensions (`Bounded`) hold after every operation by
themselves; the byte budget couples them, and every operation that lets a
dimension grow enforces it (`enforceInFlightBudget_withinCeilings`).
-/

namespace Libfw

open Float64 GuardedRuns

/-- The dimensions of the table lie under their ceilings. -/
structure TuneParams.Bounded (p : TuneParams) : Prop where
  concurrency : 1 ≤ p.concurrency ∧ p.concurrency ≤ 64
  uploadWindow : 1 ≤ p.uploadWindow ∧ p.uploadWindow ≤ 64
  downloadWindow : 1 ≤ p.downloadWindow ∧ p.downloadWindow ≤ 64
  chunkSize : 1 ≤ p.chunkSize ∧ p.chunkSize ≤ 16 * 1024 * 1024

/-- So do the bytes the table lets a file have in flight. -/
structure TuneParams.WithinCeilings (p : TuneParams) : Prop extends p.Bounded where
  inFlight : p.concurrency * max p.uploadWindow p.downloadWindow * p.chunkSize ≤
    256 * 1024 * 1024

theorem floorOf_bounded (range : IntRange) {hardMax : Int} (h : 1 ≤ hardMax) :
    1 ≤ (floorOf range hardMax).toNat ∧ ((floorOf range hardMax).toNat : Int) ≤ hardMax := by
  unfold floorOf clampInt
  constructor
  · omega
  · omega

theorem bounded_bounded (v : Int) (range : IntRange) {hardMax : Int} (h : 1 ≤ hardMax) :
    1 ≤ (bounded v range hardMax).toNat ∧ ((bounded v range hardMax).toNat : Int) ≤ hardMax := by
  unfold bounded
  dsimp only
  by_cases hinverted : range.max < range.min
  · rw [if_pos hinverted]
    constructor
    · omega
    · omega
  · rw [if_neg hinverted]
    unfold clampInt
    constructor
    · omega
    · omega

namespace TuneParams

/-- A ramp starts under the ceilings. -/
theorem fromCapsMins_bounded (caps : Capabilities) : (fromCapsMins caps).Bounded := by
  have hconcurrency := floorOf_bounded caps.limits.concurrency
    (show 1 ≤ HARD_MAX_CONCURRENCY by decide)
  have hupload := floorOf_bounded caps.limits.uploadWindow (show 1 ≤ HARD_MAX_WINDOW by decide)
  have hdownload := floorOf_bounded caps.limits.downloadWindow
    (show 1 ≤ HARD_MAX_WINDOW by decide)
  have hchunk := floorOf_bounded caps.limits.chunkSize (show 1 ≤ HARD_MAX_CHUNK_SIZE by decide)
  exact ⟨⟨hconcurrency.1, Int.ofNat_le.1 hconcurrency.2⟩, ⟨hupload.1, Int.ofNat_le.1 hupload.2⟩,
    ⟨hdownload.1, Int.ofNat_le.1 hdownload.2⟩, ⟨hchunk.1, Int.ofNat_le.1 hchunk.2⟩⟩

/-- Clamping brings any table under the ceilings. -/
theorem clampedInto_bounded (p : TuneParams) (caps : Capabilities) :
    (p.clampedInto caps).Bounded := by
  have hconcurrency := bounded_bounded (asI64 p.concurrency) caps.limits.concurrency
    (show 1 ≤ HARD_MAX_CONCURRENCY by decide)
  have hupload := bounded_bounded (asI64 p.uploadWindow) caps.limits.uploadWindow
    (show 1 ≤ HARD_MAX_WINDOW by decide)
  have hdownload := bounded_bounded (asI64 p.downloadWindow) caps.limits.downloadWindow
    (show 1 ≤ HARD_MAX_WINDOW by decide)
  have hchunk := bounded_bounded (asI64 p.chunkSize) caps.limits.chunkSize
    (show 1 ≤ HARD_MAX_CHUNK_SIZE by decide)
  exact ⟨⟨hconcurrency.1, Int.ofNat_le.1 hconcurrency.2⟩, ⟨hupload.1, Int.ofNat_le.1 hupload.2⟩,
    ⟨hdownload.1, Int.ofNat_le.1 hdownload.2⟩, ⟨hchunk.1, Int.ofNat_le.1 hchunk.2⟩⟩

/-- The level is no dimension. -/
theorem Bounded.withLevel {p : TuneParams} (h : p.Bounded) (level : Int) :
    ({ p with compressLevel := level } : TuneParams).Bounded :=
  ⟨h.concurrency, h.uploadWindow, h.downloadWindow, h.chunkSize⟩

/-- The largest chunk the budget allows keeps it. -/
theorem mul_maxChunkForBudget_le {p : TuneParams} (h : p.Bounded) :
    p.concurrency * max p.uploadWindow p.downloadWindow * p.maxChunkForBudget ≤
      256 * 1024 * 1024 := by
  obtain ⟨hc, hc'⟩ := h.concurrency
  obtain ⟨hu, hu'⟩ := h.uploadWindow
  obtain ⟨hd, hd'⟩ := h.downloadWindow
  have hwindow : max (max p.uploadWindow p.downloadWindow) 1 =
      max p.uploadWindow p.downloadWindow := by omega
  have hconcurrency : max p.concurrency 1 = p.concurrency := by omega
  have hwide : max p.uploadWindow p.downloadWindow ≤ 64 := by omega
  have hdivisor : p.concurrency * max p.uploadWindow p.downloadWindow ≤ 64 * 64 :=
    Nat.mul_le_mul hc' hwide
  unfold maxChunkForBudget HARD_MAX_IN_FLIGHT_BYTES
  rw [hwindow, hconcurrency]
  generalize p.concurrency * max p.uploadWindow p.downloadWindow = divisor at hdivisor
  rcases Nat.le_total (256 * 1024 * 1024 / divisor) 1 with hsmall | hlarge
  · rw [max_eq_right hsmall]
    omega
  · rw [max_eq_left hlarge]
    exact Nat.mul_div_le _ _

/-- **Enforcing the budget restores it.** -/
theorem enforceInFlightBudget_withinCeilings {p : TuneParams} (h : p.Bounded) :
    p.enforceInFlightBudget.WithinCeilings := by
  obtain ⟨hk, hk'⟩ := h.chunkSize
  have hbudget := mul_maxChunkForBudget_le h
  have hpos : 1 ≤ p.maxChunkForBudget := le_max_right _ _
  refine ⟨⟨h.concurrency, h.uploadWindow, h.downloadWindow, ?_⟩, ?_⟩
  · unfold enforceInFlightBudget
    dsimp only
    omega
  · refine Nat.le_trans (Nat.mul_le_mul_left _ ?_) hbudget
    unfold enforceInFlightBudget
    dsimp only
    omega

/-- Fewer requests need no smaller chunks. -/
theorem WithinCeilings.of_le {p q : TuneParams} (h : p.WithinCeilings) (hq : q.Bounded)
    (hconcurrency : q.concurrency ≤ p.concurrency)
    (hupload : q.uploadWindow ≤ p.uploadWindow)
    (hdownload : q.downloadWindow ≤ p.downloadWindow) (hchunk : q.chunkSize = p.chunkSize) :
    q.WithinCeilings := by
  refine ⟨hq, ?_⟩
  have hwindow : max q.uploadWindow q.downloadWindow ≤ max p.uploadWindow p.downloadWindow := by
    omega
  rw [hchunk]
  exact Nat.le_trans (Nat.mul_le_mul_right _ (Nat.mul_le_mul hconcurrency hwindow)) h.inFlight

theorem requestBudget_le (p : TuneParams) : p.requestBudget ≤ 64 := by
  unfold requestBudget Libfw.requestBudget HARD_MAX_IN_FLIGHT_REQUESTS
  omega

end TuneParams

/-! ## The operations of the engine -/

variable {F : Type} [Float64 F]

theorem chunkForLink_bounded (mbps : F) (range : IntRange) (budgetMax : Nat) :
    1 ≤ chunkForLink mbps range budgetMax ∧
      chunkForLink mbps range budgetMax ≤ 16 * 1024 * 1024 := by
  have hfloor := floorOf_bounded range (show 1 ≤ HARD_MAX_CHUNK_SIZE by decide)
  unfold chunkForLink
  dsimp only
  split
  · unfold HARD_MAX_CHUNK_SIZE at hfloor ⊢
    constructor
    · omega
    · omega
  · generalize asI64 _ = v
    have hclamped := bounded_bounded v range (show 1 ≤ HARD_MAX_CHUNK_SIZE by decide)
    unfold HARD_MAX_CHUNK_SIZE at hclamped ⊢
    constructor
    · omega
    · omega

namespace TuningEngine

variable {e : TuningEngine F} {store : TuneStore} {caps : Capabilities} {nowMs : F}

omit [Float64 F] in
theorem dimMax_le (e : TuningEngine F) (caps : Capabilities) : e.dimMax caps ≤ 64 := by
  unfold dimMax HARD_MAX_WINDOW HARD_MAX_CONCURRENCY
  cases e.dim with
  | window =>
      dsimp only
      omega
  | concurrency =>
      dsimp only
      omega

omit [Float64 F] in
/-- The dimension being ramped lies under its ceiling. -/
theorem dimValue_bounded (h : e.params.Bounded) : 1 ≤ e.dimValue ∧ e.dimValue ≤ 64 := by
  unfold dimValue window
  cases e.dim with
  | concurrency => exact h.concurrency
  | window =>
      cases e.direction with
      | upload => exact h.uploadWindow
      | download => exact h.downloadWindow

omit [Float64 F] in
/-- A dimension may be set to anything under the ceiling. -/
theorem setDim_bounded {v : Nat} (h : e.params.Bounded) (hv : 1 ≤ v ∧ v ≤ 64) :
    (e.setDim v).params.Bounded := by
  unfold setDim
  cases e.dim with
  | concurrency => exact ⟨hv, h.uploadWindow, h.downloadWindow, h.chunkSize⟩
  | window =>
      cases e.direction with
      | upload => exact ⟨h.concurrency, hv, h.downloadWindow, h.chunkSize⟩
      | download => exact ⟨h.concurrency, h.uploadWindow, hv, h.chunkSize⟩

omit [Float64 F] in
/-- Setting a dimension to less lowers nothing else. -/
theorem setDim_withinCeilings {v : Nat} (h : e.params.WithinCeilings) (hpos : 1 ≤ v)
    (hle : v ≤ e.dimValue) : (e.setDim v).params.WithinCeilings := by
  have hbound := (dimValue_bounded h.toBounded).2
  refine h.of_le (setDim_bounded h.toBounded ⟨hpos, Nat.le_trans hle hbound⟩) ?_ ?_ ?_ ?_
  all_goals
    unfold dimValue window at hle
    unfold setDim
    cases hdim : e.dim with
    | concurrency => simp_all
    | window => cases hdir : e.direction <;> simp_all

omit [Float64 F] in
/-- The step of a raise stays under the ceiling. -/
theorem raised_le {v dimMax : Int} (h : dimMax ≤ 64) :
    1 ≤ (max (raised v dimMax) 1).toNat ∧ (max (raised v dimMax) 1).toNat ≤ 64 := by
  unfold raised
  split
  · decide
  · split
    · omega
    · omega

omit [Float64 F] in
theorem raiseDim_bounded (h : e.params.Bounded) : (e.raiseDim caps).params.Bounded :=
  setDim_bounded h (raised_le (e.dimMax_le caps))

omit [Float64 F] in
/-- Halving only lowers. -/
theorem halveDim_withinCeilings (h : e.params.WithinCeilings) :
    e.halveDim.params.WithinCeilings := by
  have hvalue := dimValue_bounded h.toBounded
  have hcast : asI64 e.dimValue = e.dimValue := if_pos (by omega)
  unfold halveDim halved
  rw [hcast]
  apply setDim_withinCeilings h
  · omega
  · omega

/-- Retuning the chunk size keeps the budget. -/
theorem retuneChunkSize_withinCeilings (h : e.params.WithinCeilings) (mbps : F) :
    (e.retuneChunkSize mbps caps).params.WithinCeilings := by
  unfold retuneChunkSize
  dsimp only
  split
  · apply TuneParams.enforceInFlightBudget_withinCeilings
    exact ⟨h.concurrency, h.uploadWindow, h.downloadWindow, chunkForLink_bounded _ _ _⟩
  · exact h

theorem act_withinCeilings (h : e.params.WithinCeilings) (action : RampAction) :
    (e.act store caps nowMs action).1.params.WithinCeilings := by
  cases action with
  | raise => exact TuneParams.enforceInFlightBudget_withinCeilings (raiseDim_bounded h.toBounded)
  | advanceDim => exact h
  | settle =>
      cases hpost : e.postDegradeSettle with
      | true =>
          rw [act_settle_of_postDegrade hpost]
          exact h
      | false =>
          rw [act_settle hpost]
          exact h
  | degrade => exact halveDim_withinCeilings h
  | hold =>
      obtain ⟨count, heq | ⟨-, heq⟩⟩ := e.act_hold store caps nowMs
      · rw [heq]
        exact h
      · rw [heq]
        exact h

theorem evaluateTick_withinCeilings (h : e.params.WithinCeilings) (caps : Capabilities)
    (nowMs : F) (done : Nat) (rttMs : Option F) (error : Bool) :
    (e.evaluateTick caps nowMs done rttMs error).1.params.WithinCeilings := by
  obtain ⟨base, avg, hsample⟩ := e.sample_eq rttMs error
  have hparams : (e.sample rttMs error).params = e.params := by rw [hsample]
  unfold evaluateTick evaluate measured
  apply retuneChunkSize_withinCeilings
  dsimp only
  rw [hparams]
  exact h

/-- Any table a transfer begins with. -/
theorem beginTransfer_withinCeilings {sha : Capabilities → Text} {staticParams : TuneParams} :
    (e.beginTransfer store sha caps nowMs staticParams).1.params.WithinCeilings := by
  unfold beginTransfer
  dsimp only
  split
  · exact TuneParams.enforceInFlightBudget_withinCeilings (TuneParams.clampedInto_bounded _ _)
  · apply TuneParams.enforceInFlightBudget_withinCeilings
    cases (reusable _ store nowMs).2 with
    | none => exact (TuneParams.fromCapsMins_bounded caps).withLevel _
    | some settled => exact (TuneParams.clampedInto_bounded settled caps).withLevel _

/-- **One call.** -/
theorem apply_withinCeilings (sha : Capabilities → Text) (store : TuneStore) (call : TuneCall F)
    (h : e.params.WithinCeilings) : (call.apply sha e store).1.params.WithinCeilings := by
  cases call with
  | setOrigin url => exact h
  | setDirection kind => exact h
  | setEnabled enabled => exact h
  | beginTransfer caps nowMs staticParams => exact beginTransfer_withinCeilings
  | tick nowMs done rttMs error =>
      rcases e.tick_cases sha store nowMs done rttMs error with
        ⟨errors, base, avg, -, heq⟩ | ⟨caps, -, heq⟩
      · rw [heq]
        exact h
      · rw [heq]
        exact act_withinCeilings (evaluateTick_withinCeilings h caps nowMs done rttMs error) _
  | transferEnd ok =>
      have hparams : ((TuneCall.transferEnd ok).apply sha e store).1.params = e.params :=
        e.transferEnd_params store ok
      rw [hparams]
      exact h

end TuningEngine

/-! ## Runs -/

/-- Every engine's table is within the ceilings. -/
def CeilingsHold (w : TuneWorld F) : Prop := ∀ i, (w.engine i).params.WithinCeilings

namespace TuneWorld

theorem Fresh.ceilings {w : TuneWorld F} (h : w.Fresh) : CeilingsHold w := by
  intro i
  have hone : (⟨1, 1, 1, 1, 0⟩ : TuneParams).WithinCeilings :=
    ⟨⟨by decide, by decide, by decide, by decide⟩, by decide⟩
  obtain ⟨enabled, heq | ⟨ttlMs, heq⟩⟩ := h.engine i
  · rw [heq]
    exact hone
  · rw [heq]
    exact hone

/-- **Step lemma.** -/
theorem ceilings_next {sha : Capabilities → Text} {w v : TuneWorld F} {a : TuneAct F}
    (h : CeilingsHold w) (hnext : next sha w a = some v) : CeilingsHold v := by
  obtain ⟨i, call⟩ := a
  intro j
  by_cases hj : j = i
  · subst hj
    rw [next_engine_self hnext]
    exact TuningEngine.apply_withinCeilings sha w.store call (h j)
  · rw [next_engine_ne hnext hj]
    exact h j

end TuneWorld

/-! ## Ranges -/

/-- The chunks of a file span at most a chunk size. -/
theorem length_le_of_mem_chunksFrom {size chunkSize left offset : Nat} {range : Nat × Nat}
    (h : range ∈ chunksFrom size chunkSize left offset) : range.2 - range.1 ≤ chunkSize := by
  induction left generalizing offset with
  | zero => cases h
  | succ left ih =>
      unfold chunksFrom at h
      split at h
      · rcases List.mem_cons.1 h with hfirst | hrest
        · rw [hfirst]
          dsimp only
          omega
        · exact ih hrest
      · cases h

/-- **In every state of every run** of any number of engines over one store of any
content, whatever is advertised, configured and measured, the table is within the
client's ceilings, the request budget is between 1 and 64, and no range the table
cuts a file into is larger than what one decompressor call may put out. -/
theorem runs_stay_within_ceilings {sha : Capabilities → Text} {w₀ w : TuneWorld F}
    (hfresh : w₀.Fresh) (hrun : Reaches (TuneWorld.next sha) (fun _ _ => True) w₀ w) (i : Nat) :
    (w.engine i).params.WithinCeilings ∧
      (1 ≤ (w.engine i).params.requestBudget ∧ (w.engine i).params.requestBudget ≤ 64) ∧
      ∀ start size, ∀ range ∈ parallelChunks start size (w.engine i).params.chunkSize ++
        chunkBounds size (w.engine i).params.chunkSize start,
          range.2 - range.1 ≤ MAX_OUTPUT_PER_CALL := by
  have hceilings : CeilingsHold w := hrun.invariant
    (fun _ _ _ hI _ hnext => TuneWorld.ceilings_next hI hnext) hfresh.ceilings
  refine ⟨hceilings i, ⟨TuneParams.requestBudget_pos _, TuneParams.requestBudget_le _⟩, ?_⟩
  intro start size range hrange
  obtain ⟨hpos, hchunk⟩ := (hceilings i).chunkSize
  have hbudget : MAX_OUTPUT_PER_CALL = 16 * 1024 * 1024 := by decide
  rw [hbudget]
  rcases List.mem_append.1 hrange with hdownload | hupload
  · unfold parallelChunks at hdownload
    rw [if_neg (by omega)] at hdownload
    exact Nat.le_trans (length_le_of_mem_chunksFrom hdownload) hchunk
  · exact Nat.le_trans (length_le_of_mem_chunksFrom hupload) hchunk

/-! ### A hostile advertisement -/

/-- Minimums far above any ceiling, as a test of the client advertises them. -/
def hostileCaps : Capabilities :=
  { Capabilities.dflt with
    limits :=
      { Capabilities.dflt.limits with
        concurrency := ⟨1, 100000, 1000⟩
        uploadWindow := ⟨1, 100000, 500⟩
        downloadWindow := ⟨1, 100000, 500⟩
        chunkSize := ⟨2 ^ 63 - 1, 2 ^ 63 - 1, 2 ^ 63 - 1⟩ } }

/-- Sixty-four files of sixty-four requests leave 64 KiB for a chunk. -/
theorem hostile_run_stays_within_ceilings :
    ∃ w, Reaches (TuneWorld.next sampleSha) (fun _ _ => True) sampleWorld w ∧
      (w.engine 0).params = ⟨64, 64, 64, 64 * 1024, 1⟩ ∧ (w.engine 0).params.WithinCeilings := by
  have hrun : ((runIf (TuneWorld.next sampleSha) (fun _ _ => true) sampleWorld
      [(0, .beginTransfer hostileCaps 0 sampleStatic)]).any fun w =>
        (w.engine 0).params = ⟨64, 64, 64, 64 * 1024, 1⟩) = true := by
    decide +kernel
  obtain ⟨w, hw, hend⟩ := (Option.any_eq_true _ _).1 hrun
  have hreach : Reaches (TuneWorld.next sampleSha) (fun _ _ => True) sampleWorld w :=
    reaches_of_runIf (fun _ _ _ => trivial) hw
  exact ⟨w, hreach, of_decide_eq_true hend,
    (runs_stay_within_ceilings sampleWorld_fresh hreach 0).1⟩

end Libfw

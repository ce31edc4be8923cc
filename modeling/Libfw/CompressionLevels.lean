import Libfw.RangeNegotiation

/-!
# The levels a compressor is given

`zrip` takes the levels from -8 to 4.  The server passes what `negotiate_download_level` makes
of the range it was built with and of the header; the client what `resolve_level`, or a
benchmark of three levels, makes of its policy and of the range it is advertised
(`libfw-client/src/tune.rs`).  Neither range is checked.

* `levels_addressable_iff` — the levels can be addressed exactly where both ranges lead there.
-/

namespace Libfw

open Float64

/-! ## The levels of a client -/

inductive CompressLevel where
  | auto
  | fast
  | balanced
  | max
  | fixed (level : Int)
  deriving DecidableEq

def resolveLevel (level : CompressLevel) (caps : Capabilities) : Int :=
  let z := caps.compression.zripLevels
  match level with
  | .fast => z.min
  | .balanced | .auto => z.default
  | .max => z.max
  | .fixed l => z.clampLevel l

def LEVEL_SAMPLE_SIZE : Nat := 64 * 1024

/-- `auto_candidates`. -/
def autoCandidates (caps : Capabilities) : List Int :=
  let z := caps.compression.zripLevels
  [z.min, z.default, z.max]

section Auto

variable {F : Type} [Float64 F]

/-- `benchmark_levels`: the lengths `zrip` compresses to, if it does, between two readings of
the clock each. -/
def benchmarkLevels (compress : List UInt8 → Int → Option Nat) (clock : Nat → F)
    (sample : List UInt8) (levels : List Int) : List (Int × Nat × F) :=
  levels.mapIdx fun i level =>
    (level, (compress sample level).getD sample.length, clock (2 * i + 1) - clock (2 * i))

/-- `score > best`, where no score is `f64::NEG_INFINITY`. -/
def exceeds (score : F) : Option F → Bool
  | none => isFinite score || lt (lit 0) score
  | some best => lt best score

/-- Speed of the link in bytes per ms; ten Mbps where it is unknown. -/
def bytesPerMs (mbps : F) : F :=
  if lt (lit 0) mbps then mbps * lit 1000000 / lit 8 / lit 1000
  else lit 10000000 / lit 8 / lit 1000

/-- One candidate of the loop over the scores: on ties the earlier one stays. -/
def bestStep (bytesPerMs : F) (uncompressed : Nat) (best : Int × Option F)
    (c : Int × Nat × F) : Int × Option F :=
  let score := ofU64 (uncompressed - c.2.1) / bytesPerMs - c.2.2
  if exceeds score best.2 then (c.1, some score) else best

/-- `choose_auto_level`. -/
def chooseAutoLevel (candidates : List (Int × Nat × F)) (uncompressed : Nat) (mbps : F) : Int :=
  match candidates with
  | [] => 0
  | first :: rest =>
      if (first :: rest).all fun c => uncompressed - c.2.1 = 0 then
        rest.foldl (fun least c => min least c.1) first.1
      else
        ((first :: rest).foldl (bestStep (bytesPerMs mbps) uncompressed) (first.1, none)).1

/-- The level that a sample is benchmarked for; without one, the server's default. -/
def benchmarkedLevel (compress : List UInt8 → Int → Option Nat) (clock : Nat → F)
    (caps : Capabilities) (sample : Option (List UInt8)) (mbps : F) : Int :=
  match sample with
  | some (b :: bytes) =>
      let s := (b :: bytes).take LEVEL_SAMPLE_SIZE
      chooseAutoLevel (benchmarkLevels compress clock s (autoCandidates caps)) s.length
        (Float64.max mbps (lit 1))
  | _ => caps.compression.zripLevels.default

/-! ### Over a session -/

/-- The part of `TuningEngine` that chooses the level of an upload. -/
structure LevelChoice where
  levelCfg : CompressLevel
  autoLevel : Option Int
  autoLevelBenchmarked : Bool
  deriving DecidableEq

namespace LevelChoice

/-- `new`. -/
def new (levelCfg : CompressLevel) : LevelChoice := ⟨levelCfg, none, false⟩

/-- What `begin_transfer` does to it. -/
def beginTransfer (e : LevelChoice) : LevelChoice :=
  { e with autoLevel := none, autoLevelBenchmarked := false }

/-- `upload_compress_level`. -/
def uploadCompressLevel (e : LevelChoice) (compress : List UInt8 → Int → Option Nat)
    (clock : Nat → F) (caps : Capabilities) (sample : Option (List UInt8)) (mbps : F) :
    LevelChoice × Int :=
  match e.levelCfg with
  | .auto =>
      let e :=
        if e.autoLevelBenchmarked then e
        else
          { e with
            autoLevelBenchmarked := true
            autoLevel := some (benchmarkedLevel compress clock caps sample mbps) }
      (e, e.autoLevel.getD caps.compression.zripLevels.default)
  | other => (e, resolveLevel other caps)

end LevelChoice

end Auto

/-! ## The condition -/

/-- `is_valid_zrip_level`. -/
def Addressable (level : Int) : Prop := -8 ≤ level ∧ level ≤ 4

instance (level : Int) : Decidable (Addressable level) := inferInstanceAs (Decidable (_ ∧ _))

/-- A range leads an asked level, or no level, to one that can be addressed: the bounds and the
level do not lie on one side outside, and an empty range has a default inside. -/
def ZripLevels.Leads (z : ZripLevels) : Option Int → Prop
  | none => Addressable z.default
  | some l =>
      if z.min ≤ z.max then
        (z.min ≤ 4 ∧ -8 ≤ z.max) ∧ (-8 ≤ l ∨ -8 ≤ z.min) ∧ (l ≤ 4 ∨ z.max ≤ 4)
      else Addressable z.default

/-- The level `download` passes on. -/
def DownloadServer.downloadLevel {V : Type} (srv : DownloadServer V) (hdrs : DownloadHeaders V) :
    Int :=
  (srv.negotiateDownloadLevel (srv.negotiateDownloadFormat hdrs) hdrs).1

/-- The range a server was built with, if there is one, fits a download that is compressed. -/
def DownloadServer.LevelFits {V : Type} (srv : DownloadServer V) (hdrs : DownloadHeaders V) :
    Prop :=
  ∀ z, srv.zripLevels = some z → srv.negotiateDownloadFormat hdrs = .zrip →
    z.Leads ((hdrs.compressLevel.bind srv.toStr).bind fun v => parseI32 (trim v))

/-- An advertised range fits a policy. -/
def CompressLevel.Fits (level : CompressLevel) (caps : Capabilities) : Prop :=
  let z := caps.compression.zripLevels
  match level with
  | .auto => Addressable z.min ∧ Addressable z.default ∧ Addressable z.max
  | .fast => Addressable z.min
  | .balanced => Addressable z.default
  | .max => Addressable z.max
  | .fixed l => z.Leads (some l)

/-- One thing that happens to the levels of a client: a transfer begins, the level of an upload
is chosen, or, where the engine is out of reach, it is the policy's. -/
inductive LevelStep (F : Type) where
  | begin
  | choose (compress : List UInt8 → Int → Option Nat) (clock : Nat → F) (caps : Capabilities)
      (sample : Option (List UInt8)) (mbps : F)
  | resolve (caps : Capabilities)

section Steps

variable {F : Type} [Float64 F]

/-- The capabilities are among those received, and `zrip` compresses at levels it takes. -/
def LevelStep.Allowed (received : Capabilities → Prop) : LevelStep F → Prop
  | .begin => True
  | .choose compress _ caps _ _ =>
      received caps ∧ ∀ sample level, ¬ Addressable level → compress sample level = none
  | .resolve caps => received caps

/-- The levels that uploads are compressed at. -/
def LevelChoice.levels (e : LevelChoice) : List (LevelStep F) → List Int
  | [] => []
  | .begin :: rest => e.beginTransfer.levels rest
  | .choose compress clock caps sample mbps :: rest =>
      let chosen := e.uploadCompressLevel compress clock caps sample mbps
      chosen.2 :: chosen.1.levels rest
  | .resolve caps :: rest => resolveLevel e.levelCfg caps :: e.levels rest

end Steps

/-- **What a client is to do**: in every session with these capabilities, whatever is measured
in whatever arithmetic, every level of an upload can be addressed. -/
def UploadsAddressable (level : CompressLevel) (received : Capabilities → Prop) : Prop :=
  ∀ (F : Type) [Float64 F] (steps : List (LevelStep F)), (∀ step ∈ steps, step.Allowed received) →
    ∀ l ∈ (LevelChoice.new level).levels steps, Addressable l

/-! ## Where a range leads -/

theorem clampLevel_addressable_iff (z : ZripLevels) (l : Int) :
    Addressable (z.clampLevel l) ↔ z.Leads (some l) := by
  unfold ZripLevels.clampLevel ZripLevels.Leads
  split
  · next hle =>
      unfold Addressable clampInt
      omega
  · exact Iff.rfl

theorem negotiateLevel_addressable_iff (z : ZripLevels) (req : Option Int) :
    Addressable (negotiateLevel req z) ↔ z.Leads req := by
  unfold negotiateLevel
  cases req with
  | none => simp only [ite_self, ZripLevels.Leads]
  | some l =>
      rw [← clampLevel_addressable_iff]
      unfold ZripLevels.clampLevel clampInt
      by_cases hempty : z.max < z.min
      · rw [if_pos hempty, if_neg (not_le.2 hempty)]
      · rw [if_neg hempty, if_pos (not_lt.1 hempty)]

/-- What comes after a step that did not fail. -/
theorem of_bind_eq_ok {ε α β : Type} {x : Except ε α} {f : α → Except ε β} {b : β}
    (h : x >>= f = .ok b) : ∃ a, x = .ok a ∧ f a = .ok b := by
  cases x with
  | error e => cases h
  | ok a => exact ⟨a, rfl, h⟩

/-- It is the level that a download is planned with. -/
theorem level_of_planDownload {V : Type} {srv : DownloadServer V} {path : Text}
    {hdrs : DownloadHeaders V} {withReader : Bool} {plan : DownloadPlan}
    (h : srv.planDownload path hdrs withReader = .ok plan) :
    plan.level = srv.downloadLevel hdrs := by
  have hspan : ∀ path fileMeta isPartial spec,
      srv.planSpan path fileMeta hdrs withReader isPartial spec = .ok plan →
        plan.level = srv.downloadLevel hdrs := by
    intro path fileMeta isPartial spec hplan
    unfold DownloadServer.planSpan at hplan
    dsimp only at hplan
    split at hplan
    all_goals
      obtain ⟨reader, -, hplan⟩ := of_bind_eq_ok hplan
      split at hplan
      · split at hplan
        · cases hplan
        · cases hplan
          rfl
      · cases hplan
        rfl
  unfold DownloadServer.planDownload at h
  obtain ⟨path', -, h⟩ := of_bind_eq_ok h
  obtain ⟨found, -, h⟩ := of_bind_eq_ok h
  cases found with
  | none => cases h
  | some fileMeta =>
      dsimp only at h
      split at h
      · cases h
      · split at h
        · cases h
        · obtain ⟨spec, -, h⟩ := of_bind_eq_ok h
          exact hspan _ _ _ _ h

theorem downloadLevel_addressable_iff {V : Type} (srv : DownloadServer V)
    (hdrs : DownloadHeaders V) : Addressable (srv.downloadLevel hdrs) ↔ srv.LevelFits hdrs := by
  have hdefault : Addressable ZRIP_DEFAULT_LEVEL := by decide
  unfold DownloadServer.downloadLevel DownloadServer.negotiateDownloadLevel
    DownloadServer.LevelFits
  cases srv.zripLevels with
  | none => simp [hdefault]
  | some z =>
      cases srv.negotiateDownloadFormat hdrs with
      | none => simp [hdefault]
      | zrip =>
          simp only [ne_eq, not_true, if_false, negotiateLevel_addressable_iff, Option.some.injEq,
            forall_eq', forall_const]

theorem resolveLevel_addressable_iff {level : CompressLevel} (hauto : level ≠ .auto)
    (caps : Capabilities) : Addressable (resolveLevel level caps) ↔ level.Fits caps := by
  cases level with
  | auto => exact absurd rfl hauto
  | fast | balanced | max => exact Iff.rfl
  | fixed l => exact clampLevel_addressable_iff _ l

theorem resolveLevel_addressable {level : CompressLevel} {caps : Capabilities}
    (h : level.Fits caps) : Addressable (resolveLevel level caps) := by
  by_cases hauto : level = .auto
  · subst hauto
    exact h.2.1
  · exact (resolveLevel_addressable_iff hauto caps).2 h

/-! ## What a benchmark can choose -/

/-- A fold that keeps a value or takes an element's ends with one of these. -/
theorem foldl_picks {σ β γ : Type} {step : σ → β → σ} {value : σ → γ} {key : β → γ}
    (hstep : ∀ s c, value (step s c) = value s ∨ value (step s c) = key c) (l : List β) : ∀ s,
    value (l.foldl step s) = value s ∨ ∃ c ∈ l, value (l.foldl step s) = key c := by
  induction l with
  | nil =>
      intro s
      exact Or.inl rfl
  | cons c rest ih =>
      intro s
      rw [List.foldl_cons]
      obtain hfirst | ⟨c', hmem, hlater⟩ := ih (step s c)
      · rw [hfirst]
        obtain hkept | hc := hstep s c
        · exact Or.inl hkept
        · exact Or.inr ⟨c, List.mem_cons_self, hc⟩
      · exact Or.inr ⟨c', List.mem_cons_of_mem c hmem, hlater⟩

section Choice

variable {F : Type} [Float64 F]

/-- The better of two keeps its level. -/
theorem bestStep_fst (bytesPerMs : F) (uncompressed : Nat) (best : Int × Option F)
    (c : Int × Nat × F) :
    (bestStep bytesPerMs uncompressed best c).1 = best.1 ∨
      (bestStep bytesPerMs uncompressed best c).1 = c.1 := by
  unfold bestStep
  dsimp only
  split
  · exact Or.inr rfl
  · exact Or.inl rfl

/-- What is chosen is a candidate. -/
theorem chooseAutoLevel_mem {candidates : List (Int × Nat × F)} (h : candidates ≠ [])
    (uncompressed : Nat) (mbps : F) :
    chooseAutoLevel candidates uncompressed mbps ∈ candidates.map Prod.fst := by
  cases candidates with
  | nil => exact absurd rfl h
  | cons first rest =>
      unfold chooseAutoLevel
      dsimp only
      split
      · have hleast : ∀ (least : Int) (c : Int × Nat × F),
            id (min least c.1) = id least ∨ id (min least c.1) = c.1 := by
          intro least c
          dsimp only [id]
          omega
        obtain hfirst | ⟨c, hmem, hc⟩ := foldl_picks hleast rest first.1
        · exact List.mem_map.2 ⟨first, List.mem_cons_self, hfirst.symm⟩
        · exact List.mem_map.2 ⟨c, List.mem_cons_of_mem first hmem, hc.symm⟩
      · have hbest := foldl_picks (bestStep_fst (bytesPerMs mbps) uncompressed) (first :: rest)
          (first.1, none)
        obtain hfirst | ⟨c, hmem, hc⟩ := hbest
        · exact List.mem_map.2 ⟨first, List.mem_cons_self, hfirst.symm⟩
        · exact List.mem_map.2 ⟨c, hmem, hc.symm⟩

theorem benchmarkLevels_fst (compress : List UInt8 → Int → Option Nat) (clock : Nat → F)
    (sample : List UInt8) (levels : List Int) :
    (benchmarkLevels compress clock sample levels).map Prod.fst = levels := by
  apply List.ext_getElem
  · simp [benchmarkLevels]
  · intro i h h'
    simp [benchmarkLevels]

theorem benchmarkedLevel_addressable {caps : Capabilities} (hfits : CompressLevel.auto.Fits caps)
    (compress : List UInt8 → Int → Option Nat) (clock : Nat → F) (sample : Option (List UInt8))
    (mbps : F) : Addressable (benchmarkedLevel compress clock caps sample mbps) := by
  obtain ⟨hmin, hdefault, hmax⟩ := hfits
  have hcandidate : ∀ l ∈ autoCandidates caps, Addressable l := by
    intro l hl
    simp only [autoCandidates, List.mem_cons, List.not_mem_nil, or_false] at hl
    rcases hl with rfl | rfl | rfl
    · exact hmin
    · exact hdefault
    · exact hmax
  unfold benchmarkedLevel
  split
  · next b bytes =>
      apply hcandidate
      rw [← benchmarkLevels_fst compress clock ((b :: bytes).take LEVEL_SAMPLE_SIZE)
        (autoCandidates caps)]
      exact chooseAutoLevel_mem (List.cons_ne_nil _ _) _ _
  · exact hdefault

namespace LevelChoice

/-- The level of an upload can be addressed, now and from the cache. -/
theorem uploadCompressLevel_addressable {e : LevelChoice} {caps : Capabilities}
    (hfits : e.levelCfg.Fits caps) (hcached : ∀ l, e.autoLevel = some l → Addressable l)
    (compress : List UInt8 → Int → Option Nat) (clock : Nat → F) (sample : Option (List UInt8))
    (mbps : F) :
    let chosen := e.uploadCompressLevel compress clock caps sample mbps
    Addressable chosen.2 ∧ chosen.1.levelCfg = e.levelCfg ∧
      ∀ l, chosen.1.autoLevel = some l → Addressable l := by
  unfold uploadCompressLevel
  cases hcfg : e.levelCfg with
  | fast | balanced | max | fixed =>
      rw [hcfg] at hfits
      exact ⟨resolveLevel_addressable hfits, hcfg, hcached⟩
  | auto =>
      rw [hcfg] at hfits
      have hnew : Addressable (benchmarkedLevel compress clock caps sample mbps) :=
        benchmarkedLevel_addressable hfits compress clock sample mbps
      by_cases hdone : e.autoLevelBenchmarked = true
      · simp only [if_pos hdone]
        refine ⟨?_, hcfg, hcached⟩
        cases hlevel : e.autoLevel with
        | none => exact hfits.2.1
        | some l => exact hcached l hlevel
      · simp only [if_neg hdone]
        refine ⟨hnew, trivial, ?_⟩
        intro l hl
        cases hl
        exact hnew

/-- Every level of a session can be addressed. -/
theorem levels_addressable {received : Capabilities → Prop} {steps : List (LevelStep F)} :
    ∀ e : LevelChoice, (∀ caps, received caps → e.levelCfg.Fits caps) →
      (∀ l, e.autoLevel = some l → Addressable l) →
      (∀ step ∈ steps, step.Allowed received) → ∀ l ∈ e.levels steps, Addressable l := by
  induction steps with
  | nil =>
      intro e hfits hcached hsteps l hl
      cases hl
  | cons step rest ih =>
      intro e hfits hcached hsteps l hl
      have hstep := hsteps step List.mem_cons_self
      have hrest := fun x hx => hsteps x (List.mem_cons_of_mem step hx)
      cases step with
      | begin =>
          exact ih e.beginTransfer hfits (fun _ h => nomatch h) hrest l hl
      | choose compress clock caps sample mbps =>
          obtain ⟨hnow, hcfg, hlater⟩ := uploadCompressLevel_addressable (hfits caps hstep.1) hcached
            compress clock sample mbps
          obtain rfl | hl := List.mem_cons.1 hl
          · exact hnow
          · exact ih _ (fun caps h => hcfg ▸ hfits caps h) hlater hrest l hl
      | resolve caps =>
          obtain rfl | hl := List.mem_cons.1 hl
          · exact resolveLevel_addressable (hfits caps hstep)
          · exact ih e hfits hcached hrest l hl

end LevelChoice

end Choice

/-! ## When the levels can be addressed -/

/-- A compressor that takes a byte away at the levels of `zrip`. -/
def savesAll (_ : List UInt8) (level : Int) : Option Nat :=
  if Addressable level then some 0 else none

/-- A clock on which one of the three candidates takes no time, and the others a second. -/
def clockFor (j n : Nat) : ℚ := if n % 2 = 1 ∧ n / 2 ≠ j then 1000 else 0

/-- No score so far, or one below zero. -/
def Low (best : Option ℚ) : Prop := ∀ score, best = some score → score < 0

/-- A slow candidate leaves a low score low, and does not beat zero. -/
theorem bestStep_slow (best : Int × Option ℚ) (l : Int) (length : Nat) :
    (Low best.2 → Low (bestStep 125 1 best (l, length, 1000)).2) ∧
      (best.2 = some 0 → bestStep 125 1 best (l, length, 1000) = best) := by
  have hscore : (ofU64 (1 - length) : ℚ) / 125 - 1000 < 0 := by
    have hone : ((1 - length : Nat) : ℚ) ≤ 1 := by exact_mod_cast Nat.sub_le 1 length
    have hle : ((1 - length : Nat) : ℚ) / 125 ≤ 1 / 125 := by gcongr
    exact lt_of_le_of_lt (sub_le_sub_right hle 1000) (by norm_num)
  unfold bestStep
  dsimp only
  constructor
  · intro hlow
    split
    · intro score h
      cases h
      exact hscore
    · exact hlow
  · intro hzero
    have hnot : exceeds ((ofU64 (1 - length) : ℚ) / 125 - 1000) best.2 = false := by
      rw [hzero]
      exact decide_eq_false (not_lt.2 hscore.le)
    rw [hnot]
    rfl

/-- A candidate that neither saves nor takes time beats a low score. -/
theorem bestStep_idle {best : Int × Option ℚ} (hlow : Low best.2) (l : Int) :
    bestStep 125 1 best (l, 1, 0) = (l, some 0) := by
  have hscore : (ofU64 (1 - 1) : ℚ) / 125 - 0 = 0 := by decide +kernel
  have hbeats : exceeds (0 : ℚ) best.2 = true := by
    cases hbest : best.2 with
    | none => rfl
    | some score => exact decide_eq_true (hlow score hbest)
  unfold bestStep
  dsimp only
  rw [hscore, hbeats]
  rfl

/-- The least and the greatest level can both be chosen, if the default can be addressed. -/
theorem benchmarkedLevel_savesAll {caps : Capabilities}
    (hdefault : Addressable caps.compression.zripLevels.default) :
    (¬ Addressable caps.compression.zripLevels.min →
      benchmarkedLevel savesAll (clockFor 0) caps (some [0]) 1 = caps.compression.zripLevels.min) ∧
    (¬ Addressable caps.compression.zripLevels.max →
      benchmarkedLevel savesAll (clockFor 2) caps (some [0]) 1 =
        caps.compression.zripLevels.max) := by
  have hsaved : savesAll [0] caps.compression.zripLevels.default = some 0 := if_pos hdefault
  have hspeed : bytesPerMs (Float64.max (1 : ℚ) (lit 1)) = 125 := by decide +kernel
  have hchoose : ∀ (a d m : Int) (x y : Nat) (t u v : ℚ),
      chooseAutoLevel [(a, x, t), (d, 0, u), (m, y, v)] 1 (Float64.max (1 : ℚ) (lit 1)) =
        ([(a, x, t), (d, 0, u), (m, y, v)].foldl (bestStep 125 1) (a, none)).1 := by
    intro a d m x y t u v
    unfold chooseAutoLevel
    rw [hspeed]
    exact if_neg (by simp)
  have hlow : Low none := fun score h => nomatch h
  have hbench : ∀ j, benchmarkedLevel savesAll (clockFor j) caps (some [0]) 1 = chooseAutoLevel
      [(caps.compression.zripLevels.min, (savesAll [0] caps.compression.zripLevels.min).getD 1,
          clockFor j 1 - clockFor j 0),
        (caps.compression.zripLevels.default, 0, clockFor j 3 - clockFor j 2),
        (caps.compression.zripLevels.max, (savesAll [0] caps.compression.zripLevels.max).getD 1,
          clockFor j 5 - clockFor j 4)] 1 (Float64.max (1 : ℚ) (lit 1)) := by
    intro j
    unfold benchmarkedLevel benchmarkLevels autoCandidates
    have htake : List.take LEVEL_SAMPLE_SIZE [(0 : UInt8)] = [0] := rfl
    simp only [htake, List.mapIdx_cons, List.mapIdx_nil, hsaved]
    rfl
  constructor
  · intro hmin
    have hnone : savesAll [0] caps.compression.zripLevels.min = none := if_neg hmin
    have hfast : clockFor 0 1 - clockFor 0 0 = 0 := by decide +kernel
    have hslow : clockFor 0 3 - clockFor 0 2 = 1000 ∧ clockFor 0 5 - clockFor 0 4 = 1000 := by
      decide +kernel
    rw [hbench, hnone, hfast, hslow.1, hslow.2, hchoose]
    have hstays : ∀ (a l : Int) x, bestStep (125 : ℚ) 1 (a, some 0) (l, x, 1000) = (a, some 0) :=
      fun a l x => (bestStep_slow (a, some 0) l x).2 rfl
    simp only [List.foldl_cons, List.foldl_nil, Option.getD_none]
    rw [bestStep_idle hlow, hstays, hstays]
  · intro hmax
    have hnone : savesAll [0] caps.compression.zripLevels.max = none := if_neg hmax
    have hfast : clockFor 2 5 - clockFor 2 4 = 0 := by decide +kernel
    have hslow : clockFor 2 1 - clockFor 2 0 = 1000 ∧ clockFor 2 3 - clockFor 2 2 = 1000 := by
      decide +kernel
    rw [hbench, hnone, hfast, hslow.1, hslow.2, hchoose]
    simp only [List.foldl_cons, List.foldl_nil, Option.getD_none]
    rw [bestStep_idle ((bestStep_slow _ _ _).1 ((bestStep_slow _ _ _).1 hlow))]

theorem uploadsAddressable_iff (level : CompressLevel) (received : Capabilities → Prop) :
    UploadsAddressable level received ↔ ∀ caps, received caps → level.Fits caps := by
  constructor
  · intro hsafe caps hcaps
    have hone : ∀ (clock : Nat → ℚ) sample, Addressable
        ((LevelChoice.new level).uploadCompressLevel savesAll clock caps sample 1).2 := by
      intro clock sample
      have hallowed : (LevelStep.choose savesAll clock caps sample 1).Allowed received :=
        ⟨hcaps, fun _ l hl => if_neg hl⟩
      exact hsafe ℚ [.choose savesAll clock caps sample 1]
        (fun step hstep => List.mem_singleton.1 hstep ▸ hallowed) _ List.mem_cons_self
    by_cases hauto : level = .auto
    · subst hauto
      have hdefault : Addressable caps.compression.zripLevels.default := hone (clockFor 0) none
      obtain ⟨hmin, hmax⟩ := benchmarkedLevel_savesAll hdefault
      refine ⟨?_, hdefault, ?_⟩
      · by_contra hno
        have hchosen : Addressable (benchmarkedLevel savesAll (clockFor 0) caps (some [0]) 1) :=
          hone (clockFor 0) (some [0])
        exact hno (hmin hno ▸ hchosen)
      · by_contra hno
        have hchosen : Addressable (benchmarkedLevel savesAll (clockFor 2) caps (some [0]) 1) :=
          hone (clockFor 2) (some [0])
        exact hno (hmax hno ▸ hchosen)
    · have hresolve : ((LevelChoice.new level).uploadCompressLevel savesAll (clockFor 0) caps none
          1).2 = resolveLevel level caps := by
        cases level with
        | auto => exact absurd rfl hauto
        | fast | balanced | max | fixed => rfl
      exact (resolveLevel_addressable_iff hauto caps).1 (hresolve ▸ hone (clockFor 0) none)
  · intro hfits F _ steps hsteps
    exact LevelChoice.levels_addressable _ hfits (fun _ h => nomatch h) hsteps

/-- **The levels can be addressed, on both sides, exactly where the ranges fit**: the range a
server was built with, a download and its header; the ranges a client is advertised, and its
policy. -/
theorem levels_addressable_iff {V : Type} (srv : DownloadServer V) (hdrs : DownloadHeaders V)
    (level : CompressLevel) (received : Capabilities → Prop) :
    (Addressable (srv.downloadLevel hdrs) ∧ UploadsAddressable level received) ↔
      srv.LevelFits hdrs ∧ ∀ caps, received caps → level.Fits caps :=
  and_congr (downloadLevel_addressable_iff srv hdrs) (uploadsAddressable_iff level received)

/-- A server whose range of levels ends at 9, its default. -/
def levelNineServer : DownloadServer (List UInt8) :=
  { helloServer with compression := .zrip, zripLevels := some ⟨9, 9, -8⟩ }

/-- `Accept-Encoding: zrip`, without a level. -/
def zripRequest : DownloadHeaders (List UInt8) :=
  ⟨none, none, none, some (headerBytes "zrip".toList), none⟩

theorem level_nine_not_addressable : levelNineServer.downloadLevel zripRequest = 9 ∧
    ¬ ∀ (srv : DownloadServer (List UInt8)) (hdrs : DownloadHeaders (List UInt8))
      (level : CompressLevel) (received : Capabilities → Prop),
        Addressable (srv.downloadLevel hdrs) ∧ UploadsAddressable level received := by
  have hnine : levelNineServer.downloadLevel zripRequest = 9 := by decide +kernel
  refine ⟨hnine, ?_⟩
  intro hall
  have haddr := (hall levelNineServer zripRequest .balanced fun _ => False).1
  rw [hnine] at haddr
  exact absurd haddr (by decide)

end Libfw

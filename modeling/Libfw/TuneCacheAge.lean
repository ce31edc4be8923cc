import Libfw.TuneRuns

/-!
# The age of a reused settle

A settle expires from the moment its ramp settled, however often it is used.  A
settled engine keeps closing windows, though, and one of them can settle again: it
then stores parameters that it did not measure in a ramp, with a fresh time.  A
settle in memory is reused at any age.

* `once_settled_runs_count_from_ramp`: in the runs where only a ramp settles, and
  memory is not reused past the time to live, every stored row is what a ramp
  settled on and when, and every reuse is of a settle at most that old.
* `settlesOnce_of_settlesApart`: such are those in which no two windows close in a row without
  an error and without a ramp, away from the cap of the last dimension.
* `reuse_refreshes_row`: otherwise a transfer that reuses a settle makes the row
  young again.
-/

namespace Libfw

open Float64 GuardedRuns

variable {F : Type} [Float64 F]

abbrev TuneStep (F : Type) := Taken (TuneWorld F) (TuneAct F)

/-- The step is a tick at `nowMs` in which a ramp of engine `i` left `Ramping` by
settling on `p`. -/
structure RampSettles (i : Nat) (nowMs : F) (p : TuneParams) (x : TuneStep F) : Prop where
  tick : ∃ done rttMs error, x.action = (i, .tick nowMs done rttMs error)
  running : (x.before.log i).running = true
  ramp : (x.before.log i).ramp = true
  before : (x.before.engine i).phase = .ramping
  after : (x.after.engine i).phase = .settled
  params : (x.after.engine i).params = p

/-- A row is what a ramp of the run settled on, and when. -/
def MeasuredRow (history : List (TuneStep F)) (entry : TuneCache) : Prop :=
  ∃ i nowMs p, (∃ x ∈ history, RampSettles i nowMs p x) ∧
    entry.savedAtMs = TuningEngine.toMs nowMs ∧ entry.params = .ofParams p

/-- The parameters are what a ramp of the run settled on, at most `ttlMs` ago; the
store keeps whole milliseconds. -/
def MeasuredWithin (history : List (TuneStep F)) (nowMs : F) (ttlMs : Nat) (p : TuneParams) :
    Prop :=
  ∃ i t q, (∃ x ∈ history, RampSettles i t q x) ∧
    TuneParamsCache.ofParams p = TuneParamsCache.ofParams q ∧
    (le (nowMs - t) (ofU64 ttlMs) = true ∨
      le (nowMs - ofU64 (TuningEngine.toMs t)) (ofU64 ttlMs) = true)

/-- The time to live counts from the ramp, in every run that starts with an empty
store. -/
def CountsFromRamp
    (ok : (Capabilities → Text) → TuneWorld F → TuneAct F → Prop) : Prop :=
  ∀ sha (w₀ w : TuneWorld F) history, w₀.Fresh → (∀ key, w₀.store key = none) →
    Traced (TuneWorld.next sha) (ok sha) w₀ history w →
      (∀ key entry, w.store key = some (.entry entry) → MeasuredRow history entry) ∧
      ∀ i caps nowMs staticParams p, ok sha w (i, .beginTransfer caps nowMs staticParams) →
        (w.engine i).enabled = true →
        (((w.engine i).resetTransfer (sha caps) caps nowMs staticParams).reusable
          w.store nowMs).2 = some p →
        MeasuredWithin history nowMs (w.engine i).cacheTtlMs p

/-- No window settles unless a transfer that is under way is ramping; a settle in
memory is reused only within the time to live of when it was remembered. -/
def SettlesOnce (sha : Capabilities → Text) (w : TuneWorld F) : TuneAct F → Prop
  | (i, .tick nowMs _ _ error) =>
      ∀ caps, (w.engine i).Closes nowMs caps → (w.engine i).errorsWith error = 0 →
        (w.engine i).postDegradeSettle = false →
        ((w.engine i).phase = .ramping → (w.log i).running = true) ∧
          ((w.engine i).phase ≠ .ramping → ¬ (w.engine i).SettlesIdle caps)
  | (i, .beginTransfer caps nowMs staticParams) =>
      (w.engine i).enabled = true →
        ((w.engine i).resetTransfer (sha caps) caps nowMs staticParams).inMemory.isSome = true →
        le (nowMs - (w.log i).memoryAt) (ofU64 (w.engine i).cacheTtlMs) = true
  | _ => True

/-- What closes without an error and without a ramp comes alone, right after a window with an
error, a settle or the beginning of the transfer, and away from the cap of the last dimension;
what ramps is under way; and memory is reused within the time to live. -/
def SettlesApart (sha : Capabilities → Text) (history : List (TuneStep F)) (w : TuneWorld F) :
    TuneAct F → Prop
  | (i, .tick nowMs _ _ error) =>
      ∀ caps, (w.engine i).Closes nowMs caps → (w.engine i).errorsWith error = 0 →
        (w.engine i).postDegradeSettle = false →
        ((w.engine i).phase = .ramping → (w.log i).running = true) ∧
          ((w.engine i).phase ≠ .ramping → cleanWindows sha i history = 0 ∧
            ((w.engine i).dimAtCap caps = true → (w.engine i).dim ≠ .concurrency))
  | a => SettlesOnce sha w a

/-- **Idle windows that come one at a time do not settle again.** -/
theorem settlesOnce_of_settlesApart {sha : Capabilities → Text}
    {ok : TuneWorld F → TuneAct F → Prop} {w₀ w : TuneWorld F} {history : List (TuneStep F)}
    (hfresh : w₀.Fresh) (hrun : Traced (TuneWorld.next sha) ok w₀ history w) {a : TuneAct F}
    (h : SettlesApart sha history w a) : SettlesOnce sha w a := by
  obtain ⟨i, call⟩ := a
  cases call with
  | tick nowMs done rttMs error =>
      intro caps hcloses herrors hpost
      obtain ⟨hunder, hidle⟩ := h caps hcloses herrors hpost
      refine ⟨hunder, ?_⟩
      intro hphase
      obtain ⟨hfirst, hcap⟩ := hidle hphase
      exact not_settlesIdle_of_first hfresh hrun hfirst hcap
  | setOrigin | setDirection | setEnabled | beginTransfer | transferEnd => exact h

section Begin

variable {e : TuningEngine F} {store : TuneStore} {caps : Capabilities} {nowMs : F}

/-- A transfer that begins with a ramp reuses nothing. -/
theorem beginTransfer_ramping {sha : Capabilities → Text} {staticParams : TuneParams}
    (h : (e.beginTransfer store sha caps nowMs staticParams).1.phase = .ramping) :
    e.enabled = true ∧
      (e.resetTransfer (sha caps) caps nowMs staticParams).source store nowMs = none := by
  unfold TuningEngine.beginTransfer at h
  dsimp only at h
  split at h
  · cases h
  · next henabled =>
      have hon : e.enabled = true := Bool.eq_true_of_not_eq_false henabled
      constructor
      · exact hon
      · unfold TuningEngine.source
        rw [if_neg henabled]
        unfold TuningEngine.reusable at h
        cases hmemory : (e.resetTransfer (sha caps) caps nowMs staticParams).inMemory with
        | some p =>
            rw [hmemory] at h
            cases h
        | none =>
            rw [hmemory] at h
            dsimp only at h
            cases hcache : ((e.resetTransfer (sha caps) caps nowMs staticParams).loadCachedSettle
                store nowMs (e.resetTransfer (sha caps) caps nowMs staticParams).capsHash).2 with
            | some p =>
                rw [hcache] at h
                cases h
            | none => rfl

end Begin

/-! ## The invariant -/

/-- Whatever is remembered or stored was measured by a ramp of the run. -/
structure Measured (history : List (TuneStep F)) (w : TuneWorld F) : Prop where
  ramp : ∀ i, (w.log i).running = true → (w.engine i).phase = .ramping → (w.log i).ramp = true
  memory : ∀ i p, (w.engine i).settled = some p →
    ∃ x ∈ history, RampSettles i (w.log i).memoryAt p x
  rows : ∀ key entry, w.store key = some (.entry entry) → MeasuredRow history entry

theorem MeasuredRow.tail {history : List (TuneStep F)} {entry : TuneCache}
    (h : MeasuredRow history entry) (x : TuneStep F) : MeasuredRow (x :: history) entry := by
  obtain ⟨i, nowMs, p, ⟨y, hy, hsettles⟩, hentry⟩ := h
  exact ⟨i, nowMs, p, ⟨y, List.mem_cons_of_mem x hy, hsettles⟩, hentry⟩

namespace TuneWorld

variable {sha : Capabilities → Text}

theorem Fresh.measured {w : TuneWorld F} (h : w.Fresh) (hempty : ∀ key, w.store key = none) :
    Measured [] w where
  ramp := by
    intro i hrunning
    rw [h.log i] at hrunning
    cases hrunning
  memory := by
    intro i p hsettled
    obtain ⟨enabled, heq | ⟨ttlMs, heq⟩⟩ := h.engine i
    · rw [heq] at hsettled
      cases hsettled
    · rw [heq] at hsettled
      cases hsettled
  rows := by
    intro key entry hrow
    rw [hempty key] at hrow
    cases hrow

/-- Engines other than the one called keep what they have measured. -/
theorem measured_ne {w v : TuneWorld F} {history : List (TuneStep F)} {i j : Nat}
    {call : TuneCall F} (hm : Measured history w) (hnext : next sha w (i, call) = some v)
    (hj : j ≠ i) :
    ((v.log j).running = true → (v.engine j).phase = .ramping → (v.log j).ramp = true) ∧
      ∀ p, (v.engine j).settled = some p →
        ∃ x ∈ ⟨w, (i, call), v⟩ :: history, RampSettles j (v.log j).memoryAt p x := by
  rw [next_log_ne hnext hj, next_engine_ne hnext hj]
  constructor
  · exact hm.ramp j
  · intro p hp
    obtain ⟨x, hx, hsettles⟩ := hm.memory j p hp
    exact ⟨x, List.mem_cons_of_mem _ hx, hsettles⟩

/-- A call that remembers no settle and writes no row keeps the invariant, if it
does not turn a transfer into a ramp. -/
theorem measured_of_quiet {w v : TuneWorld F} {history : List (TuneStep F)} {i : Nat}
    {call : TuneCall F} (hm : Measured history w) (hnext : next sha w (i, call) = some v)
    (hramp : (v.log i).running = true → (v.engine i).phase = .ramping → (v.log i).ramp = true)
    (hsettled : ∀ p, (v.engine i).settled = some p →
      (w.engine i).settled = some p ∧ (v.log i).memoryAt = (w.log i).memoryAt)
    (hstore : ∀ key row, v.store key = some row → w.store key = some row) :
    Measured (⟨w, (i, call), v⟩ :: history) v where
  ramp := by
    intro j
    by_cases hj : j = i
    · subst hj
      exact hramp
    · exact (measured_ne hm hnext hj).1
  memory := by
    intro j p hp
    by_cases hj : j = i
    · subst hj
      obtain ⟨hbefore, htime⟩ := hsettled p hp
      obtain ⟨x, hx, hsettles⟩ := hm.memory j p hbefore
      rw [htime]
      exact ⟨x, List.mem_cons_of_mem _ hx, hsettles⟩
    · exact (measured_ne hm hnext hj).2 p hp
  rows := by
    intro key entry hrow
    exact (hm.rows key entry (hstore key _ hrow)).tail _

/-- A tick that is seen to store a settle is a ramp settling. -/
theorem rampSettles_of_stored {w v : TuneWorld F} {history : List (TuneStep F)} {i : Nat}
    {nowMs t : F} {done : Nat} {rttMs : Option F} {error : Bool} (hm : Measured history w)
    (hok : SettlesOnce sha w (i, .tick nowMs done rttMs error))
    (hnext : next sha w (i, .tick nowMs done rttMs error) = some v)
    (hstored : (TuneCall.tick nowMs done rttMs error).observe sha (w.engine i) w.store =
      .stored t) :
    t = nowMs ∧ (w.engine i).Stores (v.engine i) w.store v.store nowMs ∧
      RampSettles i nowMs (v.engine i).params ⟨w, (i, .tick nowMs done rttMs error), v⟩ := by
  obtain ⟨htime, ⟨caps, hcloses, herrors, hflag, hidle⟩, hstores⟩ :=
    TuningEngine.tick_of_stored hstored
  rw [← next_engine_self hnext, ← next_store hnext] at hstores
  obtain ⟨hrunning, hnot⟩ := hok caps hcloses herrors hflag
  have hphase : (w.engine i).phase = .ramping := by
    by_contra hphase
    exact hnot hphase (hidle hphase)
  have hramp := hm.ramp i (hrunning hphase) hphase
  exact ⟨htime, hstores,
    ⟨⟨done, rttMs, error, rfl⟩, hrunning hphase, hramp, hphase, hstores.phase, rfl⟩⟩

/-- What a tick that stores a settle leaves was just measured. -/
theorem measured_of_stored {w v : TuneWorld F} {history : List (TuneStep F)} {i : Nat}
    {nowMs t : F} {done : Nat} {rttMs : Option F} {error : Bool} (hm : Measured history w)
    (hok : SettlesOnce sha w (i, .tick nowMs done rttMs error))
    (hnext : next sha w (i, .tick nowMs done rttMs error) = some v)
    (hstored : (TuneCall.tick nowMs done rttMs error).observe sha (w.engine i) w.store =
      .stored t) :
    Measured (⟨w, (i, .tick nowMs done rttMs error), v⟩ :: history) v := by
  obtain ⟨rfl, hstores, hsettles⟩ := rampSettles_of_stored hm hok hnext hstored
  constructor
  · intro j hrunning hphase
    by_cases hj : j = i
    · subst hj
      rw [hstores.phase] at hphase
      cases hphase
    · exact (measured_ne hm hnext hj).1 hrunning hphase
  · intro j p hp
    by_cases hj : j = i
    · subst hj
      rw [hstores.settled] at hp
      cases hp
      refine ⟨_, List.mem_cons_self, ?_⟩
      rw [next_log_self hnext, hstored]
      exact hsettles
    · exact (measured_ne hm hnext hj).2 p hp
  · intro key entry hrow
    rw [hstores.store] at hrow
    cases hkey : (w.engine i).cacheKey with
    | none =>
        rw [hkey] at hrow
        exact (hm.rows key entry hrow).tail _
    | some own =>
        rw [hkey] at hrow
        dsimp only [TuneStore.set] at hrow
        split at hrow
        · cases hrow
          exact ⟨i, t, _, ⟨_, List.mem_cons_self, hsettles⟩, rfl, rfl⟩
        · exact (hm.rows key entry hrow).tail _

/-- **Step lemma.** -/
theorem measured_next {w v : TuneWorld F} {history : List (TuneStep F)} {a : TuneAct F}
    (hm : Measured history w) (hok : SettlesOnce sha w a) (hnext : next sha w a = some v) :
    Measured (⟨w, a, v⟩ :: history) v := by
  obtain ⟨i, call⟩ := a
  have hengine := next_engine_self hnext
  have hlog := next_log_self hnext
  have hstore := next_store hnext
  cases call with
  | setOrigin url | setDirection kind | setEnabled enabled =>
      apply measured_of_quiet hm hnext
      · rw [hengine, hlog]
        exact hm.ramp i
      · intro p hp
        rw [hengine] at hp
        rw [hlog]
        exact ⟨hp, rfl⟩
      · intro key row hrow
        rw [hstore] at hrow
        exact hrow
  | beginTransfer caps nowMs staticParams =>
      apply measured_of_quiet hm hnext
      · intro _ hphase
        rw [hengine] at hphase
        obtain ⟨henabled, hnone⟩ := beginTransfer_ramping hphase
        rw [hlog]
        dsimp only [TuneCall.observe, TransferLog.next]
        rw [hnone, henabled]
        rfl
      · intro p hp
        rw [hengine] at hp
        rw [hlog]
        exact ⟨((w.engine i).beginTransfer_keeps w.store sha caps nowMs staticParams).2.1.symm.trans
          hp, rfl⟩
      · intro key row hrow
        rw [hstore] at hrow
        exact TuningEngine.beginTransfer_store hrow
  | transferEnd ended =>
      apply measured_of_quiet hm hnext
      · intro hrunning
        rw [hlog] at hrunning
        cases hrunning
      · intro p hp
        rw [hengine] at hp
        rw [hlog]
        rcases (w.engine i).transferEnd_cases w.store ended with heq | ⟨hnone, -⟩
        · have hsame : ((w.engine i).transferEnd w.store ended).1.settled = some p := hp
          rw [heq] at hsame
          exact ⟨hsame, rfl⟩
        · rw [show ((TuneCall.transferEnd ended).apply sha (w.engine i) w.store).1.settled =
            none from hnone] at hp
          cases hp
      · intro key row hrow
        rw [hstore] at hrow
        rcases (w.engine i).transferEnd_cases w.store ended with heq | ⟨-, hrows⟩
        · have hsame : ((w.engine i).transferEnd w.store ended).2 key = some row := hrow
          rw [heq] at hsame
          exact hsame
        · exact hrows key row hrow
  | tick nowMs done rttMs error =>
      by_cases hstored : ∃ t,
          (TuneCall.tick nowMs done rttMs error).observe sha (w.engine i) w.store = .stored t
      · obtain ⟨t, ht⟩ := hstored
        exact measured_of_stored hm hok hnext ht
      · have hkeeps := keepsSettle_tick fun t ht => hstored ⟨t, ht⟩
        rw [← hengine, ← hstore] at hkeeps
        have hsame : (v.log i).running = (w.log i).running ∧ (v.log i).ramp = (w.log i).ramp ∧
            (v.log i).memoryAt = (w.log i).memoryAt := by
          rw [hlog]
          cases hseen :
              (TuneCall.tick nowMs done rttMs error).observe sha (w.engine i) w.store with
          | degraded | other => exact ⟨rfl, rfl, rfl⟩
          | stored t => exact absurd ⟨t, hseen⟩ hstored
          | began source p => exact absurd hseen observe_tick_ne_began
          | ended => exact absurd hseen observe_tick_ne_ended
        obtain ⟨hrunning, hramp, htime⟩ := hsame
        apply measured_of_quiet hm hnext
        · intro hrun hphase
          rw [hrunning] at hrun
          rw [hramp]
          apply hm.ramp i hrun
          by_contra hbefore
          rw [hengine] at hphase
          exact TuningEngine.tick_phase_ne_ramping (Or.inl hbefore) hphase
        · intro p hp
          rw [hkeeps.settled] at hp
          exact ⟨hp, htime⟩
        · intro key row hrow
          rw [hkeeps.store] at hrow
          exact hrow

end TuneWorld

/-! ## What is reused -/

/-- What a beginning reuses was measured within the time to live. -/
theorem measuredWithin_of_reusable {sha : Capabilities → Text} {w : TuneWorld F}
    {history : List (TuneStep F)} {i : Nat} {caps : Capabilities} {nowMs : F}
    {staticParams p : TuneParams} (hm : Measured history w)
    (hok : SettlesOnce sha w (i, .beginTransfer caps nowMs staticParams))
    (henabled : (w.engine i).enabled = true)
    (hreused : (((w.engine i).resetTransfer (sha caps) caps nowMs staticParams).reusable
      w.store nowMs).2 = some p) :
    MeasuredWithin history nowMs (w.engine i).cacheTtlMs p := by
  unfold TuningEngine.reusable at hreused
  cases hmemory : ((w.engine i).resetTransfer (sha caps) caps nowMs staticParams).inMemory with
  | some q =>
      rw [hmemory] at hreused
      cases hreused
      have hsettled : (w.engine i).settled = some p := (Option.filter_eq_some_iff.1 hmemory).1
      obtain ⟨x, hx, hsettles⟩ := hm.memory i p hsettled
      have hage := hok henabled (by rw [hmemory]; rfl)
      exact ⟨i, _, p, ⟨x, hx, hsettles⟩, rfl, Or.inl hage⟩
  | none =>
      rw [hmemory] at hreused
      dsimp only at hreused
      rcases TuningEngine.loadCachedSettle_cases
          ((w.engine i).resetTransfer (sha caps) caps nowMs staticParams) w.store nowMs
          ((w.engine i).resetTransfer (sha caps) caps nowMs staticParams).capsHash with
        ⟨key, entry, -, hrow, husable, heq⟩ | ⟨hnone, -⟩
      · rw [heq] at hreused
        cases hreused
        obtain ⟨j, t, q, hsettles, hsaved, hparams⟩ := hm.rows key entry hrow
        refine ⟨j, t, q, hsettles, hparams, Or.inr ?_⟩
        unfold TuningEngine.entryUsable at husable
        simp only [Bool.and_eq_true] at husable
        rw [← hsaved]
        exact husable.2.2
      · rw [hnone] at hreused
        cases hreused

/-- **Where only a ramp settles, ages count from the ramp.** -/
theorem once_settled_runs_count_from_ramp : CountsFromRamp (F := F) SettlesOnce := by
  intro sha w₀ w history hfresh hempty hrun
  have hm : Measured history w := hrun.invariant
    (fun _ _ _ _ hI hok hnext => TuneWorld.measured_next hI hok hnext) (hfresh.measured hempty)
  constructor
  · exact hm.rows
  · intro i caps nowMs staticParams p hok henabled hreused
    exact measuredWithin_of_reusable hm hok henabled hreused

/-! ### A run in which a settle is reused -/

/-- Plain reasons for an event to settle nothing but a ramp. -/
def plainlyOnce (w : TuneWorld ℚ) : TuneAct ℚ → Bool
  | (i, .tick _ _ _ _) =>
      match (w.engine i).caps with
      | none => true
      | some caps =>
          if (w.engine i).phase = .ramping then (w.log i).running
          else !(decide ((w.engine i).SettlesIdle caps))
  | (i, .beginTransfer _ nowMs _) =>
      (w.engine i).settled.isNone ||
        le (nowMs - (w.log i).memoryAt) (ofU64 (w.engine i).cacheTtlMs)
  | _ => true

theorem settlesOnce_of_plainlyOnce (w : TuneWorld ℚ) (a : TuneAct ℚ)
    (h : plainlyOnce w a = true) : SettlesOnce sampleSha w a := by
  obtain ⟨i, call⟩ := a
  cases call with
  | tick nowMs done rttMs error =>
      intro caps hcloses _ _
      simp only [plainlyOnce, hcloses.2.2] at h
      constructor
      · intro hphase
        rw [if_pos hphase] at h
        exact h
      · intro hphase hsettles
        rw [if_neg hphase] at h
        simp only [hsettles, decide_true, Bool.not_true, Bool.false_eq_true] at h
  | beginTransfer caps nowMs staticParams =>
      intro _ hmemory
      rcases (Bool.or_eq_true_iff.1 h) with hnone | hage
      · have hsettled : (w.engine i).settled = none := Option.isNone_iff_eq_none.1 hnone
        unfold TuningEngine.inMemory TuningEngine.resetTransfer at hmemory
        rw [hsettled] at hmemory
        cases hmemory
      · exact hage
  | setOrigin | setDirection | setEnabled | transferEnd => trivial

/-- Another client of the same server reuses the settle from the store. -/
theorem once_settled_run_counts_from_ramp :
    ∃ w history p, Traced (TuneWorld.next sampleSha) (SettlesOnce sampleSha) sampleWorld
        history w ∧
      (((w.engine 1).resetTransfer (sampleSha .dflt) .dflt 9000 sampleStatic).reusable
        w.store 9000).2 = some p ∧
      MeasuredWithin history 9000 DEFAULT_TUNE_TTL_MS p := by
  have hrun : ((traceIf (TuneWorld.next sampleSha) plainlyOnce [] sampleWorld
      (rampActs ++ [(1, .setOrigin "https://fw.example".toList)])).any fun (_, w) =>
        (w.engine 1).enabled ∧ (w.engine 1).cacheTtlMs = DEFAULT_TUNE_TTL_MS ∧
          plainlyOnce w (1, .beginTransfer .dflt 9000 sampleStatic) ∧
          (((w.engine 1).resetTransfer (sampleSha .dflt) .dflt 9000 sampleStatic).reusable
            w.store 9000).2.isSome) = true := by
    decide +kernel
  obtain ⟨⟨history, w⟩, hw, hend⟩ := (Option.any_eq_true _ _).1 hrun
  obtain ⟨henabled, httl, honce, hsome⟩ := of_decide_eq_true hend
  obtain ⟨p, hp⟩ := Option.isSome_iff_exists.1 hsome
  have htraced := traced_of_traceIf (fun w a h => settlesOnce_of_plainlyOnce w a h) .refl hw
  have hwithin := (once_settled_runs_count_from_ramp sampleSha sampleWorld w history
    sampleWorld_fresh (fun _ => rfl) htraced).2 1 .dflt 9000 sampleStatic p
    (settlesOnce_of_plainlyOnce w _ honce) henabled hp
  rw [httl] at hwithin
  exact ⟨w, history, p, htraced, hp, hwithin⟩

/-! ### A reuse that refreshes its row -/

/-- No ramp settled at the time of the row. -/
def noRampAt (history : List (TuneStep ℚ)) (savedAtMs : Nat) : Bool :=
  history.all fun x =>
    match x.action with
    | (i, .tick nowMs _ _ _) =>
        TuningEngine.toMs nowMs ≠ savedAtMs || !(x.before.log i).ramp
    | _ => true

theorem not_measuredRow_of_noRampAt {history : List (TuneStep ℚ)} {entry : TuneCache}
    (h : noRampAt history entry.savedAtMs = true) : ¬ MeasuredRow history entry := by
  intro hmeasured
  obtain ⟨i, nowMs, p, ⟨x, hx, hsettles⟩, hsaved, -⟩ := hmeasured
  obtain ⟨done, rttMs, error, haction⟩ := hsettles.tick
  have hnot := List.all_eq_true.1 h x hx
  rw [haction] at hnot
  simp only [hsettles.ramp, hsaved, ne_eq, not_true_eq_false, decide_false, Bool.not_true,
    Bool.or_self, Bool.false_eq_true] at hnot

/-- The row of the first engine is one that no ramp settled. -/
def rowOffRamp (history : List (TuneStep ℚ)) (w : TuneWorld ℚ) : Bool :=
  match w.store (tuneKey (w.engine 0).origin .download) with
  | some (.entry entry) => noRampAt history entry.savedAtMs
  | _ => false

theorem exists_of_rowOffRamp {history : List (TuneStep ℚ)} {w : TuneWorld ℚ}
    (h : rowOffRamp history w = true) :
    ∃ entry, w.store (tuneKey (w.engine 0).origin .download) = some (.entry entry) ∧
      noRampAt history entry.savedAtMs = true := by
  unfold rowOffRamp at h
  split at h
  · next entry hrow => exact ⟨entry, hrow, h⟩
  · cases h

/-- **A transfer that reuses the settle stores it anew in its second window**, an
hour after the ramp. -/
theorem reuse_refreshes_row :
    ¬ CountsFromRamp (F := ℚ) fun _ _ _ => True := by
  intro hall
  have hrun : ((traceIf (TuneWorld.next sampleSha) (fun _ _ => true) [] sampleWorld
      (rampActs ++ [(0, .beginTransfer .dflt 3600000 sampleStatic),
        (0, .tick 3601000 0 none false), (0, .tick 3602000 0 none false)])).any
      fun r => rowOffRamp r.1 r.2) = true := by
    decide +kernel
  obtain ⟨⟨history, w⟩, hw, hend⟩ := (Option.any_eq_true _ _).1 hrun
  have htraced : Traced (TuneWorld.next sampleSha) (fun _ _ => True) sampleWorld history w :=
    traced_of_traceIf (fun _ _ _ => trivial) .refl hw
  have hrows := (hall sampleSha sampleWorld w history sampleWorld_fresh (fun _ => rfl)
    htraced).1
  obtain ⟨entry, hrow, hoff⟩ := exists_of_rowOffRamp hend
  exact not_measuredRow_of_noRampAt hoff (hrows _ entry hrow)

end Libfw

import Libfw.TuneRuns

/-!
# What a settle may be reused for

A settle describes one link: it was measured on one origin, in one direction,
against one advertisement.  A stored row is found again under its origin and
direction only.  The settle in memory is compared with the direction and the
advertisement, not with the origin, although a client may speak to another server
with every call.

* `scoped_runs_share_nothing`: in the runs where memory is reused on the origin it
  was remembered on, and no transfer changes its scope half way, every reuse and
  every row is of its own origin, direction and advertisement.
* `settle_crosses_origins`: otherwise a transfer to one server begins with what
  was measured on another.
-/

namespace Libfw

open Float64 GuardedRuns

variable {F : Type} [Float64 F]

/-- Where the settle that a beginning reuses was measured. -/
def TuneWorld.reusedFrom (w : TuneWorld F) (i : Nat) : TuningEngine.Source → Provenance
  | .memory => (w.log i).memory
  | .cache => w.rows (tuneKey (w.engine i).origin (w.engine i).direction)

/-- Every reuse is of the scope of the transfer that begins, and every row stands
under the key of its own scope, in every run that starts with an empty store. -/
def ScopedByServer (ok : (Capabilities → Text) → TuneWorld F → TuneAct F → Prop) : Prop :=
  ∀ sha (w₀ w : TuneWorld F), w₀.Fresh → (∀ key, w₀.store key = none) →
    Reaches (TuneWorld.next sha) (ok sha) w₀ w →
      (∀ i caps nowMs staticParams source,
        ok sha w (i, .beginTransfer caps nowMs staticParams) →
        ((w.engine i).resetTransfer (sha caps) caps nowMs staticParams).source w.store nowMs =
          some source →
        w.reusedFrom i source = ⟨(w.engine i).origin, (w.engine i).direction, sha caps⟩) ∧
      ∀ key entry, w.store key = some (.entry entry) →
        key = tuneKey (w.rows key).origin (w.rows key).direction ∧
          entry.capsHash = (w.rows key).capsHash

/-- A settle in memory is reused on the origin it was remembered on, and windows
close with the origin and the direction their transfer was begun with. -/
def KeepsScope (sha : Capabilities → Text) (w : TuneWorld F) : TuneAct F → Prop
  | (i, .tick nowMs _ _ _) =>
      ∀ caps, (w.engine i).Closes nowMs caps →
        (w.engine i).origin = (w.log i).begun.origin ∧
          (w.engine i).direction = (w.log i).begun.direction
  | (i, .beginTransfer caps nowMs staticParams) =>
      ((w.engine i).resetTransfer (sha caps) caps nowMs staticParams).source w.store nowMs =
          some .memory →
        (w.log i).memoryOrigin = (w.engine i).origin
  | _ => True

/-! ## The invariant -/

/-- The log agrees with what engine and store are labelled with. -/
structure Labelled (w : TuneWorld F) : Prop where
  table : ∀ i, (w.engine i).caps.isSome = true →
    (w.log i).table = (w.log i).begun ∧ (w.log i).begun.capsHash = (w.engine i).capsHash
  memory : ∀ i, (w.engine i).settled.isSome = true →
    (w.log i).memory = ⟨(w.log i).memoryOrigin, (w.log i).memory.direction,
      (w.engine i).settledCapsHash⟩ ∧
    (w.engine i).settledDirection = some (w.log i).memory.direction
  rows : ∀ key entry, w.store key = some (.entry entry) →
    key = tuneKey (w.rows key).origin (w.rows key).direction ∧
      entry.capsHash = (w.rows key).capsHash

namespace TuningEngine

variable {e : TuningEngine F} {store : TuneStore} {caps : Capabilities} {nowMs : F}

omit [Float64 F] in
/-- The key of an engine is that of its origin and direction. -/
theorem of_cacheKey {key : Text} (h : e.cacheKey = some key) :
    key = tuneKey e.origin e.direction := by
  unfold cacheKey at h
  split at h
  · cases h
  · exact (Option.some.inj h).symm

/-- What a settle in memory must be labelled with to be reused. -/
theorem of_source_memory {sha : Capabilities → Text} {staticParams : TuneParams}
    (h : (e.resetTransfer (sha caps) caps nowMs staticParams).source store nowMs =
      some .memory) :
    e.settled.isSome = true ∧ e.settledCapsHash = sha caps ∧
      e.settledDirection = some e.direction := by
  unfold source at h
  split at h
  · cases h
  · split at h
    · next hmemory =>
        obtain ⟨p, hp⟩ := Option.isSome_iff_exists.1 hmemory
        obtain ⟨hsettled, hlabels⟩ := Option.filter_eq_some_iff.1 hp
        obtain ⟨hhash, hdirection⟩ := of_decide_eq_true hlabels
        exact ⟨Option.isSome_iff_exists.2 ⟨p, hsettled⟩, hhash, hdirection⟩
    · split at h
      · cases h
      · cases h

/-- A row that is reused stands under the key of the engine, and is tagged with the
advertisement. -/
theorem of_source_cache {sha : Capabilities → Text} {staticParams : TuneParams}
    (h : (e.resetTransfer (sha caps) caps nowMs staticParams).source store nowMs =
      some .cache) :
    ∃ entry, store (tuneKey e.origin e.direction) = some (.entry entry) ∧
      entry.capsHash = sha caps := by
  unfold source at h
  split at h
  · cases h
  · split at h
    · cases h
    · split at h
      · next hcache =>
          rcases loadCachedSettle_cases (e.resetTransfer (sha caps) caps nowMs staticParams)
              store nowMs (e.resetTransfer (sha caps) caps nowMs staticParams).capsHash with
            ⟨key, entry, hkey, hrow, husable, -⟩ | ⟨hnone, -⟩
          · have hown : key = tuneKey e.origin e.direction := of_cacheKey hkey
            unfold entryUsable at husable
            simp only [Bool.and_eq_true, decide_eq_true_eq] at husable
            rw [← hown]
            exact ⟨entry, hrow, husable.1.2⟩
          · rw [hnone] at hcache
            cases hcache
      · cases h

end TuningEngine

namespace TuneWorld

variable {sha : Capabilities → Text}

theorem Fresh.labelled {w : TuneWorld F} (h : w.Fresh) (hempty : ∀ key, w.store key = none) :
    Labelled w where
  table := by
    intro i hcaps
    obtain ⟨enabled, heq | ⟨ttlMs, heq⟩⟩ := h.engine i
    · rw [heq] at hcaps
      cases hcaps
    · rw [heq] at hcaps
      cases hcaps
  memory := by
    intro i hsettled
    obtain ⟨enabled, heq | ⟨ttlMs, heq⟩⟩ := h.engine i
    · rw [heq] at hsettled
      cases hsettled
    · rw [heq] at hsettled
      cases hsettled
  rows := by
    intro key entry hrow
    rw [hempty key] at hrow
    cases hrow

/-- **What a beginning reuses is of its own scope.** -/
theorem reusedFrom_eq {w : TuneWorld F} {i : Nat} {caps : Capabilities} {nowMs : F}
    {staticParams : TuneParams} {source : TuningEngine.Source} (hl : Labelled w)
    (hok : KeepsScope sha w (i, .beginTransfer caps nowMs staticParams))
    (hsource : ((w.engine i).resetTransfer (sha caps) caps nowMs staticParams).source w.store
      nowMs = some source) :
    w.reusedFrom i source = ⟨(w.engine i).origin, (w.engine i).direction, sha caps⟩ := by
  cases source with
  | memory =>
      obtain ⟨hsettled, hhash, hdirection⟩ := TuningEngine.of_source_memory hsource
      obtain ⟨hlabel, hown⟩ := hl.memory i hsettled
      have horigin := hok hsource
      have hsame : (w.log i).memory.direction = (w.engine i).direction :=
        Option.some.inj (hown.symm.trans hdirection)
      unfold reusedFrom
      dsimp only
      rw [hlabel, horigin, hhash, hsame]
  | cache =>
      obtain ⟨entry, hrow, hhash⟩ := TuningEngine.of_source_cache hsource
      obtain ⟨hkey, htag⟩ := hl.rows _ entry hrow
      obtain ⟨horigin, hdirection⟩ := tuneKey_injective hkey
      unfold reusedFrom
      dsimp only
      rw [← hhash, htag]
      exact (congrArg₂ (fun o d => Provenance.mk o d _) horigin hdirection).symm

/-- A call that does not touch memory or rows keeps what they are labelled with. -/
theorem labelled_of_quiet {w v : TuneWorld F} {i : Nat} {call : TuneCall F} (hl : Labelled w)
    (hnext : next sha w (i, call) = some v)
    (htable : (v.engine i).caps.isSome = true →
      (v.log i).table = (v.log i).begun ∧ (v.log i).begun.capsHash = (v.engine i).capsHash)
    (hsettled : (v.engine i).settled.isSome = true →
      (v.engine i).settled = (w.engine i).settled ∧
      (v.engine i).settledCapsHash = (w.engine i).settledCapsHash ∧
      (v.engine i).settledDirection = (w.engine i).settledDirection)
    (hmemory : (v.log i).memory = (w.log i).memory ∧
      (v.log i).memoryOrigin = (w.log i).memoryOrigin)
    (hstore : ∀ key row, v.store key = some row → w.store key = some row)
    (hrows : v.rows = w.rows) : Labelled v where
  table := by
    intro j
    by_cases hj : j = i
    · subst hj
      exact htable
    · rw [next_engine_ne hnext hj, next_log_ne hnext hj]
      exact hl.table j
  memory := by
    intro j
    by_cases hj : j = i
    · subst hj
      intro hsome
      obtain ⟨hsame, hhash, hdirection⟩ := hsettled hsome
      rw [hsame] at hsome
      rw [hmemory.1, hmemory.2, hhash, hdirection]
      exact hl.memory j hsome
    · rw [next_engine_ne hnext hj, next_log_ne hnext hj]
      exact hl.memory j
  rows := by
    intro key entry hrow
    rw [hrows]
    exact hl.rows key entry (hstore key _ hrow)

/-- A tick that stores a settle labels it with the scope of its transfer. -/
theorem labelled_of_stored {w v : TuneWorld F} {i : Nat} {nowMs t : F} {done : Nat}
    {rttMs : Option F} {error : Bool} (hl : Labelled w)
    (hok : KeepsScope sha w (i, .tick nowMs done rttMs error))
    (hnext : next sha w (i, .tick nowMs done rttMs error) = some v)
    (hstored : (TuneCall.tick nowMs done rttMs error).observe sha (w.engine i) w.store =
      .stored t) : Labelled v := by
  obtain ⟨-, ⟨caps, hcloses, -, -, -⟩, hstores⟩ := TuningEngine.tick_of_stored hstored
  have htick := (w.engine i).tick_caps sha w.store nowMs done rttMs error
  have hrows := next_rows hnext
  have hlog := next_log_self hnext
  rw [← next_engine_self hnext] at htick
  rw [← next_engine_self hnext, ← next_store hnext] at hstores
  rw [hstored] at hrows hlog
  obtain ⟨htable, hhash⟩ := hl.table i (by rw [hcloses.2.2]; rfl)
  obtain ⟨horigin, hdirection⟩ := hok caps hcloses
  constructor
  · intro j hcaps
    by_cases hj : j = i
    · subst hj
      rw [hlog, htick.2]
      exact ⟨htable, hhash⟩
    · rw [next_engine_ne hnext hj] at hcaps ⊢
      rw [next_log_ne hnext hj]
      exact hl.table j hcaps
  · intro j hsome
    by_cases hj : j = i
    · subst hj
      rw [hlog, hstores.capsHash, hstores.direction, hdirection]
      dsimp only [TransferLog.next]
      rw [htable, horigin, ← hhash]
      exact ⟨rfl, rfl⟩
    · rw [next_engine_ne hnext hj] at hsome ⊢
      rw [next_log_ne hnext hj]
      exact hl.memory j hsome
  · intro key entry hrow
    rw [hstores.store] at hrow
    rw [hrows]
    dsimp only [rowsNext]
    cases hkey : (w.engine i).cacheKey with
    | none =>
        rw [hkey] at hrow
        rw [if_neg (Option.some_ne_none key).symm]
        exact hl.rows key entry hrow
    | some own =>
        rw [hkey] at hrow
        dsimp only [TuneStore.set] at hrow
        by_cases hown : key = own
        · rw [if_pos hown] at hrow
          rw [if_pos (congrArg some hown.symm), htable, ← horigin, ← hdirection, hhash, hown]
          cases hrow
          exact ⟨TuningEngine.of_cacheKey hkey, rfl⟩
        · rw [if_neg hown] at hrow
          rw [if_neg fun h => hown (Option.some.inj h).symm]
          exact hl.rows key entry hrow

/-- **Step lemma.** -/
theorem labelled_next {w v : TuneWorld F} {a : TuneAct F} (hl : Labelled w)
    (hok : KeepsScope sha w a) (hnext : next sha w a = some v) : Labelled v := by
  obtain ⟨i, call⟩ := a
  have hengine := next_engine_self hnext
  have hlog := next_log_self hnext
  have hstore := next_store hnext
  have hrows := next_rows hnext
  cases call with
  | setOrigin url | setDirection kind | setEnabled enabled =>
      apply labelled_of_quiet hl hnext
      · rw [hengine, hlog]
        exact hl.table i
      · intro _
        rw [hengine]
        exact ⟨rfl, rfl, rfl⟩
      · rw [hlog]
        exact ⟨rfl, rfl⟩
      · intro key row hrow
        rw [hstore] at hrow
        exact hrow
      · exact hrows
  | beginTransfer caps nowMs staticParams =>
      have hkept := (w.engine i).beginTransfer_keeps w.store sha caps nowMs staticParams
      apply labelled_of_quiet hl hnext
      · intro _
        rw [hengine, hlog]
        dsimp only [TuneCall.observe, TransferLog.next]
        constructor
        · cases hsource : ((w.engine i).resetTransfer (sha caps) caps nowMs
              staticParams).source w.store nowMs with
          | none => rfl
          | some source =>
              have hreused := reusedFrom_eq hl hok hsource
              cases source with
              | memory => exact hreused
              | cache => exact hreused
        · exact hkept.1.symm
      · intro _
        rw [hengine]
        exact hkept.2
      · rw [hlog]
        exact ⟨rfl, rfl⟩
      · intro key row hrow
        rw [hstore] at hrow
        exact TuningEngine.beginTransfer_store hrow
      · exact hrows
  | transferEnd ended =>
      apply labelled_of_quiet hl hnext
      · have hkept := (w.engine i).transferEnd_caps w.store ended
        rw [hengine, hlog]
        dsimp only [TuneCall.apply]
        rw [hkept.1, hkept.2]
        exact hl.table i
      · intro hsome
        rw [hengine] at hsome ⊢
        dsimp only [TuneCall.apply] at hsome ⊢
        rcases (w.engine i).transferEnd_cases w.store ended with heq | ⟨hnone, -⟩
        · rw [heq]
          exact ⟨rfl, rfl, rfl⟩
        · rw [hnone] at hsome
          cases hsome
      · rw [hlog]
        exact ⟨rfl, rfl⟩
      · intro key row hrow
        rw [hstore] at hrow
        dsimp only [TuneCall.apply] at hrow
        rcases (w.engine i).transferEnd_cases w.store ended with heq | ⟨-, hold⟩
        · rw [heq] at hrow
          exact hrow
        · exact hold key row hrow
      · exact hrows
  | tick nowMs done rttMs error =>
      by_cases hstored : ∃ t,
          (TuneCall.tick nowMs done rttMs error).observe sha (w.engine i) w.store = .stored t
      · obtain ⟨t, ht⟩ := hstored
        exact labelled_of_stored hl hok hnext ht
      · have hkeeps := keepsSettle_tick fun t ht => hstored ⟨t, ht⟩
        have htick := (w.engine i).tick_caps sha w.store nowMs done rttMs error
        rw [← hengine, ← hstore] at hkeeps
        rw [← hengine] at htick
        have hquiet : (v.log i).table = (w.log i).table ∧ (v.log i).begun = (w.log i).begun ∧
            (v.log i).memory = (w.log i).memory ∧
            (v.log i).memoryOrigin = (w.log i).memoryOrigin ∧ v.rows = w.rows := by
          rw [hlog, hrows]
          cases hseen :
              (TuneCall.tick nowMs done rttMs error).observe sha (w.engine i) w.store with
          | degraded | other => exact ⟨rfl, rfl, rfl, rfl, rfl⟩
          | stored t => exact absurd ⟨t, hseen⟩ hstored
          | began source p => exact absurd hseen observe_tick_ne_began
          | ended => exact absurd hseen observe_tick_ne_ended
        obtain ⟨htable, hbegun, hmemory, horigin, hsame⟩ := hquiet
        apply labelled_of_quiet hl hnext
        · rw [htick.1, htick.2, htable, hbegun]
          exact hl.table i
        · intro _
          exact ⟨hkeeps.settled, hkeeps.capsHash, hkeeps.direction⟩
        · exact ⟨hmemory, horigin⟩
        · intro key row hrow
          rw [hkeeps.store] at hrow
          exact hrow
        · exact hsame

end TuneWorld

/-- **Nothing is shared, where memory stays on its origin and transfers keep their
scope.** -/
theorem scoped_runs_share_nothing : ScopedByServer (F := F) KeepsScope := by
  intro sha w₀ w hfresh hempty hrun
  have hl : Labelled w := hrun.invariant
    (fun _ _ _ hI hok hnext => TuneWorld.labelled_next hI hok hnext) (hfresh.labelled hempty)
  constructor
  · intro i caps nowMs staticParams source hok hsource
    exact TuneWorld.reusedFrom_eq hl hok hsource
  · exact hl.rows

/-! ### A run in which a settle is shared by one server's clients -/

/-- Plain reasons for an event to keep its scope. -/
def plainlyScoped (w : TuneWorld ℚ) : TuneAct ℚ → Bool
  | (i, .tick _ _ _ _) =>
      (w.engine i).origin = (w.log i).begun.origin ∧
        (w.engine i).direction = (w.log i).begun.direction
  | (i, .beginTransfer _ _ _) =>
      (w.engine i).settled.isNone || (w.log i).memoryOrigin = (w.engine i).origin
  | _ => true

theorem keepsScope_of_plainlyScoped (w : TuneWorld ℚ) (a : TuneAct ℚ)
    (h : plainlyScoped w a = true) : KeepsScope sampleSha w a := by
  obtain ⟨i, call⟩ := a
  cases call with
  | tick nowMs done rttMs error =>
      intro caps _
      exact of_decide_eq_true h
  | beginTransfer caps nowMs staticParams =>
      intro hsource
      obtain ⟨hsome, -, -⟩ := TuningEngine.of_source_memory hsource
      rcases Bool.or_eq_true_iff.1 h with hnone | horigin
      · rw [Option.isNone_iff_eq_none.1 hnone] at hsome
        cases hsome
      · exact of_decide_eq_true horigin
  | setOrigin | setDirection | setEnabled | transferEnd => trivial

/-- Another client of the same server begins with what the first has stored. -/
theorem scoped_run_shares_nothing :
    ∃ w, Reaches (TuneWorld.next sampleSha) (KeepsScope sampleSha) sampleWorld w ∧
      ((w.engine 1).resetTransfer (sampleSha .dflt) .dflt 9000 sampleStatic).source
        w.store 9000 = some .cache ∧
      w.reusedFrom 1 .cache = ⟨(w.engine 1).origin, (w.engine 1).direction, sampleSha .dflt⟩ := by
  have hrun : ((runIf (TuneWorld.next sampleSha) plainlyScoped sampleWorld
      (rampActs ++ [(1, .setOrigin "https://fw.example".toList)])).any fun w =>
        plainlyScoped w (1, .beginTransfer .dflt 9000 sampleStatic) ∧
          ((w.engine 1).resetTransfer (sampleSha .dflt) .dflt 9000 sampleStatic).source
            w.store 9000 = some .cache) = true := by
    decide +kernel
  obtain ⟨w, hw, hend⟩ := (Option.any_eq_true _ _).1 hrun
  obtain ⟨hscoped, hsource⟩ := of_decide_eq_true hend
  have hreach := reaches_of_runIf (fun w a h => keepsScope_of_plainlyScoped w a h) hw
  have hreused := (scoped_runs_share_nothing sampleSha sampleWorld w sampleWorld_fresh
    (fun _ => rfl) hreach).1 1 .dflt 9000 sampleStatic .cache
    (keepsScope_of_plainlyScoped w _ hscoped) hsource
  exact ⟨w, hreach, hsource, hreused⟩

/-! ### A run that crosses origins -/

/-- **A transfer to another server begins with what the first server's transfer has
settled on.** -/
theorem settle_crosses_origins :
    ¬ ScopedByServer (F := ℚ) fun _ _ _ => True := by
  intro hall
  have hrun : ((runIf (TuneWorld.next sampleSha) (fun _ _ => true) sampleWorld
      (rampActs ++ [(0, .setOrigin "https://other.example".toList)])).any fun w =>
        ((w.engine 0).resetTransfer (sampleSha .dflt) .dflt 9000 sampleStatic).source
            w.store 9000 = some .memory ∧
          (w.log 0).memory.origin ≠ (w.engine 0).origin) = true := by
    decide +kernel
  obtain ⟨w, hw, hend⟩ := (Option.any_eq_true _ _).1 hrun
  obtain ⟨hsource, hother⟩ := of_decide_eq_true hend
  have hreach : Reaches (TuneWorld.next sampleSha) (fun _ _ => True) sampleWorld w :=
    reaches_of_runIf (fun _ _ _ => trivial) hw
  have hreused := (hall sampleSha sampleWorld w sampleWorld_fresh (fun _ => rfl) hreach).1 0
    .dflt 9000 sampleStatic .memory trivial hsource
  exact hother (congrArg Provenance.origin hreused)

end Libfw

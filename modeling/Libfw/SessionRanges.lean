import Libfw.SessionCommits

/-!
# What a session reports

Data chunks and status probes of one session, in any interleaving, none of them
dropped or aborted.  A chunk is written first and recorded in the sidecar after,
both under the lock, so between the two the sidecar lags behind; `Settled` says
that it does not.

The one step that can lose a chunk is the removal of a stale sidecar by the
request that made the temporary: it made it before it had the lock, and another
request may have recorded a chunk since.  `NothingToPurge` rules out that a
sidecar is there to be removed.

* `unpurged_session_keeps_chunks`: then no chunk is lost.
* `purged_sidecar_loses_chunk`: without it an answered chunk is forgotten.
-/

namespace Libfw

open SteppedPrograms Fs FsStorage PosixStore HalfOpenRanges

namespace Session

variable (S : Session)

/-- The sidecar lists the position. -/
def Listed (s : Store) (k : Nat) : Prop :=
  ∃ m ranges, s.disk.entry S.blocks = .file m ∧ s.content m = .blocks ranges ∧
    Covers ranges k

/-- The temporary holds a byte that was written there. -/
def WrittenIn (s : Store) (k : Nat) : Prop :=
  ∃ f, s.disk.entry S.tmp = .file f ∧ Written (S.cells s f) k

/-- The sidecar lists exactly what has been written. -/
def Settled (s : Store) : Prop := ∀ k, S.Listed s k ↔ S.WrittenIn s k

/-- A request that awaits this call has written data and is about to record it. -/
def Between : Call → Prop
  | (.readToString _, h) | (.writeRanges _ _, h) | (.rename _ _, h) => h.opened = true
  | _ => False

/-- Data chunks and status probes that run to completion: nothing is dropped,
aborted or committed, and no call of an open sink fails. -/
def Undisturbed (_ : Store) : Event Call UploadJob Choice Outside → Prop
  | .enter _ job => S.Has job ∧ ∀ key, job.session = some key →
      key.statusProbe = false → job.finalChunk = false
  | .call _ _ (op, h) c => (h.opened = true → c = .go) ∧ op ≠ .removeFile S.tmp
  | .drop _ _ => False
  | .env (.tick _) => True
  | .env (.place _ _) => False

/-- The same, where the request that has made the temporary finds no sidecar when
it removes the stale one. -/
def NothingToPurge (s : Store) (e : Event Call UploadJob Choice Outside) : Prop :=
  S.Undisturbed s e ∧ ∀ i job h, e = .call i job (.removeFile S.blocks, h) .go →
    s.disk.entry S.blocks = .absent

/-! ## Invariant -/

structure RangesInv (s : Store) : Prop where
  files : S.Inv 0 (fun _ _ => True) s
  blocks_not_dir : s.disk.entry S.blocks ≠ .dir
  persist_not_dir : s.disk.entry S.persist ≠ .dir
  after_tmp : s.disk.entry S.tmp = .absent → s.disk.entry S.blocks = .absent
  settled : s.holder S.tmp = none → S.Settled s

structure RangesRely (i : Nat) (s t : Store) : Prop where
  files : S.Rely 0 i s t
  temp : ∀ f, s.disk.entry S.tmp = .file f → t.disk.entry S.tmp = .file f
  listed : ∀ k, S.Listed s k → S.Listed t k

def rangesDiscipline : UploadDiscipline where
  inv := S.RangesInv
  rely := S.RangesRely
  allowed := fun s e => S.NothingToPurge s e ∧
    ∀ i job, e = .enter i job → s.holder S.tmp ≠ some i
  mark := fun i _ call s => s.holder S.tmp = some i → ¬ Between call → S.Settled s

/-- The request holds the lock; its open file is the temporary, with these bytes,
and the sidecar lists the positions of `L`. -/
structure Recorded (i f : Nat) (cs : List (Option UInt8)) (L : Nat → Prop) (s : Store) :
    Prop where
  lock : s.holder S.tmp = some i
  temp : s.disk.entry S.tmp = .file f
  cells_eq : S.cells s f = cs
  listed : ∀ k, S.Listed s k ↔ L k

variable {S} {s t : Store} {i f : Nat} {cs : List (Option UInt8)} {L : Nat → Prop}

theorem Frozen.listed (h : S.Frozen s t) (k : Nat) : S.Listed t k ↔ S.Listed s k := by
  have hname := fun m => h.named S.blocks m S.names.blocks_ne_tmp
  constructor
  · intro hk
    obtain ⟨m, ranges, hm, hc, hcover⟩ := hk
    have hm' := (hname m).1 hm
    rw [h.content m (s.disk.entry_lt hm')] at hc
    exact ⟨m, ranges, hm', hc, hcover⟩
  · intro hk
    obtain ⟨m, ranges, hm, hc, hcover⟩ := hk
    rw [← h.content m (s.disk.entry_lt hm)] at hc
    exact ⟨m, ranges, (hname m).2 hm, hc, hcover⟩

/-- With the temporary known, `WrittenIn` speaks of its bytes. -/
theorem writtenIn_iff (hf : s.disk.entry S.tmp = .file f) (k : Nat) :
    S.WrittenIn s k ↔ Written (S.cells s f) k := by
  constructor
  · intro h
    obtain ⟨g, hg, hk⟩ := h
    rw [hf] at hg
    cases hg
    exact hk
  · intro hk
    exact ⟨f, hf, hk⟩

theorem Recorded.settled (h : S.Recorded i f cs (Written cs) s) : S.Settled s := by
  intro k
  rw [h.listed, writtenIn_iff h.temp, h.cells_eq]

theorem Recorded.stable (h : S.Recorded i f cs L s) (hrely : S.RangesRely i s t) :
    S.Recorded i f cs L t := by
  have hfrozen : S.Frozen s t := hrely.files.frozen h.lock
  refine ⟨hrely.files.lock.2 h.lock, hrely.temp f h.temp, ?_, ?_⟩
  · rw [hfrozen.cells (s.disk.entry_lt h.temp)]
    exact h.cells_eq
  · intro k
    rw [hfrozen.listed]
    exact h.listed k

/-! ## Steps of a request -/

theorem rangesRely_of_frozen (h : S.Frozen s t) (hlock : t.holder = s.holder) :
    S.RangesRely i s t where
  files := rely_of_frozen h hlock
  temp := h.temp
  listed := fun k => (h.listed k).2

theorem RangesRely.trans {u : Store} (hst : S.RangesRely i s t) (htu : S.RangesRely i t u) :
    S.RangesRely i s u where
  files := hst.files.trans htu.files
  temp := fun f hf => htu.temp f (hst.temp f hf)
  listed := fun k hk => htu.listed k (hst.listed k hk)

theorem rangesKept_self (hinv : S.RangesInv s) : S.rangesDiscipline.Kept i s s :=
  ⟨hinv, fun _ _ => rangesRely_of_frozen (frozen_of_disk_eq rfl) rfl⟩

/-- A step under the lock, with the temporary in place. -/
theorem rangesKept_of_lock (hlock : s.holder S.tmp = some i)
    (hf : s.disk.entry S.tmp = .file f) (hholder : t.holder = s.holder)
    (hfiles : S.Inv 0 (fun _ _ => True) t)
    (hdata : ∀ g, S.Data 0 s g → S.Data 0 t g)
    (hblocks : t.disk.entry S.blocks ≠ .dir) (hpersist : t.disk.entry S.persist ≠ .dir)
    (htmp : t.disk.entry S.tmp = s.disk.entry S.tmp)
    (hlisted : ∀ k, S.Listed s k → S.Listed t k) : S.rangesDiscipline.Kept i s t := by
  refine ⟨⟨hfiles, hblocks, hpersist, ?_, ?_⟩, ?_⟩
  · intro habsent
    rw [htmp, hf] at habsent
    cases habsent
  · intro hnone
    rw [hholder, hlock] at hnone
    cases hnone
  · intro j hj
    refine ⟨rely_of_holding hj hlock hholder hdata, ?_, hlisted⟩
    intro g hg
    rw [htmp]
    exact hg

section Programs

variable {job : UploadJob} {h : Held} {K : Nat → Prop} {ε α : Type}

variable (S i job) in
/-- The weakest precondition for a request of an undisturbed session. -/
abbrev WpR (x : Fs ε α) (Q : Except ε α → Held → Store → Prop) : Held → Store → Prop :=
  Fs.Wp S.srv S.rangesDiscipline i job x Q

variable (S i K) in
/-- The request does not have the lock; the positions of `K` are listed. -/
structure Queued (s : Store) : Prop where
  unlocked : s.holder S.tmp ≠ some i
  known : ∀ k, K k → S.Listed s k

theorem Queued.stable (hs : S.Queued i K s) (hrely : S.RangesRely i s t) :
    S.Queued i K t where
  unlocked := fun hlock => hs.unlocked (hrely.files.lock.1 hlock)
  known := fun k hk => hrely.listed k (hs.known k hk)

theorem watching_queued : Watching S.rangesDiscipline i job h (S.Queued i K) where
  stable := fun _ _ hs hrely _ => hs.stable hrely
  mark := fun _ _ _ hs _ hlock => absurd hlock hs.unlocked
  self := fun _ _ hinv => rangesKept_self hinv

theorem watching_recorded :
    Watching S.rangesDiscipline i job h (S.Recorded i f cs (Written cs)) where
  stable := fun _ _ hs hrely _ => hs.stable hrely
  mark := fun _ _ _ hs _ _ _ => hs.settled
  self := fun _ _ hinv => rangesKept_self hinv

/-! ### Opening the sink -/

theorem ranges_mkdirs {full parent : FsPath} (hfull : resolve S.srv.root S.path = .ok full)
    (hparent : full.parent = some parent) (hs : S.Queued i K s) (hinv : S.RangesInv s) :
    S.rangesDiscipline.Kept i s (s.mkdirs (ancestors parent)) ∧
      S.Queued i K (s.mkdirs (ancestors parent)) := by
  rw [target_of_resolve hfull] at hparent
  have hfrozen : S.Frozen s (s.mkdirs (ancestors parent)) := frozen_mkdirs s _
  have hsame : ∀ q, S.target.length ≤ q.length →
      (s.mkdirs (ancestors parent)).disk.entry q = s.disk.entry q := by
    intro q hq
    refine (Disk.mkdirs_entry _).trans (if_neg ?_)
    intro hmem
    exact not_mem_ancestors hparent hq hmem.1
  refine ⟨⟨⟨(fewer_mkdirs _).inv hinv.files, ?_, ?_, ?_, ?_⟩,
    fun j _ => rangesRely_of_frozen hfrozen rfl⟩, hs.unlocked, ?_⟩
  · rw [hsame _ S.length_le_blocks]
    exact hinv.blocks_not_dir
  · rw [hsame _ S.length_le_persist]
    exact hinv.persist_not_dir
  · rw [hsame _ S.length_le_tmp, hsame _ S.length_le_blocks]
    exact hinv.after_tmp
  · intro hnone k
    rw [hfrozen.listed, hinv.settled hnone k]
    unfold WrittenIn
    rw [hsame _ S.length_le_tmp]
    rfl
  · intro k hk
    exact (hfrozen.listed k).2 (hs.known k hk)

/-- The first request makes the temporary: nothing is written, nothing listed. -/
theorem ranges_create_tmp (hinv : S.RangesInv s)
    (habsent : s.disk.entry S.tmp = .absent) :
    S.rangesDiscipline.Kept i s (s.create S.tmp (.bytes [])) := by
  have hfrozen : S.Frozen s (s.create S.tmp (.bytes [])) := frozen_create_tmp _ habsent
  have hentry : ∀ q, q ≠ S.tmp →
      (s.create S.tmp (.bytes [])).disk.entry q = s.disk.entry q :=
    fun q hq => Disk.create_entry_ne _ _ hq
  have htmp : (s.create S.tmp (.bytes [])).disk.entry S.tmp = .file s.disk.next :=
    Disk.create_entry_self _ _
  refine ⟨⟨(inv_create_tmp hinv.files habsent).1, ?_, ?_, ?_, ?_⟩,
    fun j _ => rangesRely_of_frozen hfrozen rfl⟩
  · rw [hentry _ S.names.blocks_ne_tmp]
    exact hinv.blocks_not_dir
  · rw [hentry _ S.names.persist_ne_tmp]
    exact hinv.persist_not_dir
  · intro h
    rw [htmp] at h
    cases h
  · intro _ k
    have hempty : S.cells (s.create S.tmp (.bytes [])) s.disk.next = [] := by
      unfold Session.cells Store.content Store.create
      rw [Disk.create_content_next]
      rfl
    rw [hfrozen.listed, writtenIn_iff htmp, hempty]
    constructor
    · intro h
      obtain ⟨m, ranges, hm, -⟩ := h
      rw [hinv.after_tmp habsent] at hm
      cases hm
    · intro h
      obtain ⟨b, hb⟩ := h
      cases hb

/-- However it is got, the open file is the temporary. -/
theorem wpR_openSessionTemp {mode : WriteMode} {tmpExists : Bool}
    (hs : S.Queued i K s) :
    S.WpR i job (openSessionTemp S.target S.tmp S.path mode tmpExists)
      (fun r h' s => h' = h ∧ S.Queued i K s ∧
        ∀ f, r = .ok f → s.disk.entry S.tmp = .file f) h s := by
  unfold openSessionTemp
  by_cases hexists : tmpExists = true
  · rw [if_pos hexists]
    refine watching_queued.look_then hs rfl ?_
    intro s c a hs _ _ hexec
    rcases (exec_openExisting hexec).2 with ⟨e, rfl⟩ | ⟨f, hf, rfl⟩
    · exact ⟨rfl, hs, fun f h => nomatch h⟩
    · refine ⟨rfl, hs, ?_⟩
      intro g hg
      cases hg
      exact hf
  · rw [if_neg hexists]
    have hnew : S.WpR i job
        (do refuseExisting S.target S.path mode
            other (← await (.createNew S.tmp)))
        (fun r h' s => h' = h ∧ S.Queued i K s ∧
          ∀ f, r = .ok f → s.disk.entry S.tmp = .file f) h s := by
      refine wp_then (wp_refuseExisting watching_queued hs) ?_
        (fun e h' s hr => ⟨hr.1, hr.2, fun f h => nomatch h⟩)
      intro _ h' s hr
      obtain ⟨rfl, hs⟩ := hr
      refine wp_seq.2 (wp_await.2 ?_)
      intro s₁ hrely hinv
      have hs₁ : S.Queued i K s₁ := hs.stable hrely
      refine ⟨fun hlock => absurd hlock hs₁.unlocked, ?_⟩
      intro c s₂ a _ hexec
      rcases exec_createNew hexec with ⟨rfl, e, rfl⟩ | ⟨habsent, rfl, rfl⟩
      · exact ⟨rangesKept_self hinv, rfl, hs₁, fun f h => nomatch h⟩
      · refine ⟨ranges_create_tmp hinv habsent, rfl, ⟨hs₁.unlocked, ?_⟩, ?_⟩
        · intro k hk
          exact ((frozen_create_tmp _ habsent).listed k).2 (hs₁.known k hk)
        · intro f hf
          cases hf
          exact Disk.create_entry_self _ _
    cases mode with
    | create => exact hnew
    | overwrite => exact hnew
    | resume offset => exact ⟨rfl, hs, fun f h => nomatch h⟩

/-- Taking the lock: the sidecar is settled. -/
theorem ranges_acquired (hinv : S.RangesInv s) (hf : s.disk.entry S.tmp = .file f)
    (hfree : s.holder S.tmp = none) :
    S.rangesDiscipline.Kept i s (s.acquire S.tmp i) ∧
      S.Recorded i f (S.cells s f) (Written (S.cells s f)) (s.acquire S.tmp i) := by
  have hfewer : S.Fewer s (s.acquire S.tmp i) := fewer_of_disk_eq rfl
  have hlock : (s.acquire S.tmp i).holder S.tmp = some i := if_pos rfl
  refine ⟨⟨⟨hfewer.inv hinv.files, hinv.blocks_not_dir, hinv.persist_not_dir, hinv.after_tmp, ?_⟩, ?_⟩,
    hlock, hf, rfl, ?_⟩
  · intro hnone
    rw [hlock] at hnone
    cases hnone
  · intro j hj
    exact ⟨rely_acquired hj hfree, fun g hg => hg, fun k hk => hk⟩
  · intro k
    exact (hinv.settled hfree k).trans (writtenIn_iff hf k)

/-- Reading the sidecar under the lock: it lists `L`, and the read does not fail once
the sink is open. -/
theorem wpR_readRanges (hL : h.opened = true ∨ ∀ k, L k ↔ Written cs k)
    (hs : S.Recorded i f cs L s) :
    S.WpR i job (readRanges S.srv.serde S.blocks)
      (fun r h' s => h' = h ∧ S.Recorded i f cs L s ∧
        (∀ ranges, r = .ok ranges → Separated ranges ∧ ∀ k, Covers ranges k ↔ L k) ∧
        (h.opened = true → ∃ ranges, r = .ok ranges)) h s := by
  unfold readRanges
  refine wp_await_then.2 ?_
  intro s₁ hrely hinv
  have hs₁ : S.Recorded i f cs L s₁ := hs.stable hrely
  refine ⟨?_, ?_⟩
  · intro _ hbetween
    rcases hL with hopened | hL
    · exact absurd hopened hbetween
    · intro k
      rw [hs₁.listed, hL, writtenIn_iff hs₁.temp, hs₁.cells_eq]
  intro c s₂ a hallow hexec
  obtain ⟨rfl, hread⟩ := exec_readToString hexec
  refine ⟨rangesKept_self hinv, ?_⟩
  have hnone : s₂.disk.entry S.blocks = .absent →
      Separated ([] : List ChunkRange) ∧ ∀ k, Covers ([] : List ChunkRange) k ↔ L k := by
    intro habsent
    refine ⟨separated_nil, ?_⟩
    intro k
    rw [← hs₁.listed]
    constructor
    · intro hk
      exact absurd hk (not_covers_nil k)
    · intro hk
      obtain ⟨m, ranges, hm, -⟩ := hk
      rw [habsent] at hm
      cases hm
  rcases hread with ⟨e, rfl, hnf⟩ | ⟨m, hm, rfl⟩
  · by_cases hmissing : e.notFound = true
    · simp only [hmissing, if_true]
      refine ⟨rfl, hs₁, ?_, fun _ => ⟨[], rfl⟩⟩
      intro ranges hr
      cases hr
      exact hnone (hnf hmissing)
    · simp only [hmissing]
      refine ⟨rfl, hs₁, (fun ranges h => nomatch h), ?_⟩
      intro hopened
      have hgo : c = .go := hallow.1.1.1 hopened
      rw [hgo] at hexec
      rcases exec_readToString_go hinv.blocks_not_dir hexec with ⟨-, he⟩ | ⟨m, -, he⟩
      · cases he
        exact absurd rfl hmissing
      · cases he
  · obtain ⟨ranges, hc, hsep⟩ := hinv.files.sidecar m hm
    refine wp_lift.2 ?_
    rw [hc]
    refine ⟨rfl, hs₁, ?_, fun _ => ⟨ranges, rfl⟩⟩
    intro rs hrs
    cases hrs
    refine ⟨hsep, ?_⟩
    intro k
    rw [← hs₁.listed]
    constructor
    · intro hk
      exact ⟨m, ranges, hm, hc, hk⟩
    · intro hk
      obtain ⟨m', ranges', hm', hc', hk⟩ := hk
      rw [hm] at hm'
      cases hm'
      rw [hc] at hc'
      cases hc'
      exact hk

/-- The stale sidecar: there is none. -/
theorem wpR_removeStale (hs : S.Recorded i f cs (Written cs) s) :
    S.WpR i job (removeBlocksSidecar (some S.blocks))
      (fun r h' s => h' = h ∧ S.Recorded i f cs (Written cs) s ∧ r = .ok ()) h s := by
  unfold removeBlocksSidecar
  refine wp_await_then.2 ?_
  intro s₁ hrely hinv
  have hs₁ : S.Recorded i f cs (Written cs) s₁ := hs.stable hrely
  refine ⟨fun _ _ => hs₁.settled, ?_⟩
  intro c s₂ a hallow hexec
  have hsame : s₂ = s₁ := by
    cases c with
    | go =>
        rcases exec_removeFile hexec with ⟨heq, -⟩ | ⟨m, hm, -⟩
        · exact heq
        · rw [hallow.1.2 i job h rfl] at hm
          cases hm
    | fail n m =>
        cases hexec
        rfl
  rw [hsame]
  exact ⟨rangesKept_self hinv, rfl, hs₁, rfl⟩

variable (S) in
/-- The sink is open, and everything written is listed. -/
structure Open (i f : Nat) (cs : List (Option UInt8)) (h : Held) (s : Store) : Prop where
  opened : h.opened = true
  recorded : S.Recorded i f cs (Written cs) s

/-- `write_stream_session`: the sink knows what was listed when the request came. -/
theorem wpR_writeStreamSession {mode : WriteMode} (hs : S.Queued i K s) :
    S.WpR i job (writeStreamSession S.srv.serde S.srv.root S.path S.id S.owner mode)
      (fun r h' s =>
        match r with
        | .ok sink => ∃ f cs, sink = S.sink f mode ∧ S.Open i f cs h' s ∧
            ∀ k, K k → Covers h'.ranges k
        | .error _ => s.holder S.tmp = some i → S.Settled s) Held.nothing s := by
  unfold writeStreamSession
  refine wp_then (wp_prepare watching_queued ?_ hs) ?_
    (fun e h s hr hlock => absurd hlock hr.2.1.unlocked)
  · intro s full parent hfull hparent hs hinv
    exact ⟨fun hlock => absurd hlock hs.unlocked, ranges_mkdirs hfull hparent hs hinv⟩
  intro full h' s hr
  obtain ⟨rfl, hs, hfull⟩ := hr
  obtain rfl := target_of_resolve (hfull full rfl)
  refine watching_queued.look_then hs rfl ?_
  intro s c a hs hinv _ hexec
  refine wp_other_then ?_ (fun e _ hlock => absurd hlock hs.unlocked)
  intro tmpExists ha
  -- without a temporary nothing is listed
  have hnone : tmpExists = false → ∀ k, ¬ K k := by
    intro hfalse k hk
    obtain ⟨m, ranges, hm, -⟩ := hs.known k hk
    have habsent : s.disk.entry S.tmp = .absent := by
      by_contra hne
      have := ((exec_tryExists hexec).2 tmpExists ha).2 hne
      rw [hfalse] at this
      exact Bool.false_ne_true this
    rw [hinv.after_tmp habsent] at hm
    cases hm
  refine wp_then (wpR_openSessionTemp hs) ?_
    (fun e h s hr hlock => absurd hlock hr.2.1.unlocked)
  intro f h' s hr
  obtain ⟨rfl, hs, hf⟩ := hr
  refine wp_update_then.2 (wp_await_then.2 ?_)
  intro s₁ hrely hinv
  have hs₁ : S.Queued i K s₁ := hs.stable hrely
  refine ⟨fun hlock => absurd hlock hs₁.unlocked, ?_⟩
  intro c s₂ a _ hexec
  obtain ⟨hfree, rfl⟩ := exec_lock hexec
  obtain ⟨hkept, hrec⟩ := ranges_acquired (i := i) hinv (hrely.temp f (hf f rfl)) hfree
  refine ⟨hkept, ?_⟩
  have hknown : ∀ k, K k → Written (S.cells s₁ f) k := by
    intro k hk
    exact (hrec.listed k).1 (hs₁.known k hk)
  have hopen : ∀ s ranges h, (∀ k, K k → Covers ranges k) →
      S.Recorded i f (S.cells s₁ f) (Written (S.cells s₁ f)) s →
      S.WpR i job (openSink (S.sink f mode) 0 ranges)
        (fun r h' s =>
          match r with
          | .ok sink => ∃ f cs, sink = S.sink f mode ∧ S.Open i f cs h' s ∧
              ∀ k, K k → Covers h'.ranges k
          | .error _ => s.holder S.tmp = some i → S.Settled s) h s := by
    intro s ranges h hranges hs
    exact ⟨f, _, rfl, ⟨rfl, hs⟩, hranges⟩
  by_cases hexists : tmpExists = true
  · simp only [hexists, if_true]
    refine wp_then (wpR_readRanges (Or.inr fun _ => Iff.rfl) hrec) ?_
      (fun e h s hr _ => hr.2.1.settled)
    intro ranges h' s hr
    obtain ⟨rfl, hs, hranges, -⟩ := hr
    refine hopen s ranges _ ?_ hs
    intro k hk
    exact ((hranges ranges rfl).2 k).2 (hknown k hk)
  · simp only [hexists]
    refine wp_then (wpR_removeStale hrec) ?_ (fun e h s hr => nomatch hr.2.2)
    intro _ h' s hr
    obtain ⟨rfl, hs, -⟩ := hr
    refine hopen s [] _ ?_ hs
    intro k hk
    exact absurd hk (hnone (Bool.eq_false_iff.2 hexists) k)

/-! ### Writing -/

/-- The sibling has been written: nothing is listed or written by that. -/
theorem recorded_of_replaced {ranges : List ChunkRange} (hinv : S.RangesInv s)
    (hs : S.Recorded i f cs L s) (h : ReplacedAt S.persist (.blocks ranges) s t) :
    S.rangesDiscipline.Kept i s t ∧ S.Recorded i f cs L t ∧
      ∃ m, t.disk.entry S.persist = .file m ∧ t.content m = .blocks ranges := by
  obtain ⟨m, hm, hc, hwhere, hentry, hcontent, -, -⟩ := h.file
  have hprepared := prepared_of_replaced hinv.files (Or.inr ⟨ranges, rfl⟩) h
  have hblocks : t.disk.entry S.blocks = s.disk.entry S.blocks :=
    hentry _ S.names.persist_ne_blocks.symm
  have htmp : t.disk.entry S.tmp = s.disk.entry S.tmp :=
    hentry _ S.names.persist_ne_tmp.symm
  -- the file written is not the sidecar
  have hsame : ∀ b, s.disk.entry S.blocks = .file b → t.content b = s.content b := by
    intro b hb
    refine hcontent b ?_
    rintro rfl
    rcases hwhere with hp | hnew
    · exact S.names.persist_ne_blocks (s.disk.single hp hb)
    · exact Nat.lt_irrefl _ (hnew ▸ s.disk.entry_lt hb)
  have hlisted : ∀ k, S.Listed t k ↔ S.Listed s k := by
    intro k
    unfold Listed
    rw [hblocks]
    constructor
    · intro hk
      obtain ⟨b, rs, hb, hcb, hk⟩ := hk
      rw [hsame b hb] at hcb
      exact ⟨b, rs, hb, hcb, hk⟩
    · intro hk
      obtain ⟨b, rs, hb, hcb, hk⟩ := hk
      rw [← hsame b hb] at hcb
      exact ⟨b, rs, hb, hcb, hk⟩
  refine ⟨rangesKept_of_lock hs.lock hs.temp h.holder hprepared.inv hprepared.data ?_ ?_
    htmp fun k => (hlisted k).2, ⟨?_, ?_, ?_, ?_⟩, m, hm, hc⟩
  · rw [hblocks]
    exact hinv.blocks_not_dir
  · rw [hm]
    exact fun h => nomatch h
  · rw [h.holder]
    exact hs.lock
  · rw [htmp]
    exact hs.temp
  · rw [hprepared.cells f (hinv.files.tmp_data f hs.temp)]
    exact hs.cells_eq
  · intro k
    rw [hlisted]
    exact hs.listed k

/-- The sibling takes the place of the sidecar: its ranges are listed now. -/
theorem recorded_of_renamed {ranges : List ChunkRange} {m : Nat} (hinv : S.RangesInv s)
    (hs : S.Recorded i f cs L s) (hm : s.disk.entry S.persist = .file m)
    (hc : s.content m = .blocks ranges) (hsep : Separated ranges)
    (hmono : ∀ k, L k → Covers ranges k) :
    S.rangesDiscipline.Kept i s (s.rename S.persist S.blocks) ∧
      S.Recorded i f cs (Covers ranges) (s.rename S.persist S.blocks) := by
  obtain ⟨hinv', hdata⟩ := inv_replace_sidecar hinv.files hm hc hsep
  have hblocks : (s.rename S.persist S.blocks).disk.entry S.blocks = .file m :=
    (Disk.rename_entry_target _ _ _).trans hm
  have hpersist : (s.rename S.persist S.blocks).disk.entry S.persist = .absent :=
    Disk.rename_entry_source _ _ _ S.names.persist_ne_blocks
  have htmp : (s.rename S.persist S.blocks).disk.entry S.tmp = s.disk.entry S.tmp :=
    Disk.rename_entry_ne _ _ _ S.names.persist_ne_tmp.symm S.names.blocks_ne_tmp.symm
  have hlisted : ∀ k, S.Listed (s.rename S.persist S.blocks) k ↔ Covers ranges k := by
    intro k
    constructor
    · intro hk
      obtain ⟨b, rs, hb, hcb, hk⟩ := hk
      rw [hblocks] at hb
      cases hb
      have heq : Content.blocks rs = .blocks ranges := hcb.symm.trans hc
      cases heq
      exact hk
    · intro hk
      exact ⟨m, ranges, hblocks, hc, hk⟩
  refine ⟨rangesKept_of_lock hs.lock hs.temp rfl hinv' hdata ?_ ?_ htmp ?_,
    hs.lock, ?_, hs.cells_eq, hlisted⟩
  · rw [hblocks]
    exact fun h => nomatch h
  · rw [hpersist]
    exact fun h => nomatch h
  · intro k hk
    exact (hlisted k).2 (hmono k ((hs.listed k).1 hk))
  · rw [htmp]
    exact hs.temp

/-- Persisting does not fail, and lists the new ranges. -/
theorem wpR_persistRanges {ranges : List ChunkRange} (hopened : h.opened = true)
    (hsep : Separated ranges) (hmono : ∀ k, L k → Covers ranges k)
    (hs : S.Recorded i f cs L s) :
    S.WpR i job (persistRanges S.blocks ranges)
      (fun r h' s => r = .ok () ∧ h' = h ∧ S.Recorded i f cs (Covers ranges) s) h s := by
  unfold persistRanges
  refine wp_await_then.2 ?_
  intro s₁ hrely hinv
  refine ⟨fun _ hbetween => absurd hopened hbetween, ?_⟩
  intro c s₂ a hallow hexec
  have hgo : c = .go := hallow.1.1.1 hopened
  rw [hgo] at hexec
  obtain ⟨rfl, hreplaced⟩ := exec_writeRanges_go hinv.persist_not_dir hexec
  obtain ⟨hkept, hs₂, m, hm, hc⟩ := recorded_of_replaced hinv (hs.stable hrely) hreplaced
  refine ⟨hkept, wp_other_then (fun _ _ => ?_) (fun _ h => nomatch h)⟩
  refine wp_await_then.2 ?_
  intro s₃ hrely₃ hinv₃
  refine ⟨fun _ hbetween => absurd hopened hbetween, ?_⟩
  intro c s₄ a hallow hexec
  have hgo : c = .go := hallow.1.1.1 hopened
  rw [hgo] at hexec
  have hfrozen : S.Frozen s₂ s₃ := hrely₃.files.frozen hs₂.lock
  have hm₃ : s₃.disk.entry S.persist = .file m :=
    (hfrozen.named _ m S.names.persist_ne_tmp).2 hm
  have hc₃ : s₃.content m = .blocks ranges :=
    (hfrozen.content m (s₂.disk.entry_lt hm)).trans hc
  obtain ⟨rfl, rfl⟩ := exec_rename_go hm₃ hinv₃.blocks_not_dir hexec
  obtain ⟨hkept₄, hs₄⟩ := recorded_of_renamed hinv₃ (hs₂.stable hrely₃) hm₃ hc₃ hsep hmono
  exact ⟨hkept₄, rfl, rfl, hs₄⟩

/-- The range that has just been written is listed. -/
theorem wpR_recordRange {new : ChunkRange} (hopened : h.opened = true)
    (hnew : new.start < new.stop) (hs : S.Recorded i f cs L s) :
    S.WpR i job (FsSink.recordRange S.srv.serde S.blocks new)
      (fun r h' s => r = .ok () ∧ h'.opened = true ∧
        S.Recorded i f cs (fun k => L k ∨ new.Has k) s) h s := by
  unfold FsSink.recordRange
  refine wp_then (wpR_readRanges (Or.inl hopened) hs) ?_ ?_
  · intro current h' s hr
    obtain ⟨rfl, hs, hcurrent, -⟩ := hr
    obtain ⟨hsep, hcover⟩ := hcurrent current rfl
    have hmerged : ∀ k, Covers (mergeRange current new) k ↔ L k ∨ new.Has k := by
      intro k
      rw [covers_mergeRange hsep hnew, hcover]
    refine wp_then (wpR_persistRanges hopened (separated_mergeRange hsep hnew)
      (fun k hk => (hmerged k).2 (Or.inl hk)) hs) ?_ (fun e h s hr => nomatch hr.1)
    intro _ h'' s hr
    obtain ⟨-, rfl, hs⟩ := hr
    refine wp_update.2 ⟨rfl, hopened, hs.lock, hs.temp, hs.cells_eq, ?_⟩
    intro k
    rw [hs.listed, hmerged]
  · intro e h' s hr
    obtain ⟨-, -, -, hok⟩ := hr
    obtain ⟨ranges, hr⟩ := hok hopened
    cases hr

/-- One positional write, recorded. -/
theorem wpR_writeAt {mode : WriteMode} {off : Nat} {buf : List UInt8} (hne : buf ≠ [])
    (hs : S.Open i f cs h s) :
    S.WpR i job ((S.sink f mode).writeAt S.srv.serde off buf)
      (fun r h' s =>
        match r with
        | .ok _ => off + buf.length ≤ MAX_FILE_SIZE ∧
            S.Open i f (PosixStore.writeAt cs off buf) h' s
        | .error _ => S.Recorded i f cs (Written cs) s) h s := by
  unfold FsSink.writeAt
  refine wp_await_then.2 ?_
  intro s₁ hrely hinv
  have hs₁ : S.Recorded i f cs (Written cs) s₁ := hs.recorded.stable hrely
  refine ⟨fun _ _ => hs₁.settled, ?_⟩
  intro c s₂ a hallow hexec
  have hgo : c = .go := hallow.1.1.1 hs.opened
  rw [hgo] at hexec
  rcases exec_writeAt_go hexec with ⟨rfl, hfits, rfl⟩ | ⟨⟨e, rfl⟩, rfl⟩
  · have hdata : S.Data 0 s₁ f := hinv.files.tmp_data f hs₁.temp
    have hlisted : ∀ k,
        S.Listed (s₁.write f (written S.srv.serde off buf)) k ↔ S.Listed s₁ k := by
      intro k
      have hsame : ∀ m, s₁.disk.entry S.blocks = .file m →
          (s₁.write f (written S.srv.serde off buf)).content m = s₁.content m := by
        intro m hm
        refine write_content_ne ?_
        rintro rfl
        exact hdata.not_blocks hm
      constructor
      · intro hk
        obtain ⟨m, rs, hm, hc, hk⟩ := hk
        rw [hsame m hm] at hc
        exact ⟨m, rs, hm, hc, hk⟩
      · intro hk
        obtain ⟨m, rs, hm, hc, hk⟩ := hk
        rw [← hsame m hm] at hc
        exact ⟨m, rs, hm, hc, hk⟩
    have hs₂ : S.Recorded i f (PosixStore.writeAt cs off buf) (Written cs)
        (s₁.write f (written S.srv.serde off buf)) := by
      refine ⟨hs₁.lock, hs₁.temp, ?_, fun k => (hlisted k).trans (hs₁.listed k)⟩
      rw [cells_write, hs₁.cells_eq]
    refine ⟨rangesKept_of_lock hs₁.lock hs₁.temp rfl
      (inv_write hinv.files hdata fun _ _ _ => trivial) (fun _ => data_write)
      hinv.blocks_not_dir hinv.persist_not_dir rfl fun k => (hlisted k).2, ?_⟩
    have hlen : 0 < buf.length := List.length_pos_of_ne_nil hne
    have hexact : satAdd off buf.length = off + buf.length := by
      unfold satAdd MAX_FILE_SIZE at *
      omega
    refine wp_update_then.2 (wp_weaken (wpR_recordRange hs.opened ?_ hs₂) ?_)
    · show off < satAdd off buf.length
      omega
    · intro r h' s hr
      obtain ⟨rfl, hopened, hs⟩ := hr
      refine ⟨hfits, hopened, hs.lock, hs.temp, hs.cells_eq, ?_⟩
      intro k
      rw [hs.listed, written_writeAt, ← hexact]
      rfl
  · exact ⟨rangesKept_self hinv, hs₁⟩

variable (S i) in
/-- Before each batch: `n` bytes of the body are written, `rest` is to come. -/
structure Progress (job : UploadJob) (base n : Nat) (rest : List UInt8) (f : Nat)
    (cs : List (Option UInt8)) (h : Held) (s : Store) : Prop where
  sink : S.Open i f cs h s
  fits : base + n < 2 ^ 64
  rest_eq : job.body.bytes.drop n = rest
  sent : ∀ k, base ≤ k → k < base + n → Written cs k

/-- One batch of a data chunk. -/
theorem wpR_writeAtBatch {mode : WriteMode} {base n : Nat} {data rest : List UInt8}
    (hne : data ≠ []) (hs : S.Progress i job base n (data ++ rest) f cs h s) :
    S.WpR i job (writeAtBatch S.srv (S.sink f mode) base job.fileMeta.size n data)
      (fun r h s =>
        match r with
        | .ok _ => ∃ cs, S.Progress i job base (satAdd n data.length) rest f cs h s
        | .error _ => ∃ cs, S.Recorded i f cs (Written cs) s) h s := by
  have hopen := hs.sink
  have habs : satAdd base n = base + n := by
    have := hs.fits
    unfold satAdd
    omega
  simp only [writeAtBatch, habs]
  by_cases hlimit : S.srv.maxUploadSize < satAdd (base + n) data.length
  · rw [if_pos hlimit]
    exact ⟨cs, hopen.recorded⟩
  rw [if_neg hlimit]
  by_cases hsize : job.fileMeta.size < satAdd (base + n) data.length
  · rw [if_pos hsize]
    exact ⟨cs, hopen.recorded⟩
  rw [if_neg hsize]
  refine wp_orElse.2 (wp_weaken (wpR_writeAt hne hopen) ?_)
  intro r h' s hr
  cases r with
  | error e => exact ⟨cs, hr⟩
  | ok u =>
      obtain ⟨hfits, hopen'⟩ := hr
      have hexact : satAdd n data.length = n + data.length := by
        unfold satAdd MAX_FILE_SIZE at *
        omega
      refine ⟨_, hopen', ?_, ?_, ?_⟩
      · unfold MAX_FILE_SIZE at hfits
        omega
      · rw [hexact, ← List.drop_drop, hs.rest_eq, List.drop_left]
      · intro k hk hk'
        rw [written_writeAt]
        by_cases hold : k < base + n
        · exact Or.inl (hs.sent k hk hold)
        · exact Or.inr ⟨Nat.not_lt.1 hold, by omega⟩

/-- The body of a data chunk. -/
theorem wpR_sessionBody {mode : WriteMode} {base : Nat}
    (hbase : baseOffset job.offsetHdr = .ok base) (hs : S.Open i f cs h s) :
    S.WpR i job
      (streamBody (writeAtBatch S.srv (S.sink f mode) base job.fileMeta.size) job.body)
      (fun r h s =>
        match r with
        | .ok n => ∃ cs, S.Progress i job base n [] f cs h s
        | .error _ => ∃ cs, S.Recorded i f cs (Written cs) s) h s := by
  refine wp_streamBody (I := fun n rest h s => ∃ cs, S.Progress i job base n rest f cs h s)
    (E := fun _ _ s => ∃ cs, S.Recorded i f cs (Written cs) s) ?_ ?_ ?_ job.body ?_
  · intro n rest h s hI
    obtain ⟨cs, hI⟩ := hI
    refine wp_weaken (watching_recorded.look_keep hI.sink.recorded
      rfl) ?_
    intro r h' s hr
    obtain ⟨rfl, hs, a, rfl⟩ := hr
    exact ⟨rfl, cs, ⟨hI.sink.opened, hs⟩, hI.fits, hI.rest_eq, hI.sent⟩
  · intro n e h s hI
    obtain ⟨cs, hI⟩ := hI
    exact ⟨cs, hI.sink.recorded⟩
  · intro n data rest h s hne hI
    obtain ⟨cs, hI⟩ := hI
    exact wpR_writeAtBatch hne hI
  · refine ⟨cs, hs, baseOffset_lt hbase, rfl, ?_⟩
    intro k hk hk'
    omega

/-- An undisturbed request does not get to abort. -/
theorem wpR_abortWith {mode : WriteMode} {e : ApiError} {Q : Except ApiError α → Held → Store → Prop}
    (hs : S.Recorded i f cs (Written cs) s) :
    S.WpR i job (abortWith (S.sink f mode) e : Fs ApiError α) Q h s := by
  unfold abortWith FsSink.abort
  refine wp_seq.2 (wp_attempt.2 (wp_await_then.2 ?_))
  intro s₁ hrely hinv
  refine ⟨fun _ _ => (hs.stable hrely).settled, ?_⟩
  intro c s₂ a hallow _
  exact absurd rfl hallow.1.1.2

variable (S) in
/-- What a request leaves behind: everything recorded, its own bytes among it. -/
structure Answered (i : Nat) (job : UploadJob) (r : Except ApiError Reply × Held)
    (s : Store) : Prop where
  settled : s.holder S.tmp = some i → S.Settled s
  sent : ∀ file base, r.1 = .ok (.created file) → baseOffset job.offsetHdr = .ok base →
    ∀ k, base ≤ k → k < base + job.body.bytes.length → S.Listed s k

/-- A probe reports the positions of `K`. -/
def Reports (K : Nat → Prop) (r : Except ApiError Reply × Held) : Prop :=
  ∀ ranges, r.1 = .ok (.status ranges) → ∀ k, K k → Covers ranges k

theorem wpR_serveSession {mode : WriteMode} {key : SessionKey} {base : Nat}
    (hdata : key.statusProbe = false → job.finalChunk = false)
    (hbase : baseOffset job.offsetHdr = .ok base) (hs : S.Open i f cs h s)
    (hknown : ∀ k, K k → Covers h.ranges k) :
    S.WpR i job (serveSession S.srv job key base (S.sink f mode))
      (fun r h s => S.Answered i job (r, h) s ∧ Reports K (r, h)) h s := by
  have hfailed : ∀ {e h s cs}, S.Recorded i f cs (Written cs) s →
      S.Answered i job ((.error e : Except ApiError Reply), h) s ∧
        Reports K ((.error e : Except ApiError Reply), h) := by
    intro e h s cs hs
    exact ⟨⟨fun _ => hs.settled, fun _ _ h => by cases h⟩, fun _ h => by cases h⟩
  unfold serveSession
  cases hprobe : key.statusProbe with
  | true =>
      rw [if_pos rfl]
      refine wp_orElse_then (R := fun r h' t => r = .ok h.ranges ∧ h' = h ∧ t = s)
        ⟨rfl, rfl, rfl⟩ ?_ (fun e h s hr => by cases hr.1)
      intro ranges h' t hr
      obtain ⟨hr, rfl, rfl⟩ := hr
      cases hr
      refine ⟨⟨fun _ => hs.recorded.settled, fun _ _ h => by cases h⟩, ?_⟩
      intro rs hrs
      cases hrs
      exact hknown
  | false =>
      rw [if_neg Bool.false_ne_true]
      refine wp_seq.2 (wp_attempt.2 (wp_weaken (wpR_sessionBody hbase hs) ?_))
      intro r h s hr
      cases r with
      | error e =>
          obtain ⟨cs, hrec⟩ := hr
          by_cases hdisc : e.disconnected = true
          · simp only [Then, hdisc, if_true]
            exact hfailed hrec
          · simp only [Then, hdisc]
            exact wpR_abortWith hrec
      | ok n =>
          obtain ⟨cs, hprogress⟩ := hr
          have hrec := hprogress.sink.recorded
          simp only [Then, hdata hprobe]
          refine ⟨⟨fun _ => hrec.settled, ?_⟩, fun _ h => by cases h⟩
          intro file base' _ hbase' k hk hk'
          rw [hbase] at hbase'
          cases hbase'
          have hall : job.body.bytes.length ≤ n := List.drop_eq_nil_iff.1 hprogress.rest_eq
          exact (hrec.listed k).2 (hprogress.sent k hk (by omega))

/-- A request of an undisturbed session, from its beginning. -/
theorem wpR_uploadSession (hhas : S.Has job)
    (hdata : ∀ key, job.session = some key → key.statusProbe = false →
      job.finalChunk = false) (hs : S.Queued i K s) :
    S.WpR i job (runUpload S.srv job)
      (fun r h s => S.Answered i job (r, h) s ∧ Reports K (r, h)) Held.nothing s := by
  obtain ⟨hpath, probe, hkey⟩ := hhas
  simp only [runUpload, hkey, uploadSession, hpath]
  refine wp_lift_then ?_ ?_
  · intro base hbase
    refine wp_orElse_then (wpR_writeStreamSession hs) ?_ ?_
    · intro sink h s hr
      obtain ⟨f, cs, rfl, hopen, hknown⟩ := hr
      exact wpR_serveSession (hdata _ hkey) hbase hopen hknown
    · intro e h s hr
      exact ⟨⟨hr, fun _ _ h => by cases h⟩, fun _ h => by cases h⟩
  · intro e _
    exact ⟨⟨fun hlock => absurd hlock hs.unlocked, fun _ _ h => by cases h⟩,
      fun _ h => by cases h⟩

end Programs

/-- A request that ends gives a settled session back. -/
theorem rangesKept_release (hinv : S.RangesInv s)
    (hsettled : s.holder S.tmp = some i → S.Settled s) :
    S.rangesDiscipline.Kept i s (s.release i) := by
  have hfewer : S.Fewer s (s.release i) := fewer_of_disk_eq rfl
  refine ⟨⟨hfewer.inv hinv.files, hinv.blocks_not_dir, hinv.persist_not_dir, hinv.after_tmp, ?_⟩, ?_⟩
  · intro hnone
    by_cases hi : s.holder S.tmp = some i
    · exact hsettled hi
    · refine hinv.settled ?_
      have hsame : (s.release i).holder S.tmp = s.holder S.tmp := if_neg hi
      rw [← hsame]
      exact hnone
  · intro j hj
    exact ⟨rely_release hj, fun g hg => hg, fun k hk => hk⟩

variable (S) in
theorem rangesDiscipline_sound :
    Sound (uploadSystem S.srv) S.rangesDiscipline S.Answered where
  rely_refl := fun _ _ => rangesRely_of_frozen (frozen_of_disk_eq rfl) rfl
  rely_trans := fun _ _ _ _ => RangesRely.trans
  enter := by
    intro i job s hinv hallow
    have hs : S.Queued i (fun _ => False) s :=
      ⟨hallow.2 i job rfl, fun k hk => absurd hk not_false⟩
    exact ⟨rangesKept_self hinv, wp_mono (wpR_uploadSession hallow.1.1.1 hallow.1.1.2 hs)
      fun r s hr => hr.1⟩
  leave := fun _ _ _ _ hinv hanswered => rangesKept_release hinv hanswered.settled
  drop := fun _ _ _ _ _ _ hallow => absurd hallow.1.1 not_false
  disturb := by
    intro e s hinv hallow
    cases e with
    | tick n =>
        have hfewer : S.Fewer s (Outside.apply (.tick n) s) := fewer_of_disk_eq rfl
        exact ⟨⟨hfewer.inv hinv.files, hinv.blocks_not_dir, hinv.persist_not_dir,
          hinv.after_tmp, hinv.settled⟩,
          fun _ => rangesRely_of_frozen (frozen_of_disk_eq rfl) rfl⟩
    | place path cs => exact absurd hallow.1.1 not_false

/-- Before a session there is no temporary and no sidecar, so nothing is recorded. -/
theorem Fresh.rangesInv (h : S.Fresh s) : S.RangesInv s where
  files := by
    refine ⟨Nat.zero_le _, ?_, fun _ _ _ _ _ _ _ _ => trivial, ?_⟩
    · intro g hg
      rw [h.no_tmp] at hg
      cases hg
    · intro m hm
      rw [h.no_blocks] at hm
      cases hm
  blocks_not_dir := by
    rw [h.no_blocks]
    exact fun h => nomatch h
  persist_not_dir := by
    rw [h.no_persist]
    exact fun h => nomatch h
  after_tmp := fun _ => h.no_blocks
  settled := by
    intro _ k
    constructor
    · intro hk
      obtain ⟨m, rs, hm, -⟩ := hk
      rw [h.no_blocks] at hm
      cases hm
    · intro hk
      obtain ⟨g, hg, -⟩ := hk
      rw [h.no_tmp] at hg
      cases hg

/-! ## Runs -/

/-- In a run, a request that starts does not have the lock. -/
theorem ranges_allows {s₀ : Store} (hfresh : S.Fresh s₀) {s t : UploadState} {a : UploadAct}
    (hrun : (uploadSystem S.srv).Reaches (Permits S.NothingToPurge) (atRest s₀) s)
    (hok : Permits S.NothingToPurge s a) (hnext : (uploadSystem S.srv).next s a = some t) :
    S.rangesDiscipline.Allows s a := by
  refine hok.weaken ?_ fun e he hallow => ⟨hallow, fun j req h => absurd h (he j req)⟩
  intro j req hj hallow
  refine ⟨hallow, ?_⟩
  intro i job heq hlock
  cases heq
  obtain ⟨job', call, k, hwait⟩ := waiting_of_holder hfresh.unlocked hrun hlock
  rcases System.next_cases hnext with ⟨j', req', hact, hidle, -⟩ |
    ⟨j', c, req', o, k, sh, ans, hact, -⟩ | ⟨j', req', o, k, hact, -⟩ | ⟨e, hact, -⟩
  · rw [hj] at hact
    cases hact
    rw [hwait] at hidle
    cases hidle
  · rw [hj] at hact
    cases hact
  · rw [hj] at hact
    cases hact
  · rw [hj] at hact
    cases hact

theorem ranges_reaches {s₀ : Store} (hfresh : S.Fresh s₀) {s t : UploadState}
    (hrun : (uploadSystem S.srv).Reaches (Permits S.NothingToPurge) (atRest s₀) s)
    (hst : (uploadSystem S.srv).Reaches (Permits S.NothingToPurge) s t) :
    (uploadSystem S.srv).Reaches S.rangesDiscipline.Allows s t := by
  induction hst with
  | refl => exact .refl
  | tail hreach hok hnext ih =>
      exact ih.tail (ranges_allows hfresh (hrun.trans hreach) hok hnext) hnext

variable (S) in
/-- No request is between a data write and its sidecar write. -/
def Quiet (s : UploadState) : Prop :=
  ∀ i job call k, s.task i = .waiting job call k → ¬ Between call

variable (S) in
/-- No chunk is lost.  Where no request is between a data write and its sidecar
write, the sidecar lists exactly what has been written; and a probe that starts
after a chunk has been answered reports the whole chunk. -/
structure KeepsChunks (permitted : Store → Event Call UploadJob Choice Outside → Prop) :
    Prop where
  exact : ∀ (s₀ : Store) (s : UploadState), S.Fresh s₀ →
    (uploadSystem S.srv).Reaches (Permits permitted) (atRest s₀) s → Quiet s →
    S.Settled s.shared
  reported : ∀ (s₀ : Store) (s t u : UploadState) (i j : Nat) (chunk probe : UploadJob)
    (file : FileMeta) (ranges : List ChunkRange) (h h' : Held) (base : Nat), S.Fresh s₀ →
    (uploadSystem S.srv).Reaches (Permits permitted) (atRest s₀) s →
    s.task i = .finished chunk (.ok (.created file), h) →
    baseOffset chunk.offsetHdr = .ok base →
    Permits permitted s (.start j probe) →
    (uploadSystem S.srv).next s (.start j probe) = some t →
    (uploadSystem S.srv).Reaches (Permits permitted) t u →
    u.task j = .finished probe (.ok (.status ranges), h') →
    ∀ k, base ≤ k → k < base + chunk.body.bytes.length → Covers ranges k

/-- **A session that has nothing to purge loses no chunk.** -/
theorem unpurged_session_keeps_chunks (S : Session) : S.KeepsChunks S.NothingToPurge where
  exact := by
    intro s₀ s hfresh hrun hquiet
    have hsound := rangesDiscipline_sound S
    have hgood := hsound.good_of_reaches (good_atRest hfresh.rangesInv)
      (ranges_reaches hfresh .refl hrun)
    cases hlock : s.shared.holder S.tmp with
    | none => exact hgood.inv.settled hlock
    | some i =>
        obtain ⟨job, call, k, hwait⟩ := waiting_of_holder hfresh.unlocked hrun hlock
        exact hsound.mark_of_waiting hgood hwait hlock (hquiet i job call k hwait)
  reported := by
    intro s₀ s t u i j chunk probe file ranges h h' base hfresh hrun hfin hbase hok hnext
      htu hprobe k hk hk'
    have hsound := rangesDiscipline_sound S
    have hrest : Good (uploadSystem S.srv) S.rangesDiscipline S.Answered (atRest s₀) :=
      good_atRest hfresh.rangesInv
    have hreach := ranges_reaches hfresh .refl hrun
    have hgood := hsound.good_of_reaches hrest hreach
    -- what the chunk has sent is listed when the probe starts
    have hsent : S.Listed s.shared k :=
      hsound.of_finished (R := fun _ job r s => ∀ file base, r.1 = .ok (.created file) →
          baseOffset job.offsetHdr = .ok base →
          ∀ k, base ≤ k → k < base + job.body.bytes.length → S.Listed s k)
        (fun _ _ _ _ _ _ hrely hr file base h hb k hk hk' =>
          hrely.listed k (hr file base h hb k hk hk'))
        (fun _ _ _ _ hanswered => hanswered.sent) hrest hreach
        (fun _ _ _ h => nomatch h) i chunk _ hfin file base rfl hbase k hk hk'
    have hallow := ranges_allows hfresh hrun hok hnext
    have hfollows : Follows (uploadSystem S.srv) S.rangesDiscipline j probe
        (fun r _ => Reports (S.Listed s.shared) r) t := by
      rcases System.next_cases hnext with ⟨j', req', hact, -, rfl⟩ |
        ⟨j', c, req', o, k, sh, ans, hact, -⟩ | ⟨j', req', o, k, hact, -⟩ | ⟨e, hact, -⟩
      · cases hact
        have hs : S.Queued j (S.Listed s.shared) s.shared :=
          ⟨hallow.2 j probe rfl, fun k hk => hk⟩
        exact follows_put (wp_mono (wpR_uploadSession hallow.1.1.1 hallow.1.1.2 hs)
          fun r s hr => hr.2)
      · cases hact
      · cases hact
      · cases hact
    have hgood' := hsound.good_next hgood hallow hnext
    have hreach' := ranges_reaches hfresh (hrun.tail hok hnext) htu
    cases hsound.follows_reaches hgood' hfollows hreach' with
    | waiting o k hwait =>
        rw [hprobe] at hwait
        cases hwait
    | finished r sh hfin' hreports =>
        rw [hprobe] at hfin'
        cases hfin'
        exact hreports ranges rfl k hsent
    | dropped hdrop =>
        rw [hprobe] at hdrop
        cases hdrop

/-! ### A run with nothing to purge -/

variable (S) in
/-- Plain reasons for an event to be undisturbed. -/
def plainlyUndisturbed (s : UploadState) : UploadAct → Bool
  | .start _ job => S.Has job ∧ job.finalChunk = false
  | .step i c =>
      match s.task i with
      | .waiting _ (op, _) _ => c = .go ∧ op ≠ .removeFile S.tmp
      | _ => true
  | _ => false

theorem permits_of_plainlyUndisturbed (s : UploadState) (a : UploadAct)
    (h : S.plainlyUndisturbed s a = true) : Permits S.Undisturbed s a := by
  cases a with
  | start i job =>
      obtain ⟨hhas, hfinal⟩ := of_decide_eq_true h
      exact ⟨hhas, fun _ _ _ => hfinal⟩
  | step i c =>
      cases hi : s.task i with
      | waiting job call k =>
          simp only [Permits, plainlyUndisturbed, hi] at h ⊢
          obtain ⟨hgo, hop⟩ := of_decide_eq_true h
          exact ⟨fun _ => hgo, hop⟩
      | idle | finished | dropped => simp only [Permits, hi]
  | drop i => cases h
  | env e => cases h

variable (S) in
/-- The same, with no sidecar wherever one would be removed. -/
def plainlyUnpurged (s : UploadState) (a : UploadAct) : Bool :=
  S.plainlyUndisturbed s a &&
    match a with
    | .step i _ =>
        match s.task i with
        | .waiting _ (op, _) _ =>
            op ≠ .removeFile S.blocks ∨ s.shared.disk.entry S.blocks = .absent
        | _ => true
    | _ => true

theorem permits_of_plainlyUnpurged (s : UploadState) (a : UploadAct)
    (h : S.plainlyUnpurged s a = true) : Permits S.NothingToPurge s a := by
  obtain ⟨hplain, hpurge⟩ := Bool.and_eq_true_iff.1 h
  have hok := permits_of_plainlyUndisturbed s a hplain
  cases a with
  | start i job => exact ⟨hok, fun _ _ _ h => nomatch h⟩
  | step i c =>
      cases hi : s.task i with
      | waiting job call k =>
          simp only [Permits, hi] at hok hpurge ⊢
          refine ⟨hok, ?_⟩
          intro i' job' h' heq
          cases heq
          rcases of_decide_eq_true hpurge with hne | habsent
          · exact absurd rfl hne
          · exact habsent
      | idle | finished | dropped => simp only [Permits, hi]
  | drop i => cases hplain
  | env e => cases hplain

/-- Task `i` has been answered 201 for a chunk of this many bytes at this offset. -/
def chunkAnswered (i base len : Nat) (s : UploadState) : Bool :=
  match s.task i with
  | .finished job (.ok (.created _), _) =>
      (match baseOffset job.offsetHdr with
        | .ok n => n == base
        | .error _ => false) && job.body.bytes.length == len
  | _ => false

theorem exists_of_chunkAnswered {base len : Nat} {s : UploadState}
    (h : chunkAnswered i base len s = true) : ∃ job file held,
    s.task i = .finished job (.ok (.created file), held) ∧
      baseOffset job.offsetHdr = .ok base ∧ job.body.bytes.length = len := by
  unfold chunkAnswered at h
  split at h
  · next job file held hfin =>
      obtain ⟨hbase, hlen⟩ := Bool.and_eq_true_iff.1 h
      refine ⟨job, file, held, hfin, ?_, beq_iff_eq.1 hlen⟩
      split at hbase
      · next n hn =>
          rw [hn, beq_iff_eq.1 hbase]
      · cases hbase
  · cases h

/-- Task `i` has reported these ranges to the given probe. -/
def probeAnswered (i : Nat) (ranges : List ChunkRange) (s : UploadState) : Bool :=
  match s.task i with
  | .finished _ (.ok (.status rs), _) => rs = ranges
  | _ => false

theorem exists_of_probeAnswered {ranges : List ChunkRange} {s : UploadState}
    (h : probeAnswered i ranges s = true) : ∃ job held,
    s.task i = .finished job (.ok (.status ranges), held) := by
  unfold probeAnswered at h
  split at h
  · next job rs held hfin =>
      rw [of_decide_eq_true h] at hfin
      exact ⟨job, held, hfin⟩
  · cases h

/-- The status probe of the sample session. -/
def sampleProbe : UploadJob :=
  { sampleJob 2 none false [] with
    session := some ⟨sampleSession.id, sampleSession.owner, true⟩ }

/-- One chunk: byte 0 of a file of two. -/
def chunkActs : List UploadAct :=
  .start 0 (sampleJob 2 (some "0".toList) false [5]) :: List.replicate 12 (.step 0 .go)

/-- The premises can be met: a probe that starts after the chunk reports it. -/
theorem unpurged_run_reports_chunk :
    ∃ s t u job ranges h,
      (uploadSystem sampleServer).Reaches (Permits sampleSession.NothingToPurge)
        (atRest sampleStore) s ∧
      (uploadSystem sampleServer).next s (.start 1 sampleProbe) = some t ∧
      (uploadSystem sampleServer).Reaches (Permits sampleSession.NothingToPurge) t u ∧
      u.task 1 = .finished job (.ok (.status ranges), h) ∧ Covers ranges 0 := by
  have hrun : (((uploadSystem sampleServer).runIf sampleSession.plainlyUnpurged
      (atRest sampleStore) chunkActs).any fun s => chunkAnswered 0 0 1 s &&
        (sampleSession.plainlyUnpurged s (.start 1 sampleProbe) &&
          ((uploadSystem sampleServer).next s (.start 1 sampleProbe)).any fun t =>
            ((uploadSystem sampleServer).runIf sampleSession.plainlyUnpurged t
              (List.replicate 6 (.step 1 .go))).any (probeAnswered 1 [⟨0, 1⟩]))) = true := by
    decide +kernel
  obtain ⟨s, hs, hrest⟩ := (Option.any_eq_true _ _).1 hrun
  obtain ⟨hchunk, hrest⟩ := Bool.and_eq_true_iff.1 hrest
  obtain ⟨hplain, hnext⟩ := Bool.and_eq_true_iff.1 hrest
  obtain ⟨t, ht, hrest⟩ := (Option.any_eq_true _ _).1 hnext
  obtain ⟨u, hu, hprobe⟩ := (Option.any_eq_true _ _).1 hrest
  obtain ⟨chunk, file, held, hfin, hbase, hlen⟩ := exists_of_chunkAnswered hchunk
  obtain ⟨job, held', hjob⟩ := exists_of_probeAnswered hprobe
  have hreach : (uploadSystem sampleServer).Reaches (Permits sampleSession.NothingToPurge)
      (atRest sampleStore) s := System.reaches_of_runIf permits_of_plainlyUnpurged hs
  have htu : (uploadSystem sampleServer).Reaches (Permits sampleSession.NothingToPurge)
      t u := System.reaches_of_runIf permits_of_plainlyUnpurged hu
  have hstart := permits_of_plainlyUnpurged s _ hplain
  have hask : u.task 1 = .finished sampleProbe (.ok (.status [⟨0, 1⟩]), held') := by
    have hreq := System.Reaches.request htu (System.next_start_request ht)
    rw [hjob] at hreq
    rw [hjob, Option.some.inj hreq]
  refine ⟨s, t, u, sampleProbe, _, held', hreach, ht, htu, hask, ?_⟩
  exact (unpurged_session_keeps_chunks sampleSession).reported sampleStore s t u 0 1 chunk
    sampleProbe file _ held held' 0 sampleSession_fresh hreach hfin hbase hstart ht htu hask
    0 (Nat.le_refl 0) (by omega)

/-! ### A run that loses a chunk -/

/-- The first request makes the temporary.  Before it gets the lock, a second one
finds the temporary, sends byte 1 and is answered; then the first removes the
sidecar as stale and goes on. -/
def purgeActs : List UploadAct :=
  .start 0 (sampleJob 2 (some "0".toList) false [5]) ::
    (List.replicate 4 (.step 0 .go) ++
      .start 1 (sampleJob 2 (some "1".toList) false [6]) ::
        (List.replicate 12 (.step 1 .go) ++ List.replicate 8 (.step 0 .go)))

/-- **A purge after a chunk has been answered loses the chunk.** -/
theorem purged_sidecar_loses_chunk :
    ¬ sampleSession.KeepsChunks sampleSession.Undisturbed := by
  intro hall
  have hrun : (((uploadSystem sampleServer).runIf sampleSession.plainlyUndisturbed
      (atRest sampleStore) purgeActs).any fun s => chunkAnswered 1 1 1 s &&
        (sampleSession.plainlyUndisturbed s (.start 2 sampleProbe) &&
          ((uploadSystem sampleServer).next s (.start 2 sampleProbe)).any fun t =>
            ((uploadSystem sampleServer).runIf sampleSession.plainlyUndisturbed t
              (List.replicate 6 (.step 2 .go))).any (probeAnswered 2 [⟨0, 1⟩]))) = true := by
    decide +kernel
  obtain ⟨s, hs, hrest⟩ := (Option.any_eq_true _ _).1 hrun
  obtain ⟨hchunk, hrest⟩ := Bool.and_eq_true_iff.1 hrest
  obtain ⟨hplain, hnext⟩ := Bool.and_eq_true_iff.1 hrest
  obtain ⟨t, ht, hrest⟩ := (Option.any_eq_true _ _).1 hnext
  obtain ⟨u, hu, hprobe⟩ := (Option.any_eq_true _ _).1 hrest
  obtain ⟨chunk, file, held, hfin, hbase, hlen⟩ := exists_of_chunkAnswered hchunk
  obtain ⟨job, held', hjob⟩ := exists_of_probeAnswered hprobe
  have htu : (uploadSystem sampleServer).Reaches (Permits sampleSession.Undisturbed) t u :=
    System.reaches_of_runIf permits_of_plainlyUndisturbed hu
  have hask : u.task 2 = .finished sampleProbe (.ok (.status [⟨0, 1⟩]), held') := by
    have hreq := System.Reaches.request htu (System.next_start_request ht)
    rw [hjob] at hreq
    rw [hjob, Option.some.inj hreq]
  have hcover := hall.reported sampleStore s t u 1 2 chunk sampleProbe file _ held held' 1
    sampleSession_fresh (System.reaches_of_runIf permits_of_plainlyUndisturbed hs) hfin hbase
    (permits_of_plainlyUndisturbed s _ hplain) ht htu hask 1 (Nat.le_refl 1) (by omega)
  obtain ⟨r, hr, hhas⟩ := hcover
  rw [List.mem_singleton.1 hr] at hhas
  exact absurd hhas.2 (by decide)

end Session

end Libfw

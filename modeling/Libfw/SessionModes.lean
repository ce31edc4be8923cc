import Libfw.GuardedRuns
import Libfw.SessionLooks

/-!
# The mode a session began with

Every request of a session computes its own mode from its headers: `upload_session` of
`libfw-server/src/handlers.rs`, `FsSink::commit` of `libfw-server/src/storage.rs`.  The
requests come one after another; beside the store we record the mode of the request that
made the temporary.

* `session_keeps_mode` — as long as a request in another mode finds nothing at the target
  where it looks or moves, and nothing appears there between a look and a move, the mode
  recorded decides: a session begun in Create mode replaces nothing, one begun in Overwrite
  mode is not refused.
* `header_decides_conflict` — a final request without the offset header is refused in a
  session that began in Overwrite mode.
-/

namespace Libfw

open SteppedPrograms Fs FsStorage PosixStore GuardedRuns

namespace Session

/-- Requests of a session, with the mode of the request that made the temporary, and those that
have moved it onto the target. -/
structure ModeRun where
  server : UploadState
  begun : Option WriteMode
  published : List Nat

namespace ModeRun

/-- What is under a name. -/
def entry (r : ModeRun) (p : FsPath) : Entry := r.server.shared.disk.entry p

end ModeRun

variable (S : Session)

/-- The mode of the request that made the temporary that is there after a step: an earlier one,
or the one that has acted. -/
def begunAfter (r : ModeRun) (a : UploadAct) (t : UploadState) : Option WriteMode :=
  if t.shared.disk.entry S.tmp = r.entry S.tmp then r.begun
  else
    match a, t.shared.disk.entry S.tmp with
    | .step i _, .file _ => (r.server.task i).request.map fun job => createMode job.offsetHdr
    | _, _ => none

/-- The file of the temporary is at the target now. -/
def publishes (s t : Store) : Bool :=
  match s.disk.entry S.tmp with
  | .file f => decide (t.disk.entry S.target = .file f)
  | _ => false

def publishedAfter (r : ModeRun) (a : UploadAct) (t : UploadState) : List Nat :=
  match a with
  | .step i _ => if S.publishes r.server.shared t.shared then i :: r.published else r.published
  | _ => r.published

/-- One step of the server. -/
def step (r : ModeRun) (a : UploadAct) : Option ModeRun :=
  ((uploadSystem S.srv).next r.server a).map fun t =>
    ⟨t, S.begunAfter r a t, S.publishedAfter r a t⟩

/-- No request has started. -/
def beforeAll (s : Store) : ModeRun := ⟨atRest s, none, []⟩

/-- The mode that the session began with decides what a step may do: in Create mode it replaces
nothing at the target, in Overwrite mode no request is refused because of a file; and a request
that commits has moved the temporary onto the target. -/
structure KeepsMode (r : ModeRun) (a : UploadAct) (t : ModeRun) : Prop where
  create : ∀ i c, a = .step i c → r.begun = some .create → r.entry S.target ≠ .absent →
    t.entry S.target = r.entry S.target
  overwrite : ∀ i c job e held, a = .step i c → r.begun = some .overwrite →
    t.server.task i = .finished job (.error e, held) → ¬ e.Refuses
  commits : ∀ i c job file held, a = .step i c →
    t.server.task i = .finished job (.ok (.created file), held) → job.Commits → i ∈ t.published

/-- In every run of allowed steps, the mode that the session began with decides. -/
def ModeFixed (ok : ModeRun → UploadAct → Prop) : Prop :=
  ∀ s₀ r a t, Reaches S.step ok (beforeAll s₀) r → ok r a → S.step r a = some t → S.KeepsMode r a t

/-- The requests are the session's, and come one after another. -/
def OneByOne (r : ModeRun) : UploadAct → Prop
  | .start _ job => S.Has job ∧ ∀ j job' op k, r.server.task j ≠ .waiting job' op k
  | _ => True

/-- Where the session began in Overwrite mode, a request in Create mode looks when nothing is at
the target; where it began in Create mode, a request in Overwrite mode moves when nothing is
there, and nothing appears there while a request is about to move. -/
def Agrees (r : ModeRun) : UploadAct → Prop
  | .step i _ => ∀ job op held k, r.server.task i = .waiting job (op, held) k →
      (r.begun = some .overwrite → createMode job.offsetHdr = .create → op = .tryExists S.target →
        r.entry S.target = .absent) ∧
      (r.begun = some .create → createMode job.offsetHdr = .overwrite →
        ∀ source, op = .rename source S.target → r.entry S.target = .absent)
  | .env (.place p _) => r.begun = some .create → p = S.target →
      ∀ i job source held k, r.server.task i ≠ .waiting job (.rename source S.target, held) k
  | _ => True

variable {S}

/-! ## The invariant -/

/-- A request that waits: what it has seen fits the mode that the session began with. -/
structure Sees (S : Session) (r : ModeRun) (i : Nat) (job : UploadJob) (call : Call) (g : Look) :
    Prop where
  warned : g.warned = true → createMode job.offsetHdr = .create → r.begun ≠ some .overwrite
  clear : g.clear = true → r.begun = some .create → ∀ source, call.1 = .rename source S.target →
    r.entry S.target = .absent
  moved : g.moved = true → i ∈ r.published

/-- The request is one of the session's, with what is left of its code. -/
structure Goes (S : Session) (job : UploadJob) (p : Code (Except ApiError Reply × Held))
    (g : Look) : Prop where
  has : S.Has job
  asks : p.Along (fun call => AskedBy S.srv job (.ofSession job) call.1) fun _ => True
  looks : p.Staged (fun g call => S.MovesRightly (createMode job.offsetHdr) g call.1)
    (fun g call a => g.after S call.1 a)
    (fun g r => Answers job (createMode job.offsetHdr) g r.1) g

structure ModeInv (S : Session) (r : ModeRun) : Prop where
  begun : ∀ m, r.begun = some m → ∃ f, r.entry S.tmp = .file f
  alone : ∀ i j job job' op op' k k', r.server.task i = .waiting job op k →
    r.server.task j = .waiting job' op' k' → i = j
  waits : ∀ i job call k, r.server.task i = .waiting job call k →
    ∃ g, S.Goes job (.call call k) g ∧ S.Sees r i job call g

/-- The target is no file of the session. -/
theorem not_sessionFile_target {job : UploadJob} (hhas : S.Has job) :
    ¬ SessionFile S.srv job S.target := by
  intro h
  obtain ⟨full, hres⟩ := h.resolves
  have htarget : full = S.target := target_of_resolve (hhas.1 ▸ hres)
  exact h.ne_target hres htarget.symm

/-- A request has just started. -/
theorem goes_start {job : UploadJob} (hhas : S.Has job) :
    S.Goes job ((uploadSystem S.srv).code job) Look.first := by
  constructor
  · exact hhas
  · obtain ⟨-, probe, hkey⟩ := hhas
    exact (asks_ofSession hkey Held.nothing).mono (fun _ h => h) fun _ _ => trivial
  · exact looks_runUpload hhas Held.nothing

/-! ### A step of a request -/

section Step

variable {r : ModeRun} {i : Nat} {c : Choice} {job : UploadJob} {call : Call}
  {k : call.Ans → Code (Except ApiError Reply × Held)} {sh : Store} {a : call.Ans} {g : Look}
  {t : UploadState}

/-- What the mode is after a call of a request. -/
theorem begunAfter_step (hwait : r.server.task i = .waiting job call k)
    (ht : t.shared.disk = sh.disk) :
    S.begunAfter r (.step i c) t = r.begun ∧ sh.disk.entry S.tmp = r.entry S.tmp ∨
      S.begunAfter r (.step i c) t = none ∨
        ∃ f, sh.disk.entry S.tmp = .file f ∧
          S.begunAfter r (.step i c) t = some (createMode job.offsetHdr) := by
  unfold begunAfter
  rw [ht]
  split
  · next hsame => exact Or.inl ⟨rfl, hsame⟩
  · cases hentry : sh.disk.entry S.tmp with
    | file f =>
        refine Or.inr (Or.inr ⟨f, rfl, ?_⟩)
        show (r.server.task i).request.map _ = _
        rw [hwait]
        rfl
    | absent => exact Or.inr (Or.inl rfl)
    | dir => exact Or.inr (Or.inl rfl)

variable (hinv : S.ModeInv r) (hwait : r.server.task i = .waiting job call k)
  (hexec : call.1.exec S.srv.serde i c r.server.shared = some (sh, a))
  (hsees : S.Sees r i job call g) (hagrees : S.Agrees r (.step i c))

include hinv hwait hexec hsees hagrees in
/-- A request in Create mode is warned only in a session that did not begin in Overwrite
mode. -/
theorem begun_of_warned (hwarned : (g.after S call.1 a).warned = true)
    (hmode : createMode job.offsetHdr = .create) : r.begun ≠ some .overwrite := by
  intro hbegun
  rcases Bool.or_eq_true_iff.1 hwarned with hlook | hbefore
  · rcases Bool.or_eq_true_iff.1 hlook with hmisses | hfinds
    · obtain ⟨f, hfile⟩ := hinv.begun _ hbegun
      obtain ⟨-, habsent⟩ := exec_misses hexec hmisses
      exact nomatch habsent.symm.trans hfile
    · obtain ⟨hop, -, hthere⟩ := exec_finds hexec hfinds
      obtain ⟨op, held⟩ := call
      exact hthere ((hagrees job op held k hwait).1 hbegun hmode hop)
  · exact hsees.warned hbefore hmode hbegun

include hwait hsees hagrees in
/-- In a session that began in Create mode a file is moved onto the target only where nothing
is. -/
theorem absent_of_move (hgoes : S.Goes job (.call call k) g) (hbegun : r.begun = some .create)
    {source : FsPath} (hop : call.1 = .rename source S.target) :
    r.entry S.target = .absent := by
  cases hmode : createMode job.offsetHdr with
  | create =>
      have hclear := (hgoes.looks.1 source hop).2 hmode
      exact hsees.clear hclear hbegun source hop
  | overwrite =>
      obtain ⟨op, held⟩ := call
      exact (hagrees job op held k hwait).2 hbegun hmode source hop
  | resume offset =>
      unfold createMode at hmode
      split at hmode
      · cases hmode
      · cases hmode

include hexec hsees in
/-- A request that has moved a file has moved the temporary. -/
theorem published_of_moved (hgoes : S.Goes job (.call call k) g)
    (ht : t.shared.disk = sh.disk) (hmoved : (g.after S call.1 a).moved = true) :
    i ∈ S.publishedAfter r (.step i c) t := by
  unfold publishedAfter
  dsimp only
  rcases Bool.or_eq_true_iff.1 hmoved with hmoves | hbefore
  · obtain ⟨source, f, hop, hfile, hsh⟩ := exec_moves hexec hmoves
    obtain ⟨rfl, -⟩ := hgoes.looks.1 source hop
    have hpublishes : S.publishes r.server.shared t.shared = true := by
      unfold publishes
      rw [hfile, ht, hsh]
      apply decide_eq_true
      show (r.server.shared.disk.rename S.tmp S.target).entry S.target = .file f
      rw [Disk.rename_entry_target]
      exact hfile
    rw [if_pos hpublishes]
    exact List.mem_cons_self
  · split
    · exact List.mem_cons_of_mem _ (hsees.moved hbefore)
    · exact hsees.moved hbefore

include hinv hwait hexec hsees hagrees in
/-- What the request has seen after the call fits the mode after it. -/
theorem sees_step (hgoes : S.Goes job (.call call k) g) (ht : t.shared.disk = sh.disk)
    (call' : Call) :
    S.Sees ⟨t, S.begunAfter r (.step i c) t, S.publishedAfter r (.step i c) t⟩ i job call'
      (g.after S call.1 a) := by
  constructor
  · intro hwarned hmode hbegun
    rcases begunAfter_step (c := c) hwait ht with ⟨hsame, -⟩ | hnone | ⟨f, -, hmade⟩
    · rw [hsame] at hbegun
      exact begun_of_warned hinv hwait hexec hsees hagrees hwarned hmode hbegun
    · rw [hnone] at hbegun
      cases hbegun
    · rw [hmade, hmode] at hbegun
      cases hbegun
  · intro hclear _ _ _
    obtain ⟨hsh, habsent⟩ := exec_misses hexec hclear
    show t.shared.disk.entry S.target = .absent
    rw [ht, hsh]
    exact habsent
  · exact published_of_moved hexec hsees hgoes ht

end Step

/-- A step that a request takes. -/
theorem step_of_request {r t : ModeRun} {i : Nat} {c : Choice}
    (h : S.step r (.step i c) = some t) :
    ∃ job call k sh a, r.server.task i = .waiting job call k ∧
      call.1.exec S.srv.serde i c r.server.shared = some (sh, a) ∧
      t.server = (uploadSystem S.srv).put r.server sh i job (k a) ∧
      t = ⟨t.server, S.begunAfter r (.step i c) t.server, S.publishedAfter r (.step i c) t.server⟩ := by
  obtain ⟨u, hnext, rfl⟩ := Option.map_eq_some_iff.1 h
  rcases System.next_cases hnext with ⟨j, job, hact, -⟩ |
    ⟨j, c', job, call, k, sh, a, hact, hwait, hexec, rfl⟩ | ⟨j, job, o, k, hact, -⟩ | ⟨e, hact, -⟩
  · cases hact
  · cases hact
    exact ⟨job, call, k, sh, a, hwait, hexec, rfl, rfl⟩
  · cases hact
  · cases hact

/-- **What the mode decides, for one step.** -/
theorem keepsMode_step {r t : ModeRun} {act : UploadAct} (hinv : S.ModeInv r)
    (hagrees : S.Agrees r act) (hstep : S.step r act = some t) : S.KeepsMode r act t := by
  constructor
  · intro i c hact hbegun hthere
    subst hact
    obtain ⟨job, call, k, sh, a, hwait, hexec, ht, -⟩ := step_of_request hstep
    obtain ⟨g, hgoes, hsees⟩ := hinv.waits i job call k hwait
    show t.server.shared.disk.entry S.target = r.server.shared.disk.entry S.target
    rw [ht, put_disk]
    have huntouched : ∀ source, call.1 ≠ .rename source S.target := by
      intro source hop
      exact hthere (absent_of_move hwait hsees hagrees hgoes hbegun hop)
    have hsession := not_sessionFile_target hgoes.has
    have hkept : ¬ (S.target ∈ call.1.puts ∨ S.target ∈ call.1.takes) := by
      intro htouch
      obtain ⟨source, hop⟩ := renames_of_touches hgoes.asks.1 hsession htouch
      exact huntouched source hop
    rcases (exec_effect hexec).entry S.target with hsame | hput | ⟨htake, -⟩ | ⟨habsent, -⟩
    · exact hsame
    · exact absurd (Or.inl hput) hkept
    · exact absurd (Or.inr htake) hkept
    · exact absurd habsent hthere
  · intro i c job e held hact hbegun hdone hrefuses
    subst hact
    obtain ⟨job', call, k, sh, a, hwait, hexec, ht, -⟩ := step_of_request hstep
    obtain ⟨g, hgoes, hsees⟩ := hinv.waits i job' call k hwait
    rw [ht] at hdone
    obtain ⟨rfl, hend⟩ := System.finished_of_put hdone
    have hanswers := hgoes.looks.2 a
    rw [hend] at hanswers
    obtain ⟨hmode, hwarned⟩ := hanswers.2 e rfl hrefuses
    exact begun_of_warned hinv hwait hexec hsees hagrees hwarned hmode hbegun
  · intro i c job file held hact hdone hcommits
    subst hact
    obtain ⟨job', call, k, sh, a, hwait, hexec, ht, htt⟩ := step_of_request hstep
    obtain ⟨g, hgoes, hsees⟩ := hinv.waits i job' call k hwait
    rw [ht] at hdone
    obtain ⟨rfl, hend⟩ := System.finished_of_put hdone
    have hanswers := hgoes.looks.2 a
    rw [hend] at hanswers
    rw [htt]
    apply published_of_moved hexec hsees hgoes _ (hanswers.1 file rfl hcommits)
    rw [ht, put_disk]

/-! ### Runs -/

/-- Where only one request can wait, it is the one that acts. -/
theorem waiting_put {s : UploadState} {sh : Store} {i j : Nat} {job job' : UploadJob}
    {p : Code (Except ApiError Reply × Held)} {call : Call}
    {k : call.Ans → Code (Except ApiError Reply × Held)}
    (halone : ∀ j job op k, s.task j = .waiting job op k → j = i)
    (h : ((uploadSystem S.srv).put s sh i job p).task j = .waiting job' call k) :
    j = i ∧ job' = job ∧ p = .call call k := by
  by_cases hj : j = i
  · subst hj
    exact ⟨rfl, System.waiting_of_put h⟩
  · rw [System.put_task_ne _ _ _ _ hj] at h
    exact absurd (halone j job' call k h) hj

theorem modeInv_beforeAll (s₀ : Store) : S.ModeInv (beforeAll s₀) where
  begun := fun _ h => (nomatch h)
  alone := fun _ _ _ _ _ _ _ _ h => (nomatch h)
  waits := fun _ _ _ _ h => (nomatch h)

theorem begunAfter_same {r : ModeRun} {act : UploadAct} {t : UploadState}
    (h : t.shared.disk.entry S.tmp = r.entry S.tmp) : S.begunAfter r act t = r.begun := if_pos h

/-- Nobody but a request begins a session. -/
theorem begunAfter_env {r : ModeRun} {e : Outside} {t : UploadState} {m : WriteMode}
    (h : S.begunAfter r (.env e) t = some m) :
    r.begun = some m ∧ t.shared.disk.entry S.tmp = r.entry S.tmp := by
  unfold begunAfter at h
  split at h
  · next hsame => exact ⟨h, hsame⟩
  · cases h

/-- A request that starts is the only one that waits, and has seen nothing. -/
theorem modeInv_start {r : ModeRun} {i : Nat} {job : UploadJob} (hinv : S.ModeInv r)
    (hone : S.OneByOne r (.start i job)) {t : UploadState}
    (ht : t = (uploadSystem S.srv).put r.server r.server.shared i job
      ((uploadSystem S.srv).code job)) :
    S.ModeInv ⟨t, S.begunAfter r (.start i job) t, S.publishedAfter r (.start i job) t⟩ := by
  have halone : ∀ j job op k, r.server.task j = .waiting job op k → j = i :=
    fun j job' op k hj => absurd hj (hone.2 j job' op k)
  have hentry : ∀ p, t.shared.disk.entry p = r.entry p := by
    intro p
    rw [ht, put_disk]
    rfl
  rw [begunAfter_same (hentry _)]
  constructor
  · intro m hm
    obtain ⟨f, hf⟩ := hinv.begun m hm
    exact ⟨f, (hentry _).trans hf⟩
  · intro j j' job' job'' op op' k k' hj hj'
    rw [ht] at hj hj'
    exact (waiting_put halone hj).1.trans (waiting_put halone hj').1.symm
  · intro j job' call k hj
    rw [ht] at hj
    obtain ⟨rfl, rfl, hcode⟩ := waiting_put halone hj
    refine ⟨Look.first, hcode ▸ goes_start hone.1, ?_⟩
    constructor
    · intro h
      cases h
    · intro h
      cases h
    · intro h
      cases h

/-- A call of the one request that waits: it has begun the session itself, or the mode is the one
from before, and what it has seen since fits it. -/
theorem modeInv_step {r : ModeRun} {i : Nat} {c : Choice} {job : UploadJob} {call : Call}
    {k : call.Ans → Code (Except ApiError Reply × Held)} {sh : Store} {a : call.Ans}
    (hinv : S.ModeInv r) (hagrees : S.Agrees r (.step i c))
    (hwait : r.server.task i = .waiting job call k)
    (hexec : call.1.exec S.srv.serde i c r.server.shared = some (sh, a)) {t : UploadState}
    (ht : t = (uploadSystem S.srv).put r.server sh i job (k a)) :
    S.ModeInv ⟨t, S.begunAfter r (.step i c) t, S.publishedAfter r (.step i c) t⟩ := by
  have halone : ∀ j job op k, r.server.task j = .waiting job op k → j = i :=
    fun j job' op k' hj => hinv.alone j i job' job op call k' k hj hwait
  have hdisk : t.shared.disk = sh.disk := by
    rw [ht, put_disk]
  obtain ⟨g, hgoes, hsees⟩ := hinv.waits i job call k hwait
  constructor
  · intro m hm
    rcases begunAfter_step (c := c) hwait hdisk with ⟨hsame, hentry⟩ | hnone | ⟨f, hf, -⟩
    · obtain ⟨f, hf⟩ := hinv.begun m (hsame ▸ hm)
      refine ⟨f, ?_⟩
      show t.shared.disk.entry S.tmp = .file f
      rw [hdisk, hentry]
      exact hf
    · exact nomatch hnone.symm.trans hm
    · refine ⟨f, ?_⟩
      show t.shared.disk.entry S.tmp = .file f
      rw [hdisk]
      exact hf
  · intro j j' job' job'' op op' k k' hj hj'
    rw [ht] at hj hj'
    exact (waiting_put halone hj).1.trans (waiting_put halone hj').1.symm
  · intro j job' call' k' hj
    rw [ht] at hj
    obtain ⟨rfl, rfl, hcode⟩ := waiting_put halone hj
    refine ⟨g.after S call.1 a, ?_, sees_step hinv hwait hexec hsees hagrees hgoes hdisk call'⟩
    rw [← hcode]
    exact ⟨hgoes.has, hgoes.asks.2 a, hgoes.looks.2 a⟩

/-- A request that is dropped leaves the files as they are, and nobody waits any more. -/
theorem modeInv_drop {r : ModeRun} {i : Nat} {job : UploadJob} {call : Call}
    {k : call.Ans → Code (Except ApiError Reply × Held)} (hinv : S.ModeInv r)
    (hwait : r.server.task i = .waiting job call k) {t : UploadState}
    (ht : t = r.server.set (r.server.shared.release i) i (.dropped job)) :
    S.ModeInv ⟨t, S.begunAfter r (.drop i) t, S.publishedAfter r (.drop i) t⟩ := by
  have hnone : ∀ j job op k, t.task j ≠ .waiting job op k := by
    intro j job' op k' hj
    rw [ht] at hj
    by_cases hji : j = i
    · subst hji
      rw [State.set_task_self] at hj
      cases hj
    · rw [State.set_task_ne _ _ _ _ _ hji] at hj
      exact hji (hinv.alone j i job' job op call k' k hj hwait)
  have hentry : ∀ p, t.shared.disk.entry p = r.entry p := by
    intro p
    rw [ht]
    rfl
  rw [begunAfter_same (hentry _)]
  constructor
  · intro m hm
    obtain ⟨f, hf⟩ := hinv.begun m hm
    exact ⟨f, (hentry _).trans hf⟩
  · intro j j' job' job'' op op' k k' hj
    exact absurd hj (hnone j job' op k)
  · intro j job' call' k' hj
    exact absurd hj (hnone j job' call' k')

/-- Where others put a file in the temporary's place, the session has not begun any more; and
nothing appears at the target while a request that has found it free is about to move. -/
theorem modeInv_env {r : ModeRun} {e : Outside} (hinv : S.ModeInv r)
    (hagrees : S.Agrees r (.env e)) {t : UploadState}
    (ht : t = { r.server with shared := e.apply r.server.shared }) :
    S.ModeInv ⟨t, S.begunAfter r (.env e) t, S.publishedAfter r (.env e) t⟩ := by
  have htask : t.task = r.server.task := by
    rw [ht]
  -- nothing appears at the target where a request is about to move
  have htarget : r.begun = some .create → r.entry S.target = .absent →
      (∃ i job source held k, r.server.task i = .waiting job (.rename source S.target, held) k) →
      t.shared.disk.entry S.target = .absent := by
    intro hbegun habsent hmove
    rw [ht]
    cases e with
    | tick nanos => exact habsent
    | place p cells =>
        have hne : S.target ≠ p := by
          intro hp
          obtain ⟨i, job, source, held, k, hwait⟩ := hmove
          exact hagrees hbegun hp.symm i job source held k hwait
        show (r.server.shared.disk.create p _).entry S.target = .absent
        rw [Disk.create_entry_ne _ _ hne]
        exact habsent
  constructor
  · intro m hm
    obtain ⟨hbegun, hsame⟩ := begunAfter_env (e := e) hm
    obtain ⟨f, hf⟩ := hinv.begun m hbegun
    exact ⟨f, hsame.trans hf⟩
  · intro j j' job' job'' op op' k k' hj hj'
    rw [htask] at hj hj'
    exact hinv.alone j j' job' job'' op op' k k' hj hj'
  · intro j job call k hj
    rw [htask] at hj
    obtain ⟨g, hgoes, hsees⟩ := hinv.waits j job call k hj
    refine ⟨g, hgoes, ?_⟩
    constructor
    · intro hwarned hmode hbegun
      exact hsees.warned hwarned hmode (begunAfter_env (e := e) hbegun).1
    · intro hclear hbegun source hop
      have hbefore := (begunAfter_env (e := e) hbegun).1
      apply htarget hbefore (hsees.clear hclear hbefore source hop)
      obtain ⟨op, held⟩ := call
      cases hop
      exact ⟨j, job, source, held, k, hj⟩
    · exact hsees.moved

/-- **Step lemma.** -/
theorem modeInv_next {r t : ModeRun} {act : UploadAct} (hinv : S.ModeInv r)
    (hone : S.OneByOne r act) (hagrees : S.Agrees r act) (hstep : S.step r act = some t) :
    S.ModeInv t := by
  obtain ⟨u, hnext, rfl⟩ := Option.map_eq_some_iff.1 hstep
  rcases System.next_cases hnext with ⟨i, job, rfl, hidle, rfl⟩ |
    ⟨i, c, job, call, k, sh, a, rfl, hwait, hexec, rfl⟩ | ⟨i, job, call, k, rfl, hwait, rfl⟩ |
    ⟨e, rfl, rfl⟩
  · exact modeInv_start hinv hone rfl
  · exact modeInv_step hinv hagrees hwait hexec rfl
  · exact modeInv_drop hinv hwait rfl
  · exact modeInv_env hinv hagrees rfl

/-- **The mode that a session began with decides, as long as the others agree with it.** -/
theorem session_keeps_mode (S : Session) :
    S.ModeFixed fun r a => S.OneByOne r a ∧ S.Agrees r a := by
  intro s₀ r a t hrun hok hstep
  have hinv : S.ModeInv r := hrun.invariant
    (fun r a t h hok hstep => modeInv_next h hok.1 hok.2 hstep) (modeInv_beforeAll s₀)
  exact keepsMode_step hinv hok.2 hstep

/-! ### A final request without the header -/

/-- The request waits for an answer. -/
def isWaiting (s : UploadState) (i : Nat) : Bool :=
  match s.task i with
  | .waiting _ _ _ => true
  | _ => false

/-- The acts of two requests, one after the other. -/
def isPairAct (r : ModeRun) : UploadAct → Bool
  | .start i job => decide (i < 2) && decide (sampleSession.Has job) && !isWaiting r.server 0 &&
      !isWaiting r.server 1
  | .step i _ => decide (i < 2)
  | .drop i => decide (i < 2)
  | .env _ => true

/-- Requests other than the two never start. -/
def OnlyPair (r : ModeRun) : Prop := ∀ j, 2 ≤ j → r.server.task j = .idle

theorem onlyPair_next {r t : ModeRun} {act : UploadAct} (hr : OnlyPair r)
    (hact : isPairAct r act = true) (hstep : sampleSession.step r act = some t) : OnlyPair t := by
  obtain ⟨u, hnext, rfl⟩ := Option.map_eq_some_iff.1 hstep
  intro j hj
  show u.task j = .idle
  rcases System.next_cases hnext with ⟨i, job, rfl, -, rfl⟩ |
    ⟨i, c, job, call, k, sh, a, rfl, -, -, rfl⟩ | ⟨i, job, call, k, rfl, -, rfl⟩ | ⟨e, rfl, rfl⟩
  · have hi : i < 2 := by
      simp only [isPairAct, Bool.and_eq_true, decide_eq_true_eq] at hact
      exact hact.1.1.1
    rw [System.put_task_ne _ _ _ _ (by omega)]
    exact hr j hj
  · have hi : i < 2 := of_decide_eq_true hact
    rw [System.put_task_ne _ _ _ _ (by omega)]
    exact hr j hj
  · have hi : i < 2 := of_decide_eq_true hact
    rw [State.set_task_ne _ _ _ _ _ (by omega)]
    exact hr j hj
  · exact hr j hj

theorem oneByOne_of_pair {r : ModeRun} {act : UploadAct} (hr : OnlyPair r)
    (hact : isPairAct r act = true) : sampleSession.OneByOne r act := by
  cases act with
  | start i job =>
      simp only [isPairAct, Bool.and_eq_true, decide_eq_true_eq, Bool.not_eq_true'] at hact
      obtain ⟨⟨⟨-, hhas⟩, hzero⟩, hone⟩ := hact
      refine ⟨hhas, ?_⟩
      intro j job' op k hwait
      by_cases hj : 2 ≤ j
      · rw [hr j hj] at hwait
        cases hwait
      · have hwaiting : isWaiting r.server j = true := by
          unfold isWaiting
          rw [hwait]
        obtain rfl | rfl : j = 0 ∨ j = 1 := by omega
        · cases hzero.symm.trans hwaiting
        · cases hone.symm.trans hwaiting
  | step i c => trivial
  | drop i => trivial
  | env e => trivial

/-- A tested run of the two is a run of steps that meet what the test decides. -/
theorem reaches_of_pairRun {test : ModeRun → UploadAct → Bool} {P : ModeRun → UploadAct → Prop}
    (hpair : ∀ r a, test r a = true → isPairAct r a = true)
    (hP : ∀ r a, OnlyPair r → test r a = true → P r a) {r t : ModeRun} {acts : List UploadAct}
    (hr : OnlyPair r) (hrun : runIf sampleSession.step test r acts = some t) :
    Reaches sampleSession.step P r t ∧ OnlyPair t := by
  have htested : Reaches sampleSession.step (fun r a => test r a = true) r t :=
    reaches_of_runIf (fun _ _ h => h) hrun
  apply htested.invariant (I := fun t => Reaches sampleSession.step P r t ∧ OnlyPair t)
  · intro u a v hu htest hstep
    exact ⟨hu.1.tail (hP u a hu.2 htest) hstep, onlyPair_next hu.2 (hpair u a htest) hstep⟩
  · exact ⟨.refl, hr⟩

/-- A file at the target; the byte of a file of one byte, with the offset header; and the final
request, without it, up to its last call. -/
def headerlessActs : List UploadAct :=
  .env (.place sampleSession.target [some 9]) ::
    .start 0 (sampleJob 1 (some "0".toList) false [5]) ::
      (List.replicate 12 (.step 0 .go) ++
        .start 1 (sampleJob 1 none true []) :: List.replicate 12 (.step 1 .go))

/-- Request 1 has just been refused because of a file. -/
def refused (t : ModeRun) : Bool :=
  match t.server.task 1 with
  | .finished _ (.error (.storage (.alreadyExists _)), _) => true
  | _ => false

theorem exists_of_refused {t : ModeRun} (h : refused t = true) :
    ∃ job e held, t.server.task 1 = .finished job (.error e, held) ∧ e.Refuses := by
  unfold refused at h
  split at h
  · next job path held heq => exact ⟨job, _, held, heq, trivial⟩
  · cases h

/-- **The final request's own header decides whether it is refused.** -/
theorem header_decides_conflict : ¬ ∀ S : Session, S.ModeFixed S.OneByOne := by
  intro hall
  have hrun : ((runIf sampleSession.step isPairAct (beforeAll sampleStore) headerlessActs).any
      fun r => decide (r.begun = some .overwrite) &&
        (sampleSession.step r (.step 1 .go)).any refused) = true := by
    decide +kernel
  obtain ⟨r, hr, hlast⟩ := (Option.any_eq_true _ _).1 hrun
  obtain ⟨hbegun, hlast⟩ := Bool.and_eq_true_iff.1 hlast
  obtain ⟨t, hstep, hrefused⟩ := (Option.any_eq_true _ _).1 hlast
  obtain ⟨hreach, -⟩ := reaches_of_pairRun (fun _ _ h => h) (fun _ _ => oneByOne_of_pair)
    (fun _ _ => rfl) hr
  obtain ⟨job, e, held, hdone, hrefuses⟩ := exists_of_refused hrefused
  have hkeeps := hall sampleSession sampleStore r (.step 1 .go) t hreach trivial hstep
  exact hkeeps.overwrite 1 .go job e held rfl (of_decide_eq_true hbegun) hdone hrefuses

/-! ### The same request where nothing is in its way -/

/-- A test of `Agrees`: whoever looks or moves finds nothing at the target. -/
def agreesNow (r : ModeRun) : UploadAct → Bool
  | .step i _ =>
      match r.server.task i with
      | .waiting _ (.tryExists _, _) _ => decide (r.entry sampleSession.target = .absent)
      | .waiting _ (.rename _ _, _) _ => decide (r.entry sampleSession.target = .absent)
      | _ => true
  | .env _ => false
  | _ => true

theorem agrees_of_agreesNow {r : ModeRun} {act : UploadAct} (h : agreesNow r act = true) :
    sampleSession.Agrees r act := by
  cases act with
  | start i job => trivial
  | drop i => trivial
  | env e => cases h
  | step i c =>
      intro job op held k hwait
      unfold agreesNow at h
      dsimp only at h
      rw [hwait] at h
      constructor
      · rintro - - rfl
        exact of_decide_eq_true h
      · rintro - - source rfl
        exact of_decide_eq_true h

/-- The byte, with the offset header; and the final request, without it, starts. -/
def mixedActs : List UploadAct :=
  .start 0 (sampleJob 1 (some "0".toList) false [5]) ::
    (List.replicate 12 (.step 0 .go) ++ [.start 1 (sampleJob 1 none true [])])

/-- Request 1 has just committed. -/
def committed (t : ModeRun) : Bool :=
  match t.server.task 1 with
  | .finished job (.ok (.created _), _) => job.finalChunk && job.session.all (!·.statusProbe)
  | _ => false

theorem commits_of_committed {t : ModeRun} (h : committed t = true) : ∃ job file held,
    t.server.task 1 = .finished job (.ok (.created file), held) ∧ job.Commits := by
  unfold committed at h
  split at h
  · next job file held hdone =>
      obtain ⟨hfinal, hkey⟩ := Bool.and_eq_true_iff.1 h
      refine ⟨job, file, held, hdone, ?_⟩
      intro key hsession
      rw [hsession, Option.all_some, Bool.not_eq_true'] at hkey
      exact ⟨hfinal, hkey⟩
  · cases h

/-- With nothing at the target it commits, in a session that began in the other mode. -/
theorem headerless_request_commits :
    ∃ q r t, Reaches sampleSession.step
        (fun r a => sampleSession.OneByOne r a ∧ sampleSession.Agrees r a)
        (beforeAll sampleStore) q ∧ q.begun = some .overwrite ∧
      Reaches sampleSession.step
        (fun r a => sampleSession.OneByOne r a ∧ sampleSession.Agrees r a) q r ∧
      sampleSession.step r (.step 1 .go) = some t ∧ 1 ∈ t.published := by
  have hrun : ((runIf sampleSession.step (fun r a => isPairAct r a && agreesNow r a)
      (beforeAll sampleStore) mixedActs).any fun q => decide (q.begun = some .overwrite) &&
        (runIf sampleSession.step (fun r a => isPairAct r a && agreesNow r a) q
          (List.replicate 14 (.step 1 .go))).any fun r =>
            agreesNow r (.step 1 .go) && (sampleSession.step r (.step 1 .go)).any committed) =
      true := by
    decide +kernel
  obtain ⟨q, hq, hrest⟩ := (Option.any_eq_true _ _).1 hrun
  obtain ⟨hbegun, hrest⟩ := Bool.and_eq_true_iff.1 hrest
  obtain ⟨r, hr, hlast⟩ := (Option.any_eq_true _ _).1 hrest
  obtain ⟨hagrees, hlast⟩ := Bool.and_eq_true_iff.1 hlast
  obtain ⟨t, hstep, hcommitted⟩ := (Option.any_eq_true _ _).1 hlast
  have hmeets : ∀ (r : ModeRun) (a : UploadAct), OnlyPair r →
      (isPairAct r a && agreesNow r a) = true →
      sampleSession.OneByOne r a ∧ sampleSession.Agrees r a := by
    intro r a hpair htest
    obtain ⟨hact, hnow⟩ := Bool.and_eq_true_iff.1 htest
    exact ⟨oneByOne_of_pair hpair hact, agrees_of_agreesNow hnow⟩
  obtain ⟨hfirst, hpair⟩ := reaches_of_pairRun (fun _ _ h => (Bool.and_eq_true_iff.1 h).1) hmeets
    (fun _ _ => rfl) hq
  obtain ⟨hsecond, -⟩ := reaches_of_pairRun (fun _ _ h => (Bool.and_eq_true_iff.1 h).1) hmeets
    hpair hr
  obtain ⟨job, file, held, hdone, hcommits⟩ := commits_of_committed hcommitted
  have hkeeps := session_keeps_mode sampleSession sampleStore r (.step 1 .go) t
    (hfirst.trans hsecond) ⟨trivial, agrees_of_agreesNow hagrees⟩ hstep
  exact ⟨q, r, t, hfirst, of_decide_eq_true hbegun, hsecond, hstep,
    hkeeps.commits 1 .go job file held rfl hdone hcommits⟩

end Session

end Libfw

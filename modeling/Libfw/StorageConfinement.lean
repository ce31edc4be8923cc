import Libfw.AtomicRequests
import Libfw.PathResolution
import Libfw.RequestStages

/-!
# Uploads stay inside the root

The files that an upload request creates, opens to write, renames or deletes, whatever its
mode, and whatever else happens on the server meanwhile.

* `confined_iff` — they all lie strictly inside the root, unless the request is about the
  root itself.
* `dot_upload_leaves_root` — the client path `.` is about the root: the temporary is made
  beside it.
-/

namespace Libfw

open SteppedPrograms SoloPrograms Fs FsStorage PosixStore SegmentPaths

/-! ## What a request touches -/

/-- The files a call creates, opens to write, renames or deletes. -/
def Op.touches : Op → List FsPath
  | .openExisting p => [p]
  | op => op.puts ++ op.takes

/-- The request for the path comes to this call, in some run of the server. -/
def CallsFor (srv : Server) (path : Text) (op : Op) : Prop :=
  ∃ s t i job call k, (uploadSystem srv).Reaches (fun _ _ => True) (atRest s) t ∧
    t.task i = .waiting job call k ∧ job.path = path ∧ call.1 = op

/-- Every file touched by a request for the path lies strictly inside the root, in every run
of the server; and it makes directories only there, and the root itself where that is
missing. -/
structure Confined (srv : Server) (path : Text) : Prop where
  files : ∀ op, CallsFor srv path op → ∀ p ∈ op.touches, StrictlyInside srv.root p
  dirs : ∀ d, CallsFor srv path (.createDirAll d) → d = srv.root ∨ StrictlyInside srv.root d

/-- What a call touches it names. -/
theorem files_of_touches {op : Op} {p : FsPath} (h : p ∈ op.touches) : p ∈ op.files := by
  cases op with
  | create | createNew | openExisting | writeRanges | removeFile => exact h
  | rename source target =>
      have hmem : p = target ∨ p = source := by simpa [Op.touches, Op.puts, Op.takes] using h
      rcases hmem with rfl | rfl
      · exact List.mem_cons_of_mem _ (List.mem_singleton_self _)
      · exact List.mem_cons_self
  | checkSymlinks | createDirAll | tryExists | lock | len | readToString | writeAt | append | sync
  | syncDir | metadata | uniqueName | nextChunk => exact absurd h List.not_mem_nil

section Requests

variable {srv : Server} {job : UploadJob}

/-- The files of a request lie where its target lies. -/
theorem strictlyInside_jobFile {p : FsPath}
    (hinside : ∀ full, resolve srv.root job.path = .ok full → StrictlyInside srv.root full)
    (hp : JobFile srv job (.whole srv job) p) : StrictlyInside srv.root p := by
  cases hp with
  | target hfull => exact hinside p hfull
  | made hmade =>
      cases hmade with
      | session hsession =>
          cases hsession with
          | tmp hfull _ => exact (hinside _ hfull).withFileName _
          | blocks hfull _ => exact ((hinside _ hfull).withFileName _).pushExtension _
          | persist hfull _ =>
              exact (((hinside _ hfull).withFileName _).pushExtension _).pushExtension _
      | attempt hattempt =>
          obtain ⟨full, nanos, counter, hfull, rfl⟩ := hattempt
          exact (hinside full hfull).withFileName _

/-- In every run a request stops only at calls it may ask for. -/
theorem askedBy_of_waiting {s : Store} {t : UploadState}
    (hrun : (uploadSystem srv).Reaches (fun _ _ => True) (atRest s) t) {i : Nat} {call : Call}
    {k : Call.Ans call → Code (Except ApiError Reply × Held)}
    (hwait : t.task i = .waiting job call k) : AskedBy srv job (.whole srv job) call.1 := by
  have hall := hrun.along (P := fun job (call : Call) => AskedBy srv job (.whole srv job) call.1)
    (K := fun _ => True) (I := fun _ => True) ?_ (fun _ _ _ _ => trivial)
    (fun _ _ _ _ => trivial) (fun _ _ _ => trivial) (fun _ _ _ _ _ _ _ _ _ _ _ => trivial)
    (fun _ _ _ _ => trivial) (fun _ => rfl) trivial
  · exact (hall.2 i job call k hwait).2.1
  · intro job _
    exact (runUpload_asks Held.nothing).mono (fun _ h => h) fun _ _ => trivial

theorem confined_of_canonical {path : Text} (hcanon : Canonical path) (hne : path ≠ []) :
    Confined srv path := by
  have htarget : ∀ full, resolve srv.root path = .ok full → StrictlyInside srv.root full :=
    fun full hfull => strictlyInside_target hcanon hne hfull
  constructor
  · intro op hcalls p hp
    obtain ⟨s, t, i, job, call, k, hrun, hwait, rfl, rfl⟩ := hcalls
    exact strictlyInside_jobFile htarget
      ((askedBy_of_waiting hrun hwait).files p (files_of_touches hp))
  · intro d hcalls
    obtain ⟨s, t, i, job, call, k, hrun, hwait, rfl, hop⟩ := hcalls
    have hd : d ∈ call.1.dirs := by
      rw [hop]
      exact List.mem_singleton_self d
    obtain ⟨full, hfull, hparent⟩ := (askedBy_of_waiting hrun hwait).dirs d hd
    exact (htarget full hfull).parent hparent

end Requests

/-! ## Requests about the root -/

/-- A store with nothing in it. -/
def blankStore : Store where
  disk :=
    { entry := fun _ => .absent
      content := fun _ => ⟨.bytes [], 0⟩
      next := 0
      entry_lt := fun h => nomatch h
      single := fun h => nomatch h }
  holder := fun _ => none
  counter := 0
  now := 0

/-- An empty upload over the root itself. -/
def rootJob : UploadJob where
  path := []
  fileMeta := ⟨[], 0, 0, []⟩
  finalChunk := true
  offsetHdr := some "0".toList
  session := none
  body := ⟨[], .ok []⟩

section Root

variable (srv : Server) (h : Held)

theorem finishes_prepare_root :
    Finishes srv (prepare srv.root []) h blankStore (.ok srv.root) h
      (prepared srv.root blankStore) := by
  apply finishes_prepare
  · rw [resolve_canonical srv.root (by decide), show segments ([] : Text) = [] by decide]
    exact congrArg Except.ok (List.append_nil _)
  · exact fun _ _ _ _ => rfl

/-- `write_stream` over the root: the temporary is made beside it. -/
theorem finishes_writeStream_root :
    ∃ tmp file h' t, Finishes srv (writeStream srv.root [] .overwrite) h blankStore
      (.ok ⟨file, some tmp, srv.root, [], .overwrite, none⟩) h' t := by
  have hprepare := finishes_prepare_root srv h
  generalize hu : prepared srv.root blankStore = u at hprepare
  have hdraw : Op.exec srv.serde 0 .uniqueName .go u = some (u.count, (u.now, u.counter)) := rfl
  have habsent : u.count.disk.entry (tempPathFor srv.root u.now u.counter) = .absent := by
    subst hu
    exact prepared_entry (FsPath.length_le_withFileName _ _) blankStore
  have hcreate : (Op.create (tempPathFor srv.root u.now u.counter)).exec srv.serde 0 .go u.count =
      some (u.count.create (tempPathFor srv.root u.now u.counter) (.bytes []),
        .ok u.count.disk.next) := by
    simp only [Op.exec, habsent]
  refine ⟨tempPathFor srv.root u.now u.counter, u.count.disk.next,
    ⟨some u.count.disk.next, true, 0, []⟩,
    u.count.create (tempPathFor srv.root u.now u.counter) (.bytes []), ?_⟩
  unfold writeStream
  apply finishes_seq hprepare
  apply finishes_seq finishes_ret
  apply finishes_await_then hdraw
  apply finishes_await_then hcreate
  apply finishes_seq finishes_ret
  apply finishes_seq finishes_update
  apply finishes_seq finishes_update
  exact finishes_ret

/-- **An upload over the root comes to rename its temporary onto the root.** -/
theorem rootJob_mayAsk :
    Fs.MayAsk srv (fun op => srv.root ∈ op.touches) (runUpload srv rootJob) Held.nothing
      blankStore := by
  obtain ⟨tmp, file, h, t, hopen⟩ := finishes_writeStream_root srv Held.nothing
  have hmode : writeMode rootJob.offsetHdr = .ok .overwrite := by decide
  have hsync : (Op.sync file).exec srv.serde 0 .go t = some (t, .ok ()) := rfl
  have hbody : ∀ write, Finishes srv (attempt (streamBody write rootJob.body) :
      Fs ApiError (Except StreamError Nat)) h t (.ok (.ok 0)) h t := by
    intro write
    apply finishes_attempt
    apply finishes_seq finishes_ret
    exact finishes_await_then rfl finishes_ret
  show Fs.MayAsk srv _ (uploadSequential srv rootJob) _ _
  unfold uploadSequential
  rw [hmode]
  apply mayAsk_then finishes_ret
  apply mayAsk_then (finishes_orElse hopen)
  unfold serveSequential
  apply mayAsk_then (hbody _)
  dsimp only
  rw [if_neg (by decide)]
  unfold commitReply
  apply mayAsk_left
  apply mayAsk_orElse
  unfold FsSink.commit
  apply mayAsk_then finishes_ret
  apply mayAsk_then (finishes_await hsync)
  apply mayAsk_then finishes_ret
  apply mayAsk_then (finishes_await hsync)
  apply mayAsk_then finishes_ret
  apply mayAsk_left
  unfold FsSink.publish FsSink.moveIntoPlace
  apply mayAsk_then finishes_ret
  apply mayAsk_left
  apply mayAsk_await
  exact List.mem_cons_self

end Root

/-! ## Confinement -/

theorem not_confined_root (srv : Server) : ¬ Confined srv [] := by
  intro hconfined
  obtain ⟨t, call, k, hrun, hwait, htouches⟩ := reaches_mayAsk (rootJob_mayAsk srv)
  have hcalls : CallsFor srv [] call.1 := ⟨_, t, 0, rootJob, call, k, hrun, hwait, rfl, rfl⟩
  exact not_strictlyInside_self srv.root (hconfined.files call.1 hcalls srv.root htouches)

/-- **Whatever its codec and token, a client path is served inside the root, in every mode,
unless it is a spelling of the root itself.** -/
theorem confined_iff (srv : Server) {validate : Validator} {claims : TokenClaims}
    {shadow real : Text} {action : Action}
    (h : resolveClientPath srv.codec validate claims shadow action = .ok real) :
    Confined srv real ↔ real ≠ [] := by
  constructor
  · intro hconfined hroot
    rw [hroot] at hconfined
    exact not_confined_root srv hconfined
  · exact confined_of_canonical
      (canonical_of_decodeClientPath (resolveClientPath_eq_ok_iff.1 h).1)

/-! ### A path below the root, and the root -/

/-- A token for everything. -/
def writerClaims : TokenClaims := ⟨"tester".toList, none, [.read, .write], ["/".toList]⟩

theorem file_upload_confined : Confined sampleServer "docs/a.txt".toList ↔
    "docs/a.txt".toList ≠ [] :=
  confined_iff sampleServer
    (show resolveClientPath sampleServer.codec (PathValidator.new.validate 0) writerClaims
      "docs/./a.txt".toList .write = .ok "docs/a.txt".toList by decide +kernel)

/-- Beside the root of the sample server. -/
def besideRoot : FsPath := [.rootDir, .normal ".libfw-tmp-srv-0-0".toList]

/-- The request is about to make this file, for the root. -/
def makesForRoot (p : FsPath) : Task Call Call.Ans UploadJob (Except ApiError Reply × Held) → Bool
  | .waiting job call _ => job.path = [] ∧ call.1 = .create p
  | _ => false

/-- **An upload to the client path `.` makes its temporary beside the root.** -/
theorem dot_upload_leaves_root :
    ¬ ∀ shadow real, resolveClientPath sampleServer.codec (PathValidator.new.validate 0)
      writerClaims shadow .write = .ok real → Confined sampleServer real := by
  intro hall
  have hdot := hall ".".toList [] (by decide +kernel)
  have hrun : (((uploadSystem sampleServer).run (atRest sampleStore)
      (.start 0 rootJob :: List.replicate 3 (.step 0 .go))).any fun t =>
        makesForRoot besideRoot (t.task 0)) = true := by
    decide +kernel
  obtain ⟨t, ht, hmakes⟩ := (Option.any_eq_true _ _).1 hrun
  have hreach : (uploadSystem sampleServer).Reaches (fun _ _ => True) (atRest sampleStore) t :=
    System.reaches_of_run (fun _ _ _ => trivial) ht
  unfold makesForRoot at hmakes
  split at hmakes
  · next job call k hwait =>
      obtain ⟨hpath, hcreate⟩ := of_decide_eq_true hmakes
      have htouches : besideRoot ∈ call.1.touches := by
        rw [hcreate]
        exact List.mem_cons_self
      have hcalls : CallsFor sampleServer [] call.1 :=
        ⟨_, t, 0, job, call, k, hreach, hwait, hpath, rfl⟩
      obtain ⟨names, -, hnames⟩ := hdot.files call.1 hcalls _ htouches
      have hsecond : besideRoot[1]? = sampleServer.root[1]? := by
        rw [hnames]
        exact List.getElem?_append_left (by decide)
      exact absurd hsecond (by decide)
  · cases hmakes

end Libfw

import Libfw.RequestFootprints
import Libfw.UploadSessions

/-!
# Sequential uploads that fail

A sequential upload writes to a temporary that is moved onto the target, or, in Resume mode,
to the target itself.  What it has done when it is not answered 201 is taken back by `abort`
alone: that removes a temporary, and leaves an append as it is; and neither a request that is
dropped nor a commit that fails calls it.

* `failed_upload_changes_nothing` — where a request gets nothing written before it is
  dropped or its commit fails, and an append that has begun does not fail, a request that is
  not answered 201 leaves its target and the temporaries as they were.  A call goes on where
  its request is dropped; so one that makes or writes a file is waited for.
* `failed_resume_extends`, `dropped_upload_leaves_temp`, `failed_rename_leaves_temp` — runs
  in which it does not.
-/

namespace Libfw

open SteppedPrograms Fs FsStorage PosixStore

/-! ## What a failed upload is to leave -/

/-- The name of a temporary of a sequential upload. -/
def TempName (p : FsPath) : Prop := ∃ name, p.fileName = some name ∧ TMP_PREFIX <+: name

/-- The path leads to what it led to, with the same bytes. -/
structure SameBytes (serde : Serde) (s t : Store) (p : FsPath) : Prop where
  entry : t.disk.entry p = s.disk.entry p
  bytes : ∀ f, s.disk.entry p = .file f → (t.content f).cells serde = (s.content f).cells serde

/-- The target of a request is as it was, and no temporary stands that did not. -/
structure ChangesNothing (srv : Server) (job : UploadJob) (s t : Store) : Prop where
  target : ∀ full, resolve srv.root job.path = .ok full → SameBytes srv.serde s t full
  temps : ∀ p f, TempName p → t.disk.entry p = .file f → s.disk.entry p = .file f

/-- The events of a run of one sequential upload; time passes. -/
def OneUpload (job : UploadJob) : UploadAct → Prop
  | .start i req => i = 0 ∧ req = job
  | .step i _ | .drop i => i = 0
  | .env (.tick _) => True
  | .env (.place _ _) => False

/-- A sequential upload that has ended without the answer 201 has changed nothing. -/
structure FailsWhole (srv : Server) (job : UploadJob) (s₀ : Store) (t : UploadState) : Prop where
  refused : ∀ r held, t.task 0 = .finished job (r, held) → (∀ file, r ≠ .ok (.created file)) →
    ChangesNothing srv job s₀ t.shared
  dropped : t.task 0 = .dropped job → ChangesNothing srv job s₀ t.shared

/-! ## When it does -/

/-- `write_batch` lets a batch pass. -/
def batchFits (srv : Server) (offset size count : Nat) (data : List UInt8) : Bool :=
  satAdd offset (satAdd count data.length) ≤ srv.maxUploadSize &&
    satAdd offset (satAdd count data.length) ≤ size

/-- The rest of a body is let pass as a whole, to its last check. -/
def bodyFits (srv : Server) (job : UploadJob) (offset : Nat) : Nat → List BodyEvent → Bool
  | count, [] =>
      match job.body.finish with
      | .error _ => false
      | .ok out =>
          let fits := out = [] || batchFits srv offset job.fileMeta.size count out
          let total := if out = [] then count else satAdd count out.length
          fits && (!job.finalChunk || satAdd offset total = job.fileMeta.size)
  | count, .data bytes :: rest =>
      if bytes = [] then bodyFits srv job offset count rest
      else batchFits srv offset job.fileMeta.size count bytes &&
        bodyFits srv job offset (satAdd count bytes.length) rest
  | _, .broken _ :: _ | _, .invalid _ :: _ => false

/-- No batch of the rest of a body is let pass before the body ends, or fails. -/
def nothingFits (srv : Server) (job : UploadJob) (offset : Nat) : List BodyEvent → Bool
  | [] =>
      match job.body.finish with
      | .error _ => true
      | .ok out => out = [] || !batchFits srv offset job.fileMeta.size 0 out
  | .data bytes :: rest =>
      if bytes = [] then nothingFits srv job offset rest
      else !batchFits srv offset job.fileMeta.size 0 bytes
  | .broken _ :: _ | .invalid _ :: _ => true

/-- A body that is appended is appended as a whole, or not at all. -/
def AllOrNothing (srv : Server) (job : UploadJob) : Prop :=
  match writeMode job.offsetHdr with
  | .ok (.resume offset) => bodyFits srv job offset 0 job.body.events = true ∨
      nothingFits srv job offset job.body.events = true
  | _ => True

/-- The request has no temporary, and has appended nothing. -/
def MayFail (job : UploadJob) (h : Held) : Prop :=
  h.file = none ∨
    match writeMode job.offsetHdr with
    | .ok (.resume offset) => h.written ≤ offset
    | _ => False

instance (srv : Server) (job : UploadJob) : Decidable (AllOrNothing srv job) := by
  unfold AllOrNothing
  split <;> infer_instance

instance (job : UploadJob) (h : Held) : Decidable (MayFail job h) := by
  unfold MayFail
  split <;> infer_instance

/-- The call makes, takes away and writes no file. -/
def Op.sparesFiles (op : Op) : Bool := op.puts = [] && op.takes = [] && op.writes = []

/-- A choice that writes nothing. -/
def Choice.writesNothing : Choice → Bool
  | .go => false
  | .fail done _ => done = 0

/-- What the surroundings decide about a call leaves nothing behind: a temporary is removed,
an append goes or appends nothing, and once there is something to leave a commit goes. -/
def CallGoes (job : UploadJob) (s : Store) (call : Call) (c : Choice) : Prop :=
  match call.1 with
  | .removeFile _ => c = .go
  | .append _ _ => c = .go ∨ (MayFail job call.2 ∧ c.writesNothing = true)
  | .sync _ | .tryExists _ | .metadata _ => MayFail job call.2 ∨ c = .go
  | .rename _ target => c = .go ∧ s.disk.entry target ≠ .dir
  | _ => True

instance (job : UploadJob) (s : Store) (call : Call) (c : Choice) :
    Decidable (CallGoes job s call c) := by
  unfold CallGoes
  split <;> infer_instance

/-- **The condition on a step.** -/
def FailsSafely (srv : Server) (job : UploadJob) (t : UploadState) : UploadAct → Prop
  | .start _ _ => AllOrNothing srv job
  | .step i c =>
      match t.task i with
      | .waiting _ call _ => CallGoes job t.shared call c
      | _ => True
  | .drop i =>
      match t.task i with
      | .waiting _ call _ => MayFail job call.2 ∧ call.1.sparesFiles = true
      | _ => True
  | .env _ => True

instance (srv : Server) (job : UploadJob) (t : UploadState) (a : UploadAct) :
    Decidable (FailsSafely srv job t a) := by
  unfold FailsSafely
  split
  · infer_instance
  · split <;> infer_instance
  · split <;> infer_instance
  · infer_instance

deriving instance DecidableEq for Body, UploadJob

instance (job : UploadJob) (a : UploadAct) : Decidable (OneUpload job a) :=
  match a with
  | .start i req => decidable_of_iff (i = 0 ∧ req = job) Iff.rfl
  | .step i _ | .drop i => inferInstanceAs (Decidable (i = 0))
  | .env (.tick _) => isTrue trivial
  | .env (.place _ _) => isFalse id

/-! ## Stores that have not changed, and stores with one temporary more -/

section Stores

variable {srv : Server} {job : UploadJob} {s₀ s t : Store} {full tmp : FsPath} {f : Nat}

theorem SameBytes.refl (serde : Serde) (s : Store) (p : FsPath) : SameBytes serde s s p :=
  ⟨rfl, fun _ _ => rfl⟩

theorem SameBytes.trans {serde : Serde} {u : Store} {p : FsPath} (hst : SameBytes serde s t p)
    (htu : SameBytes serde t u p) : SameBytes serde s u p := by
  constructor
  · exact htu.entry.trans hst.entry
  · intro g hg
    exact (htu.bytes g (hst.entry.trans hg)).trans (hst.bytes g hg)

theorem SameBytes.of_disk {serde : Serde} (h : t.disk = s.disk) (p : FsPath) :
    SameBytes serde s t p := by
  constructor
  · rw [h]
  · intro g _
    unfold Store.content
    rw [h]

theorem changesNothing_refl (srv : Server) (job : UploadJob) (s : Store) :
    ChangesNothing srv job s s :=
  ⟨fun _ _ => SameBytes.refl _ _ _, fun _ _ _ h => h⟩

theorem ChangesNothing.trans {u : Store} (hst : ChangesNothing srv job s t)
    (htu : ChangesNothing srv job t u) : ChangesNothing srv job s u :=
  ⟨fun full hfull => (hst.target full hfull).trans (htu.target full hfull),
    fun p g hp hg => hst.temps p g hp (htu.temps p g hp hg)⟩

theorem ChangesNothing.of_disk (h : ChangesNothing srv job s₀ s) (hdisk : t.disk = s.disk) :
    ChangesNothing srv job s₀ t := by
  apply h.trans
  constructor
  · exact fun full _ => SameBytes.of_disk hdisk full
  · intro p g _ hg
    rw [hdisk] at hg
    exact hg

/-- The directories above the target are made. -/
theorem ChangesNothing.mkdirs (h : ChangesNothing srv job s₀ s)
    (hfull : resolve srv.root job.path = .ok full) {parent : FsPath}
    (hparent : full.parent = some parent) :
    ChangesNothing srv job s₀ (s.mkdirs (ancestors parent)) := by
  apply h.trans
  constructor
  · intro full' hfull'
    rw [hfull] at hfull'
    cases hfull'
    refine ⟨?_, fun _ _ => rfl⟩
    exact (Disk.mkdirs_entry _).trans
      (if_neg fun hmem => not_mem_ancestors hparent (Nat.le_refl _) hmem.1)
  · intro p g _ hg
    exact (Disk.mkdirs_entry_file _).1 hg

/-- One temporary stands that did not; else nothing has changed. -/
structure OnlyTemp (srv : Server) (job : UploadJob) (s₀ : Store) (tmp : FsPath) (f : Nat)
    (s : Store) : Prop where
  stands : s.disk.entry tmp = .file f
  apart : ∀ full, resolve srv.root job.path = .ok full → tmp ≠ full
  target : ∀ full, resolve srv.root job.path = .ok full → SameBytes srv.serde s₀ s full
  temps : ∀ p g, TempName p → p ≠ tmp → s.disk.entry p = .file g → s₀.disk.entry p = .file g

theorem OnlyTemp.of_disk (h : OnlyTemp srv job s₀ tmp f s) (hdisk : t.disk = s.disk) :
    OnlyTemp srv job s₀ tmp f t := by
  refine ⟨?_, h.apart, ?_, ?_⟩
  · rw [hdisk]
    exact h.stands
  · exact fun full hfull => (h.target full hfull).trans (SameBytes.of_disk hdisk full)
  · intro p g hp hne hg
    rw [hdisk] at hg
    exact h.temps p g hp hne hg

/-- The temporary is made. -/
theorem ChangesNothing.create (h : ChangesNothing srv job s₀ s)
    (hapart : ∀ full, resolve srv.root job.path = .ok full → tmp ≠ full) (b : Content) :
    OnlyTemp srv job s₀ tmp s.disk.next (s.create tmp b) := by
  refine ⟨Disk.create_entry_self _ _, hapart, ?_, ?_⟩
  · intro full hfull
    apply (h.target full hfull).trans
    have hentry : (s.create tmp b).disk.entry full = s.disk.entry full :=
      Disk.create_entry_ne _ _ (hapart full hfull).symm
    refine ⟨hentry, ?_⟩
    intro g hg
    unfold Store.content Store.create
    rw [Disk.create_content_lt _ _ (s.disk.entry_lt hg)]
  · intro p g hp hne hg
    exact h.temps p g hp ((Disk.create_entry_ne _ _ hne).symm.trans hg)

/-- A write to the temporary. -/
theorem OnlyTemp.write (h : OnlyTemp srv job s₀ tmp f s) (u : Content → Content) :
    OnlyTemp srv job s₀ tmp f (s.write f u) := by
  refine ⟨h.stands, h.apart, ?_, h.temps⟩
  intro full hfull
  apply (h.target full hfull).trans
  refine ⟨rfl, ?_⟩
  intro g hg
  have hne : g ≠ f := by
    rintro rfl
    exact h.apart full hfull (s.disk.single h.stands hg)
  rw [write_content_ne hne]

/-- A file that stood under the name of the temporary is emptied. -/
theorem ChangesNothing.empty (h : ChangesNothing srv job s₀ s)
    (hapart : ∀ full, resolve srv.root job.path = .ok full → tmp ≠ full)
    (hf : s.disk.entry tmp = .file f) :
    OnlyTemp srv job s₀ tmp f (s.write f emptied) := by
  have htemp : OnlyTemp srv job s₀ tmp f s :=
    ⟨hf, hapart, h.target, fun p g hp _ hg => h.temps p g hp hg⟩
  exact htemp.write emptied

/-- The temporary is removed. -/
theorem OnlyTemp.unlink (h : OnlyTemp srv job s₀ tmp f s) :
    ChangesNothing srv job s₀ (s.unlink tmp) := by
  constructor
  · intro full hfull
    apply (h.target full hfull).trans
    exact ⟨Disk.unlink_entry_ne _ _ (h.apart full hfull).symm, fun _ _ => rfl⟩
  · intro p g hp hg
    by_cases hne : p = tmp
    · rw [hne] at hg
      have habsent := (Disk.unlink_entry_self s.disk tmp).symm.trans hg
      cases habsent
    · exact h.temps p g hp hne (unlink_entry_file hg)

/-- A call that spares the files, and makes no directories. -/
theorem ChangesNothing.exec {op : Op} {i : Nat} {c : Choice} {a : op.Ans}
    (h : ChangesNothing srv job s₀ s) (hspares : op.sparesFiles = true)
    (hdirs : op.dirs = [] ∨ op.looks = true)
    (hexec : op.exec srv.serde i c s = some (t, a)) : ChangesNothing srv job s₀ t := by
  rcases hdirs with hdirs | hlooks
  · unfold Op.sparesFiles at hspares
    rw [Bool.and_eq_true, Bool.and_eq_true, decide_eq_true_eq, decide_eq_true_eq,
      decide_eq_true_eq] at hspares
    obtain ⟨⟨hputs, htakes⟩, hwrites⟩ := hspares
    cases exec_effect hexec with
    | same hdisk _ => exact h.of_disk hdisk
    | mkdirs hd _ =>
        rw [hdirs] at hd
        cases hd
    | create hp _ _ =>
        rw [hputs] at hp
        cases hp
    | write hf _ =>
        rw [hwrites, hputs] at hf
        rcases hf with hf | ⟨p, hp, -⟩
        · cases hf
        · cases hp
    | rename hop _ _ =>
        rw [hop] at hputs
        cases hputs
    | unlink hp _ =>
        rw [htakes] at hp
        cases hp
  · rw [exec_looks hlooks hexec]
    exact h

end Stores

/-! ## One upload by itself -/

/-- Only the upload moves; wherever it may fail it has changed nothing, and what it waits for
changes nothing either. -/
def failing (srv : Server) (job : UploadJob) (s₀ : Store) : UploadDiscipline where
  inv := fun _ => True
  rely := fun j s t => j = 0 → t.disk = s.disk
  allowed := fun s e =>
    match e with
    | .enter i req => i = 0 ∧ req = job ∧ AllOrNothing srv job
    | .call _ _ call c => CallGoes job s call c
    | .drop _ _ => True
    | .env e => ∃ n, e = .tick n
  mark := fun _ _ call s => MayFail job call.2 → ChangesNothing srv job s₀ s ∧
    (call.1.sparesFiles = true → ∀ c t a, call.1.exec srv.serde 0 c s = some (t, a) →
      ChangesNothing srv job s₀ t)

section Rules

variable {srv : Server} {job : UploadJob} {s₀ s : Store} {h : Held} {ε ε' α β : Type}

variable (srv job s₀) in
/-- The weakest precondition for the upload. -/
abbrev WpF (x : Fs ε α) (Q : Except ε α → Held → Store → Prop) : Held → Store → Prop :=
  Fs.Wp srv (failing srv job s₀) 0 job x Q

theorem failing_kept (s t : Store) : (failing srv job s₀).Kept 0 s t :=
  ⟨trivial, fun _ hj heq => absurd heq hj⟩

/-- What holds of the disk while the request waits, and lets it fail where it may. -/
structure Standing (srv : Server) (job : UploadJob) (s₀ : Store) (h : Held)
    (P : Store → Prop) : Prop where
  stable : ∀ s t, P s → t.disk = s.disk → P t
  safe : ∀ s, P s → MayFail job h → ChangesNothing srv job s₀ s

theorem Standing.mark {P : Store → Prop} (hP : Standing srv job s₀ h P) (hs : P s) {op : Op}
    (hdirs : op.dirs = [] ∨ op.looks = true) :
    (failing srv job s₀).mark 0 job (op, h) s := by
  intro hmay
  have hsafe := hP.safe s hs hmay
  exact ⟨hsafe, fun hspares c t a hexec => hsafe.exec hspares hdirs hexec⟩

theorem Standing.watching {P : Store → Prop} (hP : Standing srv job s₀ h P) :
    Watching (failing srv job s₀) 0 job h P where
  stable := fun s t hs hrely _ => hP.stable s t hs (hrely rfl)
  mark := fun _ _ hlooks hs _ => hP.mark hs (Or.inr hlooks)
  self := fun _ _ _ => failing_kept _ _

/-- A call, and what it does. -/
theorem Standing.await_then {P : Store → Prop} (hP : Standing srv job s₀ h P) (hs : P s) {op : Op}
    (hdirs : op.dirs = [] ∨ op.looks = true) {x : op.Ans → Fs ε β}
    {Q : Except ε β → Held → Store → Prop}
    (hstep : ∀ s c t a, P s → CallGoes job s (op, h) c →
      op.exec srv.serde 0 c s = some (t, a) → WpF srv job s₀ (x a) Q h t) :
    WpF srv job s₀ (await op >>= x) Q h s := by
  apply wp_await_then.2
  intro s₁ hrely _
  have hs₁ : P s₁ := hP.stable s s₁ hs (hrely rfl)
  exact ⟨hP.mark hs₁ hdirs,
    fun c t a hallow hexec => ⟨failing_kept _ _, hstep s₁ c t a hs₁ hallow hexec⟩⟩

/-- Nothing has changed yet. -/
theorem standing_unchanged : Standing srv job s₀ h (ChangesNothing srv job s₀) where
  stable := fun _ _ hs hdisk => hs.of_disk hdisk
  safe := fun _ hs _ => hs

/-- What leads nowhere is safe where the request may not fail. -/
theorem standing_committed {P : Store → Prop} (hmay : ¬ MayFail job h)
    (hstable : ∀ s t, P s → t.disk = s.disk → P t) : Standing srv job s₀ h P where
  stable := hstable
  safe := fun _ _ hm => absurd hm hmay

/-! ### Bodies, event by event -/

/-- A batch is skipped or written. -/
theorem wp_writeSome_cases {D : UploadDiscipline} {i : Nat}
    {write : Nat → List UInt8 → Fs ApiError Unit} {n : Nat} {data : List UInt8}
    {G : Nat → Held → Store → Prop} {E : Held → Store → Prop}
    (hskip : data = [] → G n h s)
    (hwrite : data ≠ [] → Fs.Wp srv D i job (write n data) (fun r h s =>
      match r with
      | .ok _ => G (satAdd n data.length) h s
      | .error _ => E h s) h s) :
    Fs.Wp srv D i job (writeSome write n data) (fun r h s =>
      match r with
      | .ok m => G m h s
      | .error _ => E h s) h s := by
  unfold writeSome
  by_cases hdata : data = []
  · rw [if_pos hdata]
    exact hskip hdata
  · rw [if_neg hdata]
    apply wp_seq.2
    apply wp_orElse.2
    apply wp_weaken (hwrite hdata)
    intro r h s hr
    cases r with
    | ok _ => exact hr
    | error e => exact hr

/-- The streaming loop, with an invariant about the events still to come. -/
theorem wp_streamBody_events {D : UploadDiscipline} {i : Nat}
    {write : Nat → List UInt8 → Fs ApiError Unit} (body : Body)
    {I : Nat → List BodyEvent → Held → Store → Prop} {G : Nat → Held → Store → Prop}
    {E : Held → Store → Prop}
    (hchunk : ∀ n events h s, I n events h s →
      Fs.Wp srv D i job (await .nextChunk : Fs StreamError Unit)
        (fun r h s => r = .ok () ∧ I n events h s) h s)
    (hfail : ∀ n event rest h s, (∀ bytes, event ≠ .data bytes) → I n (event :: rest) h s →
      E h s)
    (hdata : ∀ n bytes rest h s, I n (.data bytes :: rest) h s →
      Fs.Wp srv D i job (writeSome write n bytes) (fun r h s =>
        match r with
        | .ok m => I m rest h s
        | .error _ => E h s) h s)
    (hcut : ∀ n e h s, body.finish = .error e → I n [] h s → E h s)
    (htail : ∀ n out h s, body.finish = .ok out → I n [] h s →
      Fs.Wp srv D i job (writeSome write n out) (fun r h s =>
        match r with
        | .ok m => G m h s
        | .error _ => E h s) h s)
    (hI : I 0 body.events h s) :
    Fs.Wp srv D i job (streamBody write body) (fun r h s =>
      match r with
      | .ok m => G m h s
      | .error _ => E h s) h s := by
  have hevents : ∀ (events : List BodyEvent) n h s, I n events h s →
      Fs.Wp srv D i job (streamEvents write n events) (fun r h s =>
        match r with
        | .ok m => I m [] h s
        | .error _ => E h s) h s := by
    intro events
    induction events with
    | nil => exact fun n h s hI => hI
    | cons event rest ih =>
        intro n h s hI
        apply wp_then (hchunk n _ h s hI) _ (fun e h s hr => nomatch hr.1)
        intro _ h s hr
        cases event with
        | data bytes =>
            apply wp_then (hdata n bytes rest h s hr.2)
            · intro m h s hm
              exact ih m h s hm
            · intro e h s he
              exact he
        | broken m => exact hfail n (.broken m) rest h s (fun _ heq => nomatch heq) hr.2
        | invalid m => exact hfail n (.invalid m) rest h s (fun _ heq => nomatch heq) hr.2
  unfold streamBody
  apply wp_then (hevents body.events 0 h s hI) _ (fun e h s he => he)
  intro n h s hI
  apply wp_then (hchunk n _ h s hI) _ (fun e h s hr => nomatch hr.1)
  intro _ h s hr
  cases hfinish : body.finish with
  | error e => exact hcut n e h s hfinish hr.2
  | ok out => exact htail n out h s hfinish hr.2

end Rules

/-! ## Uploads through a temporary -/

section Temporaries

variable {srv : Server} {job : UploadJob} {s₀ s : Store} {h : Held} {full tmp : FsPath} {f : Nat}
  {mode : WriteMode} {ε α : Type}

/-- The mode of an upload that writes to a temporary. -/
structure UsesTemp (job : UploadJob) (mode : WriteMode) : Prop where
  header : writeMode job.offsetHdr = .ok mode
  not_resume : ∀ offset, mode ≠ .resume offset

/-- It may not fail once it has its temporary. -/
theorem UsesTemp.not_mayFail (hmode : UsesTemp job mode) (hfile : h.file = some f) :
    ¬ MayFail job h := by
  intro hmay
  rcases hmay with hnone | happends
  · rw [hfile] at hnone
    cases hnone
  · rw [hmode.header] at happends
    cases mode with
    | resume offset => exact hmode.not_resume offset rfl
    | create => exact happends
    | overwrite => exact happends

/-- The sink of such an upload. -/
structure TempSink (srv : Server) (job : UploadJob) (mode : WriteMode) (tmp : FsPath) (f : Nat)
    (sink : FsSink) : Prop where
  file : sink.file = f
  temp : sink.tmp = some tmp
  blocks : sink.blocksPath = none
  mode : sink.mode = mode
  target : resolve srv.root job.path = .ok sink.target

/-- The request has its temporary open. -/
structure HasTemp (srv : Server) (job : UploadJob) (s₀ : Store) (tmp : FsPath) (f : Nat) (h : Held)
    (s : Store) : Prop where
  held : h.file = some f
  only : OnlyTemp srv job s₀ tmp f s

theorem standing_temp (hmode : UsesTemp job mode) (hfile : h.file = some f) :
    Standing srv job s₀ h (HasTemp srv job s₀ tmp f h) :=
  standing_committed (hmode.not_mayFail hfile) fun _ _ hs hdisk => ⟨hs.held, hs.only.of_disk hdisk⟩

/-- An upload that is refused has changed nothing. -/
def Refused (srv : Server) (job : UploadJob) (s₀ : Store) (r : Except ε α) (s : Store) : Prop :=
  ∃ e, r = .error e ∧ ChangesNothing srv job s₀ s

/-- `write_stream` in Create and Overwrite mode. -/
theorem wpF_writeStreamTemp (hfull : resolve srv.root job.path = .ok full)
    (hfile : h.file = none) (hs : ChangesNothing srv job s₀ s) :
    WpF srv job s₀ (writeStreamTemp full job.path mode) (fun r h s =>
      Refused srv job s₀ r s ∨ ∃ sink tmp f, r = .ok sink ∧ TempSink srv job mode tmp f sink ∧
        HasTemp srv job s₀ tmp f h s) h s := by
  unfold writeStreamTemp
  apply wp_then (wp_refuseExisting standing_unchanged.watching hs)
  · intro _ h' s hr
    obtain ⟨rfl, hs⟩ := hr
    apply standing_unchanged.await_then hs (Or.inl rfl)
    intro s₁ c t a hs₁ _ hexec
    obtain ⟨rfl, -⟩ := exec_uniqueName hexec
    obtain ⟨nanos, counter⟩ := a
    have hs₂ : ChangesNothing srv job s₀ s₁.count := hs₁.of_disk rfl
    apply standing_unchanged.await_then hs₂ (Or.inl rfl)
    intro s₃ c t a hs₃ _ hexec
    have hapart : ∀ full, resolve srv.root job.path = .ok full →
        tempPathFor full nanos counter ≠ full := fun full _ => tempPathFor_ne_target full _ _
    have hapart' : ∀ full', resolve srv.root job.path = .ok full' →
        tempPathFor full nanos counter ≠ full' := by
      intro full' hfull'
      rw [hfull] at hfull'
      cases hfull'
      exact hapart full hfull
    have hopened : ∀ g u, OnlyTemp srv job s₀ (tempPathFor full nanos counter) g u →
        WpF srv job s₀ (other (.ok g) >>= fun file => do
          holdFile file
          openSink ⟨file, some (tempPathFor full nanos counter), full, job.path, mode, none⟩ 0 [])
          (fun r h s => Refused srv job s₀ r s ∨ ∃ sink tmp f, r = .ok sink ∧
            TempSink srv job mode tmp f sink ∧ HasTemp srv job s₀ tmp f h s) h' u := by
      intro g u hu
      exact Or.inr ⟨_, _, g, rfl, ⟨rfl, rfl, rfl, rfl, hfull⟩, rfl, hu⟩
    rcases exec_create hexec with (⟨rfl, e, rfl⟩ | ⟨-, rfl, rfl⟩) | ⟨g, hentry, rfl, rfl⟩
    · exact Or.inl ⟨_, rfl, hs₃⟩
    · exact hopened _ _ (hs₃.create hapart' _)
    · exact hopened _ _ (hs₃.empty hapart' hentry)
  · intro e h' s hr
    exact Or.inl ⟨e, rfl, hr.2⟩

variable {sink : FsSink}

/-- A write to the temporary. -/
theorem wpF_write (hmode : UsesTemp job mode) (hsink : TempSink srv job mode tmp f sink)
    (hs : HasTemp srv job s₀ tmp f h s) (buf : List UInt8) :
    WpF srv job s₀ (sink.write buf) (fun _ h s => HasTemp srv job s₀ tmp f h s) h s := by
  have hall : sink.writeAll buf h.written = await (.writeAt sink.file h.written buf) := by
    unfold FsSink.writeAll
    rw [hsink.mode]
    cases mode with
    | resume offset => exact absurd rfl (hmode.not_resume offset)
    | create | overwrite => rfl
  unfold FsSink.write
  apply wp_held_then.2
  rw [hall]
  apply (standing_temp hmode hs.held).await_then hs (Or.inl rfl)
  intro s₁ c t a hs₁ _ hexec
  rw [hsink.file] at hexec
  rcases exec_writeAt hexec with ⟨e, n, rfl, rfl⟩ | ⟨rfl, -, rfl⟩ | ⟨e, rfl, rfl⟩
  · exact ⟨hs₁.held, hs₁.only.write _⟩
  · exact ⟨hs₁.held, hs₁.only.write _⟩
  · exact hs₁

/-- The body, whatever of it is written. -/
theorem wpF_tempBody (hmode : UsesTemp job mode) (hsink : TempSink srv job mode tmp f sink)
    (hs : HasTemp srv job s₀ tmp f h s) (offset size : Nat) :
    WpF srv job s₀ (streamBody (writeBatch srv sink offset size) job.body)
      (fun _ h s => HasTemp srv job s₀ tmp f h s) h s := by
  have hchunk : ∀ (_ : Nat) (_ : List UInt8) h s, HasTemp srv job s₀ tmp f h s →
      WpF srv job s₀ (await .nextChunk : Fs StreamError Unit)
        (fun r h s => r = .ok () ∧ HasTemp srv job s₀ tmp f h s) h s := by
    intro _ _ h s hs
    apply (standing_temp hmode hs.held).watching.look hs rfl
    intro _ _ _ hs₁ _ _ _
    exact ⟨rfl, hs₁⟩
  have hfail : ∀ (_ : Nat) (_ : StreamError) h s, HasTemp srv job s₀ tmp f h s →
      HasTemp srv job s₀ tmp f h s := fun _ _ _ _ hs => hs
  have hwrite : ∀ n data (_ : List UInt8) h s, data ≠ [] → HasTemp srv job s₀ tmp f h s →
      WpF srv job s₀ (writeBatch srv sink offset size n data) (fun r h s =>
        match r with
        | .ok _ => HasTemp srv job s₀ tmp f h s
        | .error _ => HasTemp srv job s₀ tmp f h s) h s := by
    intro n data _ h s _ hs
    unfold writeBatch
    dsimp only
    split
    · exact hs
    · split
      · exact hs
      · apply wp_orElse.2
        apply wp_weaken (wpF_write hmode hsink hs data)
        intro r h s hr
        cases r with
        | ok _ => exact hr
        | error e => exact hr
  apply wp_weaken (wp_streamBody hchunk hfail hwrite job.body hs)
  intro r h s hr
  cases r with
  | ok _ => exact hr
  | error e => exact hr

/-- The temporary is removed, and the request refused. -/
theorem wpF_abortWith (hmode : UsesTemp job mode) (hsink : TempSink srv job mode tmp f sink)
    (hs : HasTemp srv job s₀ tmp f h s) (e : ApiError) :
    WpF srv job s₀ (abortWith sink e : Fs ApiError α) (fun r _ s => Refused srv job s₀ r s)
      h s := by
  unfold abortWith FsSink.abort
  rw [hsink.temp, hsink.blocks]
  apply wp_seq.2
  apply wp_attempt.2
  apply (standing_temp hmode hs.held).await_then hs (Or.inl rfl)
  intro s₁ c t a hs₁ hgoes hexec
  obtain rfl : c = .go := hgoes
  rcases exec_removeFile_go hexec with ⟨rfl, hno⟩ | ⟨g, -, rfl⟩
  · exact absurd hs₁.only.stands (hno f)
  · exact ⟨e, rfl, hs₁.only.unlink⟩

/-- What a call that must go makes of a standing request. -/
theorem go_of_callGoes (hmode : UsesTemp job mode) (hfile : h.file = some f) {c : Choice}
    (hgoes : MayFail job h ∨ c = .go) : c = .go :=
  hgoes.resolve_left (hmode.not_mayFail hfile)

/-- Either it is refused, or the temporary stands under the target's name. -/
theorem wpF_publish (hmode : UsesTemp job mode) (sink : FsSink)
    (hs : HasTemp srv job s₀ tmp f h s) :
    WpF srv job s₀ (sink.publish tmp) (fun r h' s => Refused srv job s₀ r s ∨
      (r = .ok () ∧ h' = h ∧ s.disk.entry sink.target = .file f)) h s := by
  have hrefuse : WpF srv job s₀ (sink.refuseAppeared tmp) (fun r h' s =>
      Refused srv job s₀ r s ∨ (r = .ok () ∧ h' = h ∧ HasTemp srv job s₀ tmp f h s)) h s := by
    unfold FsSink.refuseAppeared
    split
    · apply (standing_temp hmode hs.held).await_then hs (Or.inl rfl)
      intro s₁ c t a hs₁ hgoes hexec
      obtain rfl := go_of_callGoes hmode hs.held hgoes
      cases hexec
      apply wp_other_then _ (fun _ heq => nomatch heq)
      intro found _
      split
      · apply (standing_temp hmode hs.held).await_then hs₁ (Or.inl rfl)
        intro s₂ c t a hs₂ hgoes' hexec'
        obtain rfl : c = .go := hgoes'
        rcases exec_removeFile_go hexec' with ⟨rfl, hno⟩ | ⟨g, -, rfl⟩
        · exact absurd hs₂.only.stands (hno f)
        · exact Or.inl ⟨_, rfl, hs₂.only.unlink⟩
      · exact Or.inr ⟨rfl, rfl, hs₁⟩
    · exact Or.inr ⟨rfl, rfl, hs⟩
  have hmoved : Standing srv job s₀ h fun s => s.disk.entry sink.target = .file f := by
    apply standing_committed (hmode.not_mayFail hs.held)
    intro s t hentry hdisk
    rw [hdisk]
    exact hentry
  unfold FsSink.publish
  apply wp_then hrefuse
  · intro _ h' s₁ hr
    rcases hr with ⟨e, he, -⟩ | ⟨-, rfl, hs₁⟩
    · cases he
    · unfold FsSink.moveIntoPlace
      apply (standing_temp hmode hs₁.held).await_then hs₁ (Or.inl rfl)
      intro s₂ c t a hs₂ hgoes hexec
      obtain ⟨rfl, hdir⟩ := hgoes
      obtain ⟨rfl, rfl⟩ := exec_rename_go hs₂.only.stands hdir hexec
      have hentry : (s₂.rename tmp sink.target).disk.entry sink.target = .file f :=
        (Disk.rename_entry_target _ _ _).trans hs₂.only.stands
      apply wp_other_then _ (fun _ heq => nomatch heq)
      intro _ _
      split
      · apply hmoved.await_then hentry (Or.inr rfl)
        intro s₃ c t a hs₃ _ hexec'
        obtain rfl := exec_syncDir hexec'
        exact Or.inr ⟨rfl, rfl, hs₃⟩
      · exact Or.inr ⟨rfl, rfl, hentry⟩
  · intro e h' s₁ hr
    rcases hr with ⟨e', he, hs₁⟩ | ⟨he, -⟩
    · exact Or.inl ⟨e, rfl, hs₁⟩
    · cases he

/-- The commit is refused, or goes. -/
theorem wpF_tempCommit (hmode : UsesTemp job mode) (hsink : TempSink srv job mode tmp f sink)
    (hs : HasTemp srv job s₀ tmp f h s) (etag : Nat → Nat → Text) :
    WpF srv job s₀ (sink.commit etag) (fun r _ s =>
      (∃ file, r = .ok file) ∨ ChangesNothing srv job s₀ s) h s := by
  have hstand : Standing srv job s₀ h (HasTemp srv job s₀ tmp f h) := standing_temp hmode hs.held
  unfold FsSink.commit
  rw [hsink.temp, hsink.blocks]
  apply hstand.await_then hs (Or.inl rfl)
  intro s₁ c t a hs₁ hgoes hexec
  obtain rfl := go_of_callGoes hmode hs.held hgoes
  cases hexec
  apply wp_other_then _ (fun _ heq => by cases heq)
  intro _ _
  apply hstand.await_then hs₁ (Or.inl rfl)
  intro s₂ c t a hs₂ hgoes hexec
  obtain rfl := go_of_callGoes hmode hs.held hgoes
  cases hexec
  apply wp_other_then _ (fun _ heq => by cases heq)
  intro _ _
  apply wp_then (wpF_publish hmode sink hs₂)
  · intro _ h' s₃ hr
    rcases hr with ⟨e, he, -⟩ | ⟨-, rfl, hentry⟩
    · cases he
    · have hmoved : Standing srv job s₀ h' fun s => s.disk.entry sink.target = .file f := by
        apply standing_committed (hmode.not_mayFail hs.held)
        intro s t hentry hdisk
        rw [hdisk]
        exact hentry
      apply hmoved.await_then hentry (Or.inl rfl)
      intro s₄ c t a hs₄ hgoes hexec
      obtain rfl := go_of_callGoes hmode hs.held hgoes
      simp only [Op.exec, hs₄] at hexec
      cases hexec
      apply wp_other_then _ (fun _ heq => by cases heq)
      intro stat _
      exact Or.inl ⟨_, rfl⟩
  · intro e h' s₃ hr
    rcases hr with ⟨e', he, hs₃⟩ | ⟨he, -⟩
    · exact Or.inr hs₃
    · cases he

end Temporaries

/-! ## What comes of an upload -/

section Ends

variable {srv : Server} {job : UploadJob} {s₀ s : Store} {h : Held} {sink : FsSink}

/-- The upload is answered 201, or has changed nothing. -/
def Ends201 (srv : Server) (job : UploadJob) (s₀ : Store) (r : Except ApiError Reply) (s : Store) :
    Prop := (∃ file, r = .ok (.created file)) ∨ ChangesNothing srv job s₀ s

theorem wpF_commitReply (hcommit : WpF srv job s₀ (sink.commit srv.etag) (fun r _ s =>
      (∃ file, r = .ok file) ∨ ChangesNothing srv job s₀ s) h s) :
    WpF srv job s₀ (commitReply srv sink) (fun r _ s => Ends201 srv job s₀ r s) h s := by
  unfold commitReply
  apply wp_orElse_then hcommit
  · intro file _ _ _
    exact Or.inl ⟨_, rfl⟩
  · intro e _ s hr
    rcases hr with ⟨file, hfile⟩ | hs
    · cases hfile
    · exact Or.inr hs

/-- An upload after its sink is open. -/
theorem wpF_serveSequential {mode : WriteMode} {G : Nat → Held → Store → Prop}
    {E : Held → Store → Prop}
    (hbody : WpF srv job s₀
      (streamBody (writeBatch srv sink mode.resumeOffset job.fileMeta.size) job.body)
      (fun r h s =>
        match r with
        | .ok n => G n h s
        | .error _ => E h s) h s)
    (habort : ∀ (e : ApiError) h s, E h s →
      WpF srv job s₀ (abortWith sink e) (fun r _ s => Ends201 srv job s₀ r s) h s)
    (hwrong : ∀ (e : ApiError) n h s, G n h s → job.finalChunk = true ∧
        satAdd mode.resumeOffset n ≠ job.fileMeta.size →
      WpF srv job s₀ (abortWith sink e) (fun r _ s => Ends201 srv job s₀ r s) h s)
    (hcommit : ∀ n h s, G n h s → WpF srv job s₀ (sink.commit srv.etag) (fun r _ s =>
      (∃ file, r = .ok file) ∨ ChangesNothing srv job s₀ s) h s) :
    WpF srv job s₀ (serveSequential srv job mode sink) (fun r _ s => Ends201 srv job s₀ r s)
      h s := by
  unfold serveSequential
  apply wp_seq.2
  apply wp_attempt.2
  apply wp_weaken hbody
  intro r h s hr
  cases r with
  | error e => exact habort e.error h s hr
  | ok n =>
      dsimp only [Then]
      split
      · next hmismatch => exact hwrong _ n h s hr hmismatch
      · exact wpF_commitReply (hcommit n h s hr)

/-- Through a temporary. -/
theorem wpF_serveTemp {mode : WriteMode} {tmp : FsPath} {f : Nat} (hmode : UsesTemp job mode)
    (hsink : TempSink srv job mode tmp f sink) (hs : HasTemp srv job s₀ tmp f h s) :
    WpF srv job s₀ (serveSequential srv job mode sink) (fun r _ s => Ends201 srv job s₀ r s)
      h s := by
  have habort : ∀ (e : ApiError) h s, HasTemp srv job s₀ tmp f h s →
      WpF srv job s₀ (abortWith sink e) (fun r _ s => Ends201 srv job s₀ r s) h s := by
    intro e h s hs
    apply wp_weaken (wpF_abortWith hmode hsink hs e)
    intro r _ s hr
    obtain ⟨-, -, hs⟩ := hr
    exact Or.inr hs
  have hbody : WpF srv job s₀
      (streamBody (writeBatch srv sink mode.resumeOffset job.fileMeta.size) job.body)
      (fun r h s =>
        match r with
        | .ok _ => HasTemp srv job s₀ tmp f h s
        | .error _ => HasTemp srv job s₀ tmp f h s) h s := by
    apply wp_weaken (wpF_tempBody hmode hsink hs _ _)
    intro r h s hr
    cases r with
    | ok _ => exact hr
    | error e => exact hr
  have hcommit : ∀ (_ : Nat) h s, HasTemp srv job s₀ tmp f h s →
      WpF srv job s₀ (sink.commit srv.etag) (fun r _ s =>
        (∃ file, r = .ok file) ∨ ChangesNothing srv job s₀ s) h s :=
    fun _ _ _ hs => wpF_tempCommit hmode hsink hs srv.etag
  exact wpF_serveSequential hbody habort (fun e _ h s hs _ => habort e h s hs) hcommit

end Ends

/-! ## Uploads that append -/

section Appends

variable {srv : Server} {job : UploadJob} {s₀ s : Store} {h : Held} {full : FsPath} {f offset : Nat}
  {sink : FsSink}

/-- The sink of an upload in Resume mode. -/
structure AppendSink (srv : Server) (job : UploadJob) (offset f : Nat) (sink : FsSink) : Prop where
  file : sink.file = f
  temp : sink.tmp = none
  blocks : sink.blocksPath = none
  mode : sink.mode = .resume offset
  target : resolve srv.root job.path = .ok sink.target

/-- The target is open to append to, and unchanged as long as nothing is appended. -/
structure Appending (srv : Server) (job : UploadJob) (s₀ : Store) (offset f : Nat)
    (sink : FsSink) (h : Held) (s : Store) : Prop where
  held : h.file = some f
  behind : offset ≤ h.written
  stands : s.disk.entry sink.target = .file f
  unchanged : h.written ≤ offset → ChangesNothing srv job s₀ s

theorem written_of_mayFail (hmode : writeMode job.offsetHdr = .ok (.resume offset))
    (hfile : h.file = some f) (hmay : MayFail job h) : h.written ≤ offset := by
  unfold MayFail at hmay
  rw [hmode, hfile] at hmay
  exact hmay.resolve_left fun hnone => nomatch hnone

theorem standing_appending (hmode : writeMode job.offsetHdr = .ok (.resume offset))
    (hfile : h.file = some f) : Standing srv job s₀ h (Appending srv job s₀ offset f sink h) where
  stable := by
    intro s t hs hdisk
    refine ⟨hs.held, hs.behind, ?_, fun hw => (hs.unchanged hw).of_disk hdisk⟩
    rw [hdisk]
    exact hs.stands
  safe := fun _ hs hmay => hs.unchanged (written_of_mayFail hmode hfile hmay)

/-- `write_stream` in Resume mode. -/
theorem wpF_writeStreamResume (hfull : resolve srv.root job.path = .ok full)
    (hs : ChangesNothing srv job s₀ s) :
    WpF srv job s₀ (writeStreamResume full job.path offset) (fun r h s =>
      Refused srv job s₀ r s ∨ ∃ sink f, r = .ok sink ∧ AppendSink srv job offset f sink ∧
        Appending srv job s₀ offset f sink h s ∧ h.written ≤ offset) h s := by
  unfold writeStreamResume
  apply standing_unchanged.await_then hs (Or.inl rfl)
  intro s₁ c t _ hs₁ _ hexec
  obtain ⟨-, rfl⟩ := exec_lock hexec
  have hs₂ : ChangesNothing srv job s₀ (s₁.acquire full 0) := hs₁.of_disk rfl
  apply standing_unchanged.await_then hs₂ (Or.inl rfl)
  intro s₃ c t a hs₃ _ hexec
  obtain ⟨rfl, ⟨e, rfl⟩ | ⟨f, hentry, rfl⟩⟩ := exec_openExisting hexec
  · exact Or.inl ⟨_, rfl, hs₃⟩
  · apply wp_other_then _ (fun _ heq => nomatch heq)
    intro g hg
    cases hg
    apply wp_update_then.2
    have hopen : Standing srv job s₀ { h with file := some f } fun s =>
        ChangesNothing srv job s₀ s ∧ s.disk.entry full = .file f := by
      constructor
      · intro s t hst hdisk
        refine ⟨hst.1.of_disk hdisk, ?_⟩
        rw [hdisk]
        exact hst.2
      · exact fun _ hst _ => hst.1
    apply hopen.await_then ⟨hs₃, hentry⟩ (Or.inl rfl)
    intro s₄ c t a hs₄ _ hexec
    obtain ⟨rfl, -⟩ := exec_len hexec
    apply wp_other_then
    · intro current _
      split
      · exact Or.inl ⟨_, rfl, hs₄.1⟩
      · exact Or.inr ⟨_, f, rfl, ⟨rfl, rfl, rfl, rfl, hfull⟩,
          ⟨rfl, Nat.le_refl _, hs₄.2, fun _ => hs₄.1⟩, Nat.le_refl _⟩
    · intro e _
      exact Or.inl ⟨_, rfl, hs₄.1⟩

/-- Nothing is appended. -/
theorem ChangesNothing.appendNothing (hs : ChangesNothing srv job s₀ s) (f : Nat) :
    ChangesNothing srv job s₀ (s.write f (appended srv.serde [])) := by
  apply hs.trans
  refine ⟨?_, fun _ _ _ hg => hg⟩
  intro full _
  refine ⟨rfl, ?_⟩
  intro g _
  by_cases hgf : g = f
  · rw [hgf, write_content_self]
    unfold appended
    simp only [List.map_nil, List.append_nil, Content.cells]
  · rw [write_content_ne hgf]

/-- A batch that is let pass is appended, or nothing has changed. -/
theorem wpF_append (hmode : writeMode job.offsetHdr = .ok (.resume offset))
    (hsink : AppendSink srv job offset f sink) (hs : Appending srv job s₀ offset f sink h s)
    {buf : List UInt8} (hbuf : buf ≠ []) :
    WpF srv job s₀ (sink.write buf) (fun r h s =>
      match r with
      | .ok _ => Appending srv job s₀ offset f sink h s
      | .error _ => ChangesNothing srv job s₀ s) h s := by
  have hall : sink.writeAll buf h.written = await (.append sink.file buf) := by
    unfold FsSink.writeAll
    rw [hsink.mode]
  have hstand : Standing srv job s₀ h (Appending srv job s₀ offset f sink h) :=
    standing_appending hmode hs.held
  unfold FsSink.write
  apply wp_held_then.2
  rw [hall]
  apply hstand.await_then hs (Or.inl rfl)
  intro s₁ c t a hs₁ hgoes hexec
  rcases hgoes with rfl | ⟨hmay, hnothing⟩
  · cases hexec
    refine ⟨hs₁.held, Nat.le_add_right_of_le hs₁.behind, hs₁.stands, ?_⟩
    intro hw
    have hpos := List.length_pos_iff.2 hbuf
    have hle : h.written + buf.length ≤ offset := hw
    have hbehind := hs₁.behind
    omega
  · obtain ⟨m, rfl⟩ : ∃ m, c = .fail 0 m := by
      cases c with
      | go => cases hnothing
      | fail n m => exact ⟨m, by rw [of_decide_eq_true hnothing]⟩
    cases hexec
    rw [List.take_zero]
    exact (hs₁.unchanged (written_of_mayFail hmode hs.held hmay)).appendNothing _

theorem wpF_appendBatch (hmode : writeMode job.offsetHdr = .ok (.resume offset))
    (hsink : AppendSink srv job offset f sink) (hs : Appending srv job s₀ offset f sink h s)
    {n : Nat} {data : List UInt8} (hdata : data ≠ [])
    (hfits : batchFits srv offset job.fileMeta.size n data = true) :
    WpF srv job s₀ (writeBatch srv sink offset job.fileMeta.size n data) (fun r h s =>
      match r with
      | .ok _ => Appending srv job s₀ offset f sink h s
      | .error _ => ChangesNothing srv job s₀ s) h s := by
  obtain ⟨hmax, hsize⟩ := Bool.and_eq_true_iff.1 hfits
  unfold writeBatch
  dsimp only
  rw [if_neg (Nat.not_lt.2 (of_decide_eq_true hmax)),
    if_neg (Nat.not_lt.2 (of_decide_eq_true hsize))]
  apply wp_orElse.2
  apply wp_weaken (wpF_append hmode hsink hs hdata)
  intro r h s hr
  cases r with
  | ok _ => exact hr
  | error e => exact hr

/-- A batch that is not let pass. -/
theorem writeBatch_refused {size n : Nat} {data : List UInt8}
    (hfits : batchFits srv offset size n data = false) :
    ∃ e, writeBatch srv sink offset size n data = fail e := by
  unfold writeBatch
  dsimp only
  split
  · exact ⟨_, rfl⟩
  · split
    · exact ⟨_, rfl⟩
    · next hmax hsize =>
        rw [batchFits, decide_eq_true (Nat.not_lt.1 hmax), decide_eq_true (Nat.not_lt.1 hsize)] at hfits
        cases hfits

/-- A body that is let pass as a whole. -/
theorem wpF_wholeBody (hmode : writeMode job.offsetHdr = .ok (.resume offset))
    (hsink : AppendSink srv job offset f sink) (hs : Appending srv job s₀ offset f sink h s)
    (hbody : bodyFits srv job offset 0 job.body.events = true) :
    WpF srv job s₀ (streamBody (writeBatch srv sink offset job.fileMeta.size) job.body)
      (fun r h s =>
        match r with
        | .ok n => (job.finalChunk = true → satAdd offset n = job.fileMeta.size) ∧
            Appending srv job s₀ offset f sink h s
        | .error _ => ChangesNothing srv job s₀ s) h s := by
  have hchunk : ∀ n events h s,
      (bodyFits srv job offset n events = true ∧ Appending srv job s₀ offset f sink h s) →
      WpF srv job s₀ (await .nextChunk : Fs StreamError Unit) (fun r h s => r = .ok () ∧
        (bodyFits srv job offset n events = true ∧ Appending srv job s₀ offset f sink h s)) h s := by
    intro n events h s hI
    apply (standing_appending hmode hI.2.held).watching.look hI.2 rfl
    intro _ _ _ hs₁ _ _ _
    exact ⟨rfl, hI.1, hs₁⟩
  have hfail : ∀ n event rest h s, (∀ bytes, event ≠ .data bytes) →
      (bodyFits srv job offset n (event :: rest) = true ∧
        Appending srv job s₀ offset f sink h s) → ChangesNothing srv job s₀ s := by
    intro n event rest h s hno hI
    cases event with
    | data bytes => exact absurd rfl (hno bytes)
    | broken m | invalid m => cases hI.1
  have hdata : ∀ n bytes rest h s, (bodyFits srv job offset n (.data bytes :: rest) = true ∧
      Appending srv job s₀ offset f sink h s) →
      WpF srv job s₀ (writeSome (writeBatch srv sink offset job.fileMeta.size) n bytes)
        (fun r h s =>
          match r with
          | .ok m => bodyFits srv job offset m rest = true ∧
              Appending srv job s₀ offset f sink h s
          | .error _ => ChangesNothing srv job s₀ s) h s := by
    intro n bytes rest h s hI
    obtain ⟨hrest, hs⟩ := hI
    unfold bodyFits at hrest
    have hskip : bytes = [] → bodyFits srv job offset n rest = true ∧
        Appending srv job s₀ offset f sink h s := by
      intro hnil
      rw [if_pos hnil] at hrest
      exact ⟨hrest, hs⟩
    apply wp_writeSome_cases hskip
    intro hne
    rw [if_neg hne] at hrest
    obtain ⟨hfits, hlater⟩ := Bool.and_eq_true_iff.1 hrest
    apply wp_weaken (wpF_appendBatch hmode hsink hs hne hfits)
    intro r h s hr
    cases r with
    | ok _ => exact ⟨hlater, hr⟩
    | error e => exact hr
  have hcut : ∀ (n : Nat) e (h : Held) (s : Store), job.body.finish = .error e →
      (bodyFits srv job offset n [] = true ∧ Appending srv job s₀ offset f sink h s) →
      ChangesNothing srv job s₀ s := by
    intro n e h s hfinish hI
    have hno := hI.1
    unfold bodyFits at hno
    rw [hfinish] at hno
    cases hno
  have htail : ∀ n out h s, job.body.finish = .ok out →
      (bodyFits srv job offset n [] = true ∧ Appending srv job s₀ offset f sink h s) →
      WpF srv job s₀ (writeSome (writeBatch srv sink offset job.fileMeta.size) n out)
        (fun r h s =>
          match r with
          | .ok m => (job.finalChunk = true → satAdd offset m = job.fileMeta.size) ∧
              Appending srv job s₀ offset f sink h s
          | .error _ => ChangesNothing srv job s₀ s) h s := by
    intro n out h s hfinish hI
    obtain ⟨hlast, hs⟩ := hI
    unfold bodyFits at hlast
    rw [hfinish] at hlast
    obtain ⟨hfits, htotal⟩ := Bool.and_eq_true_iff.1 hlast
    have hfinal : job.finalChunk = true →
        satAdd offset (if out = [] then n else satAdd n out.length) = job.fileMeta.size := by
      intro hfinalChunk
      rw [hfinalChunk] at htotal
      exact of_decide_eq_true htotal
    have hskip : out = [] → (job.finalChunk = true → satAdd offset n = job.fileMeta.size) ∧
        Appending srv job s₀ offset f sink h s := by
      intro hnil
      rw [if_pos hnil] at hfinal
      exact ⟨hfinal, hs⟩
    apply wp_writeSome_cases hskip
    intro hne
    rw [if_neg hne] at hfinal
    have hbatch : batchFits srv offset job.fileMeta.size n out = true := by
      rw [decide_eq_false hne] at hfits
      exact hfits
    apply wp_weaken (wpF_appendBatch hmode hsink hs hne hbatch)
    intro r h s hr
    cases r with
    | ok _ => exact ⟨hfinal, hr⟩
    | error e => exact hr
  exact wp_streamBody_events job.body hchunk hfail hdata hcut htail ⟨hbody, hs⟩

/-- A body of which nothing is let pass. -/
theorem wpF_noBody (hbody : nothingFits srv job offset job.body.events = true)
    (hs : ChangesNothing srv job s₀ s) :
    WpF srv job s₀ (streamBody (writeBatch srv sink offset job.fileMeta.size) job.body)
      (fun r _ s =>
        match r with
        | .ok _ => ChangesNothing srv job s₀ s
        | .error _ => ChangesNothing srv job s₀ s) h s := by
  -- as long as batches are empty, none has been counted
  have hwrite : ∀ (n : Nat) (data : List UInt8) (h : Held) s, n = 0 →
      (data ≠ [] → batchFits srv offset job.fileMeta.size 0 data = false) →
      ChangesNothing srv job s₀ s →
      WpF srv job s₀ (writeSome (writeBatch srv sink offset job.fileMeta.size) n data)
        (fun r _ s =>
          match r with
          | .ok m => m = 0 ∧ data = [] ∧ ChangesNothing srv job s₀ s
          | .error _ => ChangesNothing srv job s₀ s) h s := by
    intro n data h s hn hfits hs
    unfold writeSome
    rw [hn]
    by_cases hnil : data = []
    · rw [if_pos hnil]
      exact ⟨rfl, hnil, hs⟩
    · rw [if_neg hnil]
      obtain ⟨e, he⟩ : ∃ e, writeBatch srv sink offset job.fileMeta.size 0 data = fail e :=
        writeBatch_refused (hfits hnil)
      rw [he]
      exact hs
  have hchunk : ∀ n events h s,
      (n = 0 ∧ nothingFits srv job offset events = true ∧ ChangesNothing srv job s₀ s) →
      WpF srv job s₀ (await .nextChunk : Fs StreamError Unit) (fun r _ s => r = .ok () ∧
        (n = 0 ∧ nothingFits srv job offset events = true ∧ ChangesNothing srv job s₀ s)) h s := by
    intro n events h s hI
    obtain ⟨hn, hrest, hs⟩ := hI
    apply standing_unchanged.watching.look hs rfl
    intro _ _ _ hs₁ _ _ _
    exact ⟨rfl, hn, hrest, hs₁⟩
  have hfail : ∀ n event rest (h : Held) s, (∀ bytes, event ≠ .data bytes) →
      (n = 0 ∧ nothingFits srv job offset (event :: rest) = true ∧
        ChangesNothing srv job s₀ s) → ChangesNothing srv job s₀ s :=
    fun _ _ _ _ _ _ hI => hI.2.2
  have hdata : ∀ n bytes rest h s, (n = 0 ∧
      nothingFits srv job offset (.data bytes :: rest) = true ∧ ChangesNothing srv job s₀ s) →
      WpF srv job s₀ (writeSome (writeBatch srv sink offset job.fileMeta.size) n bytes)
        (fun r _ s =>
          match r with
          | .ok m => m = 0 ∧ nothingFits srv job offset rest = true ∧
              ChangesNothing srv job s₀ s
          | .error _ => ChangesNothing srv job s₀ s) h s := by
    intro n bytes rest h s hI
    obtain ⟨hn, hrest, hs⟩ := hI
    unfold nothingFits at hrest
    have hfits : bytes ≠ [] → batchFits srv offset job.fileMeta.size 0 bytes = false := by
      intro hne
      rw [if_neg hne] at hrest
      exact Bool.not_eq_true' _ ▸ hrest
    apply wp_weaken (hwrite n bytes h s hn hfits hs)
    intro r h s hr
    cases r with
    | ok m =>
        obtain ⟨hm, hnil, hs⟩ := hr
        rw [if_pos hnil] at hrest
        exact ⟨hm, hrest, hs⟩
    | error e => exact hr
  have hcut : ∀ (n : Nat) e (h : Held) s, job.body.finish = .error e →
      (n = 0 ∧ nothingFits srv job offset [] = true ∧ ChangesNothing srv job s₀ s) →
      ChangesNothing srv job s₀ s := fun _ _ _ _ _ hI => hI.2.2
  have htail : ∀ n out h s, job.body.finish = .ok out →
      (n = 0 ∧ nothingFits srv job offset [] = true ∧ ChangesNothing srv job s₀ s) →
      WpF srv job s₀ (writeSome (writeBatch srv sink offset job.fileMeta.size) n out)
        (fun r _ s =>
          match r with
          | .ok _ => ChangesNothing srv job s₀ s
          | .error _ => ChangesNothing srv job s₀ s) h s := by
    intro n out h s hfinish hI
    obtain ⟨hn, hlast, hs⟩ := hI
    unfold nothingFits at hlast
    rw [hfinish] at hlast
    dsimp only at hlast
    have hfits : out ≠ [] → batchFits srv offset job.fileMeta.size 0 out = false := by
      intro hne
      rw [decide_eq_false hne, Bool.false_or] at hlast
      exact Bool.not_eq_true' _ ▸ hlast
    apply wp_weaken (hwrite n out h s hn hfits hs)
    intro r h s hr
    cases r with
    | ok m => exact hr.2.2
    | error e => exact hr
  exact wp_streamBody_events job.body hchunk hfail hdata hcut htail ⟨rfl, hbody, hs⟩

/-- Aborting an append takes nothing back. -/
theorem abortWith_append (hsink : AppendSink srv job offset f sink) (e : ApiError)
    {Q : Except ApiError Reply → Held → Store → Prop} (hQ : Q (.error e) h s) :
    WpF srv job s₀ (abortWith sink e) Q h s := by
  unfold abortWith FsSink.abort
  rw [hsink.temp, hsink.blocks]
  exact hQ

/-- A commit of what has not been appended. -/
theorem wpF_emptyCommit (hsink : AppendSink srv job offset f sink)
    (hs : ChangesNothing srv job s₀ s) (etag : Nat → Nat → Text) :
    WpF srv job s₀ (sink.commit etag) (fun _ _ s => ChangesNothing srv job s₀ s) h s := by
  unfold FsSink.commit
  rw [hsink.temp, hsink.blocks]
  apply standing_unchanged.watching.look_then hs rfl
  intro s₁ _ _ hs₁ _ _ _
  apply wp_other_then _ (fun _ _ => hs₁)
  intro _ _
  apply standing_unchanged.watching.look_then hs₁ rfl
  intro s₂ _ _ hs₂ _ _ _
  apply wp_other_then _ (fun _ _ => hs₂)
  intro _ _
  apply standing_unchanged.watching.look_then hs₂ rfl
  intro s₃ _ _ hs₃ _ _ _
  exact wp_other_then (fun _ _ => hs₃) (fun _ _ => hs₃)

/-- A commit of what has been appended goes. -/
theorem wpF_appendCommit (hmode : writeMode job.offsetHdr = .ok (.resume offset))
    (hsink : AppendSink srv job offset f sink) (hs : Appending srv job s₀ offset f sink h s)
    (etag : Nat → Nat → Text) :
    WpF srv job s₀ (sink.commit etag) (fun r _ s =>
      (∃ file, r = .ok file) ∨ ChangesNothing srv job s₀ s) h s := by
  have hstand : Standing srv job s₀ h (Appending srv job s₀ offset f sink h) :=
    standing_appending hmode hs.held
  -- a call that fails is one before anything is appended
  have hfails : ∀ {n m} s, Appending srv job s₀ offset f sink h s →
      (MayFail job h ∨ Choice.fail n m = .go) → ChangesNothing srv job s₀ s := by
    intro n m s hs hgoes
    exact hstand.safe s hs (hgoes.resolve_right fun heq => nomatch heq)
  unfold FsSink.commit
  rw [hsink.temp, hsink.blocks]
  apply hstand.await_then hs (Or.inl rfl)
  intro s₁ c t a hs₁ hgoes hexec
  cases c with
  | fail n m =>
      cases hexec
      exact Or.inr (hfails s₁ hs₁ hgoes)
  | go =>
      cases hexec
      apply wp_other_then _ (fun _ heq => nomatch heq)
      intro _ _
      apply hstand.await_then hs₁ (Or.inl rfl)
      intro s₂ c t a hs₂ hgoes hexec
      cases c with
      | fail n m =>
          cases hexec
          exact Or.inr (hfails s₂ hs₂ hgoes)
      | go =>
          cases hexec
          apply wp_other_then _ (fun _ heq => nomatch heq)
          intro _ _
          apply hstand.await_then hs₂ (Or.inl rfl)
          intro s₃ c t a hs₃ hgoes hexec
          cases c with
          | fail n m =>
              cases hexec
              exact Or.inr (hfails s₃ hs₃ hgoes)
          | go =>
              simp only [Op.exec, hs₃.stands] at hexec
              cases hexec
              exact Or.inl ⟨_, rfl⟩

/-- An upload in Resume mode. -/
theorem wpF_serveResume (hmode : writeMode job.offsetHdr = .ok (.resume offset))
    (hbody : AllOrNothing srv job) (hsink : AppendSink srv job offset f sink)
    (hs : Appending srv job s₀ offset f sink h s) (hfresh : h.written ≤ offset) :
    WpF srv job s₀ (serveSequential srv job (.resume offset) sink)
      (fun r _ s => Ends201 srv job s₀ r s) h s := by
  have habort : ∀ (e : ApiError) h s, ChangesNothing srv job s₀ s →
      WpF srv job s₀ (abortWith sink e) (fun r _ s => Ends201 srv job s₀ r s) h s :=
    fun e h s hs => abortWith_append hsink e (Or.inr hs)
  unfold AllOrNothing at hbody
  rw [hmode] at hbody
  rcases hbody with hwhole | hnothing
  · apply wpF_serveSequential (wpF_wholeBody hmode hsink hs hwhole) habort
    · intro e n h s hG hmismatch
      exact absurd (hG.1 hmismatch.1) hmismatch.2
    · intro n h s hG
      exact wpF_appendCommit hmode hsink hG.2 srv.etag
  · apply wpF_serveSequential (wpF_noBody hnothing (hs.unchanged hfresh)) habort
    · intro e _ h s hs _
      exact habort e h s hs
    · intro _ h s hs
      exact wp_weaken (wpF_emptyCommit hsink hs srv.etag) fun _ _ _ hs => Or.inr hs

end Appends

/-! ## The whole upload -/

section Whole

variable {srv : Server} {job : UploadJob} {s₀ s : Store} {h : Held}

/-- **An upload whose failures leave nothing behind is answered 201, or changes nothing.** -/
theorem wpF_runUpload (hsession : job.session = none) (hbody : AllOrNothing srv job)
    (hfile : h.file = none) (hs : ChangesNothing srv job s₀ s) :
    WpF srv job s₀ (runUpload srv job) (fun r _ s => Ends201 srv job s₀ r s) h s := by
  have hprepare : WpF srv job s₀ (prepare srv.root job.path) (fun r h' s => h' = h ∧
      ChangesNothing srv job s₀ s ∧ ∀ full, r = .ok full → resolve srv.root job.path = .ok full)
      h s := by
    apply wp_prepare standing_unchanged.watching _ hs
    intro s full parent hfull hparent hs _
    have hmade := hs.mkdirs hfull hparent
    refine ⟨?_, failing_kept _ _, hmade⟩
    intro _
    refine ⟨hs, ?_⟩
    intro _ c t a hexec
    rcases exec_createDirAll hexec with rfl | rfl
    · exact hs
    · exact hmade
  unfold runUpload
  rw [hsession]
  unfold uploadSequential
  apply wp_lift_then _ (fun e _ => Or.inr hs)
  intro mode hmode
  have htemp : (∀ offset, mode ≠ .resume offset) → WpF srv job s₀ (do
      let sink ← orElse .storage (do
        let full ← prepare srv.root job.path
        writeStreamTemp full job.path mode)
      serveSequential srv job mode sink) (fun r _ s => Ends201 srv job s₀ r s) h s := by
    intro hnot
    have hopen : WpF srv job s₀ (prepare srv.root job.path >>= fun full =>
        writeStreamTemp full job.path mode) (fun r h s => Refused srv job s₀ r s ∨
          ∃ sink tmp f, r = .ok sink ∧ TempSink srv job mode tmp f sink ∧
            HasTemp srv job s₀ tmp f h s) h s := by
      apply wp_then hprepare
      · intro full h' s hr
        obtain ⟨rfl, hs, hfull⟩ := hr
        exact wpF_writeStreamTemp (hfull full rfl) hfile hs
      · intro e h' s hr
        exact Or.inl ⟨e, rfl, hr.2.1⟩
    apply wp_orElse_then hopen
    · intro sink h' s hr
      rcases hr with ⟨e, he, -⟩ | ⟨sink', tmp, f, heq, hsink, hs⟩
      · cases he
      · cases heq
        exact wpF_serveTemp ⟨hmode, hnot⟩ hsink hs
    · intro e h' s hr
      rcases hr with ⟨-, -, hs⟩ | ⟨sink', -, -, heq, -⟩
      · exact Or.inr hs
      · cases heq
  cases mode with
  | create => exact htemp fun _ heq => nomatch heq
  | overwrite => exact htemp fun _ heq => nomatch heq
  | resume offset =>
      have hopen : WpF srv job s₀ (writeStream srv.root job.path (.resume offset))
          (fun r h s => Refused srv job s₀ r s ∨ ∃ sink f, r = .ok sink ∧
            AppendSink srv job offset f sink ∧ Appending srv job s₀ offset f sink h s ∧
              h.written ≤ offset) h s := by
        unfold writeStream
        apply wp_then hprepare
        · intro full h' s hr
          obtain ⟨rfl, hs, hfull⟩ := hr
          exact wpF_writeStreamResume (hfull full rfl) hs
        · intro e h' s hr
          exact Or.inl ⟨e, rfl, hr.2.1⟩
      apply wp_orElse_then hopen
      · intro sink h' s hr
        rcases hr with ⟨e, he, -⟩ | ⟨sink', f, heq, hsink, hs, hfresh⟩
        · cases he
        · cases heq
          exact wpF_serveResume hmode hbody hsink hs hfresh
      · intro e h' s hr
        rcases hr with ⟨-, -, hs⟩ | ⟨sink', -, heq, -⟩
        · exact Or.inr hs
        · cases heq

/-- The upload in a run: before its first call, while it waits, and after its end. -/
def UploadCourse (srv : Server) (job : UploadJob) (s₀ : Store) (t : UploadState) : Prop :=
  match t.task 0 with
  | .idle => ChangesNothing srv job s₀ t.shared
  | .waiting req call k => req = job ∧ wp (uploadSystem srv) (failing srv job s₀) 0 job
      (.call call k) (fun r s => Ends201 srv job s₀ r.1 s) t.shared
  | .finished _ r => Ends201 srv job s₀ r.1 t.shared
  | .dropped _ => ChangesNothing srv job s₀ t.shared

theorem Ends201.of_disk {t : Store} {r : Except ApiError Reply} (h : Ends201 srv job s₀ r s)
    (hdisk : t.disk = s.disk) : Ends201 srv job s₀ r t := by
  rcases h with hfile | hs
  · exact Or.inl hfile
  · exact Or.inr (hs.of_disk hdisk)

/-- A program that has stopped again, or ended. -/
theorem course_put {t : UploadState} {prog : Code (Except ApiError Reply × Held)}
    (h : wp (uploadSystem srv) (failing srv job s₀) 0 job prog
      (fun r s => Ends201 srv job s₀ r.1 s) s) :
    UploadCourse srv job s₀ ((uploadSystem srv).put t s 0 job prog) := by
  cases prog with
  | done r =>
      simp only [UploadCourse, System.put, State.set_task_self]
      exact Ends201.of_disk h rfl
  | call o k =>
      simp only [UploadCourse, System.put, State.set_task_self]
      exact ⟨trivial, h⟩

/-- One event. -/
theorem UploadCourse.next {t u : UploadState} {a : UploadAct} (hsession : job.session = none)
    (h : UploadCourse srv job s₀ t) (hone : OneUpload job a) (hsafe : FailsSafely srv job t a)
    (hnext : (uploadSystem srv).next t a = some u) : UploadCourse srv job s₀ u := by
  rcases System.next_cases hnext with ⟨i, req, rfl, hidle, rfl⟩ |
    ⟨i, c, req, call, k, sh, ans, rfl, hwait, hexec, rfl⟩ | ⟨i, req, call, k, rfl, hwait, rfl⟩ |
    ⟨e, rfl, rfl⟩
  · obtain ⟨rfl, rfl⟩ := hone
    simp only [UploadCourse, hidle] at h
    exact course_put (wpF_runUpload hsession hsafe rfl h)
  · obtain rfl : i = 0 := hone
    simp only [FailsSafely, hwait] at hsafe
    simp only [UploadCourse, hwait] at h
    obtain ⟨rfl, hwp⟩ := h
    exact course_put ((hwp t.shared (fun _ => rfl) trivial).2 c sh ans hsafe hexec).2
  · obtain rfl : i = 0 := hone
    simp only [FailsSafely, hwait] at hsafe
    simp only [UploadCourse, hwait] at h
    have hunchanged := ((h.2 t.shared (fun _ => rfl) trivial).1 hsafe.1).1
    simp only [UploadCourse, State.set_task_self]
    exact hunchanged.of_disk rfl
  · cases e with
    | place p cells => exact absurd hone id
    | tick n =>
        have hdisk : ((uploadSystem srv).disturb (.tick n) t.shared).disk = t.shared.disk := rfl
        cases htask : t.task 0 with
        | idle | finished | dropped =>
            simp only [UploadCourse, htask] at h ⊢
            exact h.of_disk hdisk
        | waiting req call k =>
            simp only [UploadCourse, htask] at h ⊢
            refine ⟨h.1, ?_⟩
            intro s₁ hrely
            exact h.2 s₁ fun h0 => (hrely h0).trans hdisk

theorem course_of_reaches (hsession : job.session = none) {t : UploadState}
    (hrun : (uploadSystem srv).Reaches (fun u a => OneUpload job a ∧ FailsSafely srv job u a)
      (atRest s₀) t) : UploadCourse srv job s₀ t := by
  induction hrun with
  | refl => exact changesNothing_refl srv job s₀
  | tail _ hok hnext ih => exact ih.next hsession hok.1 hok.2 hnext

/-- **A sequential upload that is not answered 201 changes nothing, in every run in which
what it leaves where it fails is nothing.**  Nor does the call that it waits for where it is
dropped, if that one is carried out after all. -/
theorem failed_upload_changes_nothing (hsession : job.session = none) {t : UploadState}
    (hrun : (uploadSystem srv).Reaches (fun u a => OneUpload job a ∧ FailsSafely srv job u a)
      (atRest s₀) t) :
    FailsWhole srv job s₀ t ∧ ∀ call k c s a, t.task 0 = .waiting job call k →
      FailsSafely srv job t (.drop 0) → call.1.exec srv.serde 0 c t.shared = some (s, a) →
      ChangesNothing srv job s₀ s := by
  have hcourse := course_of_reaches hsession hrun
  refine ⟨⟨?_, ?_⟩, ?_⟩
  · intro r held hdone hno
    simp only [UploadCourse, hdone] at hcourse
    rcases hcourse with ⟨file, hfile⟩ | hs
    · exact absurd hfile (hno file)
    · exact hs
  · intro hdropped
    simp only [UploadCourse, hdropped] at hcourse
    exact hcourse
  · intro call k c s a hwait hsafe hexec
    simp only [FailsSafely, hwait] at hsafe
    simp only [UploadCourse, hwait] at hcourse
    have hmark := (hcourse.2 t.shared (fun _ => rfl) trivial).1 hsafe.1
    exact hmark.2 hsafe.2 c s a hexec

end Whole

/-! ## An overwrite that is aborted -/

/-- A sequential upload of one chunk, and another that the decompressor rejects or none. -/
def chunkJob (offsetHdr : Text) (rejected : Bool) : UploadJob where
  path := "notes".toList
  fileMeta := ⟨"notes".toList, 10, 0, []⟩
  finalChunk := false
  offsetHdr := some offsetHdr
  session := none
  body := ⟨.data [6] :: if rejected then [.invalid "unexpected end of file".toList] else [], .ok []⟩

/-- So many calls of a request, none of which fails. -/
def goActs (job : UploadJob) (calls : Nat) : List UploadAct :=
  .start 0 job :: List.replicate calls (.step 0 .go)

/-- The path of its target. -/
def notesPath : FsPath := sampleServer.root ++ [.normal "notes".toList]

/-- The target is a file of one byte. -/
def oneByteStore : Store := sampleStore.create notesPath (.bytes [some 5])

/-- The request has been answered with an error. -/
def refusedWith (job : UploadJob) (t : UploadState) : Bool :=
  match t.task 0 with
  | .finished req (.error _, _) => req = job
  | _ => false

theorem exists_of_refusedWith {job : UploadJob} {t : UploadState} (h : refusedWith job t = true) :
    ∃ e held, t.task 0 = .finished job (.error e, held) := by
  unfold refusedWith at h
  split at h
  · next req e held htask =>
      rw [of_decide_eq_true h] at htask
      exact ⟨e, held, htask⟩
  · cases h

/-- The request is refused, and has changed nothing. -/
theorem aborted_overwrite_changes_nothing :
    ∃ t, (uploadSystem sampleServer).Reaches (fun u a => OneUpload (chunkJob "0".toList true) a ∧
        FailsSafely sampleServer (chunkJob "0".toList true) u a) (atRest oneByteStore) t ∧
      refusedWith (chunkJob "0".toList true) t = true ∧
      FailsWhole sampleServer (chunkJob "0".toList true) oneByteStore t := by
  have hrun : (((uploadSystem sampleServer).runIf (fun u a =>
      decide (OneUpload (chunkJob "0".toList true) a ∧
        FailsSafely sampleServer (chunkJob "0".toList true) u a))
      (atRest oneByteStore) (goActs (chunkJob "0".toList true) 8)).any
        (refusedWith (chunkJob "0".toList true))) = true := by
    decide +kernel
  obtain ⟨t, ht, hrefused⟩ := (Option.any_eq_true _ _).1 hrun
  have hreach : (uploadSystem sampleServer).Reaches (fun u a =>
      OneUpload (chunkJob "0".toList true) a ∧
        FailsSafely sampleServer (chunkJob "0".toList true) u a) (atRest oneByteStore) t :=
    System.reaches_of_runIf (fun _ _ htest => of_decide_eq_true htest) ht
  exact ⟨t, hreach, hrefused, (failed_upload_changes_nothing rfl hreach).1⟩

/-! ## Uploads that leave something behind -/

theorem oneUpload_goActs (job : UploadJob) (calls : Nat) (a : UploadAct)
    (ha : a ∈ goActs job calls) : OneUpload job a := by
  rcases List.mem_cons.1 ha with rfl | hstep
  · exact ⟨rfl, rfl⟩
  · rw [(List.mem_replicate.1 hstep).2]
    rfl

/-- The number of bytes in the target. -/
def notesLength (t : UploadState) : Nat :=
  match t.shared.disk.entry notesPath with
  | .file f => ((t.shared.content f).cells sampleServer.serde).length
  | _ => 0

/-- **What an upload has appended before it is refused stays in the target.** -/
theorem failed_resume_extends :
    ¬ ∀ (srv : Server) (job : UploadJob), job.session = none → ∀ (s₀ : Store) (t : UploadState),
      (uploadSystem srv).Reaches (fun _ a => OneUpload job a) (atRest s₀) t →
        FailsWhole srv job s₀ t := by
  intro hall
  have hrun : (((uploadSystem sampleServer).run (atRest oneByteStore)
      (goActs (chunkJob "1".toList true) 8)).any fun t =>
        refusedWith (chunkJob "1".toList true) t && notesLength t = 2) = true := by
    decide +kernel
  obtain ⟨t, ht, hend⟩ := (Option.any_eq_true _ _).1 hrun
  obtain ⟨hrefused, hlength⟩ := Bool.and_eq_true_iff.1 hend
  have hwhole := hall sampleServer (chunkJob "1".toList true) rfl oneByteStore t
    (System.reaches_of_run (fun a ha _ => oneUpload_goActs _ _ a ha) ht)
  obtain ⟨e, held, htask⟩ := exists_of_refusedWith hrefused
  have hresolve : resolve sampleServer.root (chunkJob "1".toList true).path = .ok notesPath := by
    decide +kernel
  have hsame := (hwhole.refused _ held htask fun _ h => nomatch h).target notesPath hresolve
  have hentry : oneByteStore.disk.entry notesPath = .file 0 := Disk.create_entry_self _ _
  have hlen : notesLength t = 1 := by
    unfold notesLength
    rw [hsame.entry, hentry]
    exact congrArg List.length (hsame.bytes 0 hentry)
  rw [hlen] at hlength
  cases hlength

/-- The temporary of a request that is dropped stays. -/
theorem dropped_upload_leaves_temp :
    ∃ t, (uploadSystem sampleServer).Reaches (fun _ a => OneUpload (chunkJob "0".toList false) a)
        (atRest oneByteStore) t ∧
      t.task 0 matches .dropped _ ∧
      (t.shared.disk.entry (tempPathFor notesPath 0 0)).isFile = true := by
  have hrun : (((uploadSystem sampleServer).run (atRest oneByteStore)
      (goActs (chunkJob "0".toList false) 6 ++ [.drop 0])).any fun t =>
        (t.task 0 matches .dropped _) &&
          (t.shared.disk.entry (tempPathFor notesPath 0 0)).isFile) = true := by
    decide +kernel
  obtain ⟨t, ht, hend⟩ := (Option.any_eq_true _ _).1 hrun
  obtain ⟨hdropped, htemp⟩ := Bool.and_eq_true_iff.1 hend
  refine ⟨t, System.reaches_of_run ?_ ht, hdropped, htemp⟩
  intro a ha _
  rcases List.mem_append.1 ha with hgo | hdrop
  · exact oneUpload_goActs _ _ a hgo
  · cases List.mem_singleton.1 hdrop
    rfl

/-- The temporary of an overwrite stays where the target is a directory. -/
theorem failed_rename_leaves_temp :
    ∃ t, (uploadSystem sampleServer).Reaches (fun _ a => OneUpload (chunkJob "0".toList false) a)
        (atRest (sampleStore.mkdirs [notesPath])) t ∧
      refusedWith (chunkJob "0".toList false) t = true ∧
      (t.shared.disk.entry (tempPathFor notesPath 0 0)).isFile = true := by
  have hrun : (((uploadSystem sampleServer).run (atRest (sampleStore.mkdirs [notesPath]))
      (goActs (chunkJob "0".toList false) 10)).any fun t =>
        refusedWith (chunkJob "0".toList false) t &&
          (t.shared.disk.entry (tempPathFor notesPath 0 0)).isFile) = true := by
    decide +kernel
  obtain ⟨t, ht, hend⟩ := (Option.any_eq_true _ _).1 hrun
  obtain ⟨hrefused, htemp⟩ := Bool.and_eq_true_iff.1 hend
  exact ⟨t, System.reaches_of_run (fun a ha _ => oneUpload_goActs _ _ a ha) ht, hrefused, htemp⟩

end Libfw

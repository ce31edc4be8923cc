import Libfw.UploadSystem

/-!
# Which files an upload request names

Every call of an upload request names its target, the parent of the target, or a file
beside the target that the request makes: its session's, or a temporary.  `AskedBy` says
so, for a request that may use some temporaries, write to some open files, and perhaps put
a file under its target's name (`Grant`); the `asks_*` lemmas are over all answers to its
calls.

`exec_effect` says once what a call can do to the disk: to names it was given, and to files
it has open or names.
-/

namespace Libfw

open SteppedPrograms Fs FsStorage PosixStore

/-! ## The paths of a call -/

/-- The files a call names. -/
def Op.files : Op → List FsPath
  | .checkSymlinks p | .tryExists p | .create p | .createNew p | .openExisting p => [p]
  | .lock p | .readToString p | .writeRanges p _ | .removeFile p | .metadata p => [p]
  | .rename source target => [source, target]
  | _ => []

/-- The directories a call names. -/
def Op.dirs : Op → List FsPath
  | .createDirAll p | .syncDir p => [p]
  | _ => []

/-- The names under which a call can put a file. -/
def Op.puts : Op → List FsPath
  | .create p | .createNew p | .writeRanges p _ => [p]
  | .rename _ target => [target]
  | _ => []

/-- The names a call can take away. -/
def Op.takes : Op → List FsPath
  | .removeFile p => [p]
  | .rename source _ => [source]
  | _ => []

/-- The open files a call can write to. -/
def Op.writes : Op → List Nat
  | .writeAt f _ _ | .append f _ => [f]
  | _ => []

/-- The call moves a file. -/
def Op.renames : Op → Bool
  | .rename _ _ => true
  | _ => false

/-- All a call can do to the disk. -/
inductive Op.Effect (op : Op) (s t : Store) : Prop where
  | same (h : t.disk = s.disk) (hcounter : s.counter ≤ t.counter)
  | mkdirs {d : FsPath} (hd : d ∈ op.dirs) (h : t = s.mkdirs (ancestors d))
  | create {p : FsPath} {b : Content} (hp : p ∈ op.puts) (habsent : s.disk.entry p = .absent)
      (h : t = s.create p b)
  | write {f : Nat} {u : Content → Content}
      (hf : f ∈ op.writes ∨ ∃ p ∈ op.puts, s.disk.entry p = .file f) (h : t = s.write f u)
  | rename {p q : FsPath} {f : Nat} (hop : op = .rename p q) (hf : s.disk.entry p = .file f)
      (h : t = s.rename p q)
  | unlink {p : FsPath} (hp : p ∈ op.takes) (h : t = s.unlink p)

/-- **What a call can do.** -/
theorem exec_effect {serde : Serde} {op : Op} {i : Nat} {c : Choice} {s t : Store} {a : op.Ans}
    (h : op.exec serde i c s = some (t, a)) : op.Effect s t := by
  have hsame : t = s → op.Effect s t := fun ht => .same (by rw [ht]) (by rw [ht])
  have hreplace : ∀ (q : FsPath) (b : Content), q ∈ op.puts → ReplacedAt q b s t →
      op.Effect s t := by
    intro q b hq ht
    rcases ht with ⟨habsent, ht⟩ | ⟨g, hg, ht⟩
    · exact .create hq habsent ht
    · exact .write (Or.inr ⟨q, hq, hg⟩) ht
  cases op with
  | createDirAll q =>
      rcases exec_createDirAll h with ht | ht
      · exact hsame ht
      · exact .mkdirs (List.mem_singleton_self q) ht
  | create q =>
      rcases exec_create h with (⟨ht, -⟩ | ⟨habsent, -, ht⟩) | ⟨g, hg, -, ht⟩
      · exact hsame ht
      · exact .create (List.mem_singleton_self q) habsent ht
      · exact .write (Or.inr ⟨q, List.mem_singleton_self q, hg⟩) ht
  | createNew q =>
      rcases exec_createNew h with ⟨ht, -⟩ | ⟨habsent, -, ht⟩
      · exact hsame ht
      · exact .create (List.mem_singleton_self q) habsent ht
  | lock q =>
      rw [(exec_lock h).2]
      exact .same rfl (Nat.le_refl _)
  | writeAt g off buf =>
      rcases exec_writeAt h with ⟨e, n, -, ht⟩ | ⟨-, -, ht⟩ | ⟨e, -, ht⟩
      · exact .write (Or.inl (List.mem_singleton_self g)) ht
      · exact .write (Or.inl (List.mem_singleton_self g)) ht
      · exact hsame ht
  | append g buf =>
      rcases exec_append h with ⟨e, n, -, ht⟩ | ⟨-, ht⟩
      · exact .write (Or.inl (List.mem_singleton_self g)) ht
      · exact .write (Or.inl (List.mem_singleton_self g)) ht
  | writeRanges q ranges =>
      rcases exec_writeRanges h with ⟨e, -, ht | ht⟩ | ⟨-, ht⟩
      · exact hsame ht
      · exact hreplace q _ (List.mem_singleton_self q) ht
      · exact hreplace q _ (List.mem_singleton_self q) ht
  | rename source target =>
      rcases exec_rename h with ⟨ht, -⟩ | ⟨g, hg, -, -, ht⟩
      · exact hsame ht
      · exact .rename rfl hg ht
  | removeFile q =>
      rcases exec_removeFile h with ⟨ht, -⟩ | ⟨g, -, -, ht⟩
      · exact hsame ht
      · exact .unlink (List.mem_singleton_self q) ht
  | uniqueName =>
      rw [(exec_uniqueName h).1]
      exact .same rfl (Nat.le_succ _)
  | checkSymlinks | tryExists | openExisting | len | readToString | sync | syncDir | metadata
  | nextChunk => exact hsame (exec_looks rfl h)

section Effects

variable {op : Op} {s t : Store}

/-- What a call does to a name: nothing, unless it was given it, or makes it a directory
above one it was given. -/
theorem Op.Effect.entry (h : op.Effect s t) (p : FsPath) :
    t.disk.entry p = s.disk.entry p ∨ p ∈ op.puts ∨
      (p ∈ op.takes ∧ t.disk.entry p = .absent) ∨
      (s.disk.entry p = .absent ∧ t.disk.entry p = .dir ∧ ∃ d ∈ op.dirs, p ∈ ancestors d) := by
  cases h with
  | same h _ =>
      rw [h]
      exact Or.inl rfl
  | @mkdirs d hd h =>
      rw [h]
      by_cases hmade : p ∈ ancestors d ∧ s.disk.entry p = .absent
      · exact Or.inr (Or.inr (Or.inr ⟨hmade.2, if_pos hmade, d, hd, hmade.1⟩))
      · exact Or.inl (if_neg hmade)
  | @create q b hq _ h =>
      by_cases hpq : p = q
      · rw [hpq]
        exact Or.inr (Or.inl hq)
      · rw [h]
        exact Or.inl (Disk.create_entry_ne _ _ hpq)
  | write _ h =>
      rw [h]
      exact Or.inl rfl
  | @rename source q f hop _ h =>
      rw [hop, h]
      by_cases hpq : p = q
      · exact Or.inr (Or.inl (List.mem_singleton.2 hpq))
      · by_cases hps : p = source
        · rw [hps]
          rw [hps] at hpq
          exact Or.inr (Or.inr (Or.inl ⟨List.mem_singleton_self source,
            Disk.rename_entry_source _ _ _ hpq⟩))
        · exact Or.inl (Disk.rename_entry_ne _ _ _ hps hpq)
  | @unlink q hq h =>
      rw [h]
      by_cases hpq : p = q
      · rw [hpq]
        exact Or.inr (Or.inr (Or.inl ⟨hq, Disk.unlink_entry_self _ _⟩))
      · exact Or.inl (Disk.unlink_entry_ne _ _ hpq)

/-- A file stands where one stood before, or under a name the call was given. -/
theorem Op.Effect.puts (h : op.Effect s t) {p : FsPath} {f : Nat}
    (hp : t.disk.entry p = .file f) : (∃ g, s.disk.entry p = .file g) ∨ p ∈ op.puts := by
  rcases h.entry p with hsame | hput | ⟨-, habsent⟩ | ⟨-, hdir, -⟩
  · rw [hsame] at hp
    exact Or.inl ⟨f, hp⟩
  · exact Or.inr hput
  · rw [habsent] at hp
    cases hp
  · rw [hdir] at hp
    cases hp

/-- A file stands where it stood before, or is new, or has been moved there. -/
theorem Op.Effect.file (h : op.Effect s t) {p : FsPath} {f : Nat}
    (hp : t.disk.entry p = .file f) :
    s.disk.entry p = .file f ∨ f = s.disk.next ∨ ∃ source, op = .rename source p := by
  cases h with
  | same h _ =>
      rw [h] at hp
      exact Or.inl hp
  | mkdirs _ h =>
      rw [h] at hp
      exact Or.inl ((Disk.mkdirs_entry_file _).1 hp)
  | @create q b _ _ h =>
      rw [h] at hp
      by_cases hpq : p = q
      · rw [hpq] at hp
        have hnew := (Disk.create_entry_self s.disk q).symm.trans hp
        exact Or.inr (Or.inl (Entry.file.inj hnew).symm)
      · exact Or.inl ((Disk.create_entry_ne _ _ hpq).symm.trans hp)
  | write _ h =>
      rw [h] at hp
      exact Or.inl hp
  | @rename source q g hop _ h =>
      by_cases hpq : p = q
      · rw [hpq]
        exact Or.inr (Or.inr ⟨source, hop⟩)
      · rw [h] at hp
        by_cases hps : p = source
        · rw [hps] at hp hpq
          have habsent := (Disk.rename_entry_source s.disk source q hpq).symm.trans hp
          cases habsent
        · exact Or.inl ((Disk.rename_entry_ne _ _ _ hps hpq).symm.trans hp)
  | unlink _ h =>
      rw [h] at hp
      exact Or.inl (unlink_entry_file hp)

/-- What a call does to a file: nothing, unless it has it open, was given its name, or
makes it. -/
theorem Op.Effect.node (h : op.Effect s t) {f : Nat} (hf : f < s.disk.next) :
    t.disk.content f = s.disk.content f ∨ f ∈ op.writes ∨
      ∃ p ∈ op.puts, s.disk.entry p = .file f := by
  cases h with
  | same h _ =>
      rw [h]
      exact Or.inl rfl
  | create _ _ h =>
      rw [h]
      exact Or.inl (Disk.create_content_lt _ _ hf)
  | @write g u hg h =>
      by_cases hfg : f = g
      · rw [hfg]
        exact Or.inr hg
      · rw [h]
        exact Or.inl (if_neg hfg)
  | mkdirs _ h | rename _ _ h | unlink _ h =>
      rw [h]
      exact Or.inl rfl

/-- A file that was there keeps its bytes, unless the call writes to it or replaces it. -/
theorem Op.Effect.content (h : op.Effect s t) {f : Nat} (hf : f < s.disk.next) :
    t.content f = s.content f ∨ f ∈ op.writes ∨ ∃ p ∈ op.puts, s.disk.entry p = .file f := by
  rcases h.node hf with hsame | hgiven
  · unfold Store.content
    rw [hsame]
    exact Or.inl rfl
  · exact Or.inr hgiven

/-- Numbers of files are not used again. -/
theorem Op.Effect.next (h : op.Effect s t) : s.disk.next ≤ t.disk.next := by
  cases h with
  | same h _ => rw [h]
  | create _ _ h =>
      rw [h]
      exact Nat.le_succ _
  | mkdirs _ h | write _ h | rename _ _ h | unlink _ h =>
      rw [h]
      exact Nat.le_refl _

/-- Nor are those of temporaries. -/
theorem Op.Effect.counter (h : op.Effect s t) : s.counter ≤ t.counter := by
  cases h with
  | same _ hcounter => exact hcounter
  | create _ _ h | mkdirs _ h | write _ h | rename _ _ h | unlink _ h =>
      rw [h]
      exact Nat.le_refl _

end Effects

/-! ## The paths of a request -/

/-- A file of an upload's session. -/
inductive SessionFile (srv : Server) (job : UploadJob) : FsPath → Prop where
  | tmp {full : FsPath} {key : SessionKey} : resolve srv.root job.path = .ok full →
      job.session = some key → SessionFile srv job (sessionTempFor full key.id key.owner)
  | blocks {full : FsPath} {key : SessionKey} : resolve srv.root job.path = .ok full →
      job.session = some key →
        SessionFile srv job (blocksPathFor (sessionTempFor full key.id key.owner))
  | persist {full : FsPath} {key : SessionKey} : resolve srv.root job.path = .ok full →
      job.session = some key →
        SessionFile srv job
          (persistPathFor (blocksPathFor (sessionTempFor full key.id key.owner)))

/-- The upload commits if all goes well: it is sequential, or its session's final request. -/
def UploadJob.Commits (job : UploadJob) : Prop :=
  ∀ key, job.session = some key → job.finalChunk = true ∧ key.statusProbe = false

/-- What an upload request may use: temporaries, open files to write to, and perhaps its
target's name; and whether it may draw a name for a temporary. -/
structure Grant where
  attempts : FsPath → Prop
  handles : Nat → Prop
  commits : Prop
  draws : Prop

/-- Whatever an upload request may ever use. -/
def Grant.whole (srv : Server) (job : UploadJob) : Grant where
  attempts := fun p => ∃ full nanos counter, resolve srv.root job.path = .ok full ∧
    p = tempPathFor full nanos counter
  handles := fun _ => True
  commits := job.Commits
  draws := True

/-- What the one allows the other does. -/
structure Grant.Within (A B : Grant) : Prop where
  attempts : ∀ p, A.attempts p → B.attempts p
  handles : ∀ f, A.handles f → B.handles f
  commits : A.commits → B.commits
  draws : A.draws → B.draws

/-- A narrower grant is within whatever a wider one is within. -/
theorem Grant.Within.trans {A B C : Grant} (h : A.Within B) (h' : B.Within C) : A.Within C where
  attempts := fun p hp => h'.attempts p (h.attempts p hp)
  handles := fun f hf => h'.handles f (h.handles f hf)
  commits := fun hc => h'.commits (h.commits hc)
  draws := fun hd => h'.draws (h.draws hd)

/-- A file an upload request makes: one of its session, or a temporary. -/
inductive MadeFile (srv : Server) (job : UploadJob) (A : Grant) : FsPath → Prop where
  | session {p : FsPath} : SessionFile srv job p → MadeFile srv job A p
  | attempt {p : FsPath} : A.attempts p → MadeFile srv job A p

/-- A file of an upload request: its target, or one that it makes. -/
inductive JobFile (srv : Server) (job : UploadJob) (A : Grant) : FsPath → Prop where
  | target {full : FsPath} : resolve srv.root job.path = .ok full → JobFile srv job A full
  | made {p : FsPath} : MadeFile srv job A p → JobFile srv job A p

/-- What an upload request may ask for.  It moves files only onto files of its session and,
if it commits, onto its target; it puts nothing else under its target's name, and never
takes that name away. -/
structure AskedBy (srv : Server) (job : UploadJob) (A : Grant) (op : Op) : Prop where
  files : ∀ p ∈ op.files, JobFile srv job A p
  dirs : ∀ p ∈ op.dirs, ∃ full, resolve srv.root job.path = .ok full ∧ full.parent = some p
  writes : ∀ f ∈ op.writes, A.handles f
  puts : ∀ p ∈ op.puts, SessionFile srv job p ∨ (op.renames = false ∧ A.attempts p) ∨
    (op.renames = true ∧ A.commits ∧ resolve srv.root job.path = .ok p)
  takes : ∀ p ∈ op.takes, MadeFile srv job A p
  draws : op = .uniqueName → A.draws

section Within

variable {srv : Server} {job : UploadJob} {A B : Grant} (h : A.Within B)

include h

theorem MadeFile.mono {p : FsPath} (hp : MadeFile srv job A p) : MadeFile srv job B p := by
  cases hp with
  | session hp => exact .session hp
  | attempt hp => exact .attempt (h.attempts p hp)

theorem JobFile.mono {p : FsPath} (hp : JobFile srv job A p) : JobFile srv job B p := by
  cases hp with
  | target hfull => exact .target hfull
  | made hp => exact .made (hp.mono h)

theorem AskedBy.mono {op : Op} (hop : AskedBy srv job A op) : AskedBy srv job B op := by
  constructor
  · intro p hp
    exact (hop.files p hp).mono h
  · exact hop.dirs
  · intro f hf
    exact h.handles f (hop.writes f hf)
  · intro p hp
    rcases hop.puts p hp with hs | ⟨hop', hattempt⟩ | ⟨hop', hcommits, hfull⟩
    · exact Or.inl hs
    · exact Or.inr (Or.inl ⟨hop', h.attempts p hattempt⟩)
    · exact Or.inr (Or.inr ⟨hop', h.commits hcommits, hfull⟩)
  · intro p hp
    exact (hop.takes p hp).mono h
  · exact fun heq => h.draws (hop.draws heq)

end Within

/-! ## Programs that ask only for some calls -/

/-- On every path the calls satisfy `P`, and a result satisfies `Q`. -/
def Fs.Asks {ε α : Type} (P : Op → Prop) (Q : α → Prop) (x : Fs ε α) : Prop :=
  ∀ h, (x h).Along (fun c => P c.1) fun r => ∀ a, r.1 = .ok a → Q a

section Rules

variable {P : Op → Prop} {ε ε' α β : Type} {Q : α → Prop} {R : β → Prop}

theorem asks_ret {a : α} (h : Q a) : Fs.Asks P Q (ret a : Fs ε α) := by
  intro held b hb
  cases hb
  exact h

theorem asks_fail {e : ε} : Fs.Asks P Q (fail e : Fs ε α) := by
  intro held b hb
  cases hb

theorem asks_await {op : Op} (h : P op) : Fs.Asks P (fun _ => True) (await op : Fs ε op.Ans) :=
  fun _ => ⟨h, fun _ _ _ => trivial⟩

theorem asks_update {f : Held → Held} : Fs.Asks P (fun _ => True) (update f : Fs ε Unit) :=
  fun _ _ _ => trivial

theorem asks_held : Fs.Asks P (fun _ => True) (held : Fs ε Held) := fun _ _ _ => trivial

theorem Fs.Asks.mono {Q' : α → Prop} {x : Fs ε α} (hx : Fs.Asks P Q x) (h : ∀ a, Q a → Q' a) :
    Fs.Asks P Q' x :=
  fun held => (hx held).mono (fun _ => id) fun _ hr a ha => h a (hr a ha)

/-- Sequencing. -/
theorem asks_then {x : Fs ε α} {f : α → Fs ε β} (hx : Fs.Asks P Q x)
    (hf : ∀ a, Q a → Fs.Asks P R (f a)) : Fs.Asks P R (x >>= f) := by
  intro h
  apply (Prog.along_bind _ _).2
  refine (hx h).mono (fun _ => id) ?_
  intro r hr
  obtain ⟨r, h'⟩ := r
  cases r with
  | ok a => exact hf a (hr a rfl) h'
  | error e =>
      intro b hb
      cases hb

theorem asks_attempt {x : Fs ε α} (hx : Fs.Asks P Q x) :
    Fs.Asks P (fun r => ∀ a, r = .ok a → Q a) (attempt x : Fs ε' (Except ε α)) := by
  intro h
  apply (Prog.along_bind _ _).2
  refine (hx h).mono (fun _ => id) ?_
  intro r hr b hb
  cases hb
  exact hr

theorem asks_lift {r : Except ε α} (h : ∀ a, r = .ok a → Q a) : Fs.Asks P Q (lift r) := by
  cases r with
  | ok a => exact asks_ret (h a rfl)
  | error e => exact asks_fail

theorem asks_other {r : Except IoError α} (h : ∀ a, r = .ok a → Q a) :
    Fs.Asks P Q (other r) := by
  apply asks_lift
  intro a ha
  cases r with
  | ok b =>
      cases ha
      exact h a rfl
  | error e => cases ha

theorem asks_orElse {f : ε → ε'} {x : Fs ε α} (hx : Fs.Asks P Q x) :
    Fs.Asks P Q (orElse f x) := by
  unfold orElse
  apply asks_then (asks_attempt hx)
  intro r hr
  cases r with
  | ok a => exact asks_ret (hr a rfl)
  | error e => exact asks_fail

/-! The same at the head of a `do` block. -/

theorem asks_await_then {op : Op} {f : op.Ans → Fs ε β} (hop : P op)
    (hf : ∀ a, Fs.Asks P R (f a)) : Fs.Asks P R (await op >>= f) :=
  asks_then (asks_await hop) fun a _ => hf a

theorem asks_other_then {r : Except IoError α} {f : α → Fs StorageError β}
    (hf : ∀ a, Fs.Asks P R (f a)) : Fs.Asks P R (other r >>= f) :=
  asks_then (asks_other fun _ _ => trivial) fun a (_ : True) => hf a

theorem asks_ret_then {a : α} {f : α → Fs ε β} (hf : Fs.Asks P R (f a)) :
    Fs.Asks P R (ret a >>= f) := hf

theorem asks_update_then {g : Held → Held} {f : Unit → Fs ε β} (hf : Fs.Asks P R (f ())) :
    Fs.Asks P R (update g >>= f) :=
  asks_then asks_update fun _ _ => hf

theorem asks_held_then {f : Held → Fs ε β} (hf : ∀ h, Fs.Asks P R (f h)) :
    Fs.Asks P R (held >>= f) :=
  asks_then asks_held fun h _ => hf h

theorem asks_attempt_then {x : Fs ε α} {f : Except ε α → Fs ε' β} (hx : Fs.Asks P Q x)
    (hok : ∀ a, Q a → Fs.Asks P R (f (.ok a))) (herr : ∀ e, Fs.Asks P R (f (.error e))) :
    Fs.Asks P R (attempt x >>= f) := by
  apply asks_then (asks_attempt hx)
  intro r hr
  cases r with
  | ok a => exact hok a (hr a rfl)
  | error e => exact herr e

/-- The ranges a request knows it has in hand. -/
theorem asks_receivedRanges : Fs.Asks P (fun _ => True) FsSink.receivedRanges := by
  unfold FsSink.receivedRanges
  apply asks_held_then
  intro h
  exact asks_ret trivial

end Rules

/-! ## The storage functions -/

section Storage

variable {srv : Server} {job : UploadJob} {A : Grant} {full : FsPath}
  (hfull : resolve srv.root job.path = .ok full)

/-- A call that only names one file of the request. -/
theorem askedBy_file {op : Op} {p : FsPath} (hfiles : op.files = [p])
    (hrest : op.dirs = [] ∧ op.writes = [] ∧ op.puts = [] ∧ op.takes = [])
    (hp : JobFile srv job A p) : AskedBy srv job A op := by
  obtain ⟨hdirs, hwrites, hputs, htakes⟩ := hrest
  constructor
  · intro q hq
    rw [hfiles, List.mem_singleton] at hq
    rw [hq]
    exact hp
  · simp [hdirs]
  · simp [hwrites]
  · simp [hputs]
  · simp [htakes]
  · intro heq
    rw [heq] at hfiles
    cases hfiles

/-- A call that makes a file of the request. -/
theorem askedBy_made {op : Op} {p : FsPath} (hfiles : op.files = [p]) (hputs : op.puts = [p])
    (hrest : op.dirs = [] ∧ op.writes = [] ∧ op.renames = false ∧ op.takes = [])
    (hp : MadeFile srv job A p) : AskedBy srv job A op := by
  obtain ⟨hdirs, hwrites, hrenames, htakes⟩ := hrest
  constructor
  · intro q hq
    rw [hfiles, List.mem_singleton] at hq
    rw [hq]
    exact .made hp
  · simp [hdirs]
  · simp [hwrites]
  · intro q hq
    rw [hputs, List.mem_singleton] at hq
    rw [hq]
    cases hp with
    | session hp => exact Or.inl hp
    | attempt hp => exact Or.inr (Or.inl ⟨hrenames, hp⟩)
  · simp [htakes]
  · intro heq
    rw [heq] at hfiles
    cases hfiles

/-- A call that takes a file of the request away. -/
theorem askedBy_removed {p : FsPath} (hp : MadeFile srv job A p) :
    AskedBy srv job A (.removeFile p) := by
  constructor
  · intro q hq
    rw [List.mem_singleton.1 hq]
    exact .made hp
  · intro q hq
    cases hq
  · intro f hf
    cases hf
  · intro q hq
    cases hq
  · intro q hq
    rw [List.mem_singleton.1 hq]
    exact hp
  · intro heq
    cases heq

/-- A file of the request is moved onto a file of its session, or onto its target. -/
theorem askedBy_rename {p q : FsPath} (hp : MadeFile srv job A p)
    (hq : SessionFile srv job q ∨ (A.commits ∧ resolve srv.root job.path = .ok q)) :
    AskedBy srv job A (.rename p q) := by
  constructor
  · intro x hx
    simp only [Op.files, List.mem_cons, List.not_mem_nil, or_false] at hx
    rcases hx with hx | hx
    · rw [hx]
      exact .made hp
    · rw [hx]
      rcases hq with hq | ⟨-, hq⟩
      · exact .made (.session hq)
      · exact .target hq
  · intro x hx
    cases hx
  · intro f hf
    cases hf
  · intro x hx
    rw [List.mem_singleton.1 hx]
    exact hq.imp_right fun hq => Or.inr ⟨rfl, hq⟩
  · intro x hx
    rw [List.mem_singleton.1 hx]
    exact hp
  · intro heq
    cases heq

/-- A call that names no path. -/
theorem askedBy_none {op : Op} (hfiles : op.files = [])
    (hrest : op.dirs = [] ∧ op.puts = [] ∧ op.takes = []) (hwrites : ∀ f ∈ op.writes, A.handles f)
    (hdraws : op = .uniqueName → A.draws) : AskedBy srv job A op := by
  obtain ⟨hdirs, hputs, htakes⟩ := hrest
  constructor
  · simp [hfiles]
  · simp [hdirs]
  · exact hwrites
  · simp [hputs]
  · simp [htakes]
  · exact hdraws

/-- A name for a temporary is drawn. -/
theorem askedBy_draw (hdraws : A.draws) : AskedBy srv job A .uniqueName := by
  apply askedBy_none rfl ⟨rfl, rfl, rfl⟩ _ fun _ => hdraws
  intro f hf
  cases hf

/-- A call that is about an open file, or none, and leaves it as it is. -/
theorem askedBy_idle {op : Op} (hlooks : op.looks = true) (hfiles : op.files = [])
    (hdirs : op.dirs = []) : AskedBy srv job A op := by
  have hnothing : op.puts = [] ∧ op.takes = [] ∧ op.writes = [] ∧ op ≠ .uniqueName := by
    cases op with
    | checkSymlinks | tryExists | openExisting | len | readToString | sync | syncDir | metadata
    | nextChunk => simp [Op.puts, Op.takes, Op.writes]
    | _ => cases hlooks
  obtain ⟨hputs, htakes, hwrites, hdraws⟩ := hnothing
  apply askedBy_none hfiles ⟨hdirs, hputs, htakes⟩
  · simp [hwrites]
  · exact fun heq => absurd heq hdraws

include hfull

/-- A call that names only the parent directory is granted. -/
theorem askedBy_dir {op : Op} {p : FsPath} (hdirs : op.dirs = [p])
    (hrest : op.files = [] ∧ op.writes = [] ∧ op.puts = [] ∧ op.takes = [])
    (hp : full.parent = some p) : AskedBy srv job A op := by
  obtain ⟨hfiles, hwrites, hputs, htakes⟩ := hrest
  constructor
  · simp [hfiles]
  · intro q hq
    rw [hdirs, List.mem_singleton] at hq
    rw [hq]
    exact ⟨full, hfull, hp⟩
  · simp [hwrites]
  · simp [hputs]
  · simp [htakes]
  · intro heq
    rw [heq] at hdirs
    cases hdirs

/-- A Create request looks at its target. -/
theorem asks_refuseExisting (mode : WriteMode) :
    Fs.Asks (AskedBy srv job A) (fun _ => True) (refuseExisting full job.path mode) := by
  unfold refuseExisting
  split
  · apply asks_await_then (askedBy_file rfl ⟨rfl, rfl, rfl, rfl⟩ (.target hfull))
    intro r
    apply asks_other_then
    intro found
    split
    · exact asks_fail
    · exact asks_ret trivial
  · exact asks_ret trivial

end Storage

section Requests

variable {srv : Server} {job : UploadJob} {A : Grant}

/-- A sink writes to files of its request. -/
structure SinkOf (srv : Server) (job : UploadJob) (A : Grant) (sink : FsSink) : Prop where
  file : A.handles sink.file
  target : resolve srv.root job.path = .ok sink.target
  tmp : ∀ tmp, sink.tmp = some tmp → MadeFile srv job A tmp
  blocks : ∀ b, sink.blocksPath = some b →
    SessionFile srv job b ∧ SessionFile srv job (persistPathFor b)

/-- The path is resolved, checked, and its directory made. -/
theorem asks_prepare :
    Fs.Asks (AskedBy srv job A) (fun full => resolve srv.root job.path = .ok full)
      (prepare srv.root job.path) := by
  have hlift : Fs.Asks (AskedBy srv job A) (fun full => resolve srv.root job.path = .ok full)
      (lift ((resolve srv.root job.path).mapError StorageError.unsupported)) := by
    apply asks_lift
    intro full h
    cases hres : resolve srv.root job.path with
    | ok p =>
        rw [hres] at h
        cases h
        rfl
    | error e =>
        rw [hres] at h
        cases h
  unfold prepare
  apply asks_then hlift
  intro full hfull
  apply asks_await_then (askedBy_file rfl ⟨rfl, rfl, rfl, rfl⟩ (.target hfull))
  intro r
  apply asks_other_then
  intro _
  cases hparent : full.parent with
  | none =>
      apply asks_ret_then
      exact asks_ret hfull
  | some parent =>
      apply asks_await_then (askedBy_dir hfull rfl ⟨rfl, rfl, rfl, rfl⟩ hparent)
      intro r
      apply asks_other_then
      intro _
      exact asks_ret hfull

theorem asks_readRanges {b : FsPath} (hb : JobFile srv job A b) :
    Fs.Asks (AskedBy srv job A) (fun _ => True) (readRanges srv.serde b) := by
  unfold readRanges
  apply asks_await_then (askedBy_file rfl ⟨rfl, rfl, rfl, rfl⟩ hb)
  intro r
  cases r with
  | ok text => exact asks_lift fun _ _ => trivial
  | error e =>
      dsimp only
      split
      · exact asks_ret trivial
      · exact asks_fail

/-- The ranges are written to the sibling, which replaces the sidecar. -/
theorem asks_persistRanges {b : FsPath} {ranges : List ChunkRange} (hb : SessionFile srv job b)
    (hpersist : SessionFile srv job (persistPathFor b)) :
    Fs.Asks (AskedBy srv job A) (fun _ => True) (persistRanges b ranges) := by
  unfold persistRanges
  apply asks_await_then (askedBy_made rfl rfl ⟨rfl, rfl, rfl, rfl⟩ (.session hpersist))
  intro r
  apply asks_other_then
  intro _
  apply asks_await_then (askedBy_rename (.session hpersist) (Or.inl hb))
  intro r
  exact asks_other fun _ _ => trivial

theorem asks_removeBlocksSidecar {b : Option FsPath} (hb : ∀ p, b = some p → SessionFile srv job p) :
    Fs.Asks (AskedBy srv job A) (fun _ => True) (removeBlocksSidecar b) := by
  cases b with
  | none => exact asks_ret trivial
  | some p =>
      unfold removeBlocksSidecar
      apply asks_await_then (askedBy_removed (.session (hb p rfl)))
      intro _
      exact asks_ret trivial

/-! ## Sinks -/

section Sinks

variable {sink : FsSink} (hsink : SinkOf srv job A sink)

include hsink

/-- A write to the open file. -/
theorem askedBy_write {op : Op} (hfiles : op.files = [])
    (hrest : op.dirs = [] ∧ op.puts = [] ∧ op.takes = []) (hwrites : op.writes = [sink.file]) :
    AskedBy srv job A op := by
  apply askedBy_none hfiles hrest
  · intro f hf
    rw [hwrites, List.mem_singleton] at hf
    rw [hf]
    exact hsink.file
  · intro heq
    rw [heq] at hwrites
    cases hwrites

theorem asks_write (buf : List UInt8) :
    Fs.Asks (AskedBy srv job A) (fun _ => True) (sink.write buf) := by
  have hall : ∀ position, Fs.Asks (AskedBy srv job A) (fun _ => True)
      (sink.writeAll buf position) := by
    intro position
    unfold FsSink.writeAll
    cases sink.mode with
    | resume offset => exact asks_await (askedBy_write hsink rfl ⟨rfl, rfl, rfl⟩ rfl)
    | create => exact asks_await (askedBy_write hsink rfl ⟨rfl, rfl, rfl⟩ rfl)
    | overwrite => exact asks_await (askedBy_write hsink rfl ⟨rfl, rfl, rfl⟩ rfl)
  unfold FsSink.write
  apply asks_held_then
  intro h
  apply asks_then (hall _)
  intro r _
  cases r with
  | ok _ => exact asks_update
  | error e => exact asks_fail

theorem asks_writeAt (offset : Nat) (buf : List UInt8) :
    Fs.Asks (AskedBy srv job A) (fun _ => True) (sink.writeAt srv.serde offset buf) := by
  have hrecord : ∀ b new, sink.blocksPath = some b →
      Fs.Asks (AskedBy srv job A) (fun _ => True) (FsSink.recordRange srv.serde b new) := by
    intro b new hb
    obtain ⟨hblocks, hpersist⟩ := hsink.blocks b hb
    unfold FsSink.recordRange
    apply asks_then (asks_readRanges (.made (.session hblocks)))
    intro current _
    apply asks_then (asks_persistRanges hblocks hpersist)
    intro _ _
    exact asks_update
  unfold FsSink.writeAt
  apply asks_await_then (askedBy_write hsink rfl ⟨rfl, rfl, rfl⟩ rfl)
  intro r
  cases r with
  | error e => exact asks_fail
  | ok _ =>
      apply asks_update_then
      cases hb : sink.blocksPath with
      | none => exact asks_ret trivial
      | some b => exact hrecord b _ hb

theorem asks_abort : Fs.Asks (AskedBy srv job A) (fun _ => True) sink.abort := by
  have hremove : Fs.Asks (AskedBy srv job A) (fun _ => True) (removeBlocksSidecar sink.blocksPath) :=
    asks_removeBlocksSidecar fun p hp => (hsink.blocks p hp).1
  unfold FsSink.abort
  cases htmp : sink.tmp with
  | none => exact asks_ret_then hremove
  | some tmp =>
      apply asks_await_then (askedBy_removed (hsink.tmp tmp htmp))
      intro _
      exact hremove

theorem asks_refuseAppeared {tmp : FsPath} (htmp : MadeFile srv job A tmp) :
    Fs.Asks (AskedBy srv job A) (fun _ => True) (sink.refuseAppeared tmp) := by
  unfold FsSink.refuseAppeared
  split
  · apply asks_await_then (askedBy_file rfl ⟨rfl, rfl, rfl, rfl⟩ (.target hsink.target))
    intro r
    apply asks_other_then
    intro found
    split
    · apply asks_await_then (askedBy_removed htmp)
      intro _
      exact asks_fail
    · exact asks_ret trivial
  · exact asks_ret trivial

/-- What follows the move. -/
theorem asks_syncParent :
    Fs.Asks (AskedBy srv job A) (fun _ => True) (match sink.target.parent with
      | some parent => do
          let _ ← await (.syncDir parent)
          ret ()
      | none => ret () : Fs StorageError Unit) := by
  cases hparent : sink.target.parent with
  | none => exact asks_ret trivial
  | some parent =>
      apply asks_await_then (askedBy_dir hsink.target rfl ⟨rfl, rfl, rfl, rfl⟩ hparent)
      intro _
      exact asks_ret trivial

/-- The temporary is synced and moved onto the target. -/
theorem asks_publish (hcommits : A.commits) {tmp : FsPath} (htmp : MadeFile srv job A tmp) :
    Fs.Asks (AskedBy srv job A) (fun _ => True) (sink.publish tmp) := by
  unfold FsSink.publish
  apply asks_then (asks_refuseAppeared hsink htmp)
  intro _ _
  unfold FsSink.moveIntoPlace
  apply asks_await_then (askedBy_rename htmp (Or.inr ⟨hcommits, hsink.target⟩))
  intro r
  apply asks_other_then
  intro _
  exact asks_syncParent hsink

/-- The end of a commit. -/
theorem asks_fileMeta (etag : Nat → Nat → Text) :
    Fs.Asks (AskedBy srv job A) (fun _ => True) (do
      let stat ← other (← await (.metadata sink.target))
      ret (FsSink.fileMetaAt etag sink.rel stat)) := by
  apply asks_await_then (askedBy_file rfl ⟨rfl, rfl, rfl, rfl⟩ (.target hsink.target))
  intro r
  apply asks_other_then
  intro stat
  exact asks_ret trivial

/-- The commit is granted: it moves the sink's own temporary onto the target. -/
theorem asks_commit (hcommits : A.commits) (etag : Nat → Nat → Text) :
    Fs.Asks (AskedBy srv job A) (fun _ => True) (sink.commit etag) := by
  unfold FsSink.commit
  apply asks_then (asks_removeBlocksSidecar fun p hp => (hsink.blocks p hp).1)
  intro _ _
  apply asks_await_then (askedBy_idle rfl rfl rfl)
  intro r
  apply asks_other_then
  intro _
  apply asks_await_then (askedBy_idle rfl rfl rfl)
  intro r
  apply asks_other_then
  intro _
  cases htmp : sink.tmp with
  | none =>
      apply asks_ret_then
      exact asks_fileMeta hsink etag
  | some tmp =>
      apply asks_then (asks_publish hsink hcommits (hsink.tmp tmp htmp))
      intro _ _
      exact asks_fileMeta hsink etag

end Sinks

/-! ## The handlers -/

/-- A body asks for what its batches ask for, by induction on the arrivals. -/
theorem asks_streamBody {write : Nat → List UInt8 → Fs ApiError Unit} (body : Body)
    (hwrite : ∀ count data, Fs.Asks (AskedBy srv job A) (fun _ => True) (write count data)) :
    Fs.Asks (AskedBy srv job A) (fun _ => True) (streamBody write body) := by
  have hsome : ∀ count data, Fs.Asks (AskedBy srv job A) (fun _ => True)
      (writeSome write count data) := by
    intro count data
    unfold writeSome
    split
    · exact asks_ret trivial
    · apply asks_then (asks_orElse (hwrite count data))
      intro _ _
      exact asks_ret trivial
  have hevents : ∀ (events : List BodyEvent) count, Fs.Asks (AskedBy srv job A) (fun _ => True)
      (streamEvents write count events) := by
    intro events
    induction events with
    | nil =>
        intro count
        exact asks_ret trivial
    | cons event rest ih =>
        intro count
        unfold streamEvents
        apply asks_await_then (askedBy_idle rfl rfl rfl)
        intro _
        cases event with
        | broken m => exact asks_fail
        | invalid m => exact asks_fail
        | data bytes =>
            apply asks_then (hsome count bytes)
            intro count' _
            exact ih count'
  unfold streamBody
  apply asks_then (hevents body.events 0)
  intro count _
  apply asks_await_then (askedBy_idle rfl rfl rfl)
  intro _
  cases body.finish with
  | error e => exact asks_fail
  | ok out => exact hsome count out

section Handlers

variable {sink : FsSink} (hsink : SinkOf srv job A sink)

include hsink

/-- A batch of a session goes to the open temporary and its sidecar. -/
theorem asks_writeAtBatch (base size written : Nat) (data : List UInt8) :
    Fs.Asks (AskedBy srv job A) (fun _ => True) (writeAtBatch srv sink base size written data) := by
  unfold writeAtBatch
  dsimp only
  split
  · exact asks_fail
  · split
    · exact asks_fail
    · exact asks_orElse (asks_writeAt hsink _ _)

/-- An abort removes no more than the sink's own temporary. -/
theorem asks_abortWith {α : Type} {Q : α → Prop} (e : ApiError) :
    Fs.Asks (AskedBy srv job A) Q (abortWith sink e : Fs ApiError α) := by
  unfold abortWith
  apply asks_attempt_then (asks_abort hsink)
  · intro _ _
    exact asks_fail
  · intro _
    exact asks_fail

theorem asks_commitReply (hcommits : A.commits) :
    Fs.Asks (AskedBy srv job A) (fun _ => True) (commitReply srv sink) := by
  unfold commitReply
  apply asks_then (asks_orElse (asks_commit hsink hcommits srv.etag))
  intro _ _
  exact asks_ret trivial

/-- The checks before a session's commit read what the sink has open. -/
theorem asks_finishSession (hcommits : A.commits) (size : Nat) :
    Fs.Asks (AskedBy srv job A) (fun _ => True) (finishSession srv sink size) := by
  have hlen : Fs.Asks (AskedBy srv job A) (fun _ => True) sink.len := by
    unfold FsSink.len
    apply asks_await_then (askedBy_idle rfl rfl rfl)
    intro r
    exact asks_other fun _ _ => trivial
  unfold finishSession
  apply asks_then (asks_orElse hlen)
  intro len _
  split
  · exact asks_abortWith hsink _
  · apply asks_then (asks_orElse asks_receivedRanges)
    intro received _
    split
    · exact asks_abortWith hsink _
    · exact asks_commitReply hsink hcommits

end Handlers

/-- **What a session's request asks for once its temporary is open**, by the stages of the handler.
-/
theorem asks_serveSession {sink : FsSink} (hsink : SinkOf srv job A sink) {key : SessionKey}
    (hkey : job.session = some key) (hcommits : job.Commits → A.commits) (base : Nat) :
    Fs.Asks (AskedBy srv job A) (fun _ => True) (serveSession srv job key base sink) := by
  unfold serveSession
  by_cases hprobe : key.statusProbe = true
  · rw [if_pos hprobe]
    apply asks_then (asks_orElse asks_receivedRanges)
    intro ranges _
    exact asks_ret trivial
  · rw [if_neg hprobe]
    apply asks_attempt_then (asks_streamBody job.body
      fun count data => asks_writeAtBatch hsink base job.fileMeta.size count data)
    · intro _ _
      dsimp only
      split
      · next hfinal =>
          apply asks_finishSession hsink
          apply hcommits
          intro key' hkey'
          rw [hkey] at hkey'
          cases hkey'
          exact ⟨hfinal, Bool.eq_false_of_not_eq_true hprobe⟩
      · exact asks_ret trivial
    · intro e
      dsimp only
      split
      · exact asks_fail
      · exact asks_abortWith hsink _

/-- The temporary is opened, or made where it is not there. -/
theorem asks_openSessionTemp {full tmp : FsPath} (hfull : resolve srv.root job.path = .ok full)
    (htmp : SessionFile srv job tmp) (mode : WriteMode) (found : Bool) :
    Fs.Asks (AskedBy srv job A) (fun _ => True) (openSessionTemp full tmp job.path mode found) := by
  unfold openSessionTemp
  cases found with
  | true =>
      apply asks_await_then (askedBy_file rfl ⟨rfl, rfl, rfl, rfl⟩ (.made (.session htmp)))
      intro r
      exact asks_other fun _ _ => trivial
  | false =>
      have hcreate : Fs.Asks (AskedBy srv job A) (fun _ => True) (do
          refuseExisting full job.path mode
          other (← await (.createNew tmp))) := by
        apply asks_then (asks_refuseExisting hfull mode)
        intro _ _
        apply asks_await_then (askedBy_made rfl rfl ⟨rfl, rfl, rfl, rfl⟩ (.session htmp))
        intro r
        exact asks_other fun _ _ => trivial
      cases mode with
      | resume offset => exact asks_fail
      | create => exact hcreate
      | overwrite => exact hcreate

/-- A session request may write to any file it opens. -/
theorem asks_writeStreamSession (hhandles : ∀ f, A.handles f) {key : SessionKey}
    (hkey : job.session = some key) (mode : WriteMode) :
    Fs.Asks (AskedBy srv job A) (SinkOf srv job A)
      (writeStreamSession srv.serde srv.root job.path key.id key.owner mode) := by
  unfold writeStreamSession
  apply asks_then asks_prepare
  intro full hfull
  have htmp := SessionFile.tmp hfull hkey
  have hblocks := SessionFile.blocks hfull hkey
  have hsink : ∀ file, SinkOf srv job A ⟨file, some (sessionTempFor full key.id key.owner), full,
      job.path, mode, some (blocksPathFor (sessionTempFor full key.id key.owner))⟩ := by
    intro file
    refine ⟨hhandles file, hfull, ?_, ?_⟩
    · intro p hp
      cases hp
      exact .session htmp
    · intro b hb
      cases hb
      exact ⟨hblocks, .persist hfull hkey⟩
  apply asks_await_then (askedBy_file rfl ⟨rfl, rfl, rfl, rfl⟩ (.made (.session htmp)))
  intro r
  apply asks_other_then
  intro found
  apply asks_then (asks_openSessionTemp hfull htmp mode found)
  intro file _
  apply asks_update_then
  apply asks_await_then (askedBy_file rfl ⟨rfl, rfl, rfl, rfl⟩ (.made (.session htmp)))
  intro _
  split
  · apply asks_then (asks_readRanges (.made (.session hblocks)))
    intro ranges _
    apply asks_update_then
    exact asks_ret (hsink file)
  · have hremove : Fs.Asks (AskedBy srv job A) (fun _ => True)
        (removeBlocksSidecar (some (blocksPathFor (sessionTempFor full key.id key.owner)))) := by
      apply asks_removeBlocksSidecar
      intro p hp
      cases hp
      exact hblocks
    apply asks_then hremove
    intro _ _
    apply asks_ret_then
    apply asks_update_then
    exact asks_ret (hsink file)

/-- **A session's request asks for what it is granted only**: its target, its temporary, its
sidecar. -/
theorem asks_uploadSession (hhandles : ∀ f, A.handles f) {key : SessionKey}
    (hkey : job.session = some key) (hcommits : job.Commits → A.commits) :
    Fs.Asks (AskedBy srv job A) (fun _ => True) (uploadSession srv job key) := by
  unfold uploadSession
  apply asks_then (asks_lift fun _ _ => trivial)
  intro base (_ : True)
  apply asks_then (asks_orElse (asks_writeStreamSession hhandles hkey _))
  intro sink hsink
  exact asks_serveSession hsink hkey hcommits base

/-- A batch of a sequential upload goes to the file it has open. -/
theorem asks_writeBatch {sink : FsSink} (hsink : SinkOf srv job A sink)
    (resumeOffset size count : Nat) (data : List UInt8) :
    Fs.Asks (AskedBy srv job A) (fun _ => True)
      (writeBatch srv sink resumeOffset size count data) := by
  unfold writeBatch
  dsimp only
  split
  · exact asks_fail
  · split
    · exact asks_fail
    · exact asks_orElse (asks_write hsink data)

/-- So does the whole body; then it is committed, or aborted. -/
theorem asks_serveSequential {sink : FsSink} (hsink : SinkOf srv job A sink)
    (hcommits : A.commits) (mode : WriteMode) :
    Fs.Asks (AskedBy srv job A) (fun _ => True) (serveSequential srv job mode sink) := by
  unfold serveSequential
  apply asks_attempt_then (asks_streamBody job.body fun count data =>
    asks_writeBatch hsink mode.resumeOffset job.fileMeta.size count data)
  · intro appended _
    dsimp only
    split
    · exact asks_abortWith hsink _
    · exact asks_commitReply hsink hcommits
  · intro e
    exact asks_abortWith hsink _

end Requests

/-! ## Session requests -/

/-- What a session's request may use: no temporaries of its own. -/
def Grant.ofSession (job : UploadJob) : Grant where
  attempts := fun _ => False
  handles := fun _ => True
  commits := job.Commits
  draws := False

/-- A session's request asks for no temporary of a sequential upload. -/
theorem asks_ofSession {srv : Server} {job : UploadJob} {key : SessionKey}
    (hkey : job.session = some key) :
    Fs.Asks (AskedBy srv job (.ofSession job)) (fun _ => True) (runUpload srv job) := by
  unfold runUpload
  rw [hkey]
  exact asks_uploadSession (fun _ => trivial) hkey fun h => h

/-- A session's request touches its target's name only to move a file there. -/
theorem renames_of_touches {srv : Server} {job : UploadJob} {op : Op} {target : FsPath}
    (hop : AskedBy srv job (.ofSession job) op) (hfile : ¬ SessionFile srv job target)
    (htouch : target ∈ op.puts ∨ target ∈ op.takes) : ∃ source, op = .rename source target := by
  rcases htouch with hput | htake
  · rcases hop.puts target hput with hsession | ⟨-, hattempt⟩ | ⟨hrenames, -, -⟩
    · exact absurd hsession hfile
    · exact hattempt.elim
    · cases op with
      | rename source q =>
          rw [List.mem_singleton.1 hput]
          exact ⟨source, rfl⟩
      | _ => cases hrenames
  · cases hop.takes target htake with
    | session hsession => exact absurd hsession hfile
    | attempt hattempt => exact hattempt.elim

end Libfw

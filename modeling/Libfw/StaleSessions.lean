import Libfw.RequestStages
import Libfw.UploadSessions

/-!
# The sweeper of stale sessions

`cleanup_stale_sessions` of `libfw-server/src/storage.rs`: it walks the root and removes what
is old and named like a session file.  Clients choose the names of targets, so a committed
file may be named so too.

* `cleanupStaleSessions_entry` — over any tree, it takes away only files with such names.
* `sweeps_only_sessions` — while no upload that commits has such a target, it takes away
  only the files of sessions, whatever requests have built the tree.
* `sweep_removes_committed` — a committed target that it takes away.
-/

namespace Libfw

open SteppedPrograms PosixStore

/-! ## The sweep -/

/-- What the operating system decides in one sweep: what `read_dir` yields (nothing where it
fails), whether a file's metadata can be read, and whether a removal succeeds. -/
structure SweepCalls where
  list : FsPath → List Text
  stats : FsPath → Bool
  removes : FsPath → Bool

/-- The sweep between two steps of its walk. -/
structure Sweep where
  stack : List FsPath
  store : Store
  removed : Nat

/-- `remove_file`, and whether it succeeded. -/
def SweepCalls.removeFile (calls : SweepCalls) (p : FsPath) (s : Store) : Store × Bool :=
  match s.disk.entry p with
  | .file _ => if calls.removes p then (s.unlink p, true) else (s, false)
  | _ => (s, false)

/-- When a file was last written; the epoch where that cannot be read. -/
def SweepCalls.modified (calls : SweepCalls) (p : FsPath) (s : Store) : Nat :=
  match s.disk.entry p with
  | .file f => if calls.stats p then (s.disk.content f).mtime else 0
  | _ => 0

/-- One entry of a directory. -/
def SweepCalls.visit (calls : SweepCalls) (deadline : Nat) (dir : FsPath) (w : Sweep)
    (name : Text) : Sweep :=
  let path := dir ++ [.normal name]
  match w.store.disk.entry path with
  | .absent => w
  | .dir => { w with stack := path :: w.stack }
  | .file _ =>
      if !name.startsWith SESSION_PREFIX then w
      else if calls.modified path w.store < deadline then
        let isSidecar := BLOCKS_SUFFIX.isSuffixOf name
        let (store, _) := calls.removeFile (blocksPathFor path) w.store
        let (store, ok) := calls.removeFile path store
        { w with store := store, removed := if ok && !isSidecar then w.removed + 1 else w.removed }
      else w

/-- The loop over the stack, for a number of directories. -/
def SweepCalls.walk (calls : SweepCalls) (deadline : Nat) : Nat → Sweep → Sweep
  | 0, w => w
  | fuel + 1, w =>
      match w.stack with
      | [] => w
      | dir :: rest =>
          walk calls deadline fuel
            ((calls.list dir).foldl (calls.visit deadline dir) { w with stack := rest })

/-- `FsStorage::cleanup_stale_sessions`: the tree it leaves, and its count. -/
def cleanupStaleSessions (root : FsPath) (calls : SweepCalls) (maxAge fuel : Nat) (s : Store) :
    Store × Nat :=
  let w := calls.walk (s.now - maxAge) fuel ⟨[root], s, 0⟩
  (w.store, w.removed)

/-! ## What a sweep takes away -/

/-- The name of the file is spelled like a session's. -/
def Spelled (p : FsPath) : Prop := ∃ name, p.fileName = some name ∧ SESSION_PREFIX <+: name

/-- Where the two differ, a file whose name is spelled so has been taken away. -/
def OnlySpelled (s t : Store) : Prop :=
  ∀ p, t.disk.entry p ≠ s.disk.entry p →
    Spelled p ∧ (∃ f, s.disk.entry p = .file f) ∧ t.disk.entry p = .absent

theorem OnlySpelled.refl (s : Store) : OnlySpelled s s := fun _ hne => absurd rfl hne

theorem OnlySpelled.trans {s t u : Store} (hst : OnlySpelled s t) (htu : OnlySpelled t u) :
    OnlySpelled s u := by
  intro p hne
  by_cases htop : u.disk.entry p = t.disk.entry p
  · rw [htop] at hne ⊢
    exact hst p hne
  · obtain ⟨hspelled, ⟨f, hf⟩, habsent⟩ := htu p htop
    refine ⟨hspelled, ?_, habsent⟩
    by_cases hbottom : t.disk.entry p = s.disk.entry p
    · exact ⟨f, hbottom ▸ hf⟩
    · exact (hst p hbottom).2.1

/-- The sidecar of a file spelled so is spelled so. -/
theorem spelled_blocksPathFor {p : FsPath} (h : Spelled p) : Spelled (blocksPathFor p) := by
  obtain ⟨name, hname, hprefix⟩ := h
  exact ⟨name ++ BLOCKS_SUFFIX, FsPath.fileName_pushExtension hname,
    hprefix.trans (List.prefix_append _ _)⟩

theorem removeFile_onlySpelled (calls : SweepCalls) {p : FsPath} (h : Spelled p) (s : Store) :
    OnlySpelled s (calls.removeFile p s).1 := by
  unfold SweepCalls.removeFile
  cases hentry : s.disk.entry p with
  | absent => exact OnlySpelled.refl s
  | dir => exact OnlySpelled.refl s
  | file f =>
      dsimp only
      split
      · intro q hne
        by_cases hq : q = p
        · rw [hq]
          exact ⟨h, ⟨f, hentry⟩, Disk.unlink_entry_self _ _⟩
        · exact absurd (Disk.unlink_entry_ne _ _ hq) hne
      · exact OnlySpelled.refl s

/-- One entry. -/
theorem visit_onlySpelled (calls : SweepCalls) (deadline : Nat) (dir : FsPath) (w : Sweep)
    (name : Text) : OnlySpelled w.store (calls.visit deadline dir w name).store := by
  unfold SweepCalls.visit
  dsimp only
  split
  · exact OnlySpelled.refl _
  · exact OnlySpelled.refl _
  · split
    · exact OnlySpelled.refl _
    · next hname =>
        have hprefix : SESSION_PREFIX <+: name := by
          simpa using hname
        have hspelled : Spelled (dir ++ [.normal name]) :=
          ⟨name, FsPath.fileName_append_normal _ _, hprefix⟩
        split
        · exact (removeFile_onlySpelled calls (spelled_blocksPathFor hspelled) _).trans
            (removeFile_onlySpelled calls hspelled _)
        · exact OnlySpelled.refl _

theorem walk_onlySpelled (calls : SweepCalls) (deadline fuel : Nat) (w : Sweep) :
    OnlySpelled w.store (calls.walk deadline fuel w).store := by
  have hentries : ∀ (dir : FsPath) (names : List Text) (v : Sweep),
      OnlySpelled v.store (names.foldl (calls.visit deadline dir) v).store := by
    intro dir names
    induction names with
    | nil =>
        intro v
        exact OnlySpelled.refl _
    | cons name rest ih =>
        intro v
        exact (visit_onlySpelled calls deadline dir v name).trans (ih _)
  induction fuel generalizing w with
  | zero => exact OnlySpelled.refl _
  | succ fuel ih =>
      unfold SweepCalls.walk
      split
      · exact OnlySpelled.refl _
      · next dir rest _ => exact (hentries dir _ { w with stack := rest }).trans (ih _)

/-- **A sweep takes away only files whose names are spelled like a session's.** -/
theorem cleanupStaleSessions_entry (root : FsPath) (calls : SweepCalls) (maxAge fuel : Nat)
    (s : Store) : OnlySpelled s (cleanupStaleSessions root calls maxAge fuel s).1 :=
  walk_onlySpelled calls _ fuel ⟨[root], s, 0⟩

/-! ## Trees that requests build -/

/-- The temporary of a sequential upload is not spelled like a session's file. -/
theorem not_spelled_tempPathFor (target : FsPath) (nanos counter : Nat) :
    ¬ Spelled (tempPathFor target nanos counter) := by
  intro h
  obtain ⟨name, hname, r, hr⟩ := h
  rw [tempPathFor, FsPath.fileName_withFileName] at hname
  rw [← Option.some.inj hname] at hr
  have hhead : (SESSION_PREFIX ++ r).take 8 = (TMP_PREFIX ++ baseName target ++
      '-' :: decimal nanos ++ '-' :: decimal counter).take 8 := congrArg (List.take 8) hr
  rw [List.append_assoc, List.append_assoc, List.take_append_of_le_length (by decide),
    List.take_append_of_le_length (by decide)] at hhead
  exact absurd hhead (by decide)

/-- Every file spelled like a session's is a file of the session of a request in `K`. -/
def SessionsOnly (srv : Server) (K : UploadJob → Prop) (s : Store) : Prop :=
  ∀ p f, s.disk.entry p = .file f → Spelled p → ∃ job, K job ∧ SessionFile srv job p

/-- No request that commits has a target spelled like a session's file; the tree is built by
requests alone. -/
def PlainTargets (srv : Server) : UploadAct → Prop
  | .start _ job => job.Commits → ∀ full, resolve srv.root job.path = .ok full → ¬ Spelled full
  | .env (.place _ _) => False
  | _ => True

/-- The requests of a run. -/
def Entered (t : UploadState) (job : UploadJob) : Prop := ∃ i, (t.task i).request = some job

/-- A request has committed a target. -/
def Committed (srv : Server) (t : UploadState) (p : FsPath) : Prop :=
  ∃ i job file held, t.task i = .finished job (.ok (.created file), held) ∧ job.Commits ∧
    resolve srv.root job.path = .ok p

/-- A sweep of the tree takes away session files, and no target that a request has
committed. -/
structure SweepsOnlySessions (srv : Server) (calls : SweepCalls) (maxAge fuel : Nat)
    (t : UploadState) : Prop where
  sessions : ∀ p, (cleanupStaleSessions srv.root calls maxAge fuel t.shared).1.disk.entry p ≠
    t.shared.disk.entry p → ∃ job, Entered t job ∧ SessionFile srv job p
  targets : ∀ p, Committed srv t p →
    (cleanupStaleSessions srv.root calls maxAge fuel t.shared).1.disk.entry p =
      t.shared.disk.entry p

/-- No file is spelled like a session's. -/
def NoSessions (s : Store) : Prop := ∀ p f, s.disk.entry p = .file f → ¬ Spelled p

section Runs

variable {srv : Server} {K : UploadJob → Prop}

/-- What a request puts somewhere is its session's, or spelled otherwise. -/
theorem sessionFile_of_put {job : UploadJob} {op : Op} {p : FsPath}
    (hasked : AskedBy srv job (.whole srv job) op) (hput : p ∈ op.puts)
    (hplain : job.Commits → ∀ full, resolve srv.root job.path = .ok full → ¬ Spelled full)
    (hspelled : Spelled p) : SessionFile srv job p := by
  rcases hasked.puts p hput with hsession | ⟨-, full, nanos, counter, -, rfl⟩ |
    ⟨-, hcommits, hfull⟩
  · exact hsession
  · exact absurd hspelled (not_spelled_tempPathFor _ _ _)
  · exact absurd hspelled (hplain hcommits p hfull)

/-- One call of a request keeps the files spelled like a session's to sessions. -/
theorem sessionsOnly_exec {i : Nat} {c : Choice} {job : UploadJob} {op : Op} {s t : Store}
    {a : op.Ans} (hjob : K job)
    (hplain : job.Commits → ∀ full, resolve srv.root job.path = .ok full → ¬ Spelled full)
    (hasked : AskedBy srv job (.whole srv job) op) (hs : SessionsOnly srv K s)
    (hexec : op.exec srv.serde i c s = some (t, a)) : SessionsOnly srv K t := by
  intro p f hfile hspelled
  rcases (exec_effect hexec).puts hfile with ⟨g, hg⟩ | hput
  · exact hs p g hg hspelled
  · exact ⟨job, hjob, sessionFile_of_put hasked hput hplain hspelled⟩

/-- **In every tree that requests with plain targets build, the files spelled like a
session's are files of sessions.** -/
theorem reaches_sessionsOnly {s₀ : Store} (hs₀ : NoSessions s₀) {t : UploadState}
    (hrun : (uploadSystem srv).Reaches (fun _ a => PlainTargets srv a) (atRest s₀) t) :
    SessionsOnly srv (Entered t) t.shared := by
  have hall := hrun.entered.along
    (P := fun job (call : Call) => AskedBy srv job (.whole srv job) call.1)
    (K := fun job => Entered t job ∧ (job.Commits → ∀ full,
      resolve srv.root job.path = .ok full → ¬ Spelled full))
    (I := SessionsOnly srv (Entered t)) ?_ ?_ ?_ ?_ ?_ ?_ ?_ ?_
  · exact hall.1
  · intro job _
    exact (runUpload_asks Held.nothing).mono (fun _ h => h) fun _ _ => trivial
  · intro s i job hok
    exact ⟨⟨i, hok.2 i job rfl⟩, hok.1⟩
  · intro i job sh hsh
    exact hsh
  · intro i sh hsh
    exact hsh
  · intro i c job call sh sh' a hjob hasked hsh hexec
    exact sessionsOnly_exec hjob.1 hjob.2 hasked hsh hexec
  · intro s e hok hsh
    cases e with
    | tick n => exact hsh
    | place path cells => exact absurd hok.1 id
  · intro i
    rfl
  · intro p f hfile hspelled
    exact absurd hspelled (hs₀ p f hfile)

/-- **While every upload that commits has a target spelled otherwise, a sweep takes away
only the files of sessions.** -/
theorem sweeps_only_sessions {s₀ : Store} (hs₀ : NoSessions s₀) {t : UploadState}
    (hrun : (uploadSystem srv).Reaches (fun _ a => PlainTargets srv a) (atRest s₀) t)
    (calls : SweepCalls) (maxAge fuel : Nat) : SweepsOnlySessions srv calls maxAge fuel t := by
  have hsweep := cleanupStaleSessions_entry srv.root calls maxAge fuel t.shared
  constructor
  · intro p hne
    obtain ⟨hspelled, ⟨f, hfile⟩, -⟩ := hsweep p hne
    exact reaches_sessionsOnly hs₀ hrun p f hfile hspelled
  · intro p hcommitted
    obtain ⟨i, job, file, held, hdone, hcommits, hfull⟩ := hcommitted
    by_contra hne
    obtain ⟨hspelled, -, -⟩ := hsweep p hne
    have hreq : (t.task i).request = some job := by
      rw [hdone]
      rfl
    have hplain : job.Commits → ∀ full, resolve srv.root job.path = .ok full → ¬ Spelled full :=
      hrun.started (fun _ _ _ hok => hok) (fun _ => rfl) hreq
    exact hplain hcommits p hfull hspelled

end Runs

/-! ### A run with a plain target -/

/-- A sequential upload. -/
def plainJob (path : Text) (bytes : List UInt8) : UploadJob where
  path := path
  fileMeta := ⟨path, bytes.length, 0, []⟩
  finalChunk := false
  offsetHdr := none
  session := none
  body := ⟨[.data bytes], .ok []⟩

/-- The sweep of a tree with these names in its root. -/
def listing (names : List Text) : SweepCalls where
  list := fun dir => if dir = sampleServer.root then names else []
  stats := fun _ => true
  removes := fun _ => true

/-- A data chunk of a session is dropped after it has made the temporary, an upload commits,
and time passes. -/
def plainActs : List UploadAct :=
  .start 0 (sampleJob 1 (some "0".toList) false [6]) :: (List.replicate 8 (.step 0 .go) ++
    .drop 0 :: .start 1 (plainJob "notes".toList [5, 6]) ::
      (List.replicate 14 (.step 1 .go) ++ [.env (.tick 1)]))

theorem plainActs_plain (a : UploadAct) (ha : a ∈ plainActs) : PlainTargets sampleServer a := by
  simp only [plainActs, List.mem_cons, List.mem_append, List.mem_replicate, List.not_mem_nil,
    or_false] at ha
  rcases ha with rfl | ⟨-, rfl⟩ | rfl | rfl | ⟨-, rfl⟩ | rfl
  · intro hcommits
    exact absurd (hcommits _ rfl).1 (by decide)
  · trivial
  · trivial
  · intro _ full hfull hspelled
    have hnotes : resolve sampleServer.root (plainJob "notes".toList [5, 6]).path =
        .ok (sampleServer.root ++ [.normal "notes".toList]) := by decide +kernel
    rw [hnotes] at hfull
    cases hfull
    obtain ⟨name, hname, r, hr⟩ := hspelled
    rw [FsPath.fileName_append_normal] at hname
    rw [← Option.some.inj hname] at hr
    have hhead : some '.' = some 'n' := congrArg List.head? hr
    exact absurd hhead (by decide)
  · trivial
  · trivial

theorem sampleStore_noSessions : NoSessions sampleStore := by
  intro p f hfile
  have hno : ∀ q g, sampleStore.disk.entry q ≠ .file g := by
    intro q g h
    simp only [sampleStore] at h
    split at h
    · cases h
    · cases h
  exact absurd hfile (hno p f)

/-- The name of the session's temporary in that run. -/
def sampleTempName : Text := ".libfw-sess-0123456789abcdef-s1-f".toList

/-- A sweep takes the abandoned temporary away, and counts it. -/
theorem plain_run_swept :
    ∃ t, (uploadSystem sampleServer).Reaches (fun _ a => PlainTargets sampleServer a)
        (atRest sampleStore) t ∧
      (cleanupStaleSessions sampleServer.root
        (listing ["notes".toList, sampleTempName]) 0 2 t.shared).2 = 1 ∧
      ∀ calls maxAge fuel, SweepsOnlySessions sampleServer calls maxAge fuel t := by
  have hrun : (((uploadSystem sampleServer).run (atRest sampleStore) plainActs).any fun t =>
      (cleanupStaleSessions sampleServer.root
        (listing ["notes".toList, sampleTempName]) 0 2 t.shared).2 = 1) = true := by
    decide +kernel
  obtain ⟨t, ht, hcount⟩ := (Option.any_eq_true _ _).1 hrun
  have hreach := System.reaches_of_run (fun a ha _ => plainActs_plain a ha) ht
  exact ⟨t, hreach, of_decide_eq_true hcount, sweeps_only_sessions sampleStore_noSessions hreach⟩

/-! ## A committed target spelled like a session's file -/

/-- The tree is built by requests alone. -/
def ByRequests : UploadAct → Prop
  | .env (.place _ _) => False
  | _ => True

/-- The target of an upload that a client names so. -/
def notesTarget : FsPath := sampleServer.root ++ [.normal ".libfw-sess-notes".toList]

def notesActs : List UploadAct :=
  .start 0 (plainJob ".libfw-sess-notes".toList [5, 6]) ::
    (List.replicate 14 (.step 0 .go) ++ [.env (.tick 1)])

/-- The request has been answered 201. -/
def answeredCreated (t : UploadState) (i : Nat) : Bool :=
  match t.task i with
  | .finished _ (.ok (.created _), _) => true
  | _ => false

theorem exists_of_answeredCreated {t : UploadState} {i : Nat} (h : answeredCreated t i = true) :
    ∃ job file held, t.task i = .finished job (.ok (.created file), held) := by
  unfold answeredCreated at h
  split at h
  · next job file held heq => exact ⟨job, file, held, heq⟩
  · cases h

/-- **A sweep takes away a committed target.** -/
theorem sweep_removes_committed :
    ¬ ∀ s₀ t, NoSessions s₀ →
      (uploadSystem sampleServer).Reaches (fun _ a => ByRequests a) (atRest s₀) t →
        ∀ calls maxAge fuel, SweepsOnlySessions sampleServer calls maxAge fuel t := by
  intro hall
  have hrun : (((uploadSystem sampleServer).run (atRest sampleStore) notesActs).any fun t =>
      answeredCreated t 0 ∧ t.shared.disk.entry notesTarget ≠ .absent ∧
      (cleanupStaleSessions sampleServer.root (listing [".libfw-sess-notes".toList]) 0 1
        t.shared).1.disk.entry notesTarget = .absent) = true := by
    decide +kernel
  obtain ⟨t, ht, hend⟩ := (Option.any_eq_true _ _).1 hrun
  obtain ⟨hdone, hthere, hgone⟩ := of_decide_eq_true hend
  have hacts : ∀ a ∈ notesActs, ByRequests a ∧
      ∀ i job, a = .start i job → job = plainJob ".libfw-sess-notes".toList [5, 6] := by
    intro a ha
    simp only [notesActs, List.mem_cons, List.mem_append, List.mem_replicate, List.not_mem_nil,
      or_false] at ha
    rcases ha with rfl | ⟨-, rfl⟩ | rfl
    · exact ⟨trivial, fun i job h => by cases h; rfl⟩
    · exact ⟨trivial, fun i job h => by cases h⟩
    · exact ⟨trivial, fun i job h => by cases h⟩
  have hreach := System.reaches_of_run (fun a ha _ => hacts a ha) ht
  have hcommitted : Committed sampleServer t notesTarget := by
    obtain ⟨job, file, held, htask⟩ := exists_of_answeredCreated hdone
    have hreq : (t.task 0).request = some job := by
      rw [htask]
      rfl
    have hjob : job = plainJob ".libfw-sess-notes".toList [5, 6] :=
      hreach.started (K := fun req => req = plainJob ".libfw-sess-notes".toList [5, 6])
        (fun _ i req hok => hok.2 i req rfl) (fun _ => rfl) hreq
    rw [hjob] at htask
    exact ⟨0, _, file, held, htask, (fun key h => by cases h), by decide +kernel⟩
  have hkept := (hall sampleStore t sampleStore_noSessions (hreach.mono fun _ _ h => h.1)
    (listing [".libfw-sess-notes".toList]) 0 1).targets notesTarget hcommitted
  exact hthere (hkept.symm.trans hgone)

end Libfw

import Libfw.StaleSessions

/-!
# The sweeper, call by call

`cleanup_stale_sessions` takes no lock.  Between two of its calls — an entry is read, its
`metadata`, `remove_file` of the sidecar, `remove_file` of the entry — any request may run,
and a sidecar is an entry of its own.  `sweptSystem` runs one sweeper beside the upload
requests; it notes every file the sweeper takes away, and every temporary that a sweep
leaves standing without the sidecar it took.

`cleanupStaleSessions_steps`: a sweep that nothing interrupts is the sweep of
`StaleSessions`.
-/

namespace Libfw

open SteppedPrograms PosixStore

/-! ## The sweep, one call a step -/

/-- Which call the sweep makes next. -/
inductive SweepPoint where
  | listing
  | judging (name : Text)
  | unlinkingSidecar (name : Text)
  | unlinkingEntry (name : Text)

/-- A sweep under way: in the directory `dir`, with these names still to come. -/
structure SweepRun where
  deadline : Nat
  stack : List FsPath
  dir : FsPath
  names : List Text
  point : SweepPoint
  removed : Nat

/-- The path of an entry. -/
def SweepRun.path (run : SweepRun) (name : Text) : FsPath := run.dir ++ [.normal name]

/-- A call of the sweep, with what the operating system makes of it: which names `read_dir`
yields (none where it fails), whether the call succeeds, how old a directory is. -/
inductive SweepAct where
  | start
  | openDir (names : List Text)
  | list (ok : Bool)
  | stat (ok : Bool) (dirMtime : Nat)
  | removeSidecar (ok : Bool)
  | removeEntry (ok : Bool)
  | finish

/-- A file that the sweep has taken away: when it was last written, and when it went. -/
structure Removal where
  path : FsPath
  mtime : Nat
  time : Nat

/-- The store with its sweeper.  `bare` are the temporaries, as names and files, that have
stood in place ever since this sweep took their sidecar; `left` those that a sweep has left
so at its end. -/
structure SweptStore where
  store : Store
  sweep : Option SweepRun
  removals : List Removal
  bare : List (FsPath × Nat)
  left : List (FsPath × Nat)

/-- No sweep has begun. -/
def Store.unswept (s : Store) : SweptStore := ⟨s, none, [], [], []⟩

/-- The temporary whose sidecar has this path. -/
def tempOf (blocks : FsPath) : Option FsPath :=
  match blocks.fileName with
  | none => none
  | some name =>
      match name.dropSuffix? BLOCKS_SUFFIX with
      | none => none
      | some own =>
          if SESSION_PREFIX <+: own then some (blocks.dropLast ++ [.normal own]) else none

/-- The same sweep over another store: what no longer stands is not bare. -/
def SweptStore.under (s : SweptStore) (t : Store) : SweptStore :=
  { s with
    store := t
    bare := s.bare.filter fun b => t.disk.entry b.1 = .file b.2 }

/-- The temporary that loses its sidecar with this path. -/
def SweptStore.bared (s : SweptStore) (p : FsPath) : List (FsPath × Nat) :=
  match tempOf p with
  | none => []
  | some q =>
      match s.store.disk.entry q with
      | .file f => [(q, f)]
      | _ => []

/-- `remove_file`, and whether it succeeded. -/
def SweptStore.removeFile (s : SweptStore) (p : FsPath) (ok : Bool) : SweptStore × Bool :=
  match s.store.disk.entry p with
  | .file f =>
      if ok then
        ({ s with
            removals := ⟨p, (s.store.disk.content f).mtime, s.store.now⟩ :: s.removals
            bare := s.bared p ++ s.bare }.under (s.store.unlink p), true)
      else (s, false)
  | _ => (s, false)

/-- When an entry was last written; the epoch where that cannot be read. -/
def Store.modifiedAt (s : Store) (p : FsPath) (ok : Bool) (dirMtime : Nat) : Nat :=
  match s.disk.entry p with
  | .file f => if ok then (s.disk.content f).mtime else 0
  | .dir => if ok then dirMtime else 0
  | .absent => 0

/-- An entry of a directory. -/
def SweptStore.listed (s : SweptStore) (run : SweepRun) (name : Text) (ok : Bool) : SweepRun :=
  match s.store.disk.entry (run.path name), ok with
  | .dir, true => { run with stack := run.path name :: run.stack }
  | .file _, true =>
      if name.startsWith SESSION_PREFIX then { run with point := .judging name } else run
  | _, _ => run

/-- The entry has gone, or not. -/
def SweepRun.counted (run : SweepRun) (name : Text) (ok : Bool) : SweepRun :=
  { run with
    point := .listing
    removed := if ok && !BLOCKS_SUFFIX.isSuffixOf name then run.removed + 1 else run.removed }

/-- One call of a sweep under way; `none` where it is not the next one. -/
def SweptStore.advance (s : SweptStore) (run : SweepRun) : SweepAct → Option SweptStore
  | .start => none
  | .openDir names =>
      match run.point, run.names, run.stack with
      | .listing, [], dir :: rest =>
          some { s with sweep := some { run with stack := rest, dir := dir, names := names } }
      | _, _, _ => none
  | .list ok =>
      match run.point, run.names with
      | .listing, name :: rest =>
          some { s with sweep := some (s.listed { run with names := rest } name ok) }
      | _, _ => none
  | .stat ok dirMtime =>
      match run.point with
      | .judging name =>
          let point := if s.store.modifiedAt (run.path name) ok dirMtime < run.deadline
            then .unlinkingSidecar name else .listing
          some { s with sweep := some { run with point := point } }
      | _ => none
  | .removeSidecar ok =>
      match run.point with
      | .unlinkingSidecar name =>
          some { (s.removeFile (blocksPathFor (run.path name)) ok).1 with
            sweep := some { run with point := .unlinkingEntry name } }
      | _ => none
  | .removeEntry ok =>
      match run.point with
      | .unlinkingEntry name =>
          let (t, gone) := s.removeFile (run.path name) ok
          some { t with sweep := some (run.counted name gone) }
      | _ => none
  | .finish =>
      match run.point, run.names, run.stack with
      | .listing, [], [] => some { s with sweep := none, bare := [], left := s.bare ++ s.left }
      | _, _, _ => none

/-- One call of the sweeper; `none` where it is not the next one. -/
def sweepStep (root : FsPath) (maxAge : Nat) (s : SweptStore) (act : SweepAct) :
    Option SweptStore :=
  match s.sweep, act with
  | none, .start =>
      some { s with sweep := some ⟨s.store.now - maxAge, [root], root, [], .listing, 0⟩ }
  | none, _ => none
  | some run, act => s.advance run act

/-- The upload requests of a server, interleaved call by call with one sweeper. -/
def sweptSystem (srv : Server) (maxAge : Nat) :
    System Call Call.Ans UploadJob (Except ApiError Reply × Held) Choice (Outside ⊕ SweepAct)
      SweptStore where
  code := (uploadSystem srv).code
  exec := fun i call c s =>
    ((uploadSystem srv).exec i call c s.store).map fun r => (s.under r.1, r.2)
  enter := fun _ _ s => s
  leave := fun i s => s.under (s.store.release i)
  disturb := fun e s =>
    match e with
    | .inl e => s.under (e.apply s.store)
    | .inr act => (sweepStep srv.root maxAge s act).getD s

abbrev SweptState :=
  State Call Call.Ans UploadJob (Except ApiError Reply × Held) SweptStore

abbrev SweptAct := Act UploadJob Choice (Outside ⊕ SweepAct)

/-- No request has started, and no sweep. -/
def sweptAtRest (s : Store) : SweptState := ⟨s.unswept, fun _ => .idle⟩

/-! ## A sweep that nothing interrupts -/

section Alone

variable {calls : SweepCalls} {root : FsPath} {maxAge deadline : Nat} {s t u : SweptStore}

/-- The sweeper's calls, one after the other. -/
def sweepSteps (root : FsPath) (maxAge : Nat) (s : SweptStore) (acts : List SweepAct) :
    Option SweptStore := acts.foldlM (sweepStep root maxAge) s

theorem sweepSteps_append {acts acts' : List SweepAct}
    (h : sweepSteps root maxAge s acts = some t) (h' : sweepSteps root maxAge t acts' = some u) :
    sweepSteps root maxAge s (acts ++ acts') = some u := by
  unfold sweepSteps at h h' ⊢
  rw [List.foldlM_append, h]
  exact h'

/-- The sweeper between two entries is where the walk is. -/
structure SweptStore.At (s : SweptStore) (deadline : Nat) (dir : FsPath) (names : List Text)
    (w : Sweep) : Prop where
  store : s.store = w.store
  sweep : s.sweep = some ⟨deadline, w.stack, dir, names, .listing, w.removed⟩

theorem modifiedAt_eq (calls : SweepCalls) (p : FsPath) (s : Store) :
    s.modifiedAt p (calls.stats p) 0 = calls.modified p s := by
  unfold Store.modifiedAt SweepCalls.modified
  cases s.disk.entry p with
  | absent | file f => rfl
  | dir => exact ite_self 0

theorem removeFile_eq (calls : SweepCalls) (p : FsPath) (s : SweptStore) :
    (s.removeFile p (calls.removes p)).1.store = (calls.removeFile p s.store).1 ∧
      (s.removeFile p (calls.removes p)).2 = (calls.removeFile p s.store).2 := by
  unfold SweptStore.removeFile SweepCalls.removeFile
  cases s.store.disk.entry p with
  | absent | dir => exact ⟨rfl, rfl⟩
  | file f =>
      cases calls.removes p with
      | true | false => exact ⟨rfl, rfl⟩

/-- An entry that is not swept is passed over by one call or two. -/
theorem visit_keeps (hs : s.At deadline dir (name :: rest) w)
    (hkeeps : ∀ f, w.store.disk.entry (dir ++ [.normal name]) = .file f →
      name.startsWith SESSION_PREFIX = true →
        ¬ calls.modified (dir ++ [.normal name]) w.store < deadline) :
    ∃ acts t, sweepSteps root maxAge s acts = some t ∧
      t.At deadline dir rest (calls.visit deadline dir w name) := by
  obtain ⟨hstore, hsweep⟩ := hs
  cases hentry : w.store.disk.entry (dir ++ [.normal name]) with
  | absent =>
      refine ⟨[.list true], { s with
        sweep := some ⟨deadline, w.stack, dir, rest, .listing, w.removed⟩ }, ?_, ?_⟩
      · simp [sweepSteps, sweepStep, hsweep, SweptStore.advance, SweptStore.listed,
          SweepRun.path, hstore, hentry]
      · simp only [SweepCalls.visit, hentry]
        exact ⟨hstore, rfl⟩
  | dir =>
      refine ⟨[.list true], { s with
        sweep := some ⟨deadline, (dir ++ [.normal name]) :: w.stack, dir, rest, .listing,
          w.removed⟩ }, ?_, ?_⟩
      · simp [sweepSteps, sweepStep, hsweep, SweptStore.advance, SweptStore.listed,
          SweepRun.path, hstore, hentry]
      · simp only [SweepCalls.visit, hentry]
        exact ⟨hstore, rfl⟩
  | file f =>
      by_cases hname : name.startsWith SESSION_PREFIX = true
      · have hyoung := hkeeps f hentry hname
        refine ⟨[.list true, .stat (calls.stats (dir ++ [.normal name])) 0], { s with
          sweep := some ⟨deadline, w.stack, dir, rest, .listing, w.removed⟩ }, ?_, ?_⟩
        · simp only [sweepSteps, List.foldlM_cons, List.foldlM_nil, sweepStep, hsweep,
            SweptStore.advance, SweptStore.listed, SweepRun.path, hstore, hentry, if_pos hname,
            Option.bind_eq_bind, Option.bind_some, modifiedAt_eq, if_neg hyoung]
          rfl
        · simp only [SweepCalls.visit, hentry, hname, Bool.not_true, Bool.false_eq_true,
            if_false, if_neg hyoung]
          exact ⟨hstore, rfl⟩
      · refine ⟨[.list true], { s with
          sweep := some ⟨deadline, w.stack, dir, rest, .listing, w.removed⟩ }, ?_, ?_⟩
        · simp only [sweepSteps, List.foldlM_cons, List.foldlM_nil, sweepStep, hsweep,
            SweptStore.advance, SweptStore.listed, SweepRun.path, hstore, hentry, if_neg hname,
            Option.bind_eq_bind, Option.bind_some]
          rfl
        · simp only [SweepCalls.visit, hentry, hname, Bool.not_false, if_true]
          exact ⟨hstore, rfl⟩

/-- A session file that is stale goes, after its sidecar. -/
theorem visit_sweeps (hs : s.At deadline dir (name :: rest) w) {f : Nat}
    (hentry : w.store.disk.entry (dir ++ [.normal name]) = .file f)
    (hname : name.startsWith SESSION_PREFIX = true)
    (hstale : calls.modified (dir ++ [.normal name]) w.store < deadline) :
    ∃ acts t, sweepSteps root maxAge s acts = some t ∧
      t.At deadline dir rest (calls.visit deadline dir w name) := by
  obtain ⟨hstore, hsweep⟩ := hs
  let path := dir ++ [.normal name]
  let run : SweepRun := ⟨deadline, w.stack, dir, rest, .unlinkingEntry name, w.removed⟩
  let judged : SweptStore := { s with
    sweep := some { run with point := .unlinkingSidecar name } }
  have hjudged : sweepSteps root maxAge s [.list true, .stat (calls.stats path) 0] =
      some judged := by
    simp only [sweepSteps, List.foldlM_cons, List.foldlM_nil, sweepStep, hsweep,
      SweptStore.advance, SweptStore.listed, SweepRun.path, hstore, hentry, if_pos hname,
      Option.bind_eq_bind, Option.bind_some, path, modifiedAt_eq, if_pos hstale]
    rw [← hstore]
    rfl
  obtain ⟨hsidecar, -⟩ := removeFile_eq calls (blocksPathFor path) judged
  let bared : SweptStore :=
    { (judged.removeFile (blocksPathFor path) (calls.removes (blocksPathFor path))).1 with
      sweep := some run }
  have hbared : sweepSteps root maxAge judged
      [.removeSidecar (calls.removes (blocksPathFor path))] = some bared := rfl
  have hstores : bared.store = (calls.removeFile (blocksPathFor path) w.store).1 := by
    rw [← hstore]
    exact hsidecar
  obtain ⟨hgone, hcount⟩ := removeFile_eq calls path bared
  rw [hstores] at hgone hcount
  let entry := bared.removeFile path (calls.removes path)
  have hentered : sweepSteps root maxAge bared [.removeEntry (calls.removes path)] =
      some { entry.1 with sweep := some (run.counted name entry.2) } := rfl
  refine ⟨_, _, sweepSteps_append hjudged (sweepSteps_append hbared hentered), ?_⟩
  simp only [SweepCalls.visit, hentry, hname, Bool.not_true, Bool.false_eq_true, if_false,
    if_pos hstale]
  refine ⟨hgone, ?_⟩
  rw [← hcount]
  rfl

/-- **One entry.** -/
theorem visit_steps (hs : s.At deadline dir (name :: rest) w) :
    ∃ acts t, sweepSteps root maxAge s acts = some t ∧
      t.At deadline dir rest (calls.visit deadline dir w name) := by
  by_cases hsweeps : ∃ f, w.store.disk.entry (dir ++ [.normal name]) = .file f ∧
      name.startsWith SESSION_PREFIX = true ∧
        calls.modified (dir ++ [.normal name]) w.store < deadline
  · obtain ⟨f, hentry, hname, hstale⟩ := hsweeps
    exact visit_sweeps hs hentry hname hstale
  · exact visit_keeps hs fun f hentry hname hstale => hsweeps ⟨f, hentry, hname, hstale⟩

/-- The entries of a directory. -/
theorem entries_steps {names : List Text} (hs : s.At deadline dir names w) :
    ∃ acts t, sweepSteps root maxAge s acts = some t ∧
      t.At deadline dir [] (names.foldl (calls.visit deadline dir) w) := by
  induction names generalizing s w with
  | nil => exact ⟨[], s, rfl, hs⟩
  | cons name rest ih =>
      obtain ⟨acts, t, hacts, ht⟩ : ∃ acts t, sweepSteps root maxAge s acts = some t ∧
          t.At deadline dir rest (calls.visit deadline dir w name) := visit_steps hs
      obtain ⟨acts', u, hacts', hu⟩ := ih ht
      exact ⟨acts ++ acts', u, sweepSteps_append hacts hacts', hu⟩

/-- The loop over the stack. -/
theorem walk_steps (fuel : Nat) (hs : s.At deadline dir [] w) :
    ∃ acts dir' t, sweepSteps root maxAge s acts = some t ∧
      t.At deadline dir' [] (calls.walk deadline fuel w) := by
  induction fuel generalizing s w dir with
  | zero => exact ⟨[], dir, s, rfl, hs⟩
  | succ fuel ih =>
      unfold SweepCalls.walk
      cases hstack : w.stack with
      | nil => exact ⟨[], dir, s, rfl, hs⟩
      | cons next stack =>
          let opened : SweptStore := { s with
            sweep := some ⟨deadline, stack, next, calls.list next, .listing, w.removed⟩ }
          have hopened : sweepSteps root maxAge s [.openDir (calls.list next)] = some opened := by
            simp only [sweepSteps, List.foldlM_cons, List.foldlM_nil, sweepStep, hs.sweep,
              SweptStore.advance, hstack]
            rfl
          have hat : opened.At deadline next (calls.list next) { w with stack := stack } :=
            ⟨hs.store, rfl⟩
          obtain ⟨acts, t, hacts, ht⟩ : ∃ acts t, sweepSteps root maxAge opened acts = some t ∧
              t.At deadline next [] ((calls.list next).foldl (calls.visit deadline next)
                { w with stack := stack }) := entries_steps hat
          obtain ⟨acts', dir', u, hacts', hu⟩ := ih ht
          exact ⟨_, dir', u, sweepSteps_append hopened (sweepSteps_append hacts hacts'), hu⟩

/-- **A sweep that nothing interrupts, and whose walk comes to an end, leaves the tree and
the count of `cleanup_stale_sessions`.** -/
theorem cleanupStaleSessions_steps (calls : SweepCalls) (fuel : Nat) (hs : s.sweep = none)
    (hends : (calls.walk (s.store.now - maxAge) fuel ⟨[root], s.store, 0⟩).stack = []) :
    ∃ acts t u run, sweepSteps root maxAge s (.start :: acts) = some t ∧
      t.sweep = some run ∧ sweepStep root maxAge t .finish = some u ∧
      (u.store, run.removed) = cleanupStaleSessions root calls maxAge fuel s.store := by
  let begun : SweptStore := { s with
    sweep := some ⟨s.store.now - maxAge, [root], root, [], .listing, 0⟩ }
  have hstart : sweepSteps root maxAge s [.start] = some begun := by
    simp only [sweepSteps, List.foldlM_cons, List.foldlM_nil, sweepStep, hs]
    rfl
  have hat : begun.At (s.store.now - maxAge) root [] ⟨[root], s.store, 0⟩ := ⟨rfl, rfl⟩
  obtain ⟨acts, dir, t, hacts, hstore, hsweep⟩ : ∃ acts dir t,
      sweepSteps root maxAge begun acts = some t ∧ t.At (s.store.now - maxAge) dir []
        (calls.walk (s.store.now - maxAge) fuel ⟨[root], s.store, 0⟩) := walk_steps fuel hat
  rw [hends] at hsweep
  refine ⟨acts, t, { t with sweep := none, bare := [], left := t.bare ++ t.left }, _,
    sweepSteps_append hstart hacts, hsweep, ?_, ?_⟩
  · simp only [sweepStep, hsweep, SweptStore.advance]
  · exact Prod.ext hstore rfl

end Alone

end Libfw

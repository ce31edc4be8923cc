import Libfw.SweepSteps

/-!
# The sweeper beside live uploads

* `sweep_spares_uploads` — while the files of one session are judged together and then left
  alone, the sweeper takes away nothing fresh and leaves no temporary bare.
* `sweep_interrupts_upload`, `sweep_leaves_bare_temp` — runs in which it does.
-/

namespace Libfw

open SteppedPrograms PosixStore

/-! ## What is judged together -/

/-- What stands there, if it is a file, was last written before the deadline. -/
def Store.OldAt (s : Store) (deadline : Nat) (p : FsPath) : Prop :=
  match s.disk.entry p with
  | .file f => (s.disk.content f).mtime < deadline
  | _ => True

instance (s : Store) (deadline : Nat) (p : FsPath) : Decidable (s.OldAt deadline p) :=
  match h : s.disk.entry p with
  | .file f => decidable_of_iff ((s.disk.content f).mtime < deadline) (by simp [Store.OldAt, h])
  | .dir => isTrue (by simp [Store.OldAt, h])
  | .absent => isTrue (by simp [Store.OldAt, h])

/-- A temporary about to lose its sidecar is old too, and an entry still to come. -/
def Store.Owned (s : Store) (run : SweepRun) (p : FsPath) : Prop :=
  (s.disk.entry p).isFile = true → ∀ q ∈ tempOf p, s.OldAt run.deadline q ∧
    ((s.disk.entry q).isFile = true → q ∈ run.names.map run.path)

instance (s : Store) (run : SweepRun) (p : FsPath) : Decidable (s.Owned run p) :=
  inferInstanceAs (Decidable (_ → _))

/-- The names that the calls up to the next entry are about, once an entry is judged old. -/
def SweepRun.judged (run : SweepRun) : List FsPath :=
  match run.point with
  | .listing | .judging _ => []
  | .unlinkingSidecar name =>
      run.path name :: blocksPathFor (run.path name) :: (tempOf (run.path name)).toList
  | .unlinkingEntry name => run.path name :: (tempOf (run.path name)).toList

/-- The names that a sweep under way counts on. -/
def SweptStore.judged (s : SweptStore) : List FsPath :=
  s.bare.map Prod.fst ++
    match s.sweep with
    | none => []
    | some run => run.judged

/-- A call puts nothing under a name and does not write to the file there. -/
def Op.Avoids (op : Op) (s : Store) (p : FsPath) : Prop :=
  p ∉ op.puts ∧ ∀ f ∈ op.writes, s.disk.entry p ≠ .file f

instance (op : Op) (s : Store) (p : FsPath) : Decidable (op.Avoids s p) :=
  inferInstanceAs (Decidable (_ ∧ _))

/-- A call of the sweep gets through where a temporary is bare, and judges an entry old
only together with its sidecar and the temporary whose sidecar it is. -/
def SweptStore.Judges (s : SweptStore) (run : SweepRun) : SweepAct → Prop
  | .list ok => ok = false → ∀ name ∈ run.names.head?, run.path name ∉ s.bare.map Prod.fst
  | .stat ok dirMtime =>
      match run.point with
      | .judging name =>
          s.store.modifiedAt (run.path name) ok dirMtime < run.deadline →
            s.store.OldAt run.deadline (run.path name) ∧
            s.store.OldAt run.deadline (blocksPathFor (run.path name)) ∧
            s.store.Owned run (run.path name)
      | _ => True
  | .removeEntry ok =>
      match run.point with
      | .unlinkingEntry name => ok = false → run.path name ∉ s.bare.map Prod.fst
      | _ => True
  | _ => True

instance (s : SweptStore) (p : FsPath) : Decidable (p ∉ s.bare.map Prod.fst) :=
  decidable_of_iff ((s.bare.map Prod.fst).contains p = false) (by simp)

instance (s : SweptStore) (run : SweepRun) (act : SweepAct) : Decidable (s.Judges run act) :=
  match act with
  | .start | .openDir _ | .removeSidecar _ | .finish => isTrue trivial
  | .list ok => inferInstanceAs (Decidable (_ → ∀ name ∈ run.names.head?, _))
  | .stat ok dirMtime =>
      match h : run.point with
      | .judging name => decidable_of_iff
          (s.store.modifiedAt (run.path name) ok dirMtime < run.deadline →
            s.store.OldAt run.deadline (run.path name) ∧
            s.store.OldAt run.deadline (blocksPathFor (run.path name)) ∧
            s.store.Owned run (run.path name)) (by simp only [SweptStore.Judges, h])
      | .listing | .unlinkingSidecar _ | .unlinkingEntry _ =>
          isTrue (by simp only [SweptStore.Judges, h])
  | .removeEntry ok =>
      match h : run.point with
      | .unlinkingEntry name => decidable_of_iff
          (ok = false → run.path name ∉ s.bare.map Prod.fst) (by simp only [SweptStore.Judges, h])
      | .listing | .judging _ | .unlinkingSidecar _ => isTrue (by simp only [SweptStore.Judges, h])

/-- **The condition on a step**: nobody touches the names that the sweep counts on, and the
sweep judges the files of a session together. -/
def LeftAlone (t : SweptState) : SweptAct → Prop
  | .step i _ =>
      match t.task i with
      | .waiting _ call _ => ∀ p ∈ t.shared.judged, call.1.Avoids t.shared.store p
      | _ => True
  | .env (.inl (.place path _)) => path ∉ t.shared.judged
  | .env (.inr act) => ∀ run ∈ t.shared.sweep, t.shared.Judges run act
  | _ => True

instance (t : SweptState) (a : SweptAct) : Decidable (LeftAlone t a) :=
  match a with
  | .start _ _ | .drop _ | .env (.inl (.tick _)) => isTrue trivial
  | .step i c =>
      match h : t.task i with
      | .waiting _ call _ => decidable_of_iff
          (∀ p ∈ t.shared.judged, call.1.Avoids t.shared.store p) (by simp only [LeftAlone, h])
      | .idle | .finished _ _ | .dropped _ => isTrue (by simp only [LeftAlone, h])
  | .env (.inl (.place path _)) => inferInstanceAs (Decidable (path ∉ t.shared.judged))
  | .env (.inr act) => inferInstanceAs (Decidable (∀ run ∈ t.shared.sweep, _))

/-- **What the promise of the protocol comes to**: nothing taken away was written less than
`maxAge` before, and no temporary is left without the sidecar that was taken. -/
structure SparesUploads (maxAge : Nat) (s : SweptStore) : Prop where
  fresh : ∀ r ∈ s.removals, r.mtime + maxAge ≤ r.time
  bare : s.left = []

/-! ## Names -/

/-- A path is a temporary's sidecar exactly if the temporary is spelled like a session's. -/
theorem tempOf_eq_some {b q : FsPath} :
    tempOf b = some q ↔ Spelled q ∧ b = blocksPathFor q := by
  constructor
  · intro h
    unfold tempOf at h
    split at h
    · cases h
    · next name hname =>
        split at h
        · cases h
        · next own hown =>
            split at h
            · next hprefix =>
                obtain ⟨ext, hsplit, hext⟩ := List.dropSuffix?_eq_some_iff.1 hown
                have hblocks := FsPath.eq_append_of_fileName hname
                cases h
                refine ⟨⟨own, FsPath.fileName_append_normal _ _, hprefix⟩, ?_⟩
                unfold blocksPathFor
                rw [FsPath.pushExtension_append_normal, ← eq_of_beq hext, ← hsplit]
                exact hblocks
            · cases h
  · rintro ⟨⟨own, hname, hprefix⟩, rfl⟩
    have hq := FsPath.eq_append_of_fileName hname
    have hown : (own ++ BLOCKS_SUFFIX).dropSuffix? BLOCKS_SUFFIX = some own :=
      List.dropSuffix?_eq_some_iff.2 ⟨BLOCKS_SUFFIX, rfl, beq_self_eq_true _⟩
    have hblocks : blocksPathFor q = q.dropLast ++ [.normal (own ++ BLOCKS_SUFFIX)] := by
      unfold blocksPathFor
      rw [hq, FsPath.pushExtension_append_normal, List.dropLast_concat]
    unfold tempOf
    rw [hblocks, FsPath.fileName_append_normal]
    dsimp only
    rw [hown]
    dsimp only
    rw [if_pos hprefix, List.dropLast_concat, ← hq]

/-- The sidecar of an entry is no other temporary's. -/
theorem tempOf_blocksPathFor {run : SweepRun} {name : Text} {q : FsPath}
    (h : tempOf (blocksPathFor (run.path name)) = some q) : q = run.path name := by
  obtain ⟨⟨own, hown, -⟩, hblocks⟩ := tempOf_eq_some.1 h
  have hq := FsPath.eq_append_of_fileName hown
  unfold blocksPathFor SweepRun.path at hblocks
  rw [hq, FsPath.pushExtension_append_normal, FsPath.pushExtension_append_normal] at hblocks
  obtain ⟨hdir, hname⟩ := List.append_inj' hblocks rfl
  have hext := Component.normal.inj (List.cons.inj hname).1
  rw [hq, ← hdir, ← List.append_cancel_right hext]
  rfl

theorem isPrefixOf_of_spelled {run : SweepRun} {name : Text} (h : Spelled (run.path name)) :
    name.startsWith SESSION_PREFIX = true := by
  obtain ⟨own, hown, hprefix⟩ := h
  have hname := (FsPath.fileName_append_normal run.dir name).symm.trans hown
  rw [Option.some.inj hname]
  exact Text.startsWith_iff.2 hprefix

/-! ## What others leave alone -/

/-- The file that stands there has stood there before, and has not been written. -/
def Untouched (s t : Store) (p : FsPath) : Prop :=
  ∀ f, t.disk.entry p = .file f →
    s.disk.entry p = .file f ∧ t.disk.content f = s.disk.content f

theorem Untouched.of_disk {s t : Store} (h : t.disk = s.disk) (p : FsPath) : Untouched s t p := by
  intro f hf
  rw [h] at hf ⊢
  exact ⟨hf, rfl⟩

theorem untouched_unlink (s : Store) (p q : FsPath) : Untouched s (s.unlink p) q :=
  fun _ hf => ⟨unlink_entry_file hf, rfl⟩

theorem Untouched.oldAt {s t : Store} {deadline : Nat} {p : FsPath} (h : Untouched s t p)
    (hold : s.OldAt deadline p) : t.OldAt deadline p := by
  unfold Store.OldAt at hold ⊢
  split
  · next f hf =>
      obtain ⟨hentry, hcontent⟩ := h f hf
      rw [hentry] at hold
      rw [hcontent]
      exact hold
  · trivial

theorem Untouched.isFile {s t : Store} {p : FsPath} (h : Untouched s t p)
    (hfile : (t.disk.entry p).isFile = true) : (s.disk.entry p).isFile = true := by
  cases hentry : t.disk.entry p with
  | file f => rw [(h f hentry).1, Entry.isFile]
  | dir | absent =>
      rw [hentry] at hfile
      cases hfile

theorem Store.Owned.untouched {s t : Store} {run : SweepRun} {p : FsPath}
    (howned : s.Owned run p) (hp : Untouched s t p) (hq : ∀ q ∈ tempOf p, Untouched s t q) :
    t.Owned run p := by
  intro hfile q hqp
  obtain ⟨hold, hwaits⟩ := howned (hp.isFile hfile) q hqp
  exact ⟨(hq q hqp).oldAt hold, fun hqfile => hwaits ((hq q hqp).isFile hqfile)⟩

/-- A call that avoids a name leaves the file there as it is. -/
theorem Op.Effect.untouched {op : Op} {s t : Store} (h : op.Effect s t) {p : FsPath}
    (havoids : op.Avoids s p) : Untouched s t p := by
  intro f hf
  have hentry : s.disk.entry p = .file f := by
    rcases h.entry p with hsame | hput | ⟨-, habsent⟩ | ⟨-, hdir, -⟩
    · rw [← hsame]
      exact hf
    · exact absurd hput havoids.1
    · rw [habsent] at hf
      cases hf
    · rw [hdir] at hf
      cases hf
  refine ⟨hentry, ?_⟩
  rcases h.node (s.disk.entry_lt hentry) with hsame | hwrites | ⟨q, hput, hq⟩
  · exact hsame
  · exact absurd hentry (havoids.2 f hwrites)
  · rw [s.disk.single hq hentry] at hput
    exact absurd hput havoids.1

/-! ## What a sweep knows while it is left alone -/

/-- The entry that the sweep visits. -/
def SweepRun.visiting (run : SweepRun) : List Text :=
  match run.point with
  | .listing => []
  | .judging name | .unlinkingSidecar name | .unlinkingEntry name => [name]

/-- What is about to be taken away is old, and takes no sidecar from what is not. -/
def SweepRun.Condemns (run : SweepRun) (s : Store) : Prop :=
  match run.point with
  | .listing | .judging _ => True
  | .unlinkingSidecar name => s.OldAt run.deadline (run.path name) ∧
      s.OldAt run.deadline (blocksPathFor (run.path name)) ∧ s.Owned run (run.path name)
  | .unlinkingEntry name =>
      s.OldAt run.deadline (run.path name) ∧ s.Owned run (run.path name)

/-- A bare temporary stands, is old, and will be visited. -/
structure BareWaits (s : Store) (run : SweepRun) (q : FsPath) (g : Nat) : Prop where
  stands : s.disk.entry q = .file g
  old : (s.disk.content g).mtime < run.deadline
  spelled : Spelled q
  visited : q ∈ (run.visiting ++ run.names).map run.path

/-- The invariant of a sweep under way. -/
structure OnCourse (maxAge : Nat) (s : SweptStore) (run : SweepRun) : Prop where
  deadline : ∀ m < run.deadline, m + maxAge ≤ s.store.now
  bare : ∀ q g, (q, g) ∈ s.bare → BareWaits s.store run q g
  condemns : run.Condemns s.store

/-- The invariant. -/
structure Sparing (maxAge : Nat) (s : SweptStore) : Prop where
  spares : SparesUploads maxAge s
  resting : s.sweep = none → s.bare = []
  running : ∀ run, s.sweep = some run → OnCourse maxAge s run

theorem sparing_unswept (maxAge : Nat) (s : Store) : Sparing maxAge s.unswept where
  spares := ⟨fun _ hr => absurd hr List.not_mem_nil, rfl⟩
  resting := fun _ => rfl
  running := fun _ h => nomatch h

section Under

variable {maxAge : Nat} {s : SweptStore} {t : Store}

theorem mem_under_bare {q : FsPath} {g : Nat} (h : (q, g) ∈ (s.under t).bare) :
    (q, g) ∈ s.bare ∧ t.disk.entry q = .file g := by
  obtain ⟨hmem, hstands⟩ := List.mem_filter.1 h
  exact ⟨hmem, of_decide_eq_true hstands⟩

theorem SweepRun.Condemns.untouched {run : SweepRun} {s t : Store} (h : run.Condemns s)
    (huntouched : ∀ p ∈ run.judged, Untouched s t p) : run.Condemns t := by
  unfold SweepRun.Condemns SweepRun.judged at *
  cases hpoint : run.point with
  | listing | judging name => trivial
  | unlinkingSidecar name =>
      rw [hpoint] at h huntouched
      obtain ⟨htemp, hsidecar, howned⟩ := h
      have hp := huntouched _ List.mem_cons_self
      have hb := huntouched _ (List.mem_cons_of_mem _ List.mem_cons_self)
      refine ⟨hp.oldAt htemp, hb.oldAt hsidecar, howned.untouched hp ?_⟩
      intro q hq
      exact huntouched q (List.mem_cons_of_mem _ (List.mem_cons_of_mem _ (Option.mem_toList.2 hq)))
  | unlinkingEntry name =>
      rw [hpoint] at h huntouched
      obtain ⟨htemp, howned⟩ := h
      have hp := huntouched _ List.mem_cons_self
      refine ⟨hp.oldAt htemp, howned.untouched hp ?_⟩
      intro q hq
      exact huntouched q (List.mem_cons_of_mem _ (Option.mem_toList.2 hq))

theorem OnCourse.under {run : SweepRun} (h : OnCourse maxAge s run)
    (hsweep : s.sweep = some run) (hnow : s.store.now ≤ t.now)
    (huntouched : ∀ p ∈ s.judged, Untouched s.store t p) : OnCourse maxAge (s.under t) run := by
  unfold SweptStore.judged at huntouched
  rw [hsweep] at huntouched
  constructor
  · intro m hm
    exact Nat.le_trans (h.deadline m hm) hnow
  · intro q g hmem
    obtain ⟨hbare, hstands⟩ := mem_under_bare hmem
    have hwaits := h.bare q g hbare
    have hq := huntouched q (List.mem_append_left _ (List.mem_map.2 ⟨(q, g), hbare, rfl⟩))
    refine ⟨hstands, ?_, hwaits.spelled, hwaits.visited⟩
    rw [show (s.under t).store = t from rfl, (hq g hstands).2]
    exact hwaits.old
  · exact h.condemns.untouched fun p hp => huntouched p (List.mem_append_right _ hp)

/-- **Others keep the invariant where they leave the sweep's names alone.** -/
theorem Sparing.under (h : Sparing maxAge s) (hnow : s.store.now ≤ t.now)
    (huntouched : ∀ p ∈ s.judged, Untouched s.store t p) : Sparing maxAge (s.under t) where
  spares := ⟨h.spares.fresh, h.spares.bare⟩
  resting := by
    intro hsweep
    have hnone : s.bare = [] := h.resting hsweep
    unfold SweptStore.under
    rw [hnone]
    rfl
  running := fun run hrun => (h.running run hrun).under hrun hnow huntouched

end Under

/-! ## The calls of the sweep keep the invariant -/

section Calls

variable {maxAge : Nat} {s t : SweptStore} {run : SweepRun} {p : FsPath} {ok : Bool}

/-- What `remove_file` does: nothing where there is no file or it fails. -/
theorem removeFile_cases (s : SweptStore) (p : FsPath) (ok : Bool) :
    (s.removeFile p ok = (s, false) ∧ ∀ f, s.store.disk.entry p = .file f → ok = false) ∨
      ∃ f, s.store.disk.entry p = .file f ∧
        s.removeFile p ok =
          ({ s with
              removals := ⟨p, (s.store.disk.content f).mtime, s.store.now⟩ :: s.removals
              bare := s.bared p ++ s.bare }.under (s.store.unlink p), true) := by
  unfold SweptStore.removeFile
  cases hentry : s.store.disk.entry p with
  | file f =>
      cases ok with
      | true => exact Or.inr ⟨f, rfl, rfl⟩
      | false => exact Or.inl ⟨rfl, fun _ _ => rfl⟩
  | dir => exact Or.inl ⟨rfl, fun _ hf => by cases hf⟩
  | absent => exact Or.inl ⟨rfl, fun _ hf => by cases hf⟩

/-- The store after `remove_file`. -/
theorem removeFile_store (s : SweptStore) (p : FsPath) (ok : Bool) :
    (s.removeFile p ok).1.store.now = s.store.now ∧
      ∀ q, Untouched s.store (s.removeFile p ok).1.store q := by
  rcases removeFile_cases s p ok with ⟨heq, -⟩ | ⟨f, -, heq⟩
  · rw [heq]
    exact ⟨rfl, Untouched.of_disk rfl⟩
  · rw [heq]
    exact ⟨rfl, untouched_unlink s.store p⟩

/-- What is taken away is as old as it has been judged. -/
theorem removeFile_spares (h : SparesUploads maxAge s)
    (hdeadline : ∀ m < run.deadline, m + maxAge ≤ s.store.now)
    (hold : s.store.OldAt run.deadline p) : SparesUploads maxAge (s.removeFile p ok).1 := by
  rcases removeFile_cases s p ok with ⟨heq, -⟩ | ⟨f, hentry, heq⟩
  · rw [heq]
    exact h
  · rw [heq]
    refine ⟨?_, h.bare⟩
    intro r hr
    rcases List.mem_cons.1 hr with rfl | hr
    · unfold Store.OldAt at hold
      rw [hentry] at hold
      exact hdeadline _ hold
    · exact h.fresh r hr

/-- A temporary is bare that was so before, or that has lost its sidecar now. -/
theorem bare_removeFile (hstands : ∀ q g, (q, g) ∈ s.bare → s.store.disk.entry q = .file g)
    {q : FsPath} {g : Nat} (h : (q, g) ∈ (s.removeFile p ok).1.bare) :
    (s.removeFile p ok).1.store.disk.entry q = .file g ∧
      ((q, g) ∈ s.bare ∨ ((s.store.disk.entry p).isFile = true ∧ tempOf p = some q)) := by
  rcases removeFile_cases s p ok with ⟨heq, -⟩ | ⟨f, hentry, heq⟩
  · rw [heq] at h ⊢
    exact ⟨hstands q g h, Or.inl h⟩
  · rw [heq] at h ⊢
    obtain ⟨hmem, hthere⟩ := mem_under_bare h
    refine ⟨hthere, ?_⟩
    rcases List.mem_append.1 hmem with hnew | hbefore
    · right
      rw [hentry]
      refine ⟨rfl, ?_⟩
      unfold SweptStore.bared at hnew
      split at hnew
      · cases hnew
      · next q' hq' =>
          split at hnew
          · next f' _ =>
              cases List.mem_singleton.1 hnew
              exact hq'
          · cases hnew
    · exact Or.inl hbefore

/-- A temporary whose removal does not fail is no longer bare. -/
theorem not_bare_removeFile (hstands : ∀ q g, (q, g) ∈ s.bare → s.store.disk.entry q = .file g)
    (hok : ok = false → p ∉ s.bare.map Prod.fst) {g : Nat} :
    (p, g) ∉ (s.removeFile p ok).1.bare := by
  intro hmem
  rcases removeFile_cases s p ok with ⟨heq, hfailed⟩ | ⟨f, -, heq⟩
  · rw [heq] at hmem
    exact hok (hfailed g (hstands p g hmem)) (List.mem_map.2 ⟨(p, g), hmem, rfl⟩)
  · have hthere := (bare_removeFile hstands hmem).1
    rw [heq] at hthere
    have hgone : (s.store.unlink p).disk.entry p = .absent := Disk.unlink_entry_self _ _
    rw [show (s.store.unlink p).disk.entry p = .file g from hthere] at hgone
    cases hgone

/-- Between two entries of an exhausted directory nothing is bare. -/
theorem OnCourse.bare_nil (h : OnCourse maxAge s run) (hpoint : run.point = .listing)
    (hnames : run.names = []) : s.bare = [] := by
  rw [List.eq_nil_iff_forall_not_mem]
  rintro ⟨q, g⟩ hmem
  have hvisited := (h.bare q g hmem).visited
  unfold SweepRun.visiting at hvisited
  rw [hpoint, hnames] at hvisited
  cases hvisited

/-- The sweep begins. -/
theorem Sparing.start (h : Sparing maxAge s) (hsweep : s.sweep = none) (root : FsPath) :
    Sparing maxAge { s with
      sweep := some ⟨s.store.now - maxAge, [root], root, [], .listing, 0⟩ } where
  spares := ⟨h.spares.fresh, h.spares.bare⟩
  resting := fun hnone => nomatch hnone
  running := by
    intro run hrun
    cases hrun
    refine ⟨?_, ?_, trivial⟩
    · intro m hm
      have hlt : m < s.store.now - maxAge := hm
      show m + maxAge ≤ s.store.now
      omega
    · intro q g hmem
      rw [show s.bare = [] from h.resting hsweep] at hmem
      cases hmem

/-- A directory is read. -/
theorem Sparing.openDir (h : Sparing maxAge s) (hcourse : OnCourse maxAge s run)
    (hpoint : run.point = .listing) (hnames : run.names = []) (stack : List FsPath)
    (dir : FsPath) (names : List Text) :
    Sparing maxAge { s with
      sweep := some { run with stack := stack, dir := dir, names := names } } where
  spares := ⟨h.spares.fresh, h.spares.bare⟩
  resting := fun hnone => nomatch hnone
  running := by
    intro run' hrun
    cases hrun
    refine ⟨hcourse.deadline, ?_, ?_⟩
    · intro q g hmem
      rw [show s.bare = [] from hcourse.bare_nil hpoint hnames] at hmem
      cases hmem
    · unfold SweepRun.Condemns
      rw [show ({ run with stack := stack, dir := dir, names := names } : SweepRun).point =
        .listing from hpoint]
      trivial

/-- What an entry becomes. -/
theorem listed_cases (s : SweptStore) (run : SweepRun) (name : Text) (ok : Bool)
    (hpoint : run.point = .listing) :
    (∀ n, (s.listed run name ok).path n = run.path n) ∧
      (s.listed run name ok).deadline = run.deadline ∧
      (s.listed run name ok).names = run.names ∧
      ((s.listed run name ok).point = .listing ∧
        (∀ f, s.store.disk.entry (run.path name) = .file f → ok = true →
          name.startsWith SESSION_PREFIX = false) ∨
      (s.listed run name ok).point = .judging name) := by
  unfold SweptStore.listed
  split
  · next hdir =>
      refine ⟨fun _ => rfl, rfl, rfl, Or.inl ⟨hpoint, ?_⟩⟩
      intro f hf
      rw [hdir] at hf
      cases hf
  · split
    · exact ⟨fun _ => rfl, rfl, rfl, Or.inr rfl⟩
    · next hname =>
        exact ⟨fun _ => rfl, rfl, rfl, Or.inl ⟨hpoint, fun _ _ _ => Bool.eq_false_of_not_eq_true hname⟩⟩
  · next hother =>
      refine ⟨fun _ => rfl, rfl, rfl, Or.inl ⟨hpoint, ?_⟩⟩
      intro f hf hok
      exact absurd hok (hother f hf)

/-- An entry is read: a bare temporary is not passed over. -/
theorem OnCourse.list (h : OnCourse maxAge s run) (hpoint : run.point = .listing) {name : Text}
    {rest : List Text} (hnames : run.names = name :: rest) (hjudges : s.Judges run (.list ok)) :
    OnCourse maxAge { s with sweep := some (s.listed { run with names := rest } name ok) }
      (s.listed { run with names := rest } name ok) := by
  obtain ⟨hpath, hdeadline, hrest, hbecomes⟩ :=
    listed_cases s { run with names := rest } name ok hpoint
  refine ⟨?_, ?_, ?_⟩
  · rw [hdeadline]
    exact h.deadline
  · intro q g hmem
    have hwaits := h.bare q g hmem
    refine ⟨hwaits.stands, by rw [hdeadline]; exact hwaits.old, hwaits.spelled, ?_⟩
    obtain ⟨own, hown, hq⟩ := List.mem_map.1 hwaits.visited
    unfold SweepRun.visiting at hown
    rw [hpoint, hnames] at hown
    refine List.mem_map.2 ⟨own, ?_, (hpath own).trans hq⟩
    rw [hrest]
    rcases List.mem_cons.1 hown with rfl | hlater
    · rcases hbecomes with ⟨-, hplain⟩ | hjudging
      · have hok : ok = true := by
          by_contra hfailed
          refine hjudges (Bool.eq_false_of_not_eq_true hfailed) own ?_ ?_
          · rw [hnames]
            rfl
          · rw [hq]
            exact List.mem_map.2 ⟨(q, g), hmem, rfl⟩
        have hentry : s.store.disk.entry (run.path own) = .file g := by
          rw [hq]
          exact hwaits.stands
        have hspelled : Spelled (run.path own) := by
          rw [hq]
          exact hwaits.spelled
        have hprefix := isPrefixOf_of_spelled hspelled
        rw [hplain g hentry hok] at hprefix
        cases hprefix
      · unfold SweepRun.visiting
        rw [hjudging]
        exact List.mem_append_left _ (List.mem_singleton_self own)
    · exact List.mem_append_right _ hlater
  · unfold SweepRun.Condemns
    rcases hbecomes with ⟨hlisting, -⟩ | hjudging
    · rw [hlisting]
      trivial
    · rw [hjudging]
      trivial

/-- The age of an entry is read: a bare temporary is found old. -/
theorem OnCourse.stat (h : OnCourse maxAge s run) {name : Text}
    (hpoint : run.point = .judging name) {dirMtime : Nat}
    (hjudges : s.Judges run (.stat ok dirMtime)) {run' : SweepRun}
    (hrun : run' = { run with
      point := if s.store.modifiedAt (run.path name) ok dirMtime < run.deadline
        then .unlinkingSidecar name else .listing }) :
    OnCourse maxAge { s with sweep := some run' } run' := by
  unfold SweptStore.Judges at hjudges
  rw [hpoint] at hjudges
  dsimp only at hjudges
  by_cases hstale : s.store.modifiedAt (run.path name) ok dirMtime < run.deadline
  · rw [if_pos hstale] at hrun
    subst hrun
    refine ⟨h.deadline, ?_, hjudges hstale⟩
    intro q g hmem
    have hwaits := h.bare q g hmem
    refine ⟨hwaits.stands, hwaits.old, hwaits.spelled, ?_⟩
    have hvisited := hwaits.visited
    unfold SweepRun.visiting at hvisited
    rw [hpoint] at hvisited
    exact hvisited
  · rw [if_neg hstale] at hrun
    subst hrun
    refine ⟨h.deadline, ?_, trivial⟩
    intro q g hmem
    have hwaits := h.bare q g hmem
    refine ⟨hwaits.stands, hwaits.old, hwaits.spelled, ?_⟩
    obtain ⟨own, hown, hq⟩ := List.mem_map.1 hwaits.visited
    unfold SweepRun.visiting at hown
    rw [hpoint] at hown
    refine List.mem_map.2 ⟨own, ?_, hq⟩
    rcases List.mem_cons.1 hown with rfl | hlater
    · have hmodified : s.store.modifiedAt (run.path own) ok dirMtime ≤
          (s.store.disk.content g).mtime := by
        unfold Store.modifiedAt
        rw [hq, hwaits.stands]
        dsimp only
        split
        · exact Nat.le_refl _
        · exact Nat.zero_le _
      exact absurd (Nat.lt_of_le_of_lt hmodified hwaits.old) hstale
    · exact hlater

/-- What stands and is old on course is so after `remove_file`. -/
theorem OnCourse.stands_removeFile (h : OnCourse maxAge s run) {q : FsPath} {g : Nat}
    (hmem : (q, g) ∈ (s.removeFile p ok).1.bare) :
    (s.removeFile p ok).1.store.disk.entry q = .file g ∧
      ((s.removeFile p ok).1.store.disk.content g).mtime = (s.store.disk.content g).mtime ∧
      (BareWaits s.store run q g ∨ (s.store.disk.entry q = .file g ∧
        (s.store.disk.entry p).isFile = true ∧ tempOf p = some q)) := by
  obtain ⟨hthere, hwhy⟩ := bare_removeFile (fun q g hb => (h.bare q g hb).stands) hmem
  obtain ⟨hentry, hcontent⟩ := (removeFile_store s p ok).2 q g hthere
  refine ⟨hthere, by rw [hcontent], ?_⟩
  rcases hwhy with hbefore | ⟨hfile, htemp⟩
  · exact Or.inl (h.bare q g hbefore)
  · exact Or.inr ⟨hentry, hfile, htemp⟩

/-- The sidecar goes: its temporary, if it stands, is old, and goes next. -/
theorem OnCourse.removeSidecar (h : OnCourse maxAge s run) {name : Text}
    (hpoint : run.point = .unlinkingSidecar name) :
    OnCourse maxAge
      { (s.removeFile (blocksPathFor (run.path name)) ok).1 with
        sweep := some { run with point := .unlinkingEntry name } }
      { run with point := .unlinkingEntry name } := by
  obtain ⟨hnow, huntouched⟩ := removeFile_store s (blocksPathFor (run.path name)) ok
  have hcondemns := h.condemns
  unfold SweepRun.Condemns at hcondemns
  rw [hpoint] at hcondemns
  obtain ⟨hold, -, howned⟩ := hcondemns
  refine ⟨?_, ?_, ?_⟩
  · intro m hm
    dsimp only
    rw [hnow]
    exact h.deadline m hm
  · intro q g hmem
    obtain ⟨hthere, hmtime, hwhy⟩ := h.stands_removeFile hmem
    have hbefore : (s.store.disk.content g).mtime < run.deadline ∧ Spelled q ∧
        q ∈ (name :: run.names).map run.path := by
      rcases hwhy with hwaits | ⟨hentry, -, htemp⟩
      · have hvisited := hwaits.visited
        unfold SweepRun.visiting at hvisited
        rw [hpoint] at hvisited
        exact ⟨hwaits.old, hwaits.spelled, hvisited⟩
      · have hq := tempOf_blocksPathFor htemp
        unfold Store.OldAt at hold
        rw [← hq, hentry] at hold
        exact ⟨hold, (tempOf_eq_some.1 htemp).1, List.mem_map.2 ⟨name, List.mem_cons_self, hq.symm⟩⟩
    obtain ⟨hqold, hspelled, hvisited⟩ := hbefore
    exact ⟨hthere, by dsimp only; rw [hmtime]; exact hqold, hspelled, hvisited⟩
  · exact ⟨(huntouched _).oldAt hold,
      howned.untouched (huntouched _) fun q _ => huntouched q⟩

/-- The entry goes: it is bare no longer, and a temporary that loses its sidecar so is old,
and goes later. -/
theorem OnCourse.removeEntry (h : OnCourse maxAge s run) {name : Text}
    (hpoint : run.point = .unlinkingEntry name) (hjudges : s.Judges run (.removeEntry ok))
    {t : SweptStore} {gone : Bool} (ht : s.removeFile (run.path name) ok = (t, gone)) :
    OnCourse maxAge { t with sweep := some (run.counted name gone) }
      (run.counted name gone) := by
  obtain ⟨hnow, -⟩ := removeFile_store s (run.path name) ok
  have hcondemns := h.condemns
  unfold SweepRun.Condemns at hcondemns
  unfold SweptStore.Judges at hjudges
  rw [hpoint] at hcondemns hjudges
  obtain ⟨-, howned⟩ := hcondemns
  have hgone : ∀ g, (run.path name, g) ∉ t.bare := by
    intro g
    have hnot := not_bare_removeFile (fun q g hb => (h.bare q g hb).stands) hjudges (g := g)
    rw [ht] at hnot
    exact hnot
  refine ⟨?_, ?_, trivial⟩
  · intro m hm
    rw [ht] at hnow
    dsimp only
    rw [hnow]
    exact h.deadline m hm
  · intro q g hmem
    have hmem' : (q, g) ∈ (s.removeFile (run.path name) ok).1.bare := by
      rw [ht]
      exact hmem
    obtain ⟨hthere, hmtime, hwhy⟩ := h.stands_removeFile hmem'
    rw [ht] at hthere hmtime
    have hbefore : (s.store.disk.content g).mtime < run.deadline ∧ Spelled q ∧
        q ∈ run.names.map run.path := by
      rcases hwhy with hwaits | ⟨hentry, hfile, htemp⟩
      · refine ⟨hwaits.old, hwaits.spelled, ?_⟩
        obtain ⟨own, hown, hq⟩ := List.mem_map.1 hwaits.visited
        unfold SweepRun.visiting at hown
        rw [hpoint] at hown
        rcases List.mem_cons.1 hown with rfl | hlater
        · rw [← hq] at hmem
          exact absurd hmem (hgone g)
        · exact List.mem_map.2 ⟨own, hlater, hq⟩
      · obtain ⟨hold, hlater⟩ := howned hfile q htemp
        unfold Store.OldAt at hold
        rw [hentry] at hold hlater
        exact ⟨hold, (tempOf_eq_some.1 htemp).1, hlater rfl⟩
    obtain ⟨hold, hspelled, hvisited⟩ := hbefore
    exact ⟨hthere, by dsimp only; rw [hmtime]; exact hold, hspelled, hvisited⟩

/-- A sweep that goes on, on course. -/
theorem OnCourse.sparing (hspares : SparesUploads maxAge s)
    (h : OnCourse maxAge { s with sweep := some run } run) :
    Sparing maxAge { s with sweep := some run } where
  spares := ⟨hspares.fresh, hspares.bare⟩
  resting := fun hnone => nomatch hnone
  running := by
    intro run' hrun
    cases hrun
    exact h

/-- **Every call of the sweep keeps the invariant where it judges sessions together.** -/
theorem Sparing.advance (h : Sparing maxAge s) (hsweep : s.sweep = some run) {act : SweepAct}
    (hjudges : s.Judges run act) (hstep : s.advance run act = some t) : Sparing maxAge t := by
  have hcourse := h.running run hsweep
  cases act with
  | start => cases hstep
  | openDir names =>
      simp only [SweptStore.advance] at hstep
      split at hstep
      · next hpoint hnames _ =>
          cases hstep
          exact h.openDir hcourse hpoint hnames _ _ _
      · cases hstep
  | list ok =>
      simp only [SweptStore.advance] at hstep
      split at hstep
      · next hpoint hnames =>
          cases hstep
          exact (hcourse.list hpoint hnames hjudges).sparing h.spares
      · cases hstep
  | stat ok dirMtime =>
      simp only [SweptStore.advance] at hstep
      split at hstep
      · next hpoint =>
          cases hstep
          exact (hcourse.stat hpoint hjudges rfl).sparing h.spares
      · cases hstep
  | removeSidecar ok =>
      simp only [SweptStore.advance] at hstep
      split at hstep
      · next hpoint =>
          cases hstep
          have hcondemns := hcourse.condemns
          unfold SweepRun.Condemns at hcondemns
          rw [hpoint] at hcondemns
          exact (hcourse.removeSidecar hpoint).sparing
            (removeFile_spares h.spares hcourse.deadline hcondemns.2.1)
      · cases hstep
  | removeEntry ok =>
      simp only [SweptStore.advance] at hstep
      split at hstep
      · next name hpoint =>
          cases hstep
          have hcondemns := hcourse.condemns
          unfold SweepRun.Condemns at hcondemns
          rw [hpoint] at hcondemns
          exact (hcourse.removeEntry hpoint hjudges rfl).sparing
            (removeFile_spares h.spares hcourse.deadline hcondemns.1)
      · cases hstep
  | finish =>
      simp only [SweptStore.advance] at hstep
      split at hstep
      · next hpoint hnames _ =>
          cases hstep
          have hnone : s.bare = [] := hcourse.bare_nil hpoint hnames
          refine ⟨⟨h.spares.fresh, ?_⟩, fun _ => rfl, fun _ hrun => by cases hrun⟩
          dsimp only
          rw [hnone]
          exact h.spares.bare
      · cases hstep

/-- **Every call of the sweeper does.** -/
theorem sparing_sweepStep (h : Sparing maxAge s) {root : FsPath} {act : SweepAct}
    (hjudges : ∀ run ∈ s.sweep, s.Judges run act)
    (hstep : sweepStep root maxAge s act = some t) : Sparing maxAge t := by
  unfold sweepStep at hstep
  split at hstep
  · next hsweep =>
      cases hstep
      exact h.start hsweep root
  · cases hstep
  · next run hsweep => exact h.advance hsweep (hjudges run hsweep) hstep

end Calls

/-! ## Runs -/

section Runs

variable {srv : Server} {maxAge : Nat}

/-- Time does not go back. -/
theorem Outside.now_le (e : Outside) (s : Store) : s.now ≤ (e.apply s).now := by
  cases e with
  | tick n => exact Nat.le_add_right _ _
  | place p cells => exact Nat.le_refl _

theorem untouched_place {s : Store} {p q : FsPath} (cells : List (Option UInt8)) (h : q ≠ p) :
    Untouched s (s.create p (.bytes cells)) q := by
  intro f hf
  have hentry : s.disk.entry q = .file f := (Disk.create_entry_ne _ _ h).symm.trans hf
  exact ⟨hentry, Disk.create_content_lt _ _ (s.disk.entry_lt hentry)⟩

/-- A request that ends. -/
theorem Sparing.leave {s : SweptStore} (h : Sparing maxAge s) (i : Nat) :
    Sparing maxAge (s.under (s.store.release i)) :=
  h.under (Nat.le_refl _) fun p _ => Untouched.of_disk rfl p

/-- A request's program stops again, or ends. -/
theorem Sparing.put {t : SweptState} {s : SweptStore} {i : Nat} {job : UploadJob}
    {prog : Code (Except ApiError Reply × Held)} (h : Sparing maxAge s) :
    Sparing maxAge ((sweptSystem srv maxAge).put t s i job prog).shared := by
  cases prog with
  | done r => exact h.leave i
  | call o k => exact h

/-- What happens outside the requests, the sweep included. -/
theorem Sparing.disturb {t : SweptState} (h : Sparing maxAge t.shared)
    {e : Outside ⊕ SweepAct} (hok : LeftAlone t (.env e)) :
    Sparing maxAge ((sweptSystem srv maxAge).disturb e t.shared) := by
  cases e with
  | inl e =>
      refine h.under (Outside.now_le e _) ?_
      intro p hp
      cases e with
      | tick n => exact Untouched.of_disk rfl p
      | place q cells => exact untouched_place cells fun hpq => hok (hpq ▸ hp)
  | inr act =>
      cases hstep : sweepStep srv.root maxAge t.shared act with
      | none =>
          show Sparing maxAge ((sweepStep srv.root maxAge t.shared act).getD t.shared)
          rw [hstep]
          exact h
      | some s =>
          show Sparing maxAge ((sweepStep srv.root maxAge t.shared act).getD t.shared)
          rw [hstep]
          exact sparing_sweepStep h hok hstep

/-- One event. -/
theorem Sparing.next {t u : SweptState} {a : SweptAct} (h : Sparing maxAge t.shared)
    (hok : LeftAlone t a) (hnext : (sweptSystem srv maxAge).next t a = some u) :
    Sparing maxAge u.shared := by
  rcases System.next_cases hnext with ⟨i, job, rfl, -, rfl⟩ |
    ⟨i, c, job, call, k, sh, ans, rfl, hwait, hexec, rfl⟩ | ⟨i, job, call, k, rfl, -, rfl⟩ |
    ⟨e, rfl, rfl⟩
  · exact h.put
  · obtain ⟨⟨v, b⟩, hcall, heq⟩ := Option.map_eq_some_iff.1 hexec
    cases heq
    simp only [LeftAlone, hwait] at hok
    refine Sparing.put (h.under (Nat.le_of_eq (exec_now hcall).symm) ?_)
    intro p hp
    exact (exec_effect hcall).untouched (hok p hp)
  · exact h.leave i
  · exact h.disturb hok

/-- **In every run in which the sweep's names are left alone and the files of a session are
judged together, the sweeper takes away nothing fresh, and leaves no temporary bare.** -/
theorem sweep_spares_uploads (s₀ : Store) {t : SweptState}
    (hrun : (sweptSystem srv maxAge).Reaches LeftAlone (sweptAtRest s₀) t) :
    SparesUploads maxAge t.shared := by
  have hsparing : Sparing maxAge t.shared := by
    induction hrun with
    | refl => exact sparing_unswept maxAge s₀
    | tail _ hok hnext ih => exact ih.next hok hnext
  exact hsparing.spares

end Runs

/-! ## An abandoned session is swept -/

/-- A data chunk of the sample session, up to so many of its calls. -/
def chunkActs (i : Nat) (offset : Text) (bytes : List UInt8) (count : Nat) : List SweptAct :=
  .start i (sampleJob 2 (some offset) false bytes) :: List.replicate count (.step i .go)

/-- Some calls of the sweeper. -/
def sweeperActs (acts : List SweepAct) : List SweptAct := acts.map fun act => .env (.inr act)

/-- The calls about an entry that is taken away. -/
def takeEntry : List SweepAct :=
  [.list true, .stat true 0, .removeSidecar true, .removeEntry true]

/-- The name of the session's sidecar in these runs. -/
def sampleBlocksName : Text := sampleTempName ++ BLOCKS_SUFFIX

/-- A session with one chunk, some time later. -/
def olderActs : List SweptAct := chunkActs 0 "0".toList [6] 12 ++ [.env (.inl (.tick 10))]

/-- Its sidecar is an entry before the temporary. -/
def abandonedActs : List SweptAct :=
  olderActs ++ sweeperActs (.start :: .openDir [sampleBlocksName, sampleTempName] ::
    (takeEntry ++ takeEntry ++ [.finish]))

/-- The sidecar and then the temporary of the abandoned session are taken away. -/
theorem abandoned_session_swept :
    ∃ t, (sweptSystem sampleServer 5).Reaches LeftAlone (sweptAtRest sampleStore) t ∧
      t.shared.removals.length = 2 ∧ SparesUploads 5 t.shared := by
  have hrun : (((sweptSystem sampleServer 5).runIf (fun t a => decide (LeftAlone t a))
      (sweptAtRest sampleStore) abandonedActs).any fun t => t.shared.removals.length = 2) = true := by
    decide +kernel
  obtain ⟨t, ht, hcount⟩ := (Option.any_eq_true _ _).1 hrun
  have hreach : (sweptSystem sampleServer 5).Reaches LeftAlone (sweptAtRest sampleStore) t :=
    System.reaches_of_runIf (fun _ _ htest => of_decide_eq_true htest) ht
  exact ⟨t, hreach, of_decide_eq_true hcount, sweep_spares_uploads sampleStore hreach⟩

/-! ## Live uploads that it interrupts -/

/-- The next chunk is written after the sweeper has read how old the temporary is. -/
def interruptedActs : List SweptAct :=
  olderActs ++ sweeperActs [.start, .openDir [sampleTempName], .list true, .stat true 0] ++
    chunkActs 1 "1".toList [7] 12 ++ sweeperActs [.removeSidecar true, .removeEntry true]

/-- **A temporary and a sidecar that have just been written are taken away.** -/
theorem sweep_interrupts_upload :
    ¬ ∀ (srv : Server) (maxAge : Nat) (s₀ : Store) (t : SweptState),
      (sweptSystem srv maxAge).Reaches (fun _ _ => True) (sweptAtRest s₀) t →
        SparesUploads maxAge t.shared := by
  intro hall
  have hrun : (((sweptSystem sampleServer 5).run (sweptAtRest sampleStore) interruptedActs).any
      fun t => t.shared.removals.any fun r => r.time < r.mtime + 5) = true := by
    decide +kernel
  obtain ⟨t, ht, hfresh⟩ := (Option.any_eq_true _ _).1 hrun
  obtain ⟨r, hr, hlt⟩ := List.any_eq_true.1 hfresh
  have hspares := hall sampleServer 5 sampleStore t
    (System.reaches_of_run (fun _ _ _ => trivial) ht)
  exact absurd (hspares.fresh r hr) (Nat.not_le.2 (of_decide_eq_true hlt))

/-- The sweeper comes after the next chunk has been written, and before its sidecar. -/
def baredActs : List SweptAct :=
  olderActs ++ chunkActs 1 "1".toList [7] 8 ++
    sweeperActs ([.start, .openDir [sampleTempName, sampleBlocksName], .list true,
      .stat true 0] ++ takeEntry ++ [.finish])

/-- **A sidecar alone is taken away: the temporary of a live upload stays without it.** -/
theorem sweep_leaves_bare_temp :
    ∃ t, (sweptSystem sampleServer 5).Reaches (fun _ _ => True) (sweptAtRest sampleStore) t ∧
      ∃ q f, (q, f) ∈ t.shared.left ∧ t.shared.store.disk.entry q = .file f ∧
        t.shared.store.disk.entry (blocksPathFor q) = .absent := by
  have hrun : (((sweptSystem sampleServer 5).run (sweptAtRest sampleStore) baredActs).any
      fun t => t.shared.left.any fun b => t.shared.store.disk.entry b.1 = .file b.2 ∧
        t.shared.store.disk.entry (blocksPathFor b.1) = .absent) = true := by
    decide +kernel
  obtain ⟨t, ht, hleft⟩ := (Option.any_eq_true _ _).1 hrun
  obtain ⟨⟨q, f⟩, hmem, hb⟩ := List.any_eq_true.1 hleft
  obtain ⟨hthere, hgone⟩ := of_decide_eq_true hb
  exact ⟨t, System.reaches_of_run (fun _ _ _ => trivial) ht, q, f, hmem, hthere, hgone⟩

end Libfw

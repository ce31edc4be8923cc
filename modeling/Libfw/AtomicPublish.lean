import Libfw.UploadSessions

/-!
# Atomic publishing

Session requests of any sessions of one target, in any interleaving, dropped and
failing anywhere.  A temporary is moved onto the target by one rename, so the
target changes as a whole, unless somebody still writes to the file that was
moved.  A request opens its temporary before it queues for the lock; when it has
the lock, the file it has open may be the target already.  `FreshHandles` rules
that out.

* `target_published_whole`: then the target's bytes are always what some commit
  put there as a whole, and no data chunk changes them.
* `stale_handle_changes_target`: without it a data chunk overwrites a committed
  file.
-/

namespace Libfw

open SteppedPrograms Fs FsStorage PosixStore

variable (srv : Server) (target : FsPath)

/-- The bytes of the target; `none` where there is no file. -/
def targetBytes (s : Store) : Option Content :=
  match s.disk.entry target with
  | .file f => some (s.content f)
  | _ => none

/-- Requests of any sessions of the target; other uploads put whole files there. -/
def SessionsOf (_ : Store) : Event Call UploadJob Choice Outside → Prop
  | .enter _ job => resolve srv.root job.path = .ok target ∧ job.session ≠ none
  | .call _ _ _ _ | .drop _ _ | .env (.tick _) => True
  | .env (.place path _) => path = target

/-- A request that gets the lock does not have the target open. -/
def FreshHandles (s : Store) (e : Event Call UploadJob Choice Outside) : Prop :=
  SessionsOf srv target s e ∧ ∀ i job p h c, e = .call i job (.lock p, h) c →
    ∀ f, h.file = some f → s.disk.entry target ≠ .file f

/-! ## What a call may do to the target -/

/-- The call does not touch the target, or publishes. -/
def KeepsTarget (job : UploadJob) (s : Store) : Op → Prop
  | .writeAt f _ _ | .append f _ => s.disk.entry target ≠ .file f
  | .create p | .createNew p | .writeRanges p _ | .removeFile p => p ≠ target
  | .rename p q => p ≠ target ∧ (q = target → job.finalChunk = true)
  | _ => True

variable {srv target} {job : UploadJob} {s t : Store} {i : Nat}

/-- A call that only looks keeps the target. -/
theorem keepsTarget_of_looks {op : Op} (h : op.looks = true) :
    KeepsTarget target job s op := by
  cases op with
  | writeAt | append | create | createNew | writeRanges | removeFile | rename => cases h
  | _ => trivial

theorem targetBytes_eq
    (hentry : ∀ f, t.disk.entry target = .file f ↔ s.disk.entry target = .file f)
    (hcontent : ∀ f, s.disk.entry target = .file f → t.content f = s.content f) :
    targetBytes target t = targetBytes target s := by
  unfold targetBytes
  cases hs : s.disk.entry target with
  | file f =>
      rw [(hentry f).2 hs]
      exact congrArg some (hcontent f hs)
  | absent =>
      cases ht : t.disk.entry target with
      | file f =>
          rw [hs] at hentry
          exact absurd ((hentry f).1 ht) (fun h => nomatch h)
      | absent => rfl
      | dir => rfl
  | dir =>
      cases ht : t.disk.entry target with
      | file f =>
          rw [hs] at hentry
          exact absurd ((hentry f).1 ht) (fun h => nomatch h)
      | absent => rfl
      | dir => rfl

/-- Making a file elsewhere leaves the target's bytes alone: the new file has a number of its own.
-/
theorem targetBytes_create {p : FsPath} {c : Content} (hp : p ≠ target) :
    targetBytes target (s.create p c) = targetBytes target s := by
  refine targetBytes_eq (fun f => ?_) (fun f hf => ?_)
  · unfold Store.create
    rw [Disk.create_entry_ne _ _ hp.symm]
  · unfold Store.content Store.create
    rw [Disk.create_content_lt _ _ (s.disk.entry_lt hf)]

theorem targetBytes_create_self {c : Content} :
    targetBytes target (s.create target c) = some c := by
  unfold targetBytes Store.content Store.create
  simp only [Disk.create_entry_self, Disk.create_content_next]

/-- So does writing to a file that is not the target's. -/
theorem targetBytes_write {f : Nat} {g : Content → Content}
    (hf : s.disk.entry target ≠ .file f) :
    targetBytes target (s.write f g) = targetBytes target s := by
  refine targetBytes_eq (fun _ => Iff.rfl) (fun m hm => write_content_ne ?_)
  rintro rfl
  exact hf hm

/-- A write to the file under another name. -/
theorem targetBytes_write_other {p : FsPath} {f : Nat} {g : Content → Content}
    (hp : p ≠ target) (hf : s.disk.entry p = .file f) :
    targetBytes target (s.write f g) = targetBytes target s :=
  targetBytes_write fun htarget => hp (s.disk.single hf htarget)

/-- So does a sidecar that is replaced elsewhere. -/
theorem targetBytes_replaced {p : FsPath} {c : Content} (hp : p ≠ target)
    (h : ReplacedAt p c s t) : targetBytes target t = targetBytes target s := by
  rcases h with ⟨-, rfl⟩ | ⟨f, hf, rfl⟩
  · exact targetBytes_create hp
  · exact targetBytes_write_other hp hf

/-- So does an attempt to make a temporary. -/
theorem targetBytes_made {p : FsPath} {a : Except IoError Nat} (hp : p ≠ target)
    (h : Made p s t a) : targetBytes target t = targetBytes target s := by
  rcases h with ⟨rfl, -⟩ | ⟨-, -, rfl⟩
  · rfl
  · exact targetBytes_create hp

/-- **What one call does to the target**: nothing, or it moves a file there. -/
theorem target_exec {op : Op} {c : Choice} {a : op.Ans}
    (hop : KeepsTarget target job s op) (h : op.exec srv.serde i c s = some (t, a)) :
    targetBytes target t = targetBytes target s ∨
      ∃ p f, op = .rename p target ∧ job.finalChunk = true ∧
        s.disk.entry p = .file f ∧ targetBytes target t = some (s.content f) := by
  cases hlooks : op.looks with
  | true =>
      rw [exec_looks hlooks h]
      exact Or.inl rfl
  | false =>
      cases op with
      | createDirAll p =>
          left
          rcases exec_createDirAll h with rfl | rfl
          · rfl
          · exact targetBytes_eq (fun f => Disk.mkdirs_entry_file _) fun _ _ => rfl
      | create p =>
          left
          rcases exec_create h with hmade | ⟨f, hf, -, rfl⟩
          · exact targetBytes_made hop hmade
          · exact targetBytes_write_other hop hf
      | createNew p => exact Or.inl (targetBytes_made hop (exec_createNew h))
      | lock p =>
          obtain ⟨-, rfl⟩ := exec_lock h
          exact Or.inl rfl
      | writeAt f off buf =>
          left
          rcases exec_writeAt h with ⟨e, n, -, rfl⟩ | ⟨-, -, rfl⟩ | ⟨e, -, rfl⟩
          · exact targetBytes_write hop
          · exact targetBytes_write hop
          · rfl
      | append f buf =>
          left
          rcases exec_append h with ⟨e, n, -, rfl⟩ | ⟨-, rfl⟩
          · exact targetBytes_write hop
          · exact targetBytes_write hop
      | writeRanges p ranges =>
          left
          rcases exec_writeRanges h with ⟨e, -, rfl | hrep⟩ | ⟨-, hrep⟩
          · rfl
          · exact targetBytes_replaced hop hrep
          · exact targetBytes_replaced hop hrep
      | rename p q =>
          obtain ⟨hp, hq⟩ := hop
          rcases exec_rename h with ⟨rfl, -⟩ | ⟨f, hf, -, -, rfl⟩
          · exact Or.inl rfl
          by_cases hqt : q = target
          · subst hqt
            right
            refine ⟨p, f, rfl, hq rfl, hf, ?_⟩
            unfold targetBytes Store.rename
            rw [Disk.rename_entry_target, hf]
            rfl
          · left
            refine targetBytes_eq (fun m => ?_) fun _ _ => rfl
            unfold Store.rename
            rw [Disk.rename_entry_ne _ _ _ (Ne.symm hp) (Ne.symm hqt)]
      | removeFile p =>
          left
          rcases exec_removeFile h with ⟨rfl, -⟩ | ⟨f, -, -, rfl⟩
          · rfl
          · refine targetBytes_eq (fun m => ?_) fun _ _ => rfl
            unfold Store.unlink
            rw [Disk.unlink_entry_ne _ _ (Ne.symm hop)]
      | uniqueName =>
          obtain ⟨rfl, -⟩ := exec_uniqueName h
          exact Or.inl rfl
      | _ => cases hlooks

/-! ## Discipline -/

/-- The file has at most these names. -/
def NamedWithin (s : Store) (f : Nat) (names : List FsPath) : Prop :=
  f < s.disk.next ∧ ∀ p, s.disk.entry p = .file f → p ∈ names

variable (srv target) in
/-- What a request may assume of the others.  The file of a session's temporary
can be moved onto the target, and nowhere else; and by nobody else while the
request has the lock of that temporary. -/
structure PublishRely (i : Nat) (s t : Store) : Prop where
  lock : ∀ p, t.holder p = some i ↔ s.holder p = some i
  roams : ∀ p f, SessionTemp target p → NamedWithin s f [p, target] →
    NamedWithin t f [p, target]
  stays : ∀ p f, SessionTemp target p → s.holder p = some i → NamedWithin s f [p] →
    NamedWithin t f [p]

variable (srv target) in
def publishDiscipline : UploadDiscipline where
  inv := fun _ => True
  rely := PublishRely target
  allowed := FreshHandles srv target
  mark := fun _ job call s => KeepsTarget target job s call.1

variable (target) in
/-- How a step of request `i` moves files: from a temporary whose lock it has onto
the target, or from a path that is neither temporary nor target. -/
structure Moves (i : Nat) (s t : Store) : Prop where
  next : s.disk.next ≤ t.disk.next
  lock : ∀ j, j ≠ i → ∀ p, t.holder p = some j ↔ s.holder p = some j
  moves : ∀ f, f < s.disk.next → ∀ q, t.disk.entry q = .file f →
    s.disk.entry q = .file f ∨ ∃ p, s.disk.entry p = .file f ∧
      ((q = target ∧ s.holder p = some i) ∨ (p ≠ target ∧ ¬ SessionTemp target p))

/-- What a request may do to names and locks keeps the discipline of the others. -/
theorem Moves.kept (h : Moves target i s t) : (publishDiscipline srv target).Kept i s t := by
  refine ⟨trivial, ?_⟩
  intro j hj
  refine ⟨h.lock j hj, ?_, ?_⟩
  · intro p f hp hf
    refine ⟨Nat.lt_of_lt_of_le hf.1 h.next, ?_⟩
    intro q hq
    rcases h.moves f hf.1 q hq with hold | ⟨p', hp', ⟨rfl, -⟩ | ⟨hne, hnot⟩⟩
    · exact hf.2 q hold
    · exact List.mem_cons_of_mem _ List.mem_cons_self
    · rcases List.mem_cons.1 (hf.2 p' hp') with rfl | hmem
      · exact absurd hp hnot
      · exact absurd (List.mem_singleton.1 hmem) hne
  · intro p f hp hlock hf
    refine ⟨Nat.lt_of_lt_of_le hf.1 h.next, ?_⟩
    intro q hq
    rcases h.moves f hf.1 q hq with hold | ⟨p', hp', ⟨rfl, hlock'⟩ | ⟨hne, hnot⟩⟩
    · exact hf.2 q hold
    · rw [List.mem_singleton.1 (hf.2 p' hp'), hlock] at hlock'
      exact absurd (Option.some.inj hlock') hj
    · rw [List.mem_singleton.1 (hf.2 p' hp')] at hnot
      exact absurd hp hnot

/-- A step that gives no file that is there another name. -/
structure Unmoved (s t : Store) : Prop where
  next : s.disk.next ≤ t.disk.next
  holder : t.holder = s.holder
  entry : ∀ f, f < s.disk.next → ∀ q, t.disk.entry q = .file f → s.disk.entry q = .file f

/-- A step that moves no name and no lock is one of these. -/
theorem Unmoved.moves (h : Unmoved s t) : Moves target i s t where
  next := h.next
  lock := fun _ _ _ => by rw [h.holder]
  moves := fun f hf q hq => Or.inl (h.entry f hf q hq)

/-- Nothing a request relies on is touched. -/
theorem Unmoved.rely (h : Unmoved s t) : PublishRely target i s t where
  lock := fun _ => by rw [h.holder]
  roams := fun _ _ _ hf => ⟨Nat.lt_of_lt_of_le hf.1 h.next,
    fun q hq => hf.2 q (h.entry _ hf.1 q hq)⟩
  stays := fun _ _ _ _ hf => ⟨Nat.lt_of_lt_of_le hf.1 h.next,
    fun q hq => hf.2 q (h.entry _ hf.1 q hq)⟩

theorem unmoved_refl : Unmoved s s := ⟨Nat.le_refl _, rfl, fun _ _ _ h => h⟩

theorem unmoved_tick {n : Nat} : Unmoved s (Outside.apply (.tick n) s) :=
  ⟨Nat.le_refl _, rfl, fun _ _ _ h => h⟩

theorem unmoved_mkdirs {paths : List FsPath} : Unmoved s (s.mkdirs paths) :=
  ⟨Nat.le_refl _, rfl, fun _ _ _ => (Disk.mkdirs_entry_file _).1⟩

theorem unmoved_create {p : FsPath} {c : Content} : Unmoved s (s.create p c) := by
  refine ⟨Nat.le_succ _, rfl, ?_⟩
  intro f hf q hq
  unfold Store.create at hq
  by_cases hqp : q = p
  · rw [hqp, Disk.create_entry_self] at hq
    cases hq
    exact absurd hf (Nat.lt_irrefl _)
  · rw [Disk.create_entry_ne _ _ hqp] at hq
    exact hq

/-- Bytes are no names. -/
theorem unmoved_write {f : Nat} {g : Content → Content} : Unmoved s (s.write f g) :=
  ⟨Nat.le_refl _, rfl, fun _ _ _ h => h⟩

theorem unmoved_unlink {p : FsPath} : Unmoved s (s.unlink p) :=
  ⟨Nat.le_refl _, rfl, fun _ _ _ => unlink_entry_file⟩

/-- A sidecar that is replaced moves no name the discipline is about. -/
theorem unmoved_replaced {p : FsPath} {c : Content} (h : ReplacedAt p c s t) :
    Unmoved s t := by
  rcases h with ⟨-, rfl⟩ | ⟨f, -, rfl⟩
  · exact unmoved_create
  · exact unmoved_write

/-- A rename keeps to the discipline where it publishes under the lock, or moves no session's
temporary. -/
theorem moves_rename {p q : FsPath}
    (h : (q = target ∧ s.holder p = some i) ∨ (p ≠ target ∧ ¬ SessionTemp target p)) :
    Moves target i s (s.rename p q) where
  next := Nat.le_refl _
  lock := fun _ _ _ => Iff.rfl
  moves := by
    intro f _ x hx
    unfold Store.rename Disk.rename at hx
    by_cases hxq : x = q
    · simp only [if_pos hxq] at hx
      right
      refine ⟨p, hx, ?_⟩
      rcases h with ⟨hq, hlock⟩ | hsrc
      · exact Or.inl ⟨hxq.trans hq, hlock⟩
      · exact Or.inr hsrc
    · by_cases hxp : x = p
      · simp only [if_neg hxq, if_pos hxp] at hx
        cases hx
      · simp only [if_neg hxq, if_neg hxp] at hx
        exact Or.inl hx

theorem moves_acquire {p : FsPath} (hfree : s.holder p = none) :
    Moves target i s (s.acquire p i) where
  next := Nat.le_refl _
  lock := by
    intro j hj q
    unfold Store.acquire
    by_cases hq : q = p
    · simp only [hq, hfree]
      constructor
      · intro h
        exact absurd (Option.some.inj h).symm hj
      · exact fun h => nomatch h
    · simp only [if_neg hq]
  moves := fun f _ q hq => Or.inl hq

theorem moves_release : Moves target i s (s.release i) where
  next := Nat.le_refl _
  lock := by
    intro j hj q
    unfold Store.release
    by_cases hq : s.holder q = some i
    · simp only [hq]
      constructor
      · exact fun h => nomatch h
      · intro h
        exact absurd (Option.some.inj h).symm hj
    · simp only [if_neg hq]
  moves := fun f _ q hq => Or.inl hq

/-! ## Programs -/

section Programs

variable {h : Held} {p : FsPath} {f : Nat} {ε α : Type}

variable (srv target i job) in
abbrev WpT (x : Fs ε α) (Q : Except ε α → Held → Store → Prop) : Held → Store → Prop :=
  Fs.Wp srv (publishDiscipline srv target) i job x Q

variable (i p f) in
/-- The request has the lock of the temporary, and its open file has no other
name. -/
structure Locked (s : Store) : Prop where
  lock : s.holder p = some i
  named : NamedWithin s f [p]

/-- What survives the steps of the others is still so before the next call. -/
theorem watching_target {P : Store → Prop}
    (hP : ∀ s t, P s → PublishRely target i s t → P t) :
    Watching (publishDiscipline srv target) i job h P where
  stable := fun s t hs hrely _ => hP s t hs hrely
  mark := fun _ _ hop _ _ => keepsTarget_of_looks hop
  self := fun _ _ _ => unmoved_refl.moves.kept

/-- While the lock is held the temporary's name stays with its file. -/
theorem Locked.stable (htemp : SessionTemp target p) (hs : Locked i p f s)
    (hrely : PublishRely target i s t) : Locked i p f t where
  lock := (hrely.lock p).2 hs.lock
  named := hrely.stays p f htemp hs.lock hs.named

/-- So the holder of the lock may count on it at every call. -/
theorem watching_locked (htemp : SessionTemp target p) :
    Watching (publishDiscipline srv target) i job h (Locked i p f) :=
  watching_target fun _ _ hs hrely => hs.stable htemp hrely

/-- Nor does its own step, where that moves no name. -/
theorem Locked.unmoved (hs : Locked i p f s) (h : Unmoved s t) : Locked i p f t where
  lock := by
    rw [h.holder]
    exact hs.lock
  named := ⟨Nat.lt_of_lt_of_le hs.named.1 h.next,
    fun q hq => hs.named.2 q (h.entry f hs.named.1 q hq)⟩

/-- A call under the lock that moves nothing. -/
theorem wpT_call {op : Op} (htemp : SessionTemp target p)
    (hmark : ∀ s, Locked i p f s → KeepsTarget target job s op)
    (hstep : ∀ s c t a, op.exec srv.serde i c s = some (t, a) → Unmoved s t)
    (hs : Locked i p f s) :
    WpT srv target job i (await op : Fs ε op.Ans)
      (fun r h' s => h' = h ∧ Locked i p f s ∧ ∃ a, r = .ok a) h s := by
  refine wp_await.2 ?_
  intro s₁ hrely _
  have hs₁ : Locked i p f s₁ := hs.stable htemp hrely
  refine ⟨hmark s₁ hs₁, ?_⟩
  intro c s₂ a _ hexec
  have hunmoved : Unmoved s₁ s₂ := hstep s₁ c s₂ a hexec
  exact ⟨hunmoved.moves.kept, rfl, hs₁.unmoved hunmoved, a, rfl⟩

/-- Removing another file keeps the lock and the temporary. -/
theorem wpT_removeFile {q : FsPath} (htemp : SessionTemp target p) (hq : q ≠ target)
    (hs : Locked i p f s) :
    WpT srv target job i (await (.removeFile q) : Fs ε _)
      (fun r h' s => h' = h ∧ Locked i p f s ∧ ∃ a, r = .ok a) h s := by
  refine wpT_call htemp (fun _ _ => hq) ?_ hs
  intro s c t a hexec
  rcases exec_removeFile hexec with ⟨rfl, -⟩ | ⟨m, -, -, rfl⟩
  · exact unmoved_refl
  · exact unmoved_unlink

theorem wpT_removeBlocksSidecar (htemp : SessionTemp target p) (hs : Locked i p f s) :
    WpT srv target job i (removeBlocksSidecar (some (blocksPathFor p)))
      (fun r h' s => h' = h ∧ Locked i p f s ∧ r = .ok ()) h s := by
  refine wp_then (wpT_removeFile htemp htemp.names.blocks_ne_target hs) ?_
    (fun e h s hr => nomatch hr.2.2)
  intro a h' s hr
  obtain ⟨rfl, hs, -⟩ := hr
  exact ⟨rfl, hs, rfl⟩

/-- The target is not the file that is written. -/
theorem Locked.not_target (htemp : SessionTemp target p) (hs : Locked i p f s) :
    s.disk.entry target ≠ .file f := by
  intro htarget
  have hmem := hs.named.2 target htarget
  exact htemp.names.tmp_ne_target (List.mem_singleton.1 hmem).symm

/-! ### Writing -/

/-- Reading the sidecar changes nothing. -/
theorem wpT_readRanges (htemp : SessionTemp target p) (hs : Locked i p f s) :
    WpT srv target job i (readRanges srv.serde (blocksPathFor p))
      (fun _ h' s => h' = h ∧ Locked i p f s) h s := by
  unfold readRanges
  refine wp_then ((watching_locked htemp).look_keep hs rfl) ?_
    (fun e h s hr => nomatch hr.2.2)
  intro a h' s hr
  obtain ⟨rfl, hs, -⟩ := hr
  cases a with
  | ok text => exact wp_lift.2 ⟨rfl, hs⟩
  | error e =>
      by_cases hnf : e.notFound = true
      · simp only [hnf, if_true]
        exact ⟨rfl, hs⟩
      · simp only [hnf]
        exact ⟨rfl, hs⟩

/-- The sidecar is replaced from a path that is neither temporary nor target. -/
theorem wpT_renameSidecar (htemp : SessionTemp target p) (hs : Locked i p f s) :
    WpT srv target job i
      (await (.rename (persistPathFor (blocksPathFor p)) (blocksPathFor p)) : Fs ε _)
      (fun r h' s => h' = h ∧ Locked i p f s ∧ ∃ a, r = .ok a) h s := by
  have hnames := htemp.names
  refine wp_await.2 ?_
  intro s₁ hrely _
  have hs₁ : Locked i p f s₁ := hs.stable htemp hrely
  refine ⟨⟨hnames.persist_ne_target, fun h => absurd h hnames.blocks_ne_target⟩, ?_⟩
  intro c s₂ a _ hexec
  rcases exec_rename hexec with ⟨rfl, -⟩ | ⟨m, hm, -, -, rfl⟩
  · exact ⟨unmoved_refl.moves.kept, rfl, hs₁, a, rfl⟩
  have hmoves : Moves target i s₁
      (s₁.rename (persistPathFor (blocksPathFor p)) (blocksPathFor p)) :=
    moves_rename (Or.inr ⟨hnames.persist_ne_target, htemp.not_persist⟩)
  refine ⟨hmoves.kept, rfl, ⟨hs₁.lock, hs₁.named.1, ?_⟩, a, rfl⟩
  intro q hq
  unfold Store.rename at hq
  by_cases hqb : q = blocksPathFor p
  · rw [hqb, Disk.rename_entry_target] at hq
    have hmem := hs₁.named.2 _ hq
    exact absurd (List.mem_singleton.1 hmem) hnames.persist_ne_tmp
  · by_cases hqp : q = persistPathFor (blocksPathFor p)
    · rw [hqp, Disk.rename_entry_source _ _ _ hnames.persist_ne_blocks] at hq
      cases hq
    · rw [Disk.rename_entry_ne _ _ _ hqp hqb] at hq
      exact hs₁.named.2 q hq

/-- Recording the ranges replaces the sidecar and nothing else. -/
theorem wpT_persistRanges {ranges : List ChunkRange} (htemp : SessionTemp target p)
    (hs : Locked i p f s) :
    WpT srv target job i (persistRanges (blocksPathFor p) ranges)
      (fun _ h' s => h' = h ∧ Locked i p f s) h s := by
  unfold persistRanges
  refine wp_then (wpT_call htemp (fun _ _ => htemp.names.persist_ne_target) ?_ hs) ?_
    (fun e h s hr => nomatch hr.2.2)
  · intro s c t a hexec
    rcases exec_writeRanges hexec with ⟨e, -, rfl | hrep⟩ | ⟨-, hrep⟩
    · exact unmoved_refl
    · exact unmoved_replaced hrep
    · exact unmoved_replaced hrep
  intro a h' s hr
  obtain ⟨rfl, hs, -⟩ := hr
  refine wp_other_then (fun _ _ => ?_) (fun e _ => ⟨rfl, hs⟩)
  refine wp_then (wpT_renameSidecar htemp hs) ?_ (fun e h s hr => nomatch hr.2.2)
  intro a h' s hr
  obtain ⟨rfl, hs, -⟩ := hr
  exact wp_other.2 ⟨rfl, hs⟩

variable (target) in
/-- The sink of a session request. -/
def sessionSink (p : FsPath) (f : Nat) (rel : Text) (mode : WriteMode) : FsSink :=
  ⟨f, some p, target, rel, mode, some (blocksPathFor p)⟩

variable {rel : Text} {mode : WriteMode}

/-- A data write does not reach the target. -/
theorem wpT_writeAt {off : Nat} {buf : List UInt8} (htemp : SessionTemp target p)
    (hs : Locked i p f s) :
    WpT srv target job i ((sessionSink target p f rel mode).writeAt srv.serde off buf)
      (fun _ _ s => Locked i p f s) h s := by
  unfold FsSink.writeAt
  refine wp_then (wpT_call htemp (fun _ hs => hs.not_target htemp) ?_ hs) ?_
    (fun e h s hr => nomatch hr.2.2)
  · intro s c t a hexec
    rcases exec_writeAt hexec with ⟨e, n, -, rfl⟩ | ⟨-, -, rfl⟩ | ⟨e, -, rfl⟩
    · exact unmoved_write
    · exact unmoved_write
    · exact unmoved_refl
  intro a h' s hr
  obtain ⟨rfl, hs, -⟩ := hr
  cases a with
  | error e => exact hs
  | ok u =>
      refine wp_update_then.2 ?_
      simp only [sessionSink, FsSink.recordRange]
      refine wp_then (wpT_readRanges htemp hs) ?_ (fun e h s hr => hr.2)
      intro current h' s hr
      obtain ⟨-, hs⟩ := hr
      refine wp_then (wpT_persistRanges htemp hs) ?_ (fun e h s hr => hr.2)
      intro _ h' s hr
      exact hr.2

/-- The body of a data chunk. -/
theorem wpT_sessionBody {base : Nat} (htemp : SessionTemp target p) (hs : Locked i p f s) :
    WpT srv target job i
      (streamBody (writeAtBatch srv (sessionSink target p f rel mode) base job.fileMeta.size)
        job.body)
      (fun _ _ s => Locked i p f s) h s := by
  refine wp_weaken (wp_streamBody (I := fun _ _ _ s => Locked i p f s)
    (E := fun _ _ s => Locked i p f s) ?_ ?_ ?_ job.body hs) ?_
  · intro n rest h s hs
    refine wp_weaken ((watching_locked htemp).look_keep hs rfl) ?_
    intro r h' s hr
    obtain ⟨rfl, hs, a, rfl⟩ := hr
    exact ⟨rfl, hs⟩
  · exact fun _ _ _ _ hs => hs
  · intro n data rest h s _ hs
    simp only [writeAtBatch]
    by_cases hlimit : srv.maxUploadSize < satAdd (satAdd base n) data.length
    · rw [if_pos hlimit]
      exact hs
    rw [if_neg hlimit]
    by_cases hsize : job.fileMeta.size < satAdd (satAdd base n) data.length
    · rw [if_pos hsize]
      exact hs
    rw [if_neg hsize]
    refine wp_orElse.2 (wp_weaken (wpT_writeAt htemp hs) ?_)
    intro r h s hs
    cases r with
    | ok u => exact hs
    | error e => exact hs
  · intro r h s hs
    cases r with
    | ok n => exact hs
    | error e => exact hs

/-! ### Opening and ending -/

/-- Nothing more is known of a request that has failed or published. -/
def Any : Except ε α → Held → Store → Prop := fun _ _ _ => True

theorem watching_any : Watching (publishDiscipline srv target) i job h fun _ => True :=
  watching_target fun _ _ _ _ => trivial

/-- An abort of a session keeps its temporary. -/
theorem wpT_abortWith {e : ApiError} (htemp : SessionTemp target p) (hs : Locked i p f s) :
    WpT srv target job i (abortWith (sessionSink target p f rel mode) e : Fs ApiError α)
      Any h s := by
  unfold abortWith FsSink.abort
  refine wp_seq.2 (wp_attempt.2 (wp_then
    (wpT_removeFile htemp htemp.names.tmp_ne_target hs) ?_ (fun e h s hr => nomatch hr.2.2)))
  intro a h' s hr
  obtain ⟨rfl, hs, -⟩ := hr
  refine wp_weaken (wpT_removeBlocksSidecar htemp hs) ?_
  intro r h' s _
  cases r with
  | ok u => trivial
  | error e => trivial

/-- Where the target has appeared the request ends, and otherwise still holds the temporary. -/
theorem wpT_refuseAppeared (htemp : SessionTemp target p) (hs : Locked i p f s) :
    WpT srv target job i ((sessionSink target p f rel mode).refuseAppeared p)
      (fun r _ s => ∀ u, r = .ok u → Locked i p f s) h s := by
  unfold FsSink.refuseAppeared
  by_cases hmode : (sessionSink target p f rel mode).mode = .create
  · rw [if_pos hmode]
    refine wp_then ((watching_locked htemp).look_keep hs rfl) ?_
      (fun e h s hr => nomatch hr.2.2)
    intro a h' s hr
    obtain ⟨rfl, hs, -⟩ := hr
    refine wp_other_then ?_ (fun e _ u h => nomatch h)
    intro b _
    by_cases hb : b = true
    · rw [if_pos hb]
      refine wp_then (wpT_removeFile htemp htemp.names.tmp_ne_target hs) ?_
        (fun e h s hr => nomatch hr.2.2)
      exact fun _ _ _ _ u h => nomatch h
    · rw [if_neg hb]
      exact fun u _ => hs
  · rw [if_neg hmode]
    exact fun u _ => hs

/-- Only a final request publishes. -/
theorem wpT_moveIntoPlace (hfinal : job.finalChunk = true) (htemp : SessionTemp target p)
    (hs : Locked i p f s) :
    WpT srv target job i ((sessionSink target p f rel mode).moveIntoPlace p) Any h s := by
  unfold FsSink.moveIntoPlace
  refine wp_await_then.2 ?_
  intro s₁ hrely _
  have hs₁ : Locked i p f s₁ := hs.stable htemp hrely
  refine ⟨⟨htemp.names.tmp_ne_target, fun _ => hfinal⟩, ?_⟩
  intro c s₂ a _ hexec
  have hmoves : Moves target i s₁ s₂ := by
    rcases exec_rename hexec with ⟨rfl, -⟩ | ⟨m, -, -, -, rfl⟩
    · exact unmoved_refl.moves
    · exact moves_rename (Or.inl ⟨rfl, hs₁.lock⟩)
  refine ⟨hmoves.kept, wp_other_then (fun _ _ => ?_) (fun e _ => trivial)⟩
  cases (sessionSink target p f rel mode).target.parent with
  | none => trivial
  | some parent =>
      exact wp_then (watching_any.look_keep trivial rfl) (fun _ _ _ _ => trivial)
        fun _ _ _ _ => trivial

/-- **The commit publishes the temporary it holds the lock for**, or ends without a reply. -/
theorem wpT_commitReply (hfinal : job.finalChunk = true) (htemp : SessionTemp target p)
    (hs : Locked i p f s) :
    WpT srv target job i (commitReply srv (sessionSink target p f rel mode)) Any h s := by
  unfold commitReply
  refine wp_orElse_then (R := Any) ?_ (fun _ _ _ _ => trivial) fun _ _ _ _ => trivial
  unfold FsSink.commit
  refine wp_then (wpT_removeBlocksSidecar htemp hs) ?_ (fun _ _ _ _ => trivial)
  intro _ h' s hr
  obtain ⟨rfl, hs, -⟩ := hr
  refine wp_then ((watching_locked htemp).look_keep hs rfl) ?_ (fun _ _ _ _ => trivial)
  intro a h' s hr
  obtain ⟨rfl, hs, -⟩ := hr
  refine wp_other_then (fun _ _ => ?_) (fun _ _ => trivial)
  refine wp_then ((watching_locked htemp).look_keep hs rfl) ?_ (fun _ _ _ _ => trivial)
  intro a h' s hr
  obtain ⟨rfl, hs, -⟩ := hr
  refine wp_other_then (fun _ _ => ?_) (fun _ _ => trivial)
  refine wp_then (R := Any) ?_ ?_ (fun _ _ _ _ => trivial)
  · refine wp_then (wpT_refuseAppeared htemp hs) ?_ (fun _ _ _ _ => trivial)
    intro u h' s hr
    exact wpT_moveIntoPlace hfinal htemp (hr u rfl)
  intro _ h' s _
  refine watching_any.look_then trivial rfl ?_
  intro s c a _ _ _ _
  exact wp_other_then (fun _ _ => trivial) fun _ _ => trivial

/-- It comes after the length and the coverage have been checked. -/
theorem wpT_finishSession {size : Nat} (hfinal : job.finalChunk = true)
    (htemp : SessionTemp target p) (hs : Locked i p f s) :
    WpT srv target job i (finishSession srv (sessionSink target p f rel mode) size)
      Any h s := by
  unfold finishSession FsSink.len
  refine wp_orElse_then (R := fun _ _ s => Locked i p f s) ?_ ?_ (fun _ _ _ _ => trivial)
  · refine (watching_locked htemp).look_then hs rfl ?_
    intro s c a hs _ _ _
    exact wp_other.2 hs
  intro len h s hs
  by_cases hlen : len ≠ size
  · rw [if_pos hlen]
    exact wpT_abortWith htemp hs
  rw [if_neg hlen]
  refine wp_orElse_then (R := fun _ _ s => Locked i p f s) hs ?_ (fun _ _ _ _ => trivial)
  intro received h s hs
  by_cases hmissing : received ≠ [] ∧ coveredBytes received ≠ size
  · rw [if_pos hmissing]
    exact wpT_abortWith htemp hs
  rw [if_neg hmissing]
  exact wpT_commitReply hfinal htemp hs

/-- What a data chunk or a final request does once the temporary is open and locked. -/
theorem wpT_serveSession {key : SessionKey} {base : Nat} (htemp : SessionTemp target p)
    (hs : Locked i p f s) :
    WpT srv target job i (serveSession srv job key base (sessionSink target p f rel mode))
      Any h s := by
  unfold serveSession
  cases key.statusProbe with
  | true =>
      rw [if_pos rfl]
      exact wp_orElse_then (R := Any) trivial (fun _ _ _ _ => trivial) fun _ _ _ _ => trivial
  | false =>
      rw [if_neg Bool.false_ne_true]
      refine wp_seq.2 (wp_attempt.2 (wp_weaken (wpT_sessionBody htemp hs) ?_))
      intro r h s hs
      cases r with
      | error e =>
          by_cases hdisc : e.disconnected = true
          · simp only [Then, hdisc, if_true]
            trivial
          · simp only [Then, hdisc]
            exact wpT_abortWith htemp hs
      | ok n =>
          by_cases hfinal : job.finalChunk = true
          · simp only [Then, hfinal, if_true]
            exact wpT_finishSession hfinal htemp hs
          · simp only [Then, hfinal]
            trivial

/-- However it is got, the open file has the temporary's name only. -/
theorem wpT_openSessionTemp {tmpExists : Bool} (htemp : SessionTemp target p) :
    WpT srv target job i (openSessionTemp target p rel mode tmpExists)
      (fun r h' s => h' = h ∧ ∀ f, r = .ok f → NamedWithin s f [p, target]) h s := by
  unfold openSessionTemp
  by_cases hexists : tmpExists = true
  · rw [if_pos hexists]
    refine watching_any.look_then trivial rfl ?_
    intro s c a _ _ _ hexec
    rcases (exec_openExisting hexec).2 with ⟨e, rfl⟩ | ⟨f, hf, rfl⟩
    · exact ⟨rfl, fun f h => nomatch h⟩
    · refine ⟨rfl, ?_⟩
      intro g hg
      cases hg
      refine ⟨s.disk.entry_lt hf, ?_⟩
      intro q hq
      rw [s.disk.single hq hf]
      exact List.mem_cons_self
  · rw [if_neg hexists]
    have hnew : WpT srv target job i
        (do refuseExisting target rel mode
            other (← await (.createNew p)))
        (fun r h' s => h' = h ∧ ∀ f, r = .ok f → NamedWithin s f [p, target]) h s := by
      refine wp_then (wp_refuseExisting watching_any trivial) ?_
        (fun e h' s hr => ⟨hr.1, fun f h => nomatch h⟩)
      intro _ h' s hr
      obtain ⟨rfl, -⟩ := hr
      refine wp_await_then.2 ?_
      intro s₁ _ _
      refine ⟨htemp.names.tmp_ne_target, ?_⟩
      intro c s₂ a _ hexec
      rcases exec_createNew hexec with ⟨rfl, e, rfl⟩ | ⟨-, rfl, rfl⟩
      · exact ⟨unmoved_refl.moves.kept, rfl, fun f h => nomatch h⟩
      · refine ⟨unmoved_create.moves.kept, rfl, ?_⟩
        intro f hf
        cases hf
        refine ⟨Nat.lt_succ_self _, ?_⟩
        intro q hq
        by_cases hqp : q = p
        · rw [hqp]
          exact List.mem_cons_self
        · unfold Store.create at hq
          rw [Disk.create_entry_ne _ _ hqp] at hq
          exact absurd (s₁.disk.entry_lt hq) (Nat.lt_irrefl _)
    cases mode with
    | create => exact hnew
    | overwrite => exact hnew
    | resume offset => exact ⟨rfl, fun f h => nomatch h⟩

/-- With a fresh handle, the request that has the lock has a file of its own. -/
theorem wpT_writeStreamSession {path session owner : Text}
    (hpath : resolve srv.root path = .ok target) :
    WpT srv target job i (writeStreamSession srv.serde srv.root path session owner mode)
      (fun r _ s => ∀ sink, r = .ok sink → ∃ p f, SessionTemp target p ∧
        sink = sessionSink target p f path mode ∧ Locked i p f s) Held.nothing s := by
  unfold writeStreamSession
  refine wp_then (wp_prepare watching_any ?_ trivial) ?_ (fun e h s _ sink h => nomatch h)
  · exact fun _ _ _ _ _ _ _ => ⟨trivial, unmoved_mkdirs.moves.kept, trivial⟩
  intro full h' s hr
  obtain ⟨rfl, -, hfull⟩ := hr
  have heq := hfull full rfl
  rw [hpath] at heq
  cases heq
  have htemp : SessionTemp target (sessionTempFor target session owner) :=
    ⟨session, owner, rfl⟩
  refine wp_then (watching_any.look_keep trivial rfl) ?_ (fun e h s hr => nomatch hr.2.2)
  intro a h' s hr
  obtain ⟨rfl, -, -⟩ := hr
  refine wp_other_then ?_ (fun e _ sink h => nomatch h)
  intro tmpExists _
  refine wp_then (wpT_openSessionTemp htemp) ?_ (fun e h s _ sink h => nomatch h)
  intro f h' s hr
  obtain ⟨rfl, hnamed⟩ := hr
  refine wp_update_then.2 (wp_await_then.2 ?_)
  intro s₁ hrely _
  refine ⟨trivial, ?_⟩
  intro c s₂ a hallow hexec
  obtain ⟨hfree, rfl⟩ := exec_lock hexec
  have hroams := hrely.roams _ f htemp (hnamed f rfl)
  have hfresh : s₁.disk.entry target ≠ .file f := hallow.2 _ _ _ _ _ rfl f rfl
  refine ⟨(moves_acquire hfree).kept, ?_⟩
  have hs : Locked i (sessionTempFor target session owner) f
      (s₁.acquire (sessionTempFor target session owner) i) := by
    refine ⟨if_pos rfl, hroams.1, ?_⟩
    intro q hq
    rcases List.mem_cons.1 (hroams.2 q hq) with rfl | hmem
    · exact List.mem_cons_self
    · rw [List.mem_singleton.1 hmem] at hq
      exact absurd hq hfresh
  have hopen : ∀ s ranges h, Locked i (sessionTempFor target session owner) f s →
      WpT srv target job i (openSink (sessionSink target
          (sessionTempFor target session owner) f path mode) 0 ranges)
        (fun r _ s => ∀ sink, r = .ok sink → ∃ p f, SessionTemp target p ∧
          sink = sessionSink target p f path mode ∧ Locked i p f s) h s := by
    intro s ranges h hs
    refine wp_update_then.2 (wp_ret.2 ?_)
    intro sink hsink
    cases hsink
    exact ⟨_, f, htemp, rfl, hs⟩
  by_cases hexists : tmpExists = true
  · simp only [hexists, if_true]
    refine wp_then (wpT_readRanges htemp hs) ?_ (fun e h s _ sink h => nomatch h)
    intro ranges h' s hr
    exact hopen s ranges _ hr.2
  · simp only [hexists]
    refine wp_then (wpT_removeBlocksSidecar htemp hs) ?_ (fun e h s hr => nomatch hr.2.2)
    intro _ h' s hr
    exact hopen s [] _ hr.2.1

/-- A session request of the target, from its beginning. -/
theorem wpT_runUpload (hpath : resolve srv.root job.path = .ok target)
    (hsession : job.session ≠ none) :
    WpT srv target job i (runUpload srv job) Any Held.nothing s := by
  cases hkey : job.session with
  | none => exact absurd hkey hsession
  | some key =>
      simp only [runUpload, hkey, uploadSession]
      refine wp_lift_then ?_ (fun _ _ => trivial)
      intro base _
      refine wp_orElse_then (wpT_writeStreamSession hpath) ?_ (fun _ _ _ _ => trivial)
      intro sink h s hr
      obtain ⟨p, f, htemp, rfl, hs⟩ := hr sink rfl
      exact wpT_serveSession htemp hs

end Programs

variable (srv target) in
/-- **The discipline fits the server**: every request is verified against it, and what one relies
on is kept by the others, by the clock and by files placed from outside. -/
theorem publishDiscipline_sound :
    Sound (uploadSystem srv) (publishDiscipline srv target) fun _ _ _ _ => True where
  rely_refl := fun _ _ => unmoved_refl.rely
  rely_trans := by
    intro i s t u hst htu
    refine ⟨fun p => (htu.lock p).trans (hst.lock p), ?_, ?_⟩
    · intro p f hp hf
      exact htu.roams p f hp (hst.roams p f hp hf)
    · intro p f hp hlock hf
      exact htu.stays p f hp ((hst.lock p).2 hlock) (hst.stays p f hp hlock hf)
  enter := by
    intro i job s _ hallow
    exact ⟨unmoved_refl.moves.kept, wpT_runUpload hallow.1.1 hallow.1.2⟩
  leave := fun _ _ _ _ _ _ => moves_release.kept
  drop := fun _ _ _ _ _ _ _ => moves_release.kept
  disturb := by
    intro e s _ _
    refine ⟨trivial, fun j => ?_⟩
    cases e with
    | tick n => exact unmoved_tick.rely
    | place p cells => exact unmoved_create.rely

/-! ## The target over a run -/

variable (target) in
/-- The event puts this content under the target's name as a whole: a final
request renames the file that has it, or it comes from another upload. -/
def Publishes (s : UploadState) (c : Content) : UploadAct → Prop
  | .step i _ => ∃ job p h k f, s.task i = .waiting job (.rename p target, h) k ∧
      job.finalChunk = true ∧ s.shared.disk.entry p = .file f ∧ s.shared.content f = c
  | .env (.place p cells) => p = target ∧ c = .bytes cells
  | _ => False

variable (srv target) in
/-- Between the two states the content has been published. -/
def Published (ok : UploadState → UploadAct → Prop) (s₀ s : UploadState) (c : Content) :
    Prop :=
  ∃ u a v, (uploadSystem srv).Reaches ok s₀ u ∧ ok u a ∧
    (uploadSystem srv).next u a = some v ∧ Publishes target u c a ∧
    targetBytes target v.shared = some c ∧ (uploadSystem srv).Reaches ok v s

/-- The event belongs to task `i`. -/
def OfTask (i : Nat) : UploadAct → Prop
  | .start j _ | .step j _ | .drop j => j = i
  | .env _ => False

variable (srv target) in
/-- Along every run of permitted events the target's bytes are the first ones or
a published content, and a request that is not final changes nothing there. -/
structure PublishesWhole (permitted : Store → Event Call UploadJob Choice Outside → Prop) :
    Prop where
  whole : ∀ s₀ s, (uploadSystem srv).Reaches (Permits permitted) (atRest s₀) s →
    targetBytes target s.shared = targetBytes target s₀ ∨
      ∃ c, targetBytes target s.shared = some c ∧
        Published srv target (Permits permitted) (atRest s₀) s c
  chunks : ∀ s₀ s t a i job,
    (uploadSystem srv).Reaches (Permits permitted) (atRest s₀) s →
    Permits permitted s a → (uploadSystem srv).next s a = some t →
    OfTask i a → (t.task i).request = some job → job.finalChunk = false →
    targetBytes target t.shared = targetBytes target s.shared

theorem targetBytes_put {s : UploadState} {sh : Store}
    {prog : Code (Except ApiError Reply × Held)} :
    targetBytes target ((uploadSystem srv).put s sh i job prog).shared =
      targetBytes target sh := by
  cases prog with
  | done r => rfl
  | call o k => rfl

/-- **One event**: the target stays as it is, or something is published there. -/
theorem targetBytes_next {s t : UploadState} {a : UploadAct}
    (hgood : Good (uploadSystem srv) (publishDiscipline srv target) (fun _ _ _ _ => True) s)
    (hok : Permits (FreshHandles srv target) s a)
    (hnext : (uploadSystem srv).next s a = some t) :
    targetBytes target t.shared = targetBytes target s.shared ∨
      ∃ c, Publishes target s c a ∧ targetBytes target t.shared = some c := by
  rcases System.next_cases hnext with ⟨i, job, rfl, -, rfl⟩ |
    ⟨i, c, job, o, k, sh, ans, rfl, hwait, hexec, rfl⟩ | ⟨i, job, o, k, rfl, -, rfl⟩ |
    ⟨e, rfl, rfl⟩
  · exact Or.inl targetBytes_put
  · have hmark : KeepsTarget target job s.shared o.1 :=
      (publishDiscipline_sound srv target).mark_of_waiting hgood hwait
    rw [targetBytes_put]
    rcases target_exec hmark hexec with hsame | ⟨p, f, hop, hfinal, hf, hbytes⟩
    · exact Or.inl hsame
    · obtain ⟨op, h⟩ := o
      cases hop
      exact Or.inr ⟨_, ⟨job, p, h, k, f, hwait, hfinal, hf, rfl⟩, hbytes⟩
  · exact Or.inl rfl
  · cases e with
    | tick n => exact Or.inl rfl
    | place p cells =>
        have hp : p = target := hok.1
        refine Or.inr ⟨.bytes cells, ⟨hp, rfl⟩, ?_⟩
        rw [hp]
        exact targetBytes_create_self

/-- A request that is not final publishes nothing. -/
theorem final_of_publishes {s t : UploadState} {a : UploadAct} {c : Content}
    (hnext : (uploadSystem srv).next s a = some t) (hpub : Publishes target s c a)
    (hi : OfTask i a) (hreq : (t.task i).request = some job) : job.finalChunk = true := by
  cases a with
  | start j req => exact hpub.elim
  | drop j => exact hpub.elim
  | env e => exact hi.elim
  | step j ch =>
      obtain ⟨job', p, h, k, f, hwait, hfinal, -⟩ := hpub
      have hij : j = i := hi
      have hbefore : (s.task i).request = some job' := by
        rw [← hij, hwait]
        rfl
      rw [System.next_request hnext hbefore] at hreq
      cases hreq
      exact hfinal

variable (srv target) in
/-- **With fresh handles the target is always what was published as a whole.** -/
theorem target_published_whole : PublishesWhole srv target (FreshHandles srv target) where
  whole := by
    intro s₀ s hrun
    induction hrun with
    | refl => exact Or.inl rfl
    | @tail s t a hreach hok hnext ih =>
        have hgood := (publishDiscipline_sound srv target).good_of_reaches
          (good_atRest trivial) hreach
        rcases targetBytes_next hgood hok hnext with hsame | ⟨c, hpub, hbytes⟩
        · rw [hsame]
          rcases ih with hfirst | ⟨c, hc, u, b, v, hu, hb, hv, hpub, hbytes, hvs⟩
          · exact Or.inl hfirst
          · exact Or.inr ⟨c, hc, u, b, v, hu, hb, hv, hpub, hbytes, hvs.tail hok hnext⟩
        · exact Or.inr ⟨c, hbytes, s, a, t, hreach, hok, hnext, hpub, hbytes, .refl⟩
  chunks := by
    intro s₀ s t a i job hreach hok hnext hi hreq hchunk
    have hgood := (publishDiscipline_sound srv target).good_of_reaches
      (good_atRest trivial) hreach
    rcases targetBytes_next hgood hok hnext with hsame | ⟨c, hpub, -⟩
    · exact hsame
    · rw [final_of_publishes hnext hpub hi hreq] at hchunk
      cases hchunk

/-! ### A run with fresh handles -/

variable (srv target) in
/-- Plain reasons for an event to be fresh: a lock is taken while there is no
target. -/
def plainlyFresh (s : UploadState) : UploadAct → Bool
  | .start _ job => resolve srv.root job.path = .ok target ∧ job.session ≠ none
  | .step i _ =>
      match s.task i with
      | .waiting _ (.lock _, _) _ => s.shared.disk.entry target = .absent
      | _ => true
  | _ => false

/-- The test is sound. -/
theorem permits_of_plainlyFresh (s : UploadState) (a : UploadAct)
    (h : plainlyFresh srv target s a = true) : Permits (FreshHandles srv target) s a := by
  cases a with
  | start i job =>
      have hjob : resolve srv.root job.path = .ok target ∧ job.session ≠ none :=
        of_decide_eq_true h
      exact ⟨hjob, fun _ _ _ _ _ heq => nomatch heq⟩
  | step i c =>
      cases hi : s.task i with
      | waiting job call k =>
          obtain ⟨op, held⟩ := call
          simp only [Permits, plainlyFresh, hi] at h ⊢
          refine ⟨trivial, ?_⟩
          intro _ _ _ _ _ heq f _ hf
          cases heq
          rw [of_decide_eq_true h] at hf
          cases hf
      | idle | finished | dropped => simp only [Permits, hi]
  | drop i => cases h
  | env e => cases h

/-- The target of the sample session's requests. -/
def sampleTarget : FsPath := sampleServer.root ++ [.normal "f".toList]

/-- A run in which a file is published. -/
theorem fresh_run_publishes :
    ∃ s, Published sampleServer sampleTarget (Permits (FreshHandles sampleServer sampleTarget))
      (atRest sampleStore) s (.bytes [some 5, some 6]) := by
  have hrun : (((uploadSystem sampleServer).runIf (plainlyFresh sampleServer sampleTarget)
      (atRest sampleStore) (.start 0 (sampleJob 2 none true [5, 6]) ::
        List.replicate 21 (.step 0 .go))).any fun s =>
          targetBytes sampleTarget s.shared = some (.bytes [some 5, some 6])) = true := by
    decide +kernel
  obtain ⟨s, hs, hbytes⟩ := (Option.any_eq_true _ _).1 hrun
  refine ⟨s, ?_⟩
  have hreach := System.reaches_of_runIf
    (fun u a h => permits_of_plainlyFresh u a h) hs
  rcases (target_published_whole sampleServer sampleTarget).whole sampleStore s hreach
    with hfirst | ⟨c, hc, hpub⟩
  · rw [of_decide_eq_true hbytes] at hfirst
    cases hfirst
  · rw [of_decide_eq_true hbytes] at hc
    cases hc
    exact hpub

/-! ## A run with a stale handle -/

/-- A final request makes the temporary, a data chunk opens it, the final request
commits it, and only then does the chunk get the lock. -/
def staleActs : List UploadAct :=
  .start 0 (sampleJob 1 none true [5]) :: (List.replicate 5 (.step 0 .go) ++
    .start 1 (sampleJob 1 (some "0".toList) false [6]) :: (List.replicate 4 (.step 1 .go) ++
      (List.replicate 16 (.step 0 .go) ++ List.replicate 3 (.step 1 .go))))

theorem staleActs_permitted (a : UploadAct) (ha : a ∈ staleActs) (u : UploadState) :
    Permits (SessionsOf sampleServer sampleTarget) u a := by
  simp only [staleActs, List.mem_cons, List.mem_append, List.mem_replicate] at ha
  rcases ha with rfl | ⟨-, rfl⟩ | rfl | ⟨-, rfl⟩ | ⟨-, rfl⟩ | ⟨-, rfl⟩
  · exact (by decide +kernel :
      resolve sampleServer.root (sampleJob 1 none true [5]).path = .ok sampleTarget ∧
        (sampleJob 1 none true [5]).session ≠ none)
  · exact permits_step fun _ _ => trivial
  · exact (by decide +kernel : resolve sampleServer.root
      (sampleJob 1 (some "0".toList) false [6]).path = .ok sampleTarget ∧
        (sampleJob 1 (some "0".toList) false [6]).session ≠ none)
  · exact permits_step fun _ _ => trivial
  · exact permits_step fun _ _ => trivial
  · exact permits_step fun _ _ => trivial

/-- **Through a stale handle a data chunk changes a committed file.** -/
theorem stale_handle_changes_target :
    ¬ PublishesWhole sampleServer sampleTarget (SessionsOf sampleServer sampleTarget) := by
  intro hall
  have hrun : (((uploadSystem sampleServer).run (atRest sampleStore) staleActs).any
      fun s => targetBytes sampleTarget s.shared = some (.bytes [some 5]) ∧
        ((uploadSystem sampleServer).next s (.step 1 .go)).any fun t =>
          targetBytes sampleTarget t.shared = some (.bytes [some 6]) ∧
            (t.task 1).request.any (!·.finalChunk)) = true := by
    decide +kernel
  obtain ⟨s, hs, hrest⟩ := (Option.any_eq_true _ _).1 hrun
  obtain ⟨hbefore, hnext⟩ := of_decide_eq_true hrest
  obtain ⟨t, ht, hrest⟩ := (Option.any_eq_true _ _).1 hnext
  obtain ⟨hafter, hreq⟩ := of_decide_eq_true hrest
  obtain ⟨job, hjob, hchunk⟩ := (Option.any_eq_true _ _).1 hreq
  have hsame := hall.chunks sampleStore s t (.step 1 .go) 1 job
    (System.reaches_of_run staleActs_permitted hs) (permits_step fun _ _ => trivial) ht rfl
    hjob (by simpa only [Bool.not_eq_true'] using hchunk)
  rw [hbefore, hafter] at hsame
  cases hsame

end Libfw

import Libfw.RequestStages
import Libfw.UploadSessions

/-!
# What a Create upload moves onto its target

A sequential upload in Create mode writes to a temporary under a name that it draws.  As
long as nobody else touches that temporary, what the request moves onto its target is the
file it has open, and this holds the bytes of the request's body: `wp_create`, by the rules
of `UploadSystem` under the discipline `owning`.
-/

namespace Libfw

open SteppedPrograms Fs FsStorage PosixStore

/-- The temporary is the same file with the same content. -/
def SameAt (tmp : FsPath) (s t : Store) : Prop :=
  t.disk.entry tmp = s.disk.entry tmp ∧
    ∀ f, s.disk.entry tmp = .file f → t.content f = s.content f

theorem SameAt.refl (tmp : FsPath) (s : Store) : SameAt tmp s s := ⟨rfl, fun _ _ => rfl⟩

theorem SameAt.trans {tmp : FsPath} {s t u : Store} (hst : SameAt tmp s t)
    (htu : SameAt tmp t u) : SameAt tmp s u := by
  obtain ⟨hentry, hcontent⟩ := hst
  constructor
  · exact htu.1.trans hentry
  · intro f hf
    exact (htu.2 f (hentry.trans hf)).trans (hcontent f hf)

/-- The temporary is the file the request has open, and holds the bytes. -/
def HoldsOpen (tmp : FsPath) (held : Held) (bytes : List UInt8) (s : Store) : Prop :=
  ∃ f, held.file = some f ∧ s.disk.entry tmp = .file f ∧ s.content f = .bytes (bytes.map some)

theorem HoldsOpen.of_same {tmp : FsPath} {held : Held} {bytes : List UInt8} {s t : Store}
    (h : HoldsOpen tmp held bytes s) (hst : SameAt tmp s t) : HoldsOpen tmp held bytes t := by
  obtain ⟨f, hf, hentry, hcontent⟩ := h
  exact ⟨f, hf, hst.1.trans hentry, (hst.2 f hentry).trans hcontent⟩

/-- Task `i` has the temporary to itself, draws its name, and moves it only when it holds
the whole body. -/
def owning (i : Nat) (tmp : FsPath) (drawn : Nat × Nat) : UploadDiscipline where
  inv := fun _ => True
  rely := fun j s t => j = i → SameAt tmp s t
  allowed := fun s e => ∀ job h c, e = .call i job (.uniqueName, h) c → (s.now, s.counter) = drawn
  mark := fun j job call s => j = i → ∀ source target, call.1 = .rename source target →
    source = tmp ∧ HoldsOpen tmp call.2 job.body.bytes s

section Own

variable {srv : Server} {i : Nat} {job : UploadJob} {tmp : FsPath} {drawn : Nat × Nat}
  {ε α : Type} {h : Held} {s : Store}

theorem owning_kept (s t : Store) : (owning i tmp drawn).Kept i s t :=
  ⟨trivial, fun _ hj heq => absurd heq hj⟩

/-- A call that moves nothing promises nothing. -/
theorem owning_mark {op : Op} (hop : op.renames = false) :
    (owning i tmp drawn).mark i job (op, h) s := by
  intro _ source target heq
  rw [show op = .rename source target from heq] at hop
  cases hop

/-- What a sequential upload asks for before it commits moves nothing. -/
theorem renames_of_asked {A : Grant} (hsession : job.session = none) (hA : ¬ A.commits) {op : Op}
    (hop : AskedBy srv job A op) : op.renames = false := by
  cases op with
  | rename source target =>
      rcases hop.puts target (List.mem_singleton_self target) with hs | ⟨hno, -⟩ | ⟨-, hc, -⟩
      · cases hs with
        | tmp _ hkey | blocks _ hkey | persist _ hkey =>
            rw [hsession] at hkey
            cases hkey
      · cases hno
      · exact absurd hc hA
  | _ => rfl

/-- A program that moves nothing. -/
theorem wp_of_asks {A : Grant} (hsession : job.session = none) (hA : ¬ A.commits)
    {x : Fs ε α} {R : α → Prop} (hx : Fs.Asks (AskedBy srv job A) R x) :
    Fs.Wp srv (owning i tmp drawn) i job x (fun r _ _ => ∀ a, r = .ok a → R a) h s := by
  have hall : ∀ (p : Code (Except ε α × Held)) (s : Store),
      p.Along (fun c => AskedBy srv job A c.1) (fun r => ∀ a, r.1 = .ok a → R a) →
      wp (uploadSystem srv) (owning i tmp drawn) i job p
        (fun r _ => ∀ a, r.1 = .ok a → R a) s := by
    intro p
    induction p with
    | done r => exact fun _ hp => hp
    | call o k ih =>
        intro s hp s₁ _ _
        constructor
        · exact owning_mark (renames_of_asked hsession hA hp.1)
        · intro c s₂ a _ _
          exact ⟨owning_kept _ _, ih a s₂ (hp.2 a)⟩
  exact hall (x h) s (hx h)

/-- While the temporary holds what has been written, the request may look around. -/
theorem watching_open (bytes : List UInt8) :
    Watching (owning i tmp drawn) i job h (HoldsOpen tmp h bytes) where
  stable := fun _ _ hP hrely _ => hP.of_same (hrely rfl)
  mark := by
    intro s op hop _ _
    apply owning_mark
    cases op with
    | rename p q => cases hop
    | _ => rfl
  self := fun _ _ _ => owning_kept _ _

/-- A part of the body has been written, `rest` is still to come. -/
def Wrote (job : UploadJob) (tmp : FsPath) (sink : FsSink) (rest : List UInt8) (h : Held)
    (s : Store) : Prop :=
  ∃ done, done ++ rest = job.body.bytes ∧ h.file = some sink.file ∧ h.written = done.length ∧
    HoldsOpen tmp h done s

theorem wp_write {sink : FsSink} (hmode : sink.mode = .create) {buf rest : List UInt8}
    (hwrote : Wrote job tmp sink (buf ++ rest) h s) :
    Fs.Wp srv (owning i tmp drawn) i job (sink.write buf) (fun r h s =>
      match r with
      | .ok _ => Wrote job tmp sink rest h s
      | .error _ => True) h s := by
  obtain ⟨done, hbytes, hfile, hwritten, hholds⟩ := hwrote
  have hall : sink.writeAll buf h.written = await (.writeAt sink.file h.written buf) := by
    unfold FsSink.writeAll
    rw [hmode]
  unfold FsSink.write
  apply wp_held_then.2
  rw [hall]
  apply wp_await_then.2
  intro s₁ hrely _
  constructor
  · exact owning_mark rfl
  intro c s₂ a _ hexec
  constructor
  · exact owning_kept _ _
  obtain ⟨f, hf, hentry, hcontent⟩ := hholds.of_same (hrely rfl)
  obtain rfl : sink.file = f := Option.some.inj (hfile.symm.trans hf)
  rcases exec_writeAt hexec with ⟨e, n, rfl, -⟩ | ⟨rfl, -, rfl⟩ | ⟨e, rfl, -⟩
  · exact trivial
  · refine ⟨done ++ buf, ?_, hfile, ?_, sink.file, hfile, hentry, ?_⟩
    · rw [List.append_assoc]
      exact hbytes
    · show h.written + buf.length = (done ++ buf).length
      rw [List.length_append, hwritten]
    · rw [write_content_self, hcontent]
      unfold written Content.cells
      rw [show h.written = (done.map some).length by rw [List.length_map]; exact hwritten,
        PosixStore.writeAt_end, List.map_append]
  · exact trivial

theorem wp_writeBatch {sink : FsSink} (hmode : sink.mode = .create) {resumeOffset size n : Nat}
    {data rest : List UInt8} (hwrote : Wrote job tmp sink (data ++ rest) h s) :
    Fs.Wp srv (owning i tmp drawn) i job (writeBatch srv sink resumeOffset size n data)
      (fun r h s =>
        match r with
        | .ok _ => Wrote job tmp sink rest h s
        | .error _ => True) h s := by
  unfold writeBatch
  dsimp only
  split
  · exact wp_fail.2 trivial
  · split
    · exact wp_fail.2 trivial
    · apply wp_orElse.2
      apply wp_weaken (wp_write hmode hwrote)
      intro r h s hr
      cases r with
      | ok _ => exact hr
      | error e => exact trivial

theorem Wrote.of_same {sink : FsSink} {rest : List UInt8} {t : Store}
    (hwrote : Wrote job tmp sink rest h s) (hst : SameAt tmp s t) :
    Wrote job tmp sink rest h t := by
  obtain ⟨done, hbytes, hfile, hwritten, hholds⟩ := hwrote
  exact ⟨done, hbytes, hfile, hwritten, hholds.of_same hst⟩

/-- The body is written as it comes. -/
theorem wp_body {sink : FsSink} (hmode : sink.mode = .create) (resumeOffset size : Nat)
    (hwrote : Wrote job tmp sink job.body.bytes h s) :
    Fs.Wp srv (owning i tmp drawn) i job
      (streamBody (writeBatch srv sink resumeOffset size) job.body) (fun r h s =>
        match r with
        | .ok _ => HoldsOpen tmp h job.body.bytes s
        | .error _ => True) h s := by
  have hchunk : ∀ (_ : Nat) rest h s, Wrote job tmp sink rest h s →
      Fs.Wp srv (owning i tmp drawn) i job (await .nextChunk : Fs StreamError Unit)
        (fun r h s => r = .ok () ∧ Wrote job tmp sink rest h s) h s := by
    intro _ rest h s hw
    apply wp_await.2
    intro s₁ hrely _
    constructor
    · exact owning_mark rfl
    intro c s₂ a _ hexec
    rw [exec_nextChunk hexec]
    exact ⟨owning_kept _ _, rfl, hw.of_same (hrely rfl)⟩
  have hfail : ∀ (_ : Nat) (_ : StreamError) h s, Wrote job tmp sink [] h s → True :=
    fun _ _ _ _ _ => trivial
  have hwrite : ∀ n data rest h s, data ≠ [] → Wrote job tmp sink (data ++ rest) h s →
      Fs.Wp srv (owning i tmp drawn) i job (writeBatch srv sink resumeOffset size n data)
        (fun r h s =>
          match r with
          | .ok _ => Wrote job tmp sink rest h s
          | .error _ => True) h s := fun _ _ _ _ _ _ hw => wp_writeBatch hmode hw
  apply wp_weaken (wp_streamBody hchunk hfail hwrite job.body hwrote)
  intro r h s hr
  cases r with
  | ok m =>
      obtain ⟨done, hbytes, -, -, hholds⟩ := hr
      rw [List.append_nil] at hbytes
      rw [← hbytes]
      exact hholds
  | error e => exact trivial

/-- What the request uses between its draw and its commit. -/
def onlyTemp (tmp : FsPath) (file : Nat) : Grant := ⟨fun p => p = tmp, fun f => f = file, False, False⟩

/-- The sink that `write_stream` hands over in Create mode. -/
structure Ready (srv : Server) (job : UploadJob) (tmp : FsPath) (sink : FsSink) : Prop where
  mode : sink.mode = .create
  temp : sink.tmp = some tmp
  blocks : sink.blocksPath = none
  sinkOf : SinkOf srv job (onlyTemp tmp sink.file) sink

/-- The temporary is made under the name that is drawn, and is empty. -/
theorem wp_writeStreamTemp {full : FsPath} (hfull : resolve srv.root job.path = .ok full)
    (hsession : job.session = none) (htmp : tmp = tempPathFor full drawn.1 drawn.2) :
    Fs.Wp srv (owning i tmp drawn) i job (writeStreamTemp full job.path .create)
      (fun r h s => ∀ sink, r = .ok sink →
        Ready srv job tmp sink ∧ Wrote job tmp sink job.body.bytes h s) h s := by
  have hrefuse : Fs.Asks (AskedBy srv job (onlyTemp tmp 0)) (fun _ => True)
      (refuseExisting full job.path .create) := asks_refuseExisting hfull .create
  unfold writeStreamTemp
  apply wp_then (wp_of_asks hsession (fun hc : False => hc) hrefuse)
  · intro _ h s _
    apply wp_await_then.2
    intro s₁ _ _
    constructor
    · exact owning_mark rfl
    intro c s₂ a hallow hexec
    constructor
    · exact owning_kept _ _
    obtain ⟨-, ha⟩ := exec_uniqueName hexec
    -- the name drawn is the one in question
    have hdrawn : a = drawn := ha.trans (hallow job h c rfl)
    subst hdrawn
    obtain ⟨nanos, counter⟩ := a
    apply wp_await_then.2
    intro s₃ _ _
    constructor
    · exact owning_mark rfl
    intro c' s₄ a hallow' hexec'
    constructor
    · exact owning_kept _ _
    rw [← show tmp = tempPathFor full nanos counter from htmp] at hexec'
    have hopen : ∀ f, s₄.disk.entry tmp = .file f → s₄.content f = .bytes [] →
        Fs.Wp srv (owning i tmp (nanos, counter)) i job
          (other (.ok f) >>= fun file => do
            holdFile file
            openSink ⟨file, some (tempPathFor full nanos counter), full, job.path, .create, none⟩
              0 [])
          (fun r h s => ∀ sink, r = .ok sink →
            Ready srv job tmp sink ∧ Wrote job tmp sink job.body.bytes h s) h s₄ := by
      intro f hentry hcontent sink hsink
      cases hsink
      constructor
      · refine ⟨rfl, congrArg some htmp.symm, rfl, rfl, hfull, ?_, ?_⟩
        · intro p hp
          cases hp
          exact .attempt htmp.symm
        · intro b hb
          cases hb
      · exact ⟨[], rfl, rfl, rfl, f, rfl, hentry, hcontent⟩
    rcases exec_create hexec' with (⟨-, e, rfl⟩ | ⟨-, rfl, rfl⟩) | ⟨f, hentry, rfl, rfl⟩
    · intro sink hsink
      cases hsink
    · apply hopen
      · exact Disk.create_entry_self _ _
      · unfold Store.content Store.create
        rw [Disk.create_content_next]
    · apply hopen f hentry
      rw [write_content_self]
      rfl
  · intro e h s _ sink hsink
    cases hsink

/-- The last look at the target leaves the temporary as it is, or fails. -/
theorem wp_refuseAppeared {sink : FsSink} (hready : Ready srv job tmp sink)
    (hholds : HoldsOpen tmp h job.body.bytes s) :
    Fs.Wp srv (owning i tmp drawn) i job (sink.refuseAppeared tmp) (fun r h' s =>
      r = .ok () → h' = h ∧ HoldsOpen tmp h job.body.bytes s) h s := by
  unfold FsSink.refuseAppeared
  rw [if_pos hready.mode]
  apply (watching_open job.body.bytes).look_then hholds rfl
  intro s₁ c a hholds₁ _ _ _
  apply wp_other_then
  · intro found _
    split
    · apply wp_await_then.2
      intro s₂ _ _
      constructor
      · exact owning_mark rfl
      intro c' s₃ a' _ _
      constructor
      · exact owning_kept _ _
      intro hok
      cases hok
    · intro _
      exact ⟨rfl, hholds₁⟩
  · intro e _ hok
    cases hok

/-- The commit moves the temporary when it holds the whole body. -/
theorem wp_commit {sink : FsSink} (hready : Ready srv job tmp sink)
    (hsession : job.session = none) (hholds : HoldsOpen tmp h job.body.bytes s)
    (etag : Nat → Nat → Text) :
    Fs.Wp srv (owning i tmp drawn) i job (sink.commit etag) (fun _ _ _ => True) h s := by
  have hnot : ¬ (onlyTemp tmp sink.file).commits := fun hc : False => hc
  have hany : ∀ {β : Type} {x : Fs StorageError β} {h s},
      Fs.Asks (AskedBy srv job (onlyTemp tmp sink.file)) (fun _ => True) x →
      Fs.Wp srv (owning i tmp drawn) i job x (fun _ _ _ => True) h s :=
    fun hx => wp_weaken (wp_of_asks hsession hnot hx) fun _ _ _ _ => trivial
  unfold FsSink.commit
  rw [hready.blocks, hready.temp]
  apply (watching_open job.body.bytes).look_then hholds rfl
  intro s₁ c a hholds₁ _ _ _
  apply wp_other_then _ (fun _ _ => trivial)
  intro _ _
  apply (watching_open job.body.bytes).look_then hholds₁ rfl
  intro s₂ c a hholds₂ _ _ _
  apply wp_other_then _ (fun _ _ => trivial)
  intro _ _
  have hmoved : Fs.Wp srv (owning i tmp drawn) i job (sink.publish tmp) (fun _ _ _ => True) h s₂ := by
    unfold FsSink.publish
    apply wp_then (wp_refuseAppeared hready hholds₂) _ (fun _ _ _ _ => trivial)
    intro _ h' s₃ hr
    obtain ⟨rfl, hholds₃⟩ := hr rfl
    unfold FsSink.moveIntoPlace
    apply wp_await_then.2
    intro s₄ hrely _
    constructor
    · intro _ source target heq
      cases heq
      exact ⟨rfl, hholds₃.of_same (hrely rfl)⟩
    intro c' s₅ a' _ _
    constructor
    · exact owning_kept _ _
    apply wp_other_then _ (fun _ _ => trivial)
    intro _ _
    exact hany (asks_syncParent hready.sinkOf)
  apply wp_then hmoved _ (fun _ _ _ _ => trivial)
  intro _ h' s₃ _
  exact hany (asks_fileMeta hready.sinkOf etag)

theorem wp_serveCreate {sink : FsSink} (hready : Ready srv job tmp sink)
    (hsession : job.session = none) (hwrote : Wrote job tmp sink job.body.bytes h s) :
    Fs.Wp srv (owning i tmp drawn) i job (serveSequential srv job .create sink)
      (fun _ _ _ => True) h s := by
  have habort : ∀ (e : ApiError) h s, Fs.Wp srv (owning i tmp drawn) i job
      (abortWith sink e : Fs ApiError Reply) (fun _ _ _ => True) h s := by
    intro e h s
    have hasks : Fs.Asks (AskedBy srv job (onlyTemp tmp sink.file)) (fun _ => True)
        (abortWith sink e : Fs ApiError Reply) := asks_abortWith hready.sinkOf e
    exact wp_weaken (wp_of_asks hsession (fun hc : False => hc) hasks) fun _ _ _ _ => trivial
  unfold serveSequential
  apply wp_seq.2
  apply wp_attempt.2
  apply wp_weaken (wp_body hready.mode _ _ hwrote)
  intro r h s hr
  cases r with
  | error e => exact habort _ h s
  | ok appended =>
      dsimp only [Then]
      split
      · exact habort _ h s
      · unfold commitReply
        apply wp_orElse_then (wp_commit hready hsession hr srv.etag)
        · intro _ _ _ _
          exact wp_ret.2 trivial
        · intro _ _ _ _
          trivial

/-- **A Create upload that draws the name moves its temporary only when that is the file it
has open, and holds the bytes of its body.** -/
theorem wp_create {full : FsPath} (hfull : resolve srv.root job.path = .ok full)
    (hcreates : job.Creates) (htmp : tmp = tempPathFor full drawn.1 drawn.2) :
    Fs.Wp srv (owning i tmp drawn) i job (runUpload srv job) (fun _ _ _ => True) h s := by
  have hprepare : Fs.Asks (AskedBy srv job (onlyTemp tmp 0))
      (fun full => resolve srv.root job.path = .ok full) (prepare srv.root job.path) :=
    asks_prepare
  have hopen : Fs.Wp srv (owning i tmp drawn) i job (writeStream srv.root job.path .create)
      (fun r h s => ∀ sink, r = .ok sink →
        Ready srv job tmp sink ∧ Wrote job tmp sink job.body.bytes h s) h s := by
    unfold writeStream
    apply wp_then (wp_of_asks hcreates.1 (fun hc : False => hc) hprepare)
    · intro full' h s hres
      obtain rfl : full' = full := by
        have hfull' := hres full' rfl
        rw [hfull] at hfull'
        cases hfull'
        rfl
      exact wp_writeStreamTemp hfull hcreates.1 htmp
    · intro e h s _ sink hsink
      cases hsink
  unfold runUpload
  rw [hcreates.1]
  unfold uploadSequential
  rw [hcreates.2]
  apply wp_lift_then
  · intro mode hmode
    cases hmode
    apply wp_orElse_then hopen
    · intro sink h s hready
      exact wp_serveCreate (hready sink rfl).1 hcreates.1 (hready sink rfl).2
    · intro _ _ _ _
      trivial
  · intro _ _
    trivial

end Own

end Libfw

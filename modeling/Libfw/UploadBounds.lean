import Libfw.RequestFootprints
import Libfw.StaleSessions
import Libfw.UploadSessions
import Libfw.WatchedPrograms

/-!
# Uploads and what they declare

How many bytes an upload gets written, against the size it declares and the server's cap:
`write_batch`, `write_at_batch` and the size check of a final request in
`libfw-server/src/handlers.rs`.

`uploads_keep_to_declaration`: no request writes beyond its declaration, and a sequential
upload that is answered 201 as final leaves a file of just the declared size, where no other
request touches the file it has open.
-/

namespace Libfw

open SteppedPrograms Fs FsStorage PosixStore WatchedPrograms

/-! ## Calls that write nothing -/

section Quiet

variable {P : Op → Prop} {ε α : Type} {sink : FsSink}

/-- A condition on calls that is about writes alone. -/
def OnWrites (P : Op → Prop) : Prop := ∀ op : Op, op.writes = [] → P op

/-- Preparing an upload writes nothing. -/
theorem asks_prepare_quiet (hP : OnWrites P) (root : FsPath) (path : Text) :
    Fs.Asks P (fun full => resolve root path = .ok full) (prepare root path) := by
  unfold prepare
  have hlift : Fs.Asks P (fun full => resolve root path = .ok full)
      (lift ((resolve root path).mapError StorageError.unsupported)) := by
    apply asks_lift
    intro full h
    cases hres : resolve root path with
    | ok p =>
        rw [hres] at h
        cases h
        rfl
    | error e =>
        rw [hres] at h
        cases h
  apply asks_then hlift
  intro full hfull
  apply asks_await_then (hP _ rfl)
  intro r
  apply asks_other_then
  intro _
  cases full.parent with
  | none => exact asks_ret hfull
  | some parent =>
      apply asks_await_then (hP _ rfl)
      intro r
      apply asks_other_then
      intro _
      exact asks_ret hfull

theorem asks_refuseExisting_quiet (hP : OnWrites P) (full : FsPath) (path : Text)
    (mode : WriteMode) : Fs.Asks P (fun _ => True) (refuseExisting full path mode) := by
  unfold refuseExisting
  split
  · apply asks_await_then (hP _ rfl)
    intro r
    apply asks_other_then
    intro found
    split
    · exact asks_fail
    · exact asks_ret trivial
  · exact asks_ret trivial

theorem asks_removeBlocksSidecar_quiet (hP : OnWrites P) (blocks : Option FsPath) :
    Fs.Asks P (fun _ => True) (removeBlocksSidecar blocks) := by
  cases blocks with
  | none => exact asks_ret trivial
  | some b =>
      apply asks_await_then (hP _ rfl)
      intro _
      exact asks_ret trivial

theorem asks_readRanges_quiet (hP : OnWrites P) (serde : Serde) (blocks : FsPath) :
    Fs.Asks P (fun _ => True) (readRanges serde blocks) := by
  unfold readRanges
  apply asks_await_then (hP _ rfl)
  intro r
  cases r with
  | ok text => exact asks_lift fun _ _ => trivial
  | error e =>
      dsimp only
      split
      · exact asks_ret trivial
      · exact asks_fail

theorem asks_recordRange_quiet (hP : OnWrites P) (serde : Serde) (blocks : FsPath)
    (new : ChunkRange) : Fs.Asks P (fun _ => True) (FsSink.recordRange serde blocks new) := by
  have hpersist : ∀ ranges, Fs.Asks P (fun _ => True) (persistRanges blocks ranges) := by
    intro ranges
    unfold persistRanges
    apply asks_await_then (hP _ rfl)
    intro r
    apply asks_other_then
    intro _
    apply asks_await_then (hP _ rfl)
    intro r
    exact asks_other fun _ _ => trivial
  unfold FsSink.recordRange
  apply asks_then (asks_readRanges_quiet hP serde blocks)
  intro current _
  apply asks_then (hpersist _)
  intro _ _
  exact asks_update

/-- Nor does opening the temporary of a session. -/
theorem asks_writeStreamSession_quiet (hP : OnWrites P) (serde : Serde) (root : FsPath)
    (path session owner : Text) (mode : WriteMode) :
    Fs.Asks P (fun _ => True) (writeStreamSession serde root path session owner mode) := by
  have hopen : ∀ full tmp found, Fs.Asks P (fun _ => True)
      (openSessionTemp full tmp path mode found) := by
    intro full tmp found
    unfold openSessionTemp
    split
    · apply asks_await_then (hP _ rfl)
      intro r
      exact asks_other fun _ _ => trivial
    · split
      · exact asks_fail
      · apply asks_then (asks_refuseExisting_quiet hP full path mode)
        intro _ _
        apply asks_await_then (hP _ rfl)
        intro r
        exact asks_other fun _ _ => trivial
  unfold writeStreamSession
  apply asks_then (asks_prepare_quiet hP root path)
  intro full _
  apply asks_await_then (hP _ rfl)
  intro r
  apply asks_other_then
  intro found
  apply asks_then (hopen full _ found)
  intro file _
  apply asks_update_then
  apply asks_await_then (hP _ rfl)
  intro _
  split
  · apply asks_then (asks_readRanges_quiet hP serde _)
    intro ranges _
    apply asks_update_then
    exact asks_ret trivial
  · apply asks_then (asks_removeBlocksSidecar_quiet hP _)
    intro _ _
    apply asks_ret_then
    apply asks_update_then
    exact asks_ret trivial

theorem asks_abortWith_quiet {Q : α → Prop} (hP : OnWrites P) (sink : FsSink) (e : ApiError) :
    Fs.Asks P Q (abortWith sink e : Fs ApiError α) := by
  have habort : Fs.Asks P (fun _ => True) sink.abort := by
    unfold FsSink.abort
    cases sink.tmp with
    | none => exact asks_ret_then (asks_removeBlocksSidecar_quiet hP _)
    | some tmp =>
        apply asks_await_then (hP _ rfl)
        intro _
        exact asks_ret_then (asks_removeBlocksSidecar_quiet hP _)
  unfold abortWith
  apply asks_attempt_then habort
  · intro _ _
    exact asks_fail
  · intro _
    exact asks_fail

theorem asks_refuseAppeared_quiet (hP : OnWrites P) (sink : FsSink) (tmp : FsPath) :
    Fs.Asks P (fun _ => True) (sink.refuseAppeared tmp) := by
  unfold FsSink.refuseAppeared
  split
  · apply asks_await_then (hP _ rfl)
    intro r
    apply asks_other_then
    intro found
    split
    · apply asks_await_then (hP _ rfl)
      intro _
      exact asks_fail
    · exact asks_ret trivial
  · exact asks_ret trivial

theorem asks_commitReply_quiet (hP : OnWrites P) (srv : Server) (sink : FsSink) :
    Fs.Asks P (fun _ => True) (commitReply srv sink) := by
  have hmove : ∀ tmp, Fs.Asks P (fun _ => True) (sink.moveIntoPlace tmp) := by
    intro tmp
    unfold FsSink.moveIntoPlace
    apply asks_await_then (hP _ rfl)
    intro r
    apply asks_other_then
    intro _
    cases sink.target.parent with
    | none => exact asks_ret trivial
    | some parent =>
        apply asks_await_then (hP _ rfl)
        intro _
        exact asks_ret trivial
  have hmeta : Fs.Asks P (fun _ => True) (do
      let stat ← other (← await (.metadata sink.target))
      ret (FsSink.fileMetaAt srv.etag sink.rel stat)) := by
    apply asks_await_then (hP _ rfl)
    intro r
    apply asks_other_then
    intro _
    exact asks_ret trivial
  have hcommit : Fs.Asks P (fun _ => True) (sink.commit srv.etag) := by
    unfold FsSink.commit
    apply asks_then (asks_removeBlocksSidecar_quiet hP _)
    intro _ _
    apply asks_await_then (hP _ rfl)
    intro r
    apply asks_other_then
    intro _
    apply asks_await_then (hP _ rfl)
    intro r
    apply asks_other_then
    intro _
    cases sink.tmp with
    | none =>
        apply asks_ret_then
        exact hmeta
    | some tmp =>
        unfold FsSink.publish
        apply asks_then
        · apply asks_then (asks_refuseAppeared_quiet hP sink tmp)
          intro _ _
          exact hmove tmp
        · intro _ _
          exact hmeta
  unfold commitReply
  apply asks_then (asks_orElse hcommit)
  intro _ _
  exact asks_ret trivial

/-- Nor do the checks before a session's commit and the commit. -/
theorem asks_finishSession_quiet (hP : OnWrites P) (srv : Server) (sink : FsSink) (size : Nat) :
    Fs.Asks P (fun _ => True) (finishSession srv sink size) := by
  have hlen : Fs.Asks P (fun _ => True) sink.len := by
    unfold FsSink.len
    apply asks_await_then (hP _ rfl)
    intro r
    exact asks_other fun _ _ => trivial
  unfold finishSession
  apply asks_then (asks_orElse hlen)
  intro len _
  split
  · exact asks_abortWith_quiet hP sink _
  · apply asks_then (asks_orElse asks_receivedRanges)
    intro received _
    split
    · exact asks_abortWith_quiet hP sink _
    · exact asks_commitReply_quiet hP srv sink

end Quiet

/-! ## What an upload may write, and what it counts on -/

/-- The bound on the positions of an upload's bytes. -/
def declaredBound (srv : Server) (job : UploadJob) : Nat :=
  min job.fileMeta.size srv.maxUploadSize

/-- Every byte the call writes lies below the bound.  In append mode bytes go behind those
the sink has counted. -/
def WritesBelow (bound : Nat) (call : Call) : Prop :=
  match call.1 with
  | .writeAt _ pos buf => pos + buf.length ≤ bound
  | .append _ buf => call.2.written + buf.length ≤ bound
  | _ => True

/-- Calls that write nothing write below any bound. -/
theorem writesBelow_quiet (bound : Nat) : OnWrites fun op => ∀ h, WritesBelow bound (op, h) := by
  intro op hop h
  cases op with
  | writeAt f pos buf => cases hop
  | append f buf => cases hop
  | _ => exact trivial

/-- A file stays under its name and keeps its content. -/
def KeepsFile (file : Option Nat) (s t : Store) : Prop :=
  ∀ f p, file = some f → s.disk.entry p = .file f →
    t.disk.entry p = .file f ∧ t.content f = s.content f

theorem KeepsFile.trans {file : Option Nat} {s t u : Store} (hst : KeepsFile file s t)
    (htu : KeepsFile file t u) : KeepsFile file s u := by
  intro f p hf hp
  obtain ⟨hpt, hct⟩ := hst f p hf hp
  obtain ⟨hpu, hcu⟩ := htu f p hf hpt
  exact ⟨hpu, hcu.trans hct⟩

/-- An upload's calls stay below its bound; while it is `alone`, the file it has open is
its own. -/
def uploadWatch (srv : Server) (alone : Prop) : Watch Call UploadJob Store where
  asks := fun job => WritesBelow (declaredBound srv job)
  rely := fun call s t => alone → KeepsFile call.2.file s t
  refl := fun _ _ _ _ _ _ hp => ⟨hp, rfl⟩
  trans := fun _ _ _ _ hst htu halone => (hst halone).trans (htu halone)

section Rules

variable {srv : Server} {alone : Prop} {i : Nat} {job : UploadJob} {ε ε' α β : Type} {h : Held}
  {s : Store}

/-- The program keeps to the declaration of its upload, and a result of it satisfies `Q`. -/
def Fs.Keeps (srv : Server) (alone : Prop) (i : Nat) (job : UploadJob) (x : Fs ε α)
    (Q : α → Held → Store → Prop) (h : Held) (s : Store) : Prop :=
  watched (uploadWatch srv alone) ((uploadSystem srv).exec i) job (x h)
    (fun r t => ∀ a, r.1 = .ok a → Q a r.2 t) s

theorem keeps_ret {a : α} {Q : α → Held → Store → Prop} (hQ : Q a h s) :
    Fs.Keeps srv alone i job (ret a : Fs ε α) Q h s := by
  intro b hb
  cases hb
  exact hQ

theorem keeps_fail {e : ε} {Q : α → Held → Store → Prop} :
    Fs.Keeps srv alone i job (fail e) Q h s := by
  intro b hb
  cases hb

theorem keeps_mono {x : Fs ε α} {Q Q' : α → Held → Store → Prop}
    (hx : Fs.Keeps srv alone i job x Q h s) (hQ : ∀ a h t, Q a h t → Q' a h t) :
    Fs.Keeps srv alone i job x Q' h s :=
  watched_mono hx fun r t hr a ha => hQ a r.2 t (hr a ha)

/-- Sequencing. -/
theorem keeps_then {x : Fs ε α} {f : α → Fs ε β} {R : α → Held → Store → Prop}
    {Q : β → Held → Store → Prop} (hx : Fs.Keeps srv alone i job x R h s)
    (hf : ∀ a h t, R a h t → Fs.Keeps srv alone i job (f a) Q h t) :
    Fs.Keeps srv alone i job (x >>= f) Q h s := by
  apply watched_bind.2
  apply watched_mono hx
  intro r t hr
  obtain ⟨r, h'⟩ := r
  cases r with
  | ok a => exact hf a h' t (hr a rfl)
  | error e =>
      intro b hb
      cases hb

theorem keeps_attempt {x : Fs ε α} {Q : Except ε α → Held → Store → Prop}
    (hx : Fs.Keeps srv alone i job x (fun a => Q (.ok a)) h s) (herr : ∀ e h t, Q (.error e) h t) :
    Fs.Keeps srv alone i job (attempt x : Fs ε' (Except ε α)) Q h s := by
  apply watched_bind.2
  apply watched_mono hx
  intro r t hr b hb
  obtain ⟨r, h'⟩ := r
  cases hb
  cases r with
  | ok a => exact hr a rfl
  | error e => exact herr e h' t

theorem keeps_orElse {f : ε → ε'} {x : Fs ε α} {Q : α → Held → Store → Prop}
    (hx : Fs.Keeps srv alone i job x Q h s) : Fs.Keeps srv alone i job (orElse f x) Q h s := by
  unfold orElse
  have hr : Fs.Keeps srv alone i job (attempt x : Fs ε' (Except ε α))
      (fun r h t => ∀ a, r = .ok a → Q a h t) h s := by
    apply keeps_attempt
    · apply keeps_mono hx
      intro a h t hQ b hb
      cases hb
      exact hQ
    · intro e h t b hb
      cases hb
  apply keeps_then hr
  intro r h t hr
  cases r with
  | ok a => exact keeps_ret (hr a rfl)
  | error e => exact keeps_fail

/-- A program that asks for no write past the bound, whatever it finds. -/
theorem keeps_of_asks {x : Fs ε α} {Q : α → Prop}
    (hx : Fs.Asks (fun op => ∀ h, WritesBelow (declaredBound srv job) (op, h)) Q x) :
    Fs.Keeps srv alone i job x (fun a _ _ => Q a) h s := by
  apply watched_of_along
  exact (hx h).mono (fun call hcall => hcall call.2) fun _ hr => hr

/-! The same at the head of a `do` block. -/

theorem keeps_await_then {op : Op} {f : op.Ans → Fs ε β} {Q : β → Held → Store → Prop}
    (hop : WritesBelow (declaredBound srv job) (op, h))
    (hf : ∀ s₁, (alone → KeepsFile h.file s s₁) → ∀ c t a,
      op.exec srv.serde i c s₁ = some (t, a) → Fs.Keeps srv alone i job (f a) Q h t) :
    Fs.Keeps srv alone i job (await op >>= f) Q h s :=
  ⟨hop, hf⟩

/-- A call that writes nothing. -/
theorem keeps_quiet_then {op : Op} {f : op.Ans → Fs ε β} {Q : β → Held → Store → Prop}
    (hop : op.writes = [])
    (hf : ∀ s₁, (alone → KeepsFile h.file s s₁) → ∀ c t a,
      op.exec srv.serde i c s₁ = some (t, a) → Fs.Keeps srv alone i job (f a) Q h t) :
    Fs.Keeps srv alone i job (await op >>= f) Q h s :=
  keeps_await_then (writesBelow_quiet _ op hop h) hf

theorem keeps_lift_then {r : Except ε α} {f : α → Fs ε β} {Q : β → Held → Store → Prop}
    (hf : ∀ a, r = .ok a → Fs.Keeps srv alone i job (f a) Q h s) :
    Fs.Keeps srv alone i job (lift r >>= f) Q h s := by
  cases r with
  | ok a => exact hf a rfl
  | error e => exact keeps_fail

theorem keeps_other_then {r : Except IoError α} {f : α → Fs StorageError β}
    {Q : β → Held → Store → Prop}
    (hf : ∀ a, r = .ok a → Fs.Keeps srv alone i job (f a) Q h s) :
    Fs.Keeps srv alone i job (other r >>= f) Q h s := by
  apply keeps_lift_then
  intro a ha
  cases r with
  | ok b =>
      cases ha
      exact hf a rfl
  | error e => cases ha

theorem keeps_update_then {g : Held → Held} {f : Unit → Fs ε β} {Q : β → Held → Store → Prop}
    (hf : Fs.Keeps srv alone i job (f ()) Q (g h) s) :
    Fs.Keeps srv alone i job (update g >>= f) Q h s := hf

theorem keeps_held_then {f : Held → Fs ε β} {Q : β → Held → Store → Prop}
    (hf : Fs.Keeps srv alone i job (f h) Q h s) :
    Fs.Keeps srv alone i job (held >>= f) Q h s := hf

theorem keeps_attempt_then {x : Fs ε α} {f : Except ε α → Fs ε' β}
    {R : α → Held → Store → Prop} {Q : β → Held → Store → Prop}
    (hx : Fs.Keeps srv alone i job x R h s)
    (hok : ∀ a h t, R a h t → Fs.Keeps srv alone i job (f (.ok a)) Q h t)
    (herr : ∀ e h t, Fs.Keeps srv alone i job (f (.error e)) Q h t) :
    Fs.Keeps srv alone i job (attempt x >>= f) Q h s := by
  have hr : Fs.Keeps srv alone i job (attempt x : Fs ε' (Except ε α))
      (fun r h t => ∀ a, r = .ok a → R a h t) h s := by
    apply keeps_attempt
    · apply keeps_mono hx
      intro a h t hR b hb
      cases hb
      exact hR
    · intro e h t b hb
      cases hb
  apply keeps_then hr
  intro r h t hr
  cases r with
  | ok a => exact hok a h t (hr a rfl)
  | error e => exact herr e h t

end Rules

/-! ## The sink of a sequential upload -/

section Sequential

variable {srv : Server} {alone : Prop} {i : Nat} {job : UploadJob} {name : FsPath}
  {file n : Nat} {h : Held} {s s₁ : Store}

/-- A sum the server's cap bounds has not saturated. -/
theorem satAdd_eq_of_le {a b m : Nat} (hle : satAdd a b ≤ m) (hm : m < 2 ^ 64 - 1) :
    satAdd a b = a + b := by
  unfold satAdd at *
  omega

/-- The sink has written up to `n`; while the upload is alone its file stands under the name
and is `n` bytes long. -/
structure OpenAt (srv : Server) (alone : Prop) (name : FsPath) (file n : Nat) (h : Held)
    (s : Store) : Prop where
  handle : h.file = some file
  counted : h.written = n
  disk : alone → s.disk.entry name = .file file ∧ (s.content file).len srv.serde = n

/-- Who is alone with a file still finds it so after steps of the others. -/
theorem OpenAt.rely (hs : OpenAt srv alone name file n h s)
    (hrely : alone → KeepsFile h.file s s₁) : OpenAt srv alone name file n h s₁ := by
  refine ⟨hs.handle, hs.counted, ?_⟩
  intro halone
  obtain ⟨hentry, hlen⟩ := hs.disk halone
  obtain ⟨hentry₁, hcontent⟩ := hrely halone file name hs.handle hentry
  rw [hcontent]
  exact ⟨hentry₁, hlen⟩

/-- A call that only looks changes nothing. -/
theorem OpenAt.look {op : Op} {c : Choice} {t : Store} {a : op.Ans}
    (hs : OpenAt srv alone name file n h s) (hrely : alone → KeepsFile h.file s s₁)
    (hlooks : op.looks = true) (hexec : op.exec srv.serde i c s₁ = some (t, a)) :
    OpenAt srv alone name file n h t := by
  rw [exec_looks hlooks hexec]
  exact hs.rely hrely

/-- A write at the end of the file. -/
theorem OpenAt.extend (hs : OpenAt srv alone name file n h s) {u : Content → Content}
    (buf : List UInt8) (hu : alone → (u (s.content file)).len srv.serde = n + buf.length) :
    OpenAt srv alone name file (n + buf.length)
      { h with written := h.written + buf.length } (s.write file u) := by
  refine ⟨hs.handle, ?_, ?_⟩
  · rw [← hs.counted]
  · intro halone
    obtain ⟨hentry, -⟩ := hs.disk halone
    rw [write_content_self]
    exact ⟨hentry, hu halone⟩

/-- A write at the end makes a file that much longer. -/
theorem len_written {serde : Serde} {c : Content} {buf : List UInt8} (hlen : c.len serde = n) :
    (written serde n buf c).len serde = n + buf.length := by
  have hcells : (c.cells serde).length = n := hlen
  unfold written Content.len
  rw [← hcells]
  simp [Content.cells, writeAt_end]

/-- So does an append. -/
theorem len_appended {serde : Serde} {c : Content} {buf : List UInt8} (hlen : c.len serde = n) :
    (appended serde buf c).len serde = n + buf.length := by
  have hcells : (c.cells serde).length = n := hlen
  unfold appended Content.len
  rw [← hcells]
  simp [Content.cells]

/-- **A batch within the bound makes the open file that much longer.** -/
theorem keeps_write {sink : FsSink} (hfile : sink.file = file)
    (hs : OpenAt srv alone name file n h s) (buf : List UInt8)
    (hbound : n + buf.length ≤ declaredBound srv job) :
    Fs.Keeps srv alone i job (sink.write buf)
      (fun _ => OpenAt srv alone name file (n + buf.length)) h s := by
  subst hfile
  have hpos : h.written + buf.length ≤ declaredBound srv job := by
    rw [hs.counted]
    exact hbound
  have hall : Fs.Keeps srv alone i job (sink.writeAll buf h.written)
      (fun r h' t => r = .ok () → h' = h ∧ OpenAt srv alone name sink.file (n + buf.length)
        { h with written := h.written + buf.length } t) h s := by
    have happend : Fs.Keeps srv alone i job (await (.append sink.file buf) : Fs StorageError _)
        (fun r h' t => r = .ok () → h' = h ∧ OpenAt srv alone name sink.file (n + buf.length)
          { h with written := h.written + buf.length } t) h s := by
      refine ⟨hpos, ?_⟩
      intro s₁ hrely c t a hexec r hr hok
      cases hr
      rcases exec_append hexec with ⟨e, m, ha, -⟩ | ⟨-, ht⟩
      · exact nomatch ha.symm.trans hok
      · have hs₁ := hs.rely hrely
        rw [ht]
        exact ⟨rfl, hs₁.extend buf fun halone => len_appended (hs₁.disk halone).2⟩
    have hwrite : Fs.Keeps srv alone i job
        (await (.writeAt sink.file h.written buf) : Fs StorageError _)
        (fun r h' t => r = .ok () → h' = h ∧ OpenAt srv alone name sink.file (n + buf.length)
          { h with written := h.written + buf.length } t) h s := by
      refine ⟨hpos, ?_⟩
      intro s₁ hrely c t a hexec r hr hok
      cases hr
      rcases exec_writeAt hexec with ⟨e, m, ha, -⟩ | ⟨-, -, ht⟩ | ⟨e, ha, -⟩
      · exact nomatch ha.symm.trans hok
      · have hs₁ := hs.rely hrely
        have hextend := hs₁.extend buf fun halone => len_written (hs₁.disk halone).2
        rw [ht, hs.counted]
        rw [hs.counted] at hextend
        exact ⟨rfl, hextend⟩
      · exact nomatch ha.symm.trans hok
    unfold FsSink.writeAll
    cases sink.mode with
    | resume offset => exact happend
    | create => exact hwrite
    | overwrite => exact hwrite
  unfold FsSink.write
  apply keeps_held_then
  apply keeps_then hall
  intro r h' t hr
  cases r with
  | error e => exact keeps_fail
  | ok u =>
      obtain ⟨rfl, hopen⟩ := hr rfl
      exact keeps_ret hopen

/-- A batch that passes the two checks goes behind the bytes counted so far. -/
theorem keeps_writeBatch {sink : FsSink} (hfile : sink.file = file)
    (hmax : srv.maxUploadSize < 2 ^ 64 - 1) (off count : Nat) (data : List UInt8)
    (hs : OpenAt srv alone name file (off + count) h s) :
    Fs.Keeps srv alone i job (writeBatch srv sink off job.fileMeta.size count data)
      (fun _ h t => OpenAt srv alone name file (off + satAdd count data.length) h t ∧
        off + satAdd count data.length ≤ srv.maxUploadSize) h s := by
  unfold writeBatch
  dsimp only
  split
  · exact keeps_fail
  · next hcap =>
      split
      · exact keeps_fail
      · next hsize =>
          have htotal := satAdd_eq_of_le (Nat.le_of_not_lt hcap) hmax
          have hcount : satAdd count data.length = count + data.length := by
            apply satAdd_eq_of_le (Nat.le_refl _)
            omega
          rw [htotal, hcount] at hcap hsize
          rw [hcount, ← Nat.add_assoc]
          have hbound : off + count + data.length ≤ declaredBound srv job := by
            unfold declaredBound
            omega
          apply keeps_orElse
          apply keeps_mono (keeps_write hfile hs data hbound)
          intro _ h t hopen
          exact ⟨hopen, by omega⟩

/-- The streaming loop: what every batch preserves, the whole body preserves. -/
theorem keeps_streamBody {write : Nat → List UInt8 → Fs ApiError Unit}
    {I : Nat → Held → Store → Prop} (body : Body)
    (hrely : ∀ count h s s₁, I count h s → (alone → KeepsFile h.file s s₁) → I count h s₁)
    (hwrite : ∀ count data h s, I count h s →
      Fs.Keeps srv alone i job (write count data) (fun _ => I (satAdd count data.length)) h s)
    (hs : I 0 h s) : Fs.Keeps srv alone i job (streamBody write body) I h s := by
  have hsome : ∀ count data h s, I count h s →
      Fs.Keeps srv alone i job (writeSome write count data) I h s := by
    intro count data h s hI
    unfold writeSome
    split
    · exact keeps_ret hI
    · apply keeps_then (keeps_orElse (hwrite count data h s hI))
      intro _ h' t hI'
      exact keeps_ret hI'
  have hnext : ∀ count h s s₁ c t a, I count h s → (alone → KeepsFile h.file s s₁) →
      Op.exec srv.serde i .nextChunk c s₁ = some (t, a) → I count h t := by
    intro count h s s₁ c t a hI hkeep hexec
    rw [exec_nextChunk hexec]
    exact hrely count h s s₁ hI hkeep
  have hevents : ∀ (events : List BodyEvent) count h s, I count h s →
      Fs.Keeps srv alone i job (streamEvents write count events) I h s := by
    intro events
    induction events with
    | nil =>
        intro count h s hI
        exact keeps_ret hI
    | cons event rest ih =>
        intro count h s hI
        unfold streamEvents
        apply keeps_quiet_then rfl
        intro s₁ hkeep c t a hexec
        have hI₁ := hnext count h s s₁ c t a hI hkeep hexec
        cases event with
        | broken m => exact keeps_fail
        | invalid m => exact keeps_fail
        | data bytes =>
            apply keeps_then (hsome count bytes h t hI₁)
            intro count' h' t' hI'
            exact ih count' h' t' hI'
  unfold streamBody
  apply keeps_then (hevents body.events 0 h s hs)
  intro count h' s' hI
  apply keeps_quiet_then rfl
  intro s₁ hkeep c t a hexec
  have hI₁ := hnext count h' s' s₁ c t a hI hkeep hexec
  cases body.finish with
  | error e => exact keeps_fail
  | ok out => exact hsome count out h' t hI₁

/-- The last look before a commit keeps the open file. -/
theorem keeps_refuseAppeared {sink : FsSink} (tmp : FsPath)
    (hs : OpenAt srv alone name file n h s) :
    Fs.Keeps srv alone i job (sink.refuseAppeared tmp)
      (fun _ => OpenAt srv alone name file n) h s := by
  unfold FsSink.refuseAppeared
  split
  · apply keeps_quiet_then rfl
    intro s₁ hrely c t a hexec
    have hs₁ := hs.look hrely rfl hexec
    apply keeps_other_then
    intro found _
    split
    · apply keeps_quiet_then rfl
      intro _ _ _ _ _ _
      exact keeps_fail
    · exact keeps_ret hs₁
  · exact keeps_ret hs

/-- The rename takes the file along. -/
theorem keeps_moveIntoPlace {sink : FsSink} (tmp : FsPath)
    (hs : OpenAt srv alone tmp file n h s) :
    Fs.Keeps srv alone i job (sink.moveIntoPlace tmp)
      (fun _ => OpenAt srv alone sink.target file n) h s := by
  unfold FsSink.moveIntoPlace
  apply keeps_quiet_then rfl
  intro s₁ hrely c t a hexec
  have hs₁ := hs.rely hrely
  apply keeps_other_then
  intro _ hok
  have hmoved : OpenAt srv alone sink.target file n h t := by
    rcases exec_rename hexec with ⟨-, e, herr⟩ | ⟨ino, -, -, -, ht⟩
    · exact nomatch herr.symm.trans hok
    · refine ⟨hs₁.handle, hs₁.counted, ?_⟩
      intro halone
      obtain ⟨hentry, hlen⟩ := hs₁.disk halone
      rw [ht]
      exact ⟨(Disk.rename_entry_target _ _ _).trans hentry, hlen⟩
  cases sink.target.parent with
  | none => exact keeps_ret hmoved
  | some parent =>
      apply keeps_quiet_then rfl
      intro s₂ hrely₂ c₂ t₂ a₂ hexec₂
      exact keeps_ret (hmoved.look hrely₂ rfl hexec₂)

/-- A commit leaves the file as it is, under the target's name. -/
theorem keeps_commitReply {sink : FsSink} (hblocks : sink.blocksPath = none)
    (hs : OpenAt srv alone (sink.tmp.getD sink.target) file n h s) :
    Fs.Keeps srv alone i job (commitReply srv sink)
      (fun _ => OpenAt srv alone sink.target file n) h s := by
  have hmeta : ∀ h s, OpenAt srv alone sink.target file n h s →
      Fs.Keeps srv alone i job (do
        let stat ← other (← await (.metadata sink.target))
        ret (FsSink.fileMetaAt srv.etag sink.rel stat))
        (fun _ => OpenAt srv alone sink.target file n) h s := by
    intro h s hs
    apply keeps_quiet_then rfl
    intro s₁ hrely c t a hexec
    apply keeps_other_then
    intro _ _
    exact keeps_ret (hs.look hrely rfl hexec)
  have hcommit : Fs.Keeps srv alone i job (sink.commit srv.etag)
      (fun _ => OpenAt srv alone sink.target file n) h s := by
    unfold FsSink.commit
    rw [hblocks]
    have hstart : Fs.Keeps srv alone i job (removeBlocksSidecar none)
        (fun _ => OpenAt srv alone (sink.tmp.getD sink.target) file n) h s := keeps_ret hs
    apply keeps_then hstart
    intro _ h s hs
    apply keeps_quiet_then rfl
    intro s₁ hrely c t a hexec
    have hs₁ := hs.look hrely rfl hexec
    apply keeps_other_then
    intro _ _
    apply keeps_quiet_then rfl
    intro s₂ hrely₂ c₂ t₂ a₂ hexec₂
    have hs₂ := hs₁.look hrely₂ rfl hexec₂
    apply keeps_other_then
    intro _ _
    cases htmp : sink.tmp with
    | none =>
        rw [htmp] at hs₂
        exact hmeta _ _ hs₂
    | some tmp =>
        rw [htmp] at hs₂
        unfold FsSink.publish
        apply keeps_then (R := fun _ => OpenAt srv alone sink.target file n)
        · apply keeps_then (keeps_refuseAppeared tmp hs₂)
          intro _ h s hs
          exact keeps_moveIntoPlace tmp hs
        · intro _ h s hs
          exact hmeta h s hs
  unfold commitReply
  apply keeps_then (keeps_orElse hcommit)
  intro _ h s hs
  exact keeps_ret hs

/-- A file that has just been created is empty. -/
theorem empty_of_create {serde : Serde} {path : FsPath} {c : Choice} {t : Store}
    (hexec : Op.exec serde i (.create path) c s = some (t, .ok file)) :
    t.disk.entry path = .file file ∧ t.content file = .bytes [] := by
  rcases exec_create hexec with (⟨-, e, herr⟩ | ⟨habsent, hfile, ht⟩) | ⟨ino, hentry, hfile, ht⟩
  · cases herr
  · cases hfile
    rw [ht]
    refine ⟨Disk.create_entry_self _ _, ?_⟩
    unfold Store.content Store.create
    rw [Disk.create_content_next]
  · cases hfile
    rw [ht, write_content_self]
    exact ⟨hentry, rfl⟩

/-- What a sequential sink is when the handler gets it. -/
structure SinkOpened (srv : Server) (alone : Prop) (job : UploadJob) (mode : WriteMode)
    (sink : FsSink) (h : Held) (s : Store) : Prop where
  target : resolve srv.root job.path = .ok sink.target
  blocks : sink.blocksPath = none
  opened : OpenAt srv alone (sink.tmp.getD sink.target) sink.file mode.resumeOffset h s

/-- A Create or an Overwrite starts with an empty temporary. -/
theorem keeps_writeStreamTemp {full : FsPath} (hfull : resolve srv.root job.path = .ok full)
    {mode : WriteMode} (hmode : mode.resumeOffset = 0) :
    Fs.Keeps srv alone i job (writeStreamTemp full job.path mode)
      (SinkOpened srv alone job mode) h s := by
  unfold writeStreamTemp
  apply keeps_then (keeps_of_asks (asks_refuseExisting_quiet (writesBelow_quiet _) _ _ _))
  intro _ h s _
  apply keeps_quiet_then rfl
  intro _ _ _ s a _
  obtain ⟨nanos, counter⟩ := a
  apply keeps_quiet_then rfl
  intro s₁ _ c t r hexec
  apply keeps_other_then
  intro file hok
  cases hok
  obtain ⟨hentry, hempty⟩ := empty_of_create hexec
  apply keeps_update_then
  apply keeps_update_then
  apply keeps_ret
  refine ⟨hfull, rfl, rfl, hmode.symm, ?_⟩
  intro _
  rw [hmode, hempty]
  exact ⟨hentry, rfl⟩

/-- A Resume starts at the length the target must have. -/
theorem keeps_writeStreamResume {full : FsPath} (hfull : resolve srv.root job.path = .ok full)
    (offset : Nat) :
    Fs.Keeps srv alone i job (writeStreamResume full job.path offset)
      (SinkOpened srv alone job (.resume offset)) h s := by
  unfold writeStreamResume
  apply keeps_quiet_then rfl
  intro _ _ _ s _ _
  apply keeps_quiet_then rfl
  intro s₁ _ c t r hexec
  apply keeps_other_then
  intro file hok
  obtain ⟨rfl, ⟨e, herr⟩ | ⟨ino, hentry, hino⟩⟩ := exec_openExisting hexec
  · exact nomatch herr.symm.trans hok
  · cases hino.symm.trans hok
    apply keeps_update_then
    apply keeps_quiet_then rfl
    intro s₂ hrely c₂ t₂ r₂ hexec₂
    apply keeps_other_then
    intro current hcurrent
    obtain ⟨rfl, hlen⟩ := exec_len hexec₂
    split
    · exact keeps_fail
    · next hsame =>
        apply keeps_update_then
        apply keeps_ret
        refine ⟨hfull, rfl, rfl, rfl, ?_⟩
        intro halone
        refine ⟨(hrely halone file full rfl hentry).1, ?_⟩
        exact (hlen current hcurrent).symm.trans (Decidable.of_not_not hsame)

/-- Either way the file is open at the offset that the mode names. -/
theorem keeps_writeStream (mode : WriteMode) :
    Fs.Keeps srv alone i job (writeStream srv.root job.path mode)
      (SinkOpened srv alone job mode) h s := by
  unfold writeStream
  apply keeps_then (keeps_of_asks (asks_prepare_quiet (writesBelow_quiet _) _ _))
  intro full h s hfull
  cases mode with
  | resume offset => exact keeps_writeStreamResume hfull offset
  | create => exact keeps_writeStreamTemp hfull rfl
  | overwrite => exact keeps_writeStreamTemp hfull rfl

/-- What a final upload leaves: a file of the declared size under its target. -/
def LeavesDeclared (srv : Server) (job : UploadJob) (s : Store) : Prop :=
  ∃ full f, resolve srv.root job.path = .ok full ∧ s.disk.entry full = .file f ∧
    (s.content f).len srv.serde = job.fileMeta.size

/-- An offset is parsed as a `u64`. -/
theorem resumeOffset_lt {offsetHdr : Option Text} {mode : WriteMode}
    (hmode : writeMode offsetHdr = .ok mode) : mode.resumeOffset < 2 ^ 64 := by
  unfold writeMode at hmode
  split at hmode
  · cases hmode
    exact Nat.two_pow_pos 64
  · split at hmode
    · cases hmode
      exact Nat.two_pow_pos 64
    · next n _ hparse =>
        cases hmode
        exact lt_of_parseU64 hparse
    · cases hmode

/-- **A sequential upload that is answered leaves the declared length**, if nobody else touches its
file: the length grows with each batch, and is checked against the declared size at the end. -/
theorem keeps_uploadSequential (hmax : srv.maxUploadSize < 2 ^ 64 - 1) :
    Fs.Keeps srv alone i job (uploadSequential srv job)
      (fun _ _ t => job.finalChunk = true → alone → LeavesDeclared srv job t) h s := by
  unfold uploadSequential
  apply keeps_lift_then
  intro mode hmode
  apply keeps_then (keeps_orElse (keeps_writeStream mode))
  intro sink h s hsink
  have hbody : Fs.Keeps srv alone i job
      (streamBody (writeBatch srv sink mode.resumeOffset job.fileMeta.size) job.body)
      (fun count h s => OpenAt srv alone (sink.tmp.getD sink.target) sink.file
        (mode.resumeOffset + count) h s ∧
        (count = 0 ∨ mode.resumeOffset + count ≤ srv.maxUploadSize)) h s := by
    apply keeps_streamBody
    · intro count h s s₁ hI hrely
      exact ⟨hI.1.rely hrely, hI.2⟩
    · intro count data h s hI
      apply keeps_mono (keeps_writeBatch rfl hmax mode.resumeOffset count data hI.1)
      intro _ h t hopen
      exact ⟨hopen.1, Or.inr hopen.2⟩
    · exact ⟨hsink.opened, Or.inl rfl⟩
  have habort : ∀ e h t, Fs.Keeps srv alone i job (abortWith sink e : Fs ApiError Reply)
      (fun _ _ t => job.finalChunk = true → alone → LeavesDeclared srv job t) h t := by
    intro e h t
    apply keeps_mono (keeps_of_asks
      (asks_abortWith_quiet (Q := fun _ => False) (writesBelow_quiet _) sink e))
    intro _ _ _ hfalse
    exact hfalse.elim
  unfold serveSequential
  apply keeps_attempt_then hbody
  · intro appended h t hI
    dsimp only
    split
    · exact habort _ h t
    · next hsize =>
        apply keeps_mono (keeps_commitReply hsink.blocks hI.1)
        intro _ h t hopen hfinal halone
        obtain ⟨hentry, hlen⟩ := hopen.disk halone
        refine ⟨sink.target, sink.file, hsink.target, hentry, hlen.trans ?_⟩
        -- the sum compared with the declaration has not saturated
        have hexact : satAdd mode.resumeOffset appended = mode.resumeOffset + appended := by
          have hoff := resumeOffset_lt hmode
          unfold satAdd
          rcases hI.2 with hzero | hcap
          · omega
          · omega
        rw [hexact] at hsize
        by_contra hne
        exact hsize ⟨hfinal, hne⟩
  · intro e h t
    exact habort _ h t

end Sequential

/-! ## Sessions, and all uploads -/

section Uploads

variable {srv : Server} {alone : Prop} {i : Nat} {job : UploadJob} {h : Held} {s : Store}

/-- A batch of a session is refused where it would reach beyond the declared size. -/
theorem keeps_writeAtBatch {sink : FsSink} (hmax : srv.maxUploadSize < 2 ^ 64 - 1)
    (base count : Nat) (data : List UInt8) :
    Fs.Keeps srv alone i job (writeAtBatch srv sink base job.fileMeta.size count data)
      (fun _ _ _ => True) h s := by
  unfold writeAtBatch
  dsimp only
  split
  · exact keeps_fail
  · next hcap =>
      split
      · exact keeps_fail
      · next hsize =>
          have hstop := satAdd_eq_of_le (Nat.le_of_not_lt hcap) hmax
          rw [hstop] at hcap hsize
          have hbound : satAdd base count + data.length ≤ declaredBound srv job := by
            unfold declaredBound
            omega
          have hcall : WritesBelow (declaredBound srv job)
              (.writeAt sink.file (satAdd base count) data, h) := hbound
          apply keeps_orElse
          unfold FsSink.writeAt
          apply keeps_await_then hcall
          intro _ _ _ t r _
          cases r with
          | error e => exact keeps_fail
          | ok _ =>
              apply keeps_update_then
              cases sink.blocksPath with
              | none => exact keeps_ret trivial
              | some blocks =>
                  exact keeps_of_asks
                    (asks_recordRange_quiet (writesBelow_quiet _) srv.serde blocks _)

/-- **A session's request writes below the bound only.** -/
theorem keeps_uploadSession (hmax : srv.maxUploadSize < 2 ^ 64 - 1) (key : SessionKey) :
    Fs.Keeps srv alone i job (uploadSession srv job key) (fun _ _ _ => True) h s := by
  have hreceived : ∀ h t, Fs.Keeps srv alone i job FsSink.receivedRanges
      (fun _ _ _ => True) h t := fun h t => keeps_of_asks asks_receivedRanges
  unfold uploadSession
  apply keeps_lift_then
  intro base _
  apply keeps_then (keeps_orElse (keeps_of_asks
    (asks_writeStreamSession_quiet (writesBelow_quiet _) _ _ _ _ _ _)))
  intro sink h s _
  unfold serveSession
  split
  · apply keeps_then (keeps_orElse (hreceived h s))
    intro ranges h t _
    exact keeps_ret trivial
  · have hbody : Fs.Keeps srv alone i job
        (streamBody (writeAtBatch srv sink base job.fileMeta.size) job.body)
        (fun _ _ _ => True) h s := by
      apply keeps_streamBody
      · intro _ _ _ _ _ _
        trivial
      · intro count data h s _
        exact keeps_writeAtBatch hmax base count data
      · trivial
    apply keeps_attempt_then hbody
    · intro _ h t _
      dsimp only
      split
      · exact keeps_of_asks (asks_finishSession_quiet (writesBelow_quiet _) srv sink _)
      · exact keeps_ret trivial
    · intro e h t
      dsimp only
      split
      · exact keeps_fail
      · exact keeps_of_asks (asks_abortWith_quiet (writesBelow_quiet _) sink _)

/-- What an answered upload leaves, while it is alone. -/
def DeclaredOutcome (srv : Server) (alone : Prop) (job : UploadJob)
    (r : Except ApiError Reply × Held) (s : Store) : Prop :=
  ∀ reply, r.1 = .ok reply → job.session = none → job.finalChunk = true → alone →
    LeavesDeclared srv job s

/-- **Every upload keeps to its declaration.** -/
theorem watched_runUpload (alone : Prop) (hmax : srv.maxUploadSize < 2 ^ 64 - 1) :
    watched (uploadWatch srv alone) ((uploadSystem srv).exec i) job
      ((uploadSystem srv).code job) (DeclaredOutcome srv alone job) s := by
  have hrun : Fs.Keeps srv alone i job (runUpload srv job) (fun _ _ t => job.session = none →
      job.finalChunk = true → alone → LeavesDeclared srv job t) Held.nothing s := by
    unfold runUpload
    cases hsession : job.session with
    | none =>
        apply keeps_mono (keeps_uploadSequential hmax)
        intro _ _ t hpost _
        exact hpost
    | some key =>
        apply keeps_mono (keeps_uploadSession hmax key)
        intro _ _ _ _ hnone
        cases hnone
  exact hrun

end Uploads

/-! ## Runs -/

section Runs

variable {srv : Server} {i : Nat}

/-- A call of another request does not reach a file: it does not write the file, nor is it
given the name that leads to it. -/
def Spares (op : Op) (f : Nat) (s : Store) : Prop :=
  f ∉ op.writes ∧ ∀ p ∈ op.puts ++ op.takes, s.disk.entry p ≠ .file f

/-- A step leaves request `i` alone: no other request, and nothing outside, reaches the file
that `i` has open. -/
def LeavesAlone (i : Nat) (s : UploadState) (a : UploadAct) : Prop :=
  ∀ job call k f, s.task i = .waiting job call k → call.2.file = some f →
    match a with
    | .step j _ => j ≠ i → ∀ job' call' k', s.task j = .waiting job' call' k' →
        Spares call'.1 f s.shared
    | .env (.place path _) => s.shared.disk.entry path ≠ .file f
    | _ => True

theorem keepsFile_of_disk {file : Option Nat} {s t : Store} (h : t.disk = s.disk) :
    KeepsFile file s t := by
  intro f p _ hp
  unfold Store.content
  rw [h]
  exact ⟨hp, rfl⟩

/-- What spares a file keeps it. -/
theorem keepsFile_of_effect {op : Op} {f : Nat} {s t : Store} (heffect : op.Effect s t)
    (hspares : Spares op f s) : KeepsFile (some f) s t := by
  intro g p hg hp
  cases hg
  obtain ⟨hwrites, hnames⟩ := hspares
  have hput : ∀ q ∈ op.puts, s.disk.entry q ≠ .file f := fun q hq =>
    hnames q (List.mem_append_left _ hq)
  refine ⟨?_, ?_⟩
  · rcases heffect.entry p with hsame | hmem | ⟨hmem, -⟩ | ⟨habsent, -⟩
    · exact hsame.trans hp
    · exact absurd hp (hput p hmem)
    · exact absurd hp (hnames p (List.mem_append_right _ hmem))
    · cases habsent.symm.trans hp
  · rcases heffect.content (s.disk.entry_lt hp) with hsame | hmem | ⟨q, hq, hfile⟩
    · exact hsame
    · exact absurd hmem hwrites
    · exact absurd hfile (hput q hq)

/-- A file placed under another name changes no file that is open. -/
theorem keepsFile_place {path : FsPath} {cells : List (Option UInt8)} {f : Nat} {s : Store}
    (hpath : s.disk.entry path ≠ .file f) :
    KeepsFile (some f) s (s.create path (.bytes cells)) := by
  intro g p hg hp
  cases hg
  have hne : p ≠ path := by
    intro heq
    rw [heq] at hp
    exact hpath hp
  refine ⟨(Disk.create_entry_ne _ _ hne).trans hp, ?_⟩
  unfold Store.content Store.create
  rw [Disk.create_content_lt _ _ (s.disk.entry_lt hp)]

/-- A step that leaves the request alone keeps what it has open. -/
theorem keepsFile_of_leavesAlone {s t : UploadState} {a : UploadAct} {job : UploadJob}
    {call : Call} {k : call.Ans → Code (Except ApiError Reply × Held)}
    (hwait : s.task i = .waiting job call k) (halone : LeavesAlone i s a)
    (hother : ∀ c, a ≠ .step i c) (hnext : (uploadSystem srv).next s a = some t) :
    KeepsFile call.2.file s.shared t.shared := by
  cases hfile : call.2.file with
  | none =>
      intro f p hf
      cases hf
  | some f =>
      have hspares := halone job call k f hwait hfile
      rcases System.next_cases hnext with ⟨j, job', rfl, -, rfl⟩ |
        ⟨j, c, job', call', k', sh, ans, rfl, hwait', hexec, rfl⟩ |
        ⟨j, job', call', k', rfl, -, rfl⟩ | ⟨e, rfl, rfl⟩
      · exact keepsFile_of_disk put_disk
      · have hne : j ≠ i := by
          rintro rfl
          exact hother c rfl
        have hkeep := keepsFile_of_effect (exec_effect hexec) (hspares hne _ _ _ hwait')
        intro g p hg hp
        obtain ⟨hentry, hcontent⟩ := hkeep g p hg hp
        unfold Store.content at *
        rw [put_disk]
        exact ⟨hentry, hcontent⟩
      · exact keepsFile_of_disk rfl
      · cases e with
        | tick nanos => exact keepsFile_of_disk rfl
        | place path cells => exact keepsFile_place hspares

/-- In a run, every upload is verified. -/
theorem onWatch_of_reaches (alone : Prop) (hmax : srv.maxUploadSize < 2 ^ 64 - 1)
    {ok : UploadState → UploadAct → Prop} (hok : alone → ∀ s a, ok s a → LeavesAlone i s a)
    {s₀ : Store} {s : UploadState} (hrun : (uploadSystem srv).Reaches ok (atRest s₀) s) :
    OnWatch (uploadWatch srv alone) (uploadSystem srv) i (DeclaredOutcome srv alone) s := by
  apply watched_of_reaches _ _ _ hrun
  · intro job sh
    exact watched_runUpload alone hmax
  · intro s a t ha hnext job call k hwait hother halone
    exact keepsFile_of_leavesAlone hwait (hok halone s a ha) hother hnext
  · intro job call k hwait
    cases hwait

/-- Uploads keep to their declaration, in the runs given for each: no call of any upload
writes at or above the bound, and a sequential upload that is answered as final leaves a file
of the declared size. -/
def KeepsToDeclaration (srv : Server)
    (ok : Nat → UploadJob → UploadState → UploadAct → Prop) : Prop :=
  (∀ s₀ s, (uploadSystem srv).Reaches (fun _ _ => True) (atRest s₀) s →
    ∀ i job call k, s.task i = .waiting job call k →
      WritesBelow (min job.fileMeta.size srv.maxUploadSize) call) ∧
  (∀ i job s₀ s t c reply held, (uploadSystem srv).Reaches (ok i job) (atRest s₀) s →
    (uploadSystem srv).next s (.step i c) = some t → job.session = none →
    job.finalChunk = true → t.task i = .finished job (.ok reply, held) →
      LeavesDeclared srv job t.shared)

/-- **Uploads that are left alone keep to their declaration.** -/
theorem uploads_keep_to_declaration (srv : Server) (hmax : srv.maxUploadSize < 2 ^ 64 - 1) :
    KeepsToDeclaration srv fun i _ => LeavesAlone i := by
  refine ⟨?_, ?_⟩
  · intro s₀ s hrun i job call k hwait
    have hwatch := onWatch_of_reaches (i := i) False hmax (fun h => h.elim) hrun
    exact (hwatch job call k hwait).1
  · intro i job s₀ s t c reply held hrun hnext hsession hfinal hend
    have hwatch := onWatch_of_reaches True hmax (fun _ _ _ h => h) hrun
    obtain ⟨sh, hpost, hshared⟩ := post_of_ended hwatch hnext hend
    obtain ⟨full, f, hfull, hentry, hlen⟩ := hpost reply rfl hsession hfinal trivial
    rw [hshared]
    exact ⟨full, f, hfull, hentry, hlen⟩

end Runs

/-! ### An upload alone, and one whose temporary another request names -/

/-- A final upload of one byte, in Create mode. -/
def oneByteJob : UploadJob := { plainJob "f".toList [1] with finalChunk := true }

/-- All its steps but the last. -/
def oneByteActs : List UploadAct := .start 0 oneByteJob :: List.replicate 13 (.step 0 .go)

/-- The acts of request 0. -/
def isFirstAct : UploadAct → Bool
  | .start _ _ => true
  | .step j _ => j == 0
  | _ => false

theorem leavesAlone_of_first {s : UploadState} {a : UploadAct} (h : isFirstAct a = true) :
    LeavesAlone 0 s a := by
  intro job call k f _ _
  cases a with
  | start j job' => trivial
  | step j c =>
      intro hne
      exact absurd (eq_of_beq h) hne
  | drop j => trivial
  | env e => cases h

/-- The first request has been answered 201 as final. -/
def isAnsweredFinal (s : UploadState) : Bool :=
  match s.task 0 with
  | .finished job (.ok _, _) => decide (job.session = none) && job.finalChunk
  | _ => false

theorem exists_of_answeredFinal {s : UploadState} (h : isAnsweredFinal s = true) :
    ∃ job reply held, s.task 0 = .finished job (.ok reply, held) ∧ job.session = none ∧
      job.finalChunk = true := by
  unfold isAnsweredFinal at h
  split at h
  · next job reply held htask =>
      obtain ⟨hsession, hfinal⟩ := Bool.and_eq_true_iff.1 h
      exact ⟨job, reply, held, htask, of_decide_eq_true hsession, hfinal⟩
  · cases h

theorem one_byte_upload_keeps_to_declaration :
    ∃ s t job reply held,
      (uploadSystem sampleServer).Reaches (LeavesAlone 0) (atRest sampleStore) s ∧
      (uploadSystem sampleServer).next s (.step 0 .go) = some t ∧
      t.task 0 = .finished job (.ok reply, held) ∧
      LeavesDeclared sampleServer job t.shared := by
  have hrun : (((uploadSystem sampleServer).runIf (fun _ a => isFirstAct a)
      (atRest sampleStore) oneByteActs).any fun s =>
        ((uploadSystem sampleServer).next s (.step 0 .go)).any isAnsweredFinal) = true := by
    decide +kernel
  obtain ⟨s, hs, hlast⟩ := (Option.any_eq_true _ _).1 hrun
  obtain ⟨t, hnext, hdone⟩ := (Option.any_eq_true _ _).1 hlast
  obtain ⟨job, reply, held, hend, hsession, hfinal⟩ := exists_of_answeredFinal hdone
  have hreach : (uploadSystem sampleServer).Reaches (LeavesAlone 0) (atRest sampleStore) s :=
    System.reaches_of_runIf (fun _ _ => leavesAlone_of_first) hs
  refine ⟨s, t, job, reply, held, hreach, hnext, hend, ?_⟩
  exact (uploads_keep_to_declaration sampleServer (by decide)).2 0 job sampleStore s t .go reply
    held hreach hnext hsession hfinal hend

/-- No other request on the same target, and nothing from outside. -/
def NoRival (srv : Server) (i : Nat) (job : UploadJob) (_ : UploadState) : UploadAct → Prop
  | .start j job' => j = i ∨ resolve srv.root job'.path ≠ resolve srv.root job.path
  | .env (.place _ _) => False
  | _ => True

/-- A final upload of two bytes onto what the first upload took for its temporary. -/
def squattingJob : UploadJob :=
  { plainJob ".libfw-tmp-f-0-0".toList [2, 3] with finalChunk := true, offsetHdr := some ['0'] }

/-- The first upload has made its temporary; the second comes and goes; the first ends, but
for its last step. -/
def squattingActs : List UploadAct :=
  .start 0 oneByteJob :: (List.replicate 5 (.step 0 .go) ++ .start 1 squattingJob ::
    (List.replicate 12 (.step 1 .go) ++ List.replicate 8 (.step 0 .go)))

/-- The acts of that run. -/
def isSquattingAct : UploadAct → Bool
  | .start j job => j == 0 || decide (resolve sampleServer.root job.path ≠
      resolve sampleServer.root oneByteJob.path)
  | .step _ _ => true
  | _ => false

/-- The first request has been answered 201 as final, and its file is not of its size. -/
def missesDeclared (s : UploadState) : Bool :=
  match s.task 0 with
  | .finished job (.ok _, _) =>
      decide (job.session = none) && job.finalChunk && decide (job.path = oneByteJob.path) &&
        match resolve sampleServer.root job.path with
        | .ok full =>
            match s.shared.disk.entry full with
            | .file f => decide ((s.shared.content f).len sampleServer.serde ≠ job.fileMeta.size)
            | _ => false
        | .error _ => false
  | _ => false

theorem not_leavesDeclared {s : UploadState} (h : missesDeclared s = true) :
    ∃ job reply held, s.task 0 = .finished job (.ok reply, held) ∧ job.session = none ∧
      job.finalChunk = true ∧ job.path = oneByteJob.path ∧
      ¬ LeavesDeclared sampleServer job s.shared := by
  unfold missesDeclared at h
  split at h
  · next job reply held htask =>
      simp only [Bool.and_eq_true, decide_eq_true_eq] at h
      obtain ⟨⟨⟨hsession, hfinal⟩, hpath⟩, hmiss⟩ := h
      refine ⟨job, reply, held, htask, hsession, hfinal, hpath, ?_⟩
      intro hleaves
      obtain ⟨full, f, hfull, hentry, hlen⟩ := hleaves
      rw [hfull] at hmiss
      dsimp only at hmiss
      rw [hentry] at hmiss
      exact of_decide_eq_true hmiss hlen
  · cases h

/-- **An upload whose temporary another request names is answered 201 for a file of
another size.** -/
theorem squatted_upload_misses_size :
    ¬ ∀ srv : Server, srv.maxUploadSize < 2 ^ 64 - 1 → KeepsToDeclaration srv (NoRival srv) := by
  intro hall
  have hrun : (((uploadSystem sampleServer).runIf (fun _ a => isSquattingAct a)
      (atRest sampleStore) squattingActs).any fun s =>
        ((uploadSystem sampleServer).next s (.step 0 .go)).any missesDeclared) = true := by
    decide +kernel
  obtain ⟨s, hs, hlast⟩ := (Option.any_eq_true _ _).1 hrun
  obtain ⟨t, hnext, hmiss⟩ := (Option.any_eq_true _ _).1 hlast
  obtain ⟨job, reply, held, hend, hsession, hfinal, hpath, hleft⟩ := not_leavesDeclared hmiss
  have hok : ∀ (u : UploadState) (a : UploadAct), isSquattingAct a = true →
      NoRival sampleServer 0 job u a := by
    intro u a ha
    cases a with
    | start j job' =>
        rcases Bool.or_eq_true_iff.1 ha with hzero | hother
        · exact Or.inl (eq_of_beq hzero)
        · refine Or.inr ?_
          rw [hpath]
          exact of_decide_eq_true hother
    | step j c => trivial
    | drop j => cases ha
    | env e => cases ha
  have hreach := System.reaches_of_runIf hok hs
  exact hleft ((hall sampleServer (by decide)).2 0 job sampleStore s t .go reply held hreach
    hnext hsession hfinal hend)

end Libfw

import Libfw.UploadSystem

/-!
# Upload sessions

The requests of one session (server, path, session id, owner tag), the four
paths they work on, and the bytes they offer.

`wp_streamBody` is the rule for the streaming loop: what holds before a batch,
with the bytes still to come, must hold after it with the batch taken off.
`wp_prepare` and `wp_removeBlocksSidecar` are the rules for the parts every
upload has.
-/

namespace Libfw

open SteppedPrograms Fs FsStorage PosixStore

/-! ## The bytes of a body -/

/-- The bytes a body delivers before it ends or fails. -/
def bytesFrom (finish : Except Text (List UInt8)) : List BodyEvent → List UInt8
  | [] =>
      match finish with
      | .ok out => out
      | .error _ => []
  | .data bytes :: rest => bytes ++ bytesFrom finish rest
  | .broken _ :: _ | .invalid _ :: _ => []

def Body.bytes (body : Body) : List UInt8 := bytesFrom body.finish body.events

/-- The request carries byte `b` for position `k` of the file. -/
def Offers (job : UploadJob) (k : Nat) (b : UInt8) : Prop :=
  ∃ base key, baseOffset job.offsetHdr = .ok base ∧ job.session = some key ∧
    key.statusProbe = false ∧ base ≤ k ∧ job.body.bytes[k - base]? = some b

theorem baseOffset_lt {offsetHdr : Option Text} {base : Nat}
    (h : baseOffset offsetHdr = .ok base) : base < 2 ^ 64 := by
  unfold baseOffset at h
  split at h
  · cases h
    exact Nat.two_pow_pos 64
  · next off =>
      split at h
      · next n hn =>
          cases h
          exact lt_of_parseU64 hn
      · cases h

/-! ## Sessions -/

/-- One upload session. -/
structure Session where
  srv : Server
  path : Text
  id : Text
  owner : Text

namespace Session

variable (S : Session)

/-- The committed file. -/
def target : FsPath :=
  match resolve S.srv.root S.path with
  | .ok full => full
  | .error _ => []

/-- The shared temporary. -/
def tmp : FsPath := sessionTempFor S.target S.id S.owner

/-- The sidecar, and the sibling it is replaced from. -/
def blocks : FsPath := blocksPathFor S.tmp
def persist : FsPath := persistPathFor S.blocks

theorem names : SessionNames S.target S.tmp S.blocks S.persist :=
  sessionNames_distinct S.target S.id S.owner

theorem length_le_tmp : S.target.length ≤ S.tmp.length := FsPath.length_le_withFileName _ _

theorem length_le_blocks : S.target.length ≤ S.blocks.length :=
  Nat.le_trans S.length_le_tmp (FsPath.length_le_pushExtension _ _)

theorem length_le_persist : S.target.length ≤ S.persist.length :=
  Nat.le_trans S.length_le_blocks (FsPath.length_le_pushExtension _ _)

theorem target_of_resolve {S : Session} {full : FsPath}
    (h : resolve S.srv.root S.path = .ok full) : full = S.target := by
  unfold target
  rw [h]

/-- The request belongs to the session. -/
def Has (job : UploadJob) : Prop :=
  job.path = S.path ∧ ∃ probe, job.session = some ⟨S.id, S.owner, probe⟩

instance (job : UploadJob) : Decidable (S.Has job) :=
  decidable_of_iff (job.path = S.path ∧
      (job.session = some ⟨S.id, S.owner, true⟩ ∨ job.session = some ⟨S.id, S.owner, false⟩)) <| by
    unfold Has
    constructor
    · rintro ⟨hpath, hkey | hkey⟩
      · exact ⟨hpath, true, hkey⟩
      · exact ⟨hpath, false, hkey⟩
    · rintro ⟨hpath, probe, hkey⟩
      cases probe with
      | true => exact ⟨hpath, Or.inl hkey⟩
      | false => exact ⟨hpath, Or.inr hkey⟩

/-- The session has left nothing in the store. -/
structure Fresh (s : Store) : Prop where
  no_tmp : s.disk.entry S.tmp = .absent
  no_blocks : s.disk.entry S.blocks = .absent
  no_persist : s.disk.entry S.persist = .absent
  unlocked : s.holder S.tmp = none

/-- What a request that does not hold the session's lock leaves in place: at
most the temporary is a new file, and no content changes. -/
structure Frozen (s t : Store) : Prop where
  named : ∀ p f, p ≠ S.tmp → (t.disk.entry p = .file f ↔ s.disk.entry p = .file f)
  temp : ∀ f, s.disk.entry S.tmp = .file f → t.disk.entry S.tmp = .file f
  content : ∀ f, f < s.disk.next → t.content f = s.content f
  next : s.disk.next ≤ t.disk.next

variable {S}

theorem Frozen.trans {s t u : Store} (hst : S.Frozen s t) (htu : S.Frozen t u) :
    S.Frozen s u where
  named := fun p f hp => (htu.named p f hp).trans (hst.named p f hp)
  temp := fun f hf => htu.temp f (hst.temp f hf)
  content := fun f hf =>
    (htu.content f (Nat.lt_of_lt_of_le hf hst.next)).trans (hst.content f hf)
  next := Nat.le_trans hst.next htu.next

theorem frozen_of_disk_eq {s t : Store} (h : t.disk = s.disk) : S.Frozen s t := by
  refine ⟨fun p f _ => ?_, fun f hf => ?_, fun f _ => ?_, ?_⟩
  · rw [h]
  · rw [h]
    exact hf
  · unfold Store.content
    rw [h]
  · rw [h]

theorem frozen_mkdirs (s : Store) (paths : List FsPath) :
    S.Frozen s (s.mkdirs paths) where
  named := fun _ _ _ => Disk.mkdirs_entry_file _
  temp := fun _ hf => (Disk.mkdirs_entry_file _).2 hf
  content := fun _ _ => rfl
  next := Nat.le_refl _

theorem frozen_create_tmp {s : Store} (c : Content) (h : s.disk.entry S.tmp = .absent) :
    S.Frozen s (s.create S.tmp c) where
  named := by
    intro p f hp
    unfold Store.create
    rw [Disk.create_entry_ne _ _ hp]
  temp := by
    intro f hf
    rw [h] at hf
    cases hf
  content := by
    intro f hf
    unfold Store.content Store.create
    rw [Disk.create_content_lt _ _ hf]
  next := Nat.le_succ _

end Session

/-! ## Rules for the parts of an upload -/

section Rules

variable {srv : Server} {D : UploadDiscipline} {i : Nat} {job : UploadJob}
  {h : Held} {s : Store} {P : Store → Prop} {ε : Type}

/-- While `P` holds, a request that holds `h` in its sink may look at the store:
the others keep `P`, and a call that changes nothing disturbs nobody. -/
structure Watching (D : UploadDiscipline) (i : Nat) (job : UploadJob) (h : Held)
    (P : Store → Prop) : Prop where
  stable : ∀ s t, P s → D.rely i s t → D.inv t → P t
  mark : ∀ s op, op.looks = true → P s → D.inv s → D.mark i job (op, h) s
  self : ∀ s, P s → D.inv s → D.Kept i s s

/-- A call that only looks at the store. -/
theorem Watching.look (hW : Watching D i job h P) {op : Op}
    {Q : Except ε op.Ans → Held → Store → Prop} (hP : P s) (hop : op.looks = true)
    (hQ : ∀ s c a, P s → D.inv s → D.allowed s (.call i job (op, h) c) →
      op.exec srv.serde i c s = some (s, a) → Q (.ok a) h s) :
    Fs.Wp srv D i job (await op) Q h s := by
  refine wp_await.2 ?_
  intro s₁ hrely hinv
  have hP₁ : P s₁ := hW.stable s s₁ hP hrely hinv
  refine ⟨hW.mark s₁ op hop hP₁ hinv, ?_⟩
  intro c s₂ a hallow hexec
  have heq : s₂ = s₁ := exec_looks hop hexec
  rw [heq] at hexec ⊢
  exact ⟨hW.self s₁ hP₁ hinv, hQ s₁ c a hP₁ hinv hallow hexec⟩

/-- The same at the head of a `do` block. -/
theorem Watching.look_then (hW : Watching D i job h P) {op : Op} {β : Type}
    {f : op.Ans → Fs ε β} {Q : Except ε β → Held → Store → Prop} (hP : P s)
    (hop : op.looks = true)
    (hQ : ∀ s c a, P s → D.inv s → D.allowed s (.call i job (op, h) c) →
      op.exec srv.serde i c s = some (s, a) → Fs.Wp srv D i job (f a) Q h s) :
    Fs.Wp srv D i job (await op >>= f) Q h s :=
  wp_seq.2 (hW.look hP hop hQ)

/-- The same for a call whose answer does not matter. -/
theorem Watching.look_keep (hW : Watching D i job h P) {op : Op} (hP : P s)
    (hop : op.looks = true) :
    Fs.Wp srv D i job (await op : Fs ε op.Ans)
      (fun r h' s => h' = h ∧ P s ∧ ∃ a, r = .ok a) h s :=
  hW.look hP hop fun _ _ a hP _ _ _ => ⟨rfl, hP, a, rfl⟩

/-- The beginning of both write functions: directories at most are made. -/
theorem wp_prepare (hW : Watching D i job h P)
    {root : FsPath} {path : Text}
    (hmkdirs : ∀ s full parent, resolve root path = .ok full → full.parent = some parent →
      P s → D.inv s → D.mark i job (.createDirAll parent, h) s ∧
        D.Kept i s (s.mkdirs (ancestors parent)) ∧ P (s.mkdirs (ancestors parent)))
    (hP : P s) :
    Fs.Wp srv D i job (prepare root path) (fun r h' s =>
      h' = h ∧ P s ∧ ∀ full, r = .ok full → resolve root path = .ok full) h s := by
  unfold prepare
  refine wp_lift_then ?_ (fun e _ => ⟨rfl, hP, fun full h => nomatch h⟩)
  intro full hfull
  refine wp_then (hW.look_keep hP rfl) ?_
    (fun e h s hr => nomatch hr.2.2)
  rintro a h' s ⟨rfl, hP, -⟩
  refine wp_other_then ?_ (fun e _ => ⟨rfl, hP, fun full h => nomatch h⟩)
  intro _ _
  have hfull : resolve root path = .ok full := by
    cases hresolve : resolve root path with
    | ok g =>
        rw [hresolve] at hfull
        cases hfull
        rfl
    | error m =>
        rw [hresolve] at hfull
        cases hfull
  have hend : ∀ s, P s → Fs.Wp srv D i job (ret full : Fs StorageError FsPath)
      (fun r h'' s => h'' = h' ∧ P s ∧ ∀ full, r = .ok full → resolve root path = .ok full)
      h' s := by
    intro s hP
    refine ⟨rfl, hP, ?_⟩
    intro f hf
    cases hf
    exact hfull
  cases hparent : full.parent with
  | none => exact hend s hP
  | some parent =>
      refine wp_seq.2 (wp_await.2 ?_)
      intro s₁ hrely hinv
      have hP₁ : P s₁ := hW.stable s s₁ hP hrely hinv
      have hmk := hmkdirs s₁ full parent hfull hparent hP₁ hinv
      refine ⟨hmk.1, ?_⟩
      intro c s₂ a hallow hexec
      have hafter : D.Kept i s₁ s₂ ∧ P s₂ := by
        rcases exec_createDirAll hexec with rfl | rfl
        · exact ⟨hW.self _ hP₁ hinv, hP₁⟩
        · exact hmk.2
      refine ⟨hafter.1, wp_other_then (fun _ _ => hend s₂ hafter.2) ?_⟩
      intro e _
      exact ⟨rfl, hafter.2, fun full h => nomatch h⟩

/-- The existence check of Create mode. -/
theorem wp_refuseExisting (hW : Watching D i job h P) {full : FsPath} {path : Text}
    {mode : WriteMode} (hP : P s) :
    Fs.Wp srv D i job (refuseExisting full path mode) (fun _ h' s => h' = h ∧ P s) h s := by
  unfold refuseExisting
  by_cases hmode : mode = .create
  · rw [if_pos hmode]
    refine wp_then (hW.look_keep hP rfl) ?_
      (fun e h s hr => nomatch hr.2.2)
    rintro a h' s ⟨rfl, hP, -⟩
    refine wp_other_then ?_ (fun e _ => ⟨rfl, hP⟩)
    intro b _
    by_cases hb : b = true
    · rw [if_pos hb]
      exact ⟨rfl, hP⟩
    · rw [if_neg hb]
      exact ⟨rfl, hP⟩
  · rw [if_neg hmode]
    exact ⟨rfl, hP⟩

/-- One batch. -/
theorem wp_writeSome {writeBatch : Nat → List UInt8 → Fs ApiError Unit}
    {I : Nat → List UInt8 → Held → Store → Prop} {E : StreamError → Held → Store → Prop}
    {n : Nat} {data rest : List UInt8}
    (hwrite : data ≠ [] → I n (data ++ rest) h s →
      Fs.Wp srv D i job (writeBatch n data) (fun r h s =>
        match r with
        | .ok _ => I (satAdd n data.length) rest h s
        | .error e => E ⟨e, false⟩ h s) h s)
    (hI : I n (data ++ rest) h s) :
    Fs.Wp srv D i job (writeSome writeBatch n data) (fun r h s =>
      match r with
      | .ok m => I m rest h s
      | .error e => E e h s) h s := by
  unfold writeSome
  by_cases hdata : data = []
  · subst hdata
    exact hI
  · rw [if_neg hdata]
    refine wp_seq.2 (wp_orElse.2 (wp_weaken (hwrite hdata hI) ?_))
    intro r h s hr
    cases r with
    | ok a => exact hr
    | error e => exact hr

/-- The loop over the events of a body. -/
theorem wp_streamEvents {writeBatch : Nat → List UInt8 → Fs ApiError Unit}
    {I : Nat → List UInt8 → Held → Store → Prop} {E : StreamError → Held → Store → Prop}
    (hchunk : ∀ n rest h s, I n rest h s →
      Fs.Wp srv D i job (await .nextChunk : Fs StreamError Unit)
        (fun r h s => r = .ok () ∧ I n rest h s) h s)
    (hfail : ∀ n e h s, I n [] h s → E e h s)
    (hwrite : ∀ n data rest h s, data ≠ [] → I n (data ++ rest) h s →
      Fs.Wp srv D i job (writeBatch n data) (fun r h s =>
        match r with
        | .ok _ => I (satAdd n data.length) rest h s
        | .error e => E ⟨e, false⟩ h s) h s)
    {finish : Except Text (List UInt8)} (events : List BodyEvent) (n : Nat)
    (hI : I n (bytesFrom finish events) h s) :
    Fs.Wp srv D i job (streamEvents writeBatch n events) (fun r h s =>
      match r with
      | .ok m => I m (bytesFrom finish []) h s
      | .error e => E e h s) h s := by
  induction events generalizing n h s with
  | nil => exact hI
  | cons event rest ih =>
      refine wp_then (hchunk n _ h s hI) ?_ (fun e h s hr => nomatch hr.1)
      · rintro _ h s ⟨-, hI⟩
        cases event with
        | data bytes =>
            refine wp_then (wp_writeSome (hwrite n bytes _ h s) hI) ?_ ?_
            · intro m h s hm
              exact ih m hm
            · intro e h s he
              exact he
        | broken m => exact hfail n _ h s hI
        | invalid m => exact hfail n _ h s hI

/-- The whole body. -/
theorem wp_streamBody {writeBatch : Nat → List UInt8 → Fs ApiError Unit}
    {I : Nat → List UInt8 → Held → Store → Prop} {E : StreamError → Held → Store → Prop}
    (hchunk : ∀ n rest h s, I n rest h s →
      Fs.Wp srv D i job (await .nextChunk : Fs StreamError Unit)
        (fun r h s => r = .ok () ∧ I n rest h s) h s)
    (hfail : ∀ n e h s, I n [] h s → E e h s)
    (hwrite : ∀ n data rest h s, data ≠ [] → I n (data ++ rest) h s →
      Fs.Wp srv D i job (writeBatch n data) (fun r h s =>
        match r with
        | .ok _ => I (satAdd n data.length) rest h s
        | .error e => E ⟨e, false⟩ h s) h s)
    (body : Body) (hI : I 0 body.bytes h s) :
    Fs.Wp srv D i job (streamBody writeBatch body) (fun r h s =>
      match r with
      | .ok m => I m [] h s
      | .error e => E e h s) h s := by
  refine wp_then (wp_streamEvents hchunk hfail hwrite body.events 0 hI) ?_
    (fun e h s he => he)
  intro n h s hI
  refine wp_then (hchunk n _ h s hI) ?_ (fun e h s hr => nomatch hr.1)
  rintro _ h s ⟨-, hI⟩
  cases hfin : body.finish with
  | error e =>
      rw [hfin] at hI
      exact hfail n _ h s hI
  | ok out =>
      rw [hfin] at hI
      refine wp_writeSome (hwrite n out [] h s) ?_
      rw [List.append_nil]
      exact hI

end Rules

/-! ## A sample server -/

/-- The JSON text of a range list. -/
def rangesJson (ranges : List ChunkRange) : Text :=
  let item : ChunkRange → Text := fun r => "\x7b\"start\":".toList ++ decimal r.start
    ++ ",\"end\":".toList ++ decimal r.stop ++ "\x7d".toList
  '[' :: [','].intercalate (ranges.map item) ++ [']']

/-- A server without a path codec; it can read no sidecar but its own. -/
def sampleServer : Server where
  root := [.rootDir, .normal "srv".toList]
  serde := ⟨fun ranges => (rangesJson ranges).map fun c => c.val.toUInt8,
    fun _ => .error "expected value at line 1 column 1".toList⟩
  etag := fun size mtime => decimal size ++ '-' :: decimal mtime
  maxUploadSize := 1000
  codec := identityPathCodec

/-- Its root directory, empty. -/
def sampleStore : Store where
  disk :=
    { entry := fun p =>
        if p = [.rootDir] ∨ p = sampleServer.root then .dir else .absent
      content := fun _ => ⟨.bytes [], 0⟩
      next := 0
      entry_lt := by
        intro p i h
        split at h
        · cases h
        · cases h
      single := by
        intro p q i h
        split at h
        · cases h
        · cases h }
  holder := fun _ => none
  counter := 0
  now := 0

def sampleSession : Session := ⟨sampleServer, "f".toList, "s1".toList, "0123456789abcdef".toList⟩

theorem sampleSession_fresh : sampleSession.Fresh sampleStore := by
  refine ⟨?_, ?_, ?_, rfl⟩
  · decide +kernel
  · decide +kernel
  · decide +kernel

/-- A request of the sample session. -/
def sampleJob (size : Nat) (offsetHdr : Option Text) (finalChunk : Bool)
    (bytes : List UInt8) : UploadJob where
  path := sampleSession.path
  fileMeta := ⟨sampleSession.path, size, 0, []⟩
  finalChunk := finalChunk
  offsetHdr := offsetHdr
  session := some ⟨sampleSession.id, sampleSession.owner, false⟩
  body := ⟨if bytes = [] then [] else [.data bytes], .ok []⟩

end Libfw

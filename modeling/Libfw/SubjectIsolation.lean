import Libfw.RequestStages
import Libfw.ServerRequests
import Libfw.SessionFiles
import Libfw.StorageConfinement
import Libfw.UploadSessions

/-!
# Sessions of different subjects

The session temporary of a subject and its sidecar, beside the requests of other subjects:
`owner_tag` and all handlers of `libfw-server/src/handlers.rs`.

`sessions_isolated`: as long as no other request's path is a file of the session, and none
lists their directory, no other subject reads, lists, or changes them.
-/

namespace Libfw

open SteppedPrograms SoloPrograms Handler PosixStore

/-! ## Names -/

/-- The files of a session under a target. -/
def sessionFilesOf (target : FsPath) (session owner : Text) : List FsPath :=
  [sessionTempFor target session owner, blocksPathFor (sessionTempFor target session owner),
    persistPathFor (blocksPathFor (sessionTempFor target session owner))]

/-- A file of a session tells the owner it was made for. -/
theorem fileName_of_mem_sessionFiles {target p : FsPath} {session owner : Text}
    (h : p ∈ sessionFilesOf target session owner) :
    ∃ rest, p.fileName = some (SESSION_PREFIX ++ (sanitize (owner.take 16) ++ rest)) := by
  have hname : ∀ e, (sessionDir target ++ [.normal (sessionName session owner (baseName target) ++
      e)] : FsPath).fileName = some (SESSION_PREFIX ++ (sanitize (owner.take 16) ++
        ('-' :: (sanitize session ++ '-' :: baseName target) ++ e))) := by
    intro e
    rw [FsPath.fileName_append_normal]
    simp [sessionName]
  unfold sessionFilesOf blocksPathFor persistPathFor at h
  rw [SessionUpload.sessionTempFor_eq, FsPath.pushExtension_append_normal,
    FsPath.pushExtension_append_normal] at h
  simp only [List.mem_cons, List.not_mem_nil, or_false] at h
  rcases h with rfl | rfl | rfl
  · have hplain := hname []
    simp only [List.append_nil] at hplain
    exact ⟨_, hplain⟩
  · exact ⟨_, hname _⟩
  · rw [List.append_assoc (sessionName session owner (baseName target))]
    exact ⟨_, hname _⟩

/-- A temporary of a sequential upload is no file of a session. -/
theorem tempPathFor_not_mem_sessionFiles {target full : FsPath} {session owner : Text}
    {nanos counter : Nat} : tempPathFor full nanos counter ∉ sessionFilesOf target session owner := by
  intro h
  obtain ⟨rest, hname⟩ := fileName_of_mem_sessionFiles h
  rw [tempPathFor, FsPath.fileName_withFileName] at hname
  have hhead := congrArg (List.take 8) (Option.some.inj hname)
  simp only [List.append_assoc] at hhead
  rw [List.take_append_of_le_length (by decide), List.take_append_of_le_length (by decide)] at hhead
  exact absurd hhead (by decide)

theorem length_ownerTag (sha256 : Sha256) (sub : Text) : (ownerTag sha256 sub).length = 16 := by
  have hlength : ∀ bytes : List UInt8, (bytes.flatMap fun b =>
      [HEX.getD (b.toNat / 16) '0', HEX.getD (b.toNat % 16) '0']).length = 2 * bytes.length := by
    intro bytes
    induction bytes with
    | nil => rfl
    | cons b rest ih =>
        rw [List.flatMap_cons, List.length_append, ih, List.length_cons]
        simp only [List.length_cons, List.length_nil]
        omega
  unfold ownerTag
  rw [hlength, List.length_take, sha256.length_digest]
  rfl

/-- Nothing in an owner tag is sanitized. -/
theorem sanitize_ownerTag (sha256 : Sha256) (sub : Text) :
    sanitize ((ownerTag sha256 sub).take 16) = ownerTag sha256 sub := by
  have hhex : ∀ n < 16, (HEX.getD n '0').isAlphanum = true := by decide
  have hkept : ∀ c ∈ ownerTag sha256 sub, c.isAlphanum = true := by
    intro c hc
    unfold ownerTag at hc
    obtain ⟨b, -, hb⟩ := List.mem_flatMap.1 hc
    have hbyte := b.toNat_lt
    simp only [List.mem_cons, List.not_mem_nil, or_false] at hb
    rcases hb with rfl | rfl
    · exact hhex _ (by omega)
    · exact hhex _ (by omega)
  rw [List.take_of_length_le (length_ownerTag sha256 sub).le]
  unfold sanitize
  rw [List.map_congr_left (g := id), List.map_id]
  intro c hc
  rw [hkept c hc]
  rfl

/-- Sessions of subjects with different tags share no file. -/
theorem sessionFiles_apart {sha256 : Sha256} {a b : Text} {target full p : FsPath} {s t : Text}
    (h : p ∈ sessionFilesOf target s (ownerTag sha256 a))
    (h' : p ∈ sessionFilesOf full t (ownerTag sha256 b)) : ownerTag sha256 b = ownerTag sha256 a := by
  obtain ⟨rest, hname⟩ := fileName_of_mem_sessionFiles h
  obtain ⟨rest', hname'⟩ := fileName_of_mem_sessionFiles h'
  rw [sanitize_ownerTag] at hname hname'
  rw [hname] at hname'
  have hsame := List.append_cancel_left (Option.some.inj hname')
  exact (List.append_inj_left hsame (by rw [length_ownerTag, length_ownerTag])).symm

/-! ## What a handler uses -/

/-- The names by which a call gets at a file. -/
def Op.uses : Op → List FsPath
  | .readToString p => [p]
  | op => op.touches

theorem files_of_uses {op : Op} {p : FsPath} (h : p ∈ op.uses) : p ∈ op.files := by
  unfold Op.uses at h
  split at h
  · exact h
  · exact files_of_touches h

/-- The files a call has opened. -/
def ServerOp.opens : (op : ServerOp) → op.Ans → List Nat
  | .store call, a => call.1.opens a
  | _, _ => []

/-- A call that keeps off the names, of a request that has opened the files. -/
def KeepsOff (names : Set FsPath) (files : List Nat) : ServerOp → Prop
  | .store call => (∀ p ∈ call.1.uses, p ∉ names) ∧ ∀ f ∈ call.1.writes, f ∈ files
  | .read f _ _ => f ∈ files
  | .readDir _ => True

/-- The program keeps off the names, and ends in `Q` with what it has opened. -/
def StaysOff {ρ : Type} (names : Set FsPath) (p : Prog ServerOp ServerOp.Ans ρ)
    (Q : List Nat → ρ → Prop) (files : List Nat) : Prop :=
  p.Staged (KeepsOff names) (fun files op a => op.opens a ++ files) Q files

namespace Handler

/-- The handler keeps off the names, and a result of it satisfies `Q`. -/
def Off {ε α : Type} (names : Set FsPath) (x : Handler ε α) (Q : List Nat → α → Prop)
    (files : List Nat) : Prop :=
  StaysOff names x (fun files r => ∀ a, r = .ok a → Q files a) files

section Rules

variable {names : Set FsPath} {files : List Nat} {ε ε' α β : Type}

theorem off_ret {a : α} {Q : List Nat → α → Prop} (h : Q files a) :
    Off names (ret a : Handler ε α) Q files := by
  intro b hb
  cases hb
  exact h

theorem off_fail {e : ε} {Q : List Nat → α → Prop} : Off names (fail e) Q files := by
  intro b hb
  cases hb

/-- Sequencing. -/
theorem off_then {x : Handler ε α} {f : α → Handler ε β} {R : List Nat → α → Prop}
    {Q : List Nat → β → Prop} (hx : Off names x R files)
    (hf : ∀ files a, R files a → Off names (f a) Q files) : Off names (x >>= f) Q files := by
  apply (Prog.staged_bind _ _ _).2
  apply Prog.Staged.mono hx
  intro g r hr
  cases r with
  | ok a => exact hf g a (hr a rfl)
  | error e =>
      intro b hb
      cases hb

theorem off_lift {r : Except ε α} {Q : List Nat → α → Prop} (h : ∀ a, r = .ok a → Q files a) :
    Off names (lift r) Q files := by
  cases r with
  | ok a => exact off_ret (h a rfl)
  | error e => exact off_fail

theorem off_attempt {x : Handler ε α} {Q : List Nat → α → Prop} (hx : Off names x Q files) :
    Off names (attempt x : Handler ε' (Except ε α)) (fun g r => ∀ a, r = .ok a → Q g a) files := by
  apply (Prog.staged_bind _ _ _).2
  apply Prog.Staged.mono hx
  intro g r hr b hb
  cases hb
  exact hr

theorem off_orElse {f : ε → ε'} {x : Handler ε α} {Q : List Nat → α → Prop}
    (hx : Off names x Q files) : Off names (orElse f x) Q files := by
  apply (Prog.staged_bind _ _ _).2
  apply Prog.Staged.mono hx
  intro g r hr
  apply off_lift
  intro a ha
  cases r with
  | ok b =>
      cases ha
      exact hr a rfl
  | error e => cases ha

/-- A call on the store at the head of a `do` block. -/
theorem off_ask_then {op : Op} {f : op.Ans → Handler ε β} {Q : List Nat → β → Prop}
    (huses : ∀ p ∈ op.uses, p ∉ names) (hwrites : op.writes = [])
    (hf : ∀ a, Off names (f a) Q (op.opens a ++ files)) : Off names (ask op >>= f) Q files := by
  refine ⟨⟨huses, ?_⟩, hf⟩
  intro g hg
  rw [hwrites] at hg
  cases hg

theorem off_readPiece_then {file pos len : Nat}
    {f : Except IoError (List UInt8) → Handler ε β} {Q : List Nat → β → Prop}
    (hfile : file ∈ files) (hf : ∀ a, Off names (f a) Q files) :
    Off names (readPiece file pos len >>= f) Q files := ⟨hfile, hf⟩

theorem off_scan_then {dir : FsPath} {f : Except IoError (List Text) → Handler ε β}
    {Q : List Nat → β → Prop} (hf : ∀ a, Off names (f a) Q files) :
    Off names (scan dir >>= f) Q files := ⟨trivial, hf⟩

theorem off_other_then {r : Except IoError α} {f : α → Handler StorageError β}
    {Q : List Nat → β → Prop} (hf : ∀ a, r = .ok a → Off names (f a) Q files) :
    Off names (other r >>= f) Q files := by
  cases r with
  | ok a => exact hf a rfl
  | error e => exact off_fail

end Rules

/-! ### The storage -/

section Storage

variable {names : Set FsPath} {files : List Nat} {root : FsPath} {path : Text}

theorem off_checkedPath : Off names (FsStorage.checkedPath root path)
    (fun g full => resolve root path = .ok full ∧ g = files) files := by
  unfold FsStorage.checkedPath
  have hlift : Off names (lift ((resolve root path).mapError StorageError.unsupported))
      (fun g full => resolve root path = .ok full ∧ g = files) files := by
    apply off_lift
    intro full h
    cases hres : resolve root path with
    | ok p =>
        rw [hres] at h
        cases h
        exact ⟨rfl, rfl⟩
    | error e =>
        rw [hres] at h
        cases h
  apply off_then hlift
  intro g full hfull
  apply off_ask_then (fun p hp => absurd hp List.not_mem_nil) rfl
  intro r
  apply off_other_then
  intro _ _
  exact off_ret hfull

theorem off_fileMeta (etag : Nat → Nat → Text) :
    Off names (FsStorage.fileMeta root etag path) (fun _ _ => True) files := by
  unfold FsStorage.fileMeta
  apply off_then off_checkedPath
  intro g full _
  apply off_ask_then (fun p hp => absurd hp List.not_mem_nil) rfl
  intro r
  cases r with
  | error e =>
      dsimp only
      split
      · exact off_ret trivial
      · exact off_fail
  | ok stat =>
      dsimp only
      split
      · exact off_fail
      · exact off_ret trivial

/-- What is read has been opened. -/
theorem off_readStream (hoff : ∀ full, resolve root path = .ok full → full ∉ names) :
    Off names (FsStorage.readStream root path) (fun g file => file ∈ g) files := by
  unfold FsStorage.readStream
  apply off_then off_checkedPath
  intro g full hfull
  apply off_ask_then _ rfl
  · intro r
    apply off_lift
    intro file hfile
    cases r with
    | ok f =>
        cases hfile
        exact List.mem_append_left _ (List.mem_singleton_self file)
    | error e => cases hfile
  · intro p hp
    rw [List.mem_singleton.1 hp]
    exact hoff full hfull.1

theorem off_dirEntries (full : FsPath) : ∀ (found : List Text) (files : List Nat),
    Off names (FsStorage.dirEntries full path found) (fun _ _ => True) files
  | [], files => off_ret trivial
  | name :: rest, files => by
      unfold FsStorage.dirEntries FsStorage.dirEntry
      apply off_then (R := fun _ _ => True)
      · apply off_ask_then (fun p hp => absurd hp List.not_mem_nil) rfl
        intro r
        apply off_other_then
        intro _ _
        exact off_ret trivial
      · intro g entry _
        apply off_then (off_dirEntries full rest g)
        intro g entries _
        exact off_ret trivial

theorem off_listDir : Off names (FsStorage.listDir root path) (fun _ _ => True) files := by
  unfold FsStorage.listDir
  apply off_then (R := fun _ _ => True) (off_lift fun _ _ => trivial)
  intro g full _
  apply off_ask_then (fun p hp => absurd hp List.not_mem_nil) rfl
  intro r
  apply off_other_then
  intro _ _
  apply off_scan_then
  intro r
  cases r with
  | error e =>
      dsimp only
      split
      · exact off_fail
      · exact off_fail
  | ok found =>
      apply off_then (off_dirEntries full found _)
      intro g entries _
      exact off_ret trivial

end Storage

/-- A path resolves to one real path at most. -/
theorem resolves_to_one (root : FsPath) (path : Text) :
    ∃ target, ∀ full, resolve root path = .ok full → full = target := by
  cases resolve root path with
  | ok target =>
      refine ⟨target, ?_⟩
      intro full hfull
      cases hfull
      rfl
  | error e =>
      refine ⟨[], ?_⟩
      intro full hfull
      cases hfull

/-! ### The handlers -/

section Handlers

variable {V : Type} {srv : FileServer V} {names : Set FsPath} {files : List Nat} {path : Text}

/-- The reader of a download reads what it has opened. -/
theorem off_readPieces {file : Nat} (hfile : file ∈ files) : ∀ fuel pos left : Nat,
    Off names (readPieces file fuel pos left) (fun _ _ => True) files
  | 0, pos, left => off_ret trivial
  | fuel + 1, pos, left => by
      unfold readPieces
      split
      · exact off_ret trivial
      · apply off_readPiece_then hfile
        intro r
        cases r with
        | error e => exact off_fail
        | ok piece =>
            cases piece with
            | nil => exact off_ret trivial
            | cons b rest =>
                apply off_then (off_readPieces hfile fuel _ _)
                intro g more _
                exact off_ret trivial

/-- What a download is about to send has been opened. -/
theorem off_planDownload (hdrs : DownloadHeaders V) (withReader : Bool)
    (hoff : withReader = true → ∀ real full, validateRelPath path = .ok real →
      resolve srv.storage.root real = .ok full → full ∉ names) :
    Off names (srv.planDownload path hdrs withReader)
      (fun g r => ∀ file spec, r.2 = some (file, spec) → file ∈ g) files := by
  have hvalid : Off names
      (lift ((validateRelPath path).mapError fun m => Stopped.failed (.badRequest m)))
      (fun _ real => validateRelPath path = .ok real) files := by
    apply off_lift
    intro real h
    cases hres : validateRelPath path with
    | ok p =>
        rw [hres] at h
        cases h
        rfl
    | error e =>
        rw [hres] at h
        cases h
  unfold FileServer.planDownload
  apply off_then hvalid
  intro g real hreal
  apply off_then (off_orElse (off_fileMeta srv.storage.etag))
  intro g found _
  cases found with
  | none => exact off_fail
  | some fileMeta =>
      dsimp only
      split
      · exact off_fail
      · split
        · exact off_fail
        · next asked _ =>
            apply off_then (R := fun _ _ => True) (off_lift fun _ _ => trivial)
            intro g spec _
            have hplan : ∀ (g : List Nat) (reader : Option (Nat × RangeSpec)),
                (∀ file spec, reader = some (file, spec) → file ∈ g) →
                Off names (do
                  let plan ← lift (srv.downloads.planSpan real fileMeta hdrs false
                    (srv.downloads.honoured hdrs fileMeta.etag asked).isSome spec)
                  ret (plan, reader) : Handler Stopped _)
                  (fun g r => ∀ file spec, r.2 = some (file, spec) → file ∈ g) g := by
              intro g reader hreader
              apply off_then (R := fun g' _ => g' = g) (off_lift fun _ _ => rfl)
              intro g' plan hg
              rw [hg]
              exact off_ret hreader
            cases withReader with
            | true =>
                apply off_then (off_orElse (off_readStream fun full => hoff rfl real full hreal))
                intro g file hfile
                apply hplan
                intro file' spec' heq
                cases heq
                exact hfile
            | false =>
                apply hplan
                intro file' spec' heq
                cases heq

theorem off_download
    (hoff : ∀ real full, validateRelPath path = .ok real →
      resolve srv.storage.root real = .ok full → full ∉ names) (hdrs : DownloadHeaders V) :
    Off names (srv.download path hdrs) (fun _ _ => True) files := by
  unfold FileServer.download
  apply off_then (off_planDownload hdrs true fun _ => hoff)
  intro g r hreader
  obtain ⟨plan, reader⟩ := r
  cases reader with
  | none => exact off_ret trivial
  | some reader =>
      obtain ⟨file, spec⟩ := reader
      apply off_then (off_attempt (off_readPieces (hreader file spec rfl) _ _ _))
      intro g r _
      cases r with
      | ok data => exact off_ret trivial
      | error e => exact off_ret trivial

theorem off_headFile (hdrs : DownloadHeaders V) :
    Off names (srv.headFile path hdrs) (fun _ _ => True) files := by
  unfold FileServer.headFile
  apply off_then (off_planDownload hdrs false fun h => nomatch h)
  intro g r _
  exact off_ret trivial

theorem off_list : Off names (srv.listDir path) (fun _ _ => True) files := by
  unfold FileServer.listDir
  apply off_then (off_orElse off_listDir)
  intro g entries _
  exact off_ret trivial

/-- The upload code keeps off the names where all files of the request do. -/
theorem off_runUpload {job : UploadJob}
    (hfull : ∀ full, resolve srv.storage.root job.path = .ok full → full ∉ names)
    (hsession : ∀ p, SessionFile srv.storage job p → p ∉ names)
    (htemp : ∀ full nanos counter, tempPathFor full nanos counter ∉ names) :
    Off names (ofFs (runUpload srv.storage job)) (fun _ _ => True) [] := by
  have hcode : ∀ {ρ : Type} (p : Code ρ) (g : List Nat),
      p.Staged (fun g call => (∀ q ∈ call.1.uses, q ∉ names) ∧ ∀ f ∈ call.1.writes, f ∈ g)
        (fun g call a => call.1.opens a ++ g) (fun _ _ => True) g →
      StaysOff names (ofCode p) (fun _ _ => True) g := by
    intro ρ p
    induction p with
    | done r => exact fun _ _ => trivial
    | call call k ih =>
        intro g hp
        refine ⟨hp.1, ?_⟩
        intro a
        exact ih a _ (hp.2 a)
  obtain ⟨target, htarget⟩ := resolves_to_one srv.storage.root job.path
  unfold ofFs
  apply (Prog.staged_bind _ _ _).2
  apply Prog.Staged.mono (hcode _ [] _)
  · intro g r _ a _
    trivial
  · apply Prog.Staged.map Stage.files (runUpload_staged htarget Held.nothing)
    · intro g call hcall
      refine ⟨?_, hcall.writes⟩
      intro p hp
      cases hcall.files p (files_of_uses hp) with
      | target hres => exact hfull p hres
      | made hmade =>
          cases hmade with
          | session hfile => exact hsession p hfile
          | attempt hdrawn =>
              obtain ⟨d, -, hd⟩ := hdrawn
              rw [hd]
              exact htemp target d.1 d.2
    · intro g call a
      rfl
    · intro _ _ _
      trivial

/-- An upload keeps off the names where its target and the files of its session do. -/
theorem off_upload {claims : TokenClaims} {hdrs : UploadHeaders V} {body : Body}
    (hfull : ∀ full, resolve srv.storage.root path = .ok full → full ∉ names)
    (hsession : ∀ job p, srv.uploadJob claims path hdrs body = .ok job →
      SessionFile srv.storage job p → p ∉ names)
    (htemp : ∀ full nanos counter, tempPathFor full nanos counter ∉ names) :
    Off names (srv.upload claims path hdrs body) (fun _ _ => True) [] := by
  have hjob : Off names (lift ((srv.uploadJob claims path hdrs body).mapError Stopped.failed))
      (fun g job => g = [] ∧ srv.uploadJob claims path hdrs body = .ok job) [] := by
    apply off_lift
    intro job h
    cases hres : srv.uploadJob claims path hdrs body with
    | ok j =>
        rw [hres] at h
        cases h
        exact ⟨rfl, rfl⟩
    | error e =>
        rw [hres] at h
        cases h
  unfold FileServer.upload
  apply off_then hjob
  intro g job hg
  obtain ⟨rfl, hjob⟩ := hg
  have hpath := (srv.uploadJob_eq_ok hjob).1
  unfold FileServer.serveUpload
  apply off_then (off_orElse (off_runUpload (fun full hres => hfull full (hpath ▸ hres))
    (fun p hp => hsession job p hjob hp) htemp))
  intro g reply _
  cases reply with
  | created file => exact off_ret trivial
  | status ranges => exact off_ret trivial

end Handlers

end Handler

/-! ## A session and the other requests -/

section Sessions

variable {V : Type} (srv : FileServer V)

/-- The upload of a real path by a subject under a session id. -/
def FileServer.sessionOf (sub path id : Text) : Session :=
  ⟨srv.storage, path, id, ownerTag srv.sha256 sub⟩

/-- The temporary of a session, its sidecar, and the sibling the sidecar is replaced from. -/
def Session.allFiles (S : Session) : List FsPath := sessionFilesOf S.target S.id S.owner

/-- The request belongs to the session. -/
def InSession (S : Session) (req : ClientRequest V) : Prop :=
  ∃ claims shadow hdrs body path job, req = .upload claims shadow hdrs body ∧
    srv.resolvePath req = .ok path ∧ srv.uploadJob claims path hdrs body = .ok job ∧ S.Has job

/-- The files of the session, for a request that is to keep off them. -/
def Session.ownNames (S : Session) : Set FsPath := {p | p ∈ S.allFiles}

/-- A request that moves nothing and opens nothing of another subject's. -/
def ReadsOwn (S : Session) : ClientRequest V → Prop
  | .upload _ _ _ _ => False
  | .download claims _ _ => ownerTag srv.sha256 claims.sub = S.owner
  | _ => True

/-- The request's path is no file of the session, and where it is of the same owner, nor is a
file of a session under that path. -/
def NamesOthers (S : Session) (req : ClientRequest V) : Prop :=
  ∀ path full, srv.resolvePath req = .ok path → resolve srv.storage.root path = .ok full →
    full ∉ S.allFiles ∧ (ownerTag srv.sha256 req.claims.sub = S.owner →
      ∀ id, ∀ p ∈ sessionFilesOf full id S.owner, p ∉ S.allFiles)

variable {srv}

theorem mem_sessionFilesOf {job : UploadJob} {p : FsPath}
    (h : SessionFile srv.storage job p) : ∃ full key, resolve srv.storage.root job.path = .ok full ∧
      job.session = some key ∧ p ∈ sessionFilesOf full key.id key.owner := by
  unfold sessionFilesOf
  cases h with
  | tmp hfull hkey => exact ⟨_, _, hfull, hkey, by simp⟩
  | blocks hfull hkey => exact ⟨_, _, hfull, hkey, by simp⟩
  | persist hfull hkey => exact ⟨_, _, hfull, hkey, by simp⟩

/-- The session of an upload is its subject's. -/
theorem owner_of_sessionKey {claims : TokenClaims} {hdrs : UploadHeaders V} {key : SessionKey}
    (h : srv.sessionKey claims hdrs = some key) : key.owner = ownerTag srv.sha256 claims.sub := by
  unfold FileServer.sessionKey at h
  obtain ⟨id, -, hid⟩ := Option.map_eq_some_iff.1 h
  rw [← hid]

/-- A request keeps off the names where its handler does. -/
theorem serve_off {names : Set FsPath} {req : ClientRequest V}
    (h : ∀ real, srv.resolvePath req = .ok real →
      Handler.Off names (srv.handle real req) (fun _ _ => True) []) :
    StaysOff names (srv.serve req) (fun _ _ => True) [] := by
  unfold FileServer.serve
  cases hreal : srv.resolvePath req with
  | error e => trivial
  | ok real =>
      apply (Prog.staged_bind _ _ _).2
      apply Prog.Staged.mono (h real hreal)
      intro g r _
      cases r with
      | ok response => trivial
      | error e =>
          cases e with
          | failed e => trivial
          | overflowed => trivial

/-- A request that names other files keeps off the session's. -/
theorem serve_staysOff {sub path id : Text} {req : ClientRequest V}
    (hothers : NamesOthers srv (srv.sessionOf sub path id) req) :
    StaysOff (srv.sessionOf sub path id).ownNames (srv.serve req) (fun _ _ => True) [] := by
  apply serve_off
  intro real hreal
  cases req with
  | download claims shadow hdrs =>
      apply Handler.off_download
      intro p full hp hres
      have hcanon : validateRelPath real = .ok real := srv.canonical_of_resolvePath hreal
      rw [hcanon] at hp
      cases hp
      exact (hothers real full hreal hres).1
  | head claims shadow hdrs => exact Handler.off_headFile hdrs
  | list claims shadow => exact Handler.off_list
  | upload claims shadow hdrs body =>
      apply Handler.off_upload
      · exact fun full hres => (hothers real full hreal hres).1
      · intro job p hjob hp
        obtain ⟨hpath, hsession⟩ := srv.uploadJob_eq_ok hjob
        obtain ⟨full, key, hres, hkey, hmem⟩ := mem_sessionFilesOf hp
        rw [hpath] at hres
        rw [hsession] at hkey
        have howner := owner_of_sessionKey hkey
        by_cases hsame : ownerTag srv.sha256 claims.sub = ownerTag srv.sha256 sub
        · rw [howner, hsame] at hmem
          exact (hothers real full hreal hres).2 hsame key.id p hmem
        · intro hown
          rw [howner] at hmem
          exact hsame (sessionFiles_apart hown hmem)
      · intro full nanos counter
        exact tempPathFor_not_mem_sessionFiles

/-! ### The session's own requests -/

/-- A call of the subject's own requests: what it moves to a file of the session is one. -/
def SessionOp (S : Session) : ServerOp → Prop
  | .store call => ∀ source p, call.1 = .rename source p → p ∈ S.allFiles → source ∈ S.allFiles
  | _ => True

/-- So is a call that keeps to one name. -/
theorem sessionOp_of_keepsOff {S : Session} {full : FsPath} {files : List Nat} {op : ServerOp}
    (h : KeepsOff {p | p ≠ full} files op) : SessionOp S op := by
  cases op with
  | read file pos len => trivial
  | readDir dir => trivial
  | store call =>
      intro source p hop hp
      have honly : ∀ q ∈ call.1.uses, q = full := by
        intro q hq
        by_contra hne
        exact h.1 q hq hne
      rw [hop] at honly
      have hsource := honly source (by simp [Op.uses, Op.touches, Op.puts, Op.takes])
      have htarget := honly p (by simp [Op.uses, Op.touches, Op.puts, Op.takes])
      rw [hsource, ← htarget]
      exact hp

/-- A download keeps to its own path. -/
theorem serve_download {S : Session} {claims : TokenClaims} {shadow : Text}
    {hdrs : DownloadHeaders V} :
    (srv.serve (.download claims shadow hdrs)).Along (SessionOp S) fun _ => True := by
  cases hreal : srv.resolvePath (.download claims shadow hdrs) with
  | error e =>
      unfold FileServer.serve
      rw [hreal]
      trivial
  | ok real =>
      obtain ⟨full, hfull⟩ := resolves_to_one srv.storage.root real
      have hoff : StaysOff {p | p ≠ full} (srv.serve (.download claims shadow hdrs))
          (fun _ _ => True) [] := by
        apply serve_off
        intro real' hreal'
        rw [hreal] at hreal'
        cases hreal'
        apply Handler.off_download
        intro p q hp hres hne
        have hcanon : validateRelPath real = .ok real := srv.canonical_of_resolvePath hreal
        rw [hcanon] at hp
        cases hp
        exact hne (hfull q hres)
      apply Prog.Staged.along hoff
      · exact fun g op h => sessionOp_of_keepsOff h
      · exact fun _ _ _ => trivial

theorem takes_of_has {S : Session} {job : UploadJob} (hhas : S.Has job) {op : Op}
    (hop : AskedBy S.srv job (.ofSession job) op) : ∀ p ∈ op.takes, p ∈ S.allFiles := by
  intro p hp
  cases hop.takes p hp with
  | attempt hfalse => exact hfalse.elim
  | session hfile =>
      obtain ⟨hpath, probe, hsession⟩ := hhas
      have hmem : ∀ {full : FsPath} {key : SessionKey}, resolve S.srv.root job.path = .ok full →
          job.session = some key → sessionFilesOf full key.id key.owner = S.allFiles := by
        intro full key hfull hkey
        rw [hpath] at hfull
        rw [hsession] at hkey
        cases hkey
        rw [Session.target_of_resolve hfull]
        rfl
      cases hfile with
      | tmp hfull hkey =>
          rw [← hmem hfull hkey]
          simp [sessionFilesOf]
      | blocks hfull hkey =>
          rw [← hmem hfull hkey]
          simp [sessionFilesOf]
      | persist hfull hkey =>
          rw [← hmem hfull hkey]
          simp [sessionFilesOf]

theorem serve_inSession {S : Session} (hsrv : S.srv = srv.storage) {req : ClientRequest V}
    (hin : InSession srv S req) : (srv.serve req).Along (SessionOp S) fun _ => True := by
  obtain ⟨claims, shadow, hdrs, body, path, job, rfl, hreal, hjob, hhas⟩ := hin
  have hcode : ∀ {ρ : Type} (p : Code ρ), p.Along (fun call => AskedBy S.srv job (.ofSession job)
      call.1) (fun _ => True) → (Handler.ofCode p).Along (SessionOp S) fun _ => True := by
    intro ρ p
    induction p with
    | done r => exact fun _ => trivial
    | call call k ih =>
        intro hp
        refine ⟨?_, fun a => ih a (hp.2 a)⟩
        intro source p hop _
        apply takes_of_has hhas hp.1 source
        rw [hop]
        exact List.mem_singleton_self source
  have hrun : (Handler.ofFs (runUpload srv.storage job)).Along (SessionOp S) fun _ => True := by
    obtain ⟨-, probe, hsession⟩ := id hhas
    unfold Handler.ofFs
    apply (Prog.along_bind _ _).2
    apply Prog.Along.mono _ (fun _ => id) fun _ _ => trivial
    · exact fun _ => True
    · apply hcode
      have hasks : Fs.Asks (AskedBy S.srv job (.ofSession job)) (fun _ => True)
          (runUpload S.srv job) := asks_ofSession hsession
      rw [← hsrv]
      exact (hasks Held.nothing).mono (fun _ => id) fun _ _ => trivial
  unfold FileServer.serve
  rw [hreal]
  apply (Prog.along_bind _ _).2
  have hserve : (srv.serveUpload job).Along (SessionOp S) fun _ => True := by
    unfold FileServer.serveUpload
    apply (Prog.along_bind _ _).2
    apply (Prog.along_bind _ _).2
    apply hrun.mono (fun _ => id)
    intro r _
    cases r with
    | ok reply =>
        cases reply with
        | created file => trivial
        | status ranges => trivial
    | error e => trivial
  have hupload : (srv.upload claims path hdrs body).Along (SessionOp S) fun _ => True := by
    unfold FileServer.upload
    rw [hjob]
    exact hserve
  apply hupload.mono (fun _ => id)
  intro r _
  cases r with
  | ok response => trivial
  | error e =>
      cases e with
      | failed e => trivial
      | overflowed => trivial

/-! ### What requests hold open -/

/-- The file is none of those under the names. -/
def Clear (names : List FsPath) (f : Nat) (s : Store) : Prop :=
  f < s.disk.next ∧ ∀ p ∈ names, s.disk.entry p ≠ .file f

theorem clear_of_disk {names : List FsPath} {f : Nat} {s t : Store} (h : t.disk = s.disk)
    (hf : Clear names f s) : Clear names f t := by
  unfold Clear
  rw [h]
  exact hf

/-- A call that moves only the files under the names onto one of them brings no other file
there. -/
theorem clear_of_exec {serde : Serde} {op : Op} {i : Nat} {c : Choice} {s t : Store} {a : op.Ans}
    {names : List FsPath} {f : Nat} (hexec : op.exec serde i c s = some (t, a))
    (hmoves : ∀ source p, op = .rename source p → p ∈ names → source ∈ names)
    (hf : Clear names f s) : Clear names f t := by
  obtain ⟨hlt, hnone⟩ := hf
  refine ⟨Nat.lt_of_lt_of_le hlt (exec_effect hexec).next, ?_⟩
  intro p hp hentry
  rcases (exec_effect hexec).file hentry with hsame | hnew | ⟨source, hop⟩
  · exact hnone p hp hsame
  · exact absurd hlt (hnew ▸ Nat.lt_irrefl _)
  · subst hop
    rcases exec_rename hexec with ⟨ht, -⟩ | ⟨g, -, -, -, ht⟩
    · rw [ht] at hentry
      exact hnone p hp hentry
    · rw [ht] at hentry
      exact hnone source (hmoves source p rfl hp)
        ((Disk.rename_entry_target _ _ _).symm.trans hentry)

theorem clear_of_place {names : List FsPath} {f : Nat} {s : Store} {path : FsPath}
    {cells : List (Option UInt8)} (hf : Clear names f s) :
    Clear names f (s.create path (.bytes cells)) := by
  obtain ⟨hlt, hnone⟩ := hf
  refine ⟨Nat.lt_succ_of_lt hlt, ?_⟩
  intro p hp hentry
  by_cases hpath : p = path
  · rw [hpath] at hentry
    have hnew := (Disk.create_entry_self s.disk path).symm.trans hentry
    exact absurd hlt (Entry.file.inj hnew ▸ Nat.lt_irrefl _)
  · exact hnone p hp ((Disk.create_entry_ne _ _ hpath).symm.trans hentry)

theorem uses_of_opens {op : Op} {a : op.Ans} {f : Nat} {p : FsPath} (hf : f ∈ op.opens a)
    (hp : p ∈ op.files) : p ∈ op.uses := by
  unfold Op.opens at hf
  split at hf
  · exact hp
  · exact hp
  · exact hp
  · cases hf

theorem uses_of_puts_takes {op : Op} {p : FsPath} (h : p ∈ op.puts ++ op.takes) :
    p ∈ op.uses := by
  cases op with
  | openExisting q => cases h
  | readToString q => cases h
  | _ => exact h

/-- What a call of the store opens under other names is none of the files under these. -/
theorem clear_of_opens {serde : Serde} {op : Op} {i : Nat} {c : Choice} {s t : Store} {a : op.Ans}
    {names : List FsPath} {f : Nat} (hexec : op.exec serde i c s = some (t, a))
    (huses : ∀ p ∈ op.uses, p ∉ names) (hf : f ∈ op.opens a) : Clear names f t := by
  obtain ⟨q, hq, hentry⟩ := exec_opens hexec hf
  have hqoff : q ∉ names := huses q (uses_of_opens hf hq)
  refine ⟨t.disk.entry_lt hentry, ?_⟩
  intro p hp hpf
  have hsame := t.disk.single hpf hentry
  rw [hsame] at hp
  exact hqoff hp

/-- A call that keeps off the names leaves the files under them alone. -/
theorem kept_of_exec {serde : Serde} {op : Op} {i : Nat} {c : Choice} {s t : Store} {a : op.Ans}
    {names : List FsPath} {files : List Nat} (hexec : op.exec serde i c s = some (t, a))
    (huses : ∀ p ∈ op.uses, p ∉ names) (hwrites : ∀ f ∈ op.writes, f ∈ files)
    (hclear : ∀ f ∈ files, Clear names f s) {p : FsPath} {f : Nat} (hp : p ∈ names)
    (hentry : s.disk.entry p = .file f) :
    t.disk.entry p = .file f ∧ t.content f = s.content f := by
  have hput : p ∉ op.puts := fun h => huses p (uses_of_puts_takes (List.mem_append_left _ h)) hp
  have htake : p ∉ op.takes := fun h => huses p (uses_of_puts_takes (List.mem_append_right _ h)) hp
  refine ⟨?_, ?_⟩
  · rcases (exec_effect hexec).entry p with hsame | hmem | ⟨hmem, -⟩ | ⟨habsent, -⟩
    · exact hsame.trans hentry
    · exact absurd hmem hput
    · exact absurd hmem htake
    · cases habsent.symm.trans hentry
  · rcases (exec_effect hexec).content (s.disk.entry_lt hentry) with hsame | hmem |
      ⟨q, hq, hfile⟩
    · exact hsame
    · exact absurd hentry ((hclear f (hwrites f hmem)).2 p hp)
    · rw [s.disk.single hfile hentry] at hq
      exact absurd hq hput

/-! ### Runs -/

/-- How a request stands: it is the subject's own, or it keeps off the session's files, and so
does all it has open. -/
def StandsApart (srv : FileServer V) (S : Session) (req : ClientRequest V)
    (p : Prog ServerOp ServerOp.Ans (Option ServerResponse)) (s : Store) : Prop :=
  (ownerTag srv.sha256 req.claims.sub = S.owner ∧ p.Along (SessionOp S) fun _ => True) ∨
    ∃ files, StaysOff S.ownNames p (fun _ _ => True) files ∧ ∀ f ∈ files, Clear S.allFiles f s

/-- No request from outside the session uploads to a file of the session, nobody else downloads
one, and nobody else lists a directory that holds its temporary or its sidecar. -/
def SparesSession (srv : FileServer V) (S : Session) (s : ServerState V) : ServerAct V → Prop
  | .start _ req => InSession srv S req ∨ ReadsOwn srv S req ∨ NamesOthers srv S req
  | .step i _ => ∀ req dir k, s.task i = .waiting req (.readDir dir) k →
      ownerTag srv.sha256 req.claims.sub ≠ S.owner →
      ∀ p ∈ [S.tmp, S.blocks], s.shared.disk.entry p ≠ .absent → ∀ name, p ≠ dir ++ [.normal name]
  | _ => True

/-- A step keeps what is none of the session's. -/
theorem clear_of_next {S : Session} {s t : ServerState V} {a : ServerAct V}
    (hstand : System.Standing (StandsApart srv S) s)
    (hnext : (serverSystem srv).next s a = some t) {f : Nat}
    (hf : Clear S.allFiles f s.shared) : Clear S.allFiles f t.shared := by
  have hput : ∀ (sh : Store) (i : Nat) (req : ClientRequest V)
      (p : Prog ServerOp ServerOp.Ans (Option ServerResponse)), Clear S.allFiles f sh →
      Clear S.allFiles f ((serverSystem srv).put s sh i req p).shared := by
    intro sh i req p hsh
    cases p with
    | done r => exact clear_of_disk rfl hsh
    | call o k => exact hsh
  rcases System.next_cases hnext with ⟨i, req, rfl, -, rfl⟩ |
    ⟨i, c, req, op, k, sh, ans, rfl, hwait, hexec, rfl⟩ | ⟨i, req, op, k, rfl, -, rfl⟩ |
    ⟨e, rfl, rfl⟩
  · exact hput _ _ _ _ hf
  · apply hput
    have hx : op.exec srv.storage.serde i c s.shared = some (sh, ans) := hexec
    cases op with
    | store call =>
        apply clear_of_exec hx _ hf
        intro source p hop hp
        rcases hstand i req _ k hwait with ⟨-, hsession⟩ | ⟨files, hoff, -⟩
        · exact hsession.1 source p hop hp
        · have hmem : p ∈ call.1.uses := by
            apply uses_of_puts_takes
            rw [hop]
            simp [Op.puts]
          exact absurd hp (hoff.1.1 p hmem)
    | read file pos len =>
        rw [exec_read hx]
        exact hf
    | readDir dir =>
        rw [(exec_readDir hx).1]
        exact hf
  · exact clear_of_disk rfl hf
  · cases e with
    | tick nanos => exact clear_of_disk rfl hf
    | place path cells => exact clear_of_place hf

/-- A request of the session is by its subject. -/
theorem owner_of_inSession {S : Session} {req : ClientRequest V} (h : InSession srv S req) :
    ownerTag srv.sha256 req.claims.sub = S.owner := by
  obtain ⟨claims, shadow, hdrs, body, path, job, rfl, -, hjob, -, probe, hsession⟩ := h
  rw [(srv.uploadJob_eq_ok hjob).2] at hsession
  exact (owner_of_sessionKey hsession).symm

/-- So stands a request that reads what it may. -/
theorem serve_readsOwn {S : Session} {req : ClientRequest V} {s : Store}
    (h : ReadsOwn srv S req) : StandsApart srv S req (srv.serve req) s := by
  cases req with
  | upload claims shadow hdrs body => exact h.elim
  | download claims shadow hdrs => exact Or.inl ⟨h, serve_download⟩
  | head claims shadow hdrs =>
      refine Or.inr ⟨[], serve_off fun real _ => Handler.off_headFile hdrs, ?_⟩
      intro f hf
      cases hf
  | list claims shadow =>
      refine Or.inr ⟨[], serve_off fun real _ => Handler.off_list, ?_⟩
      intro f hf
      cases hf

/-- **Run lemma.** -/
theorem standsApart_of_reaches {sub path id : Text} {s₀ : Store} {s : ServerState V}
    (hrun : (serverSystem srv).Reaches (SparesSession srv (srv.sessionOf sub path id))
      (idleServer s₀) s) :
    System.Standing (StandsApart srv (srv.sessionOf sub path id)) s := by
  apply System.Reaches.standing (W := StandsApart srv (srv.sessionOf sub path id)) _ _ _
    (fun _ => rfl) hrun
  · intro u i req hok
    rcases hok with hin | hreads | hothers
    · exact Or.inl ⟨owner_of_inSession hin, serve_inSession rfl hin⟩
    · exact serve_readsOwn hreads
    · refine Or.inr ⟨[], serve_staysOff hothers, ?_⟩
      intro f hf
      cases hf
  · intro i c req op k sh sh' a hstand hexec
    have hx : op.exec srv.storage.serde i c sh = some (sh', a) := hexec
    rcases hstand with ⟨hin, halong⟩ | ⟨files, hoff, hclear⟩
    · exact Or.inl ⟨hin, halong.2 a⟩
    · refine Or.inr ⟨op.opens a ++ files, hoff.2 a, ?_⟩
      intro f hf
      cases op with
      | store call =>
          rcases List.mem_append.1 hf with hopened | hbefore
          · exact clear_of_opens hx hoff.1.1 hopened
          · apply clear_of_exec hx _ (hclear f hbefore)
            intro source p hop hp
            have hmem : p ∈ call.1.uses := by
              apply uses_of_puts_takes
              rw [hop]
              simp [Op.puts]
            exact absurd hp (hoff.1.1 p hmem)
      | read file pos len =>
          rw [exec_read hx]
          exact hclear f hf
      | readDir dir =>
          rw [(exec_readDir hx).1]
          exact hclear f hf
  · intro u a v _ hstand hnext req p hp
    rcases hp with hin | ⟨files, hoff, hclear⟩
    · exact Or.inl hin
    · exact Or.inr ⟨files, hoff, fun f hf => clear_of_next hstand hnext (hclear f hf)⟩

/-- The call reads the file under the name. -/
def ServerOp.Reads (op : ServerOp) (s : Store) (p : FsPath) : Prop :=
  match op with
  | .store (.readToString q, _) => q = p
  | .read f _ _ => s.disk.entry p = .file f
  | _ => False

/-- The answer lists the name. -/
def ServerOp.Lists (p : FsPath) : (op : ServerOp) → op.Ans → Prop
  | .readDir dir, .ok names => ∃ name ∈ names, p = dir ++ [.normal name]
  | _, _ => False

/-- What a listing lists is in its answer. -/
theorem ServerOp.names_of_lists {p dir : FsPath} {a : (ServerOp.readDir dir).Ans}
    (h : (ServerOp.readDir dir).Lists p a) :
    ∃ names, a = .ok names ∧ ∃ name ∈ names, p = dir ++ [.normal name] :=
  match a, h with
  | .ok names, h => ⟨names, rfl, h⟩

/-- The call leaves the temporary and the sidecar of the session alone: it neither reads nor
lists them, nor does it overwrite or change them. -/
structure SessionUntouched (S : Session) (op : ServerOp) (s t : Store) (a : op.Ans) : Prop where
  unread : ∀ p ∈ [S.tmp, S.blocks], ∀ f, s.disk.entry p = .file f → ¬ op.Reads s p
  unlisted : ∀ p ∈ [S.tmp, S.blocks], ¬ op.Lists p a
  unchanged : ∀ p ∈ [S.tmp, S.blocks], ∀ f, s.disk.entry p = .file f →
    t.disk.entry p = .file f ∧ t.content f = s.content f

/-- In every run of allowed steps, the calls of other subjects leave the session alone. -/
def IsolatedSession (srv : FileServer V) (S : Session)
    (ok : ServerState V → ServerAct V → Prop) : Prop :=
  ∀ s₀ s i req op k c t a, (serverSystem srv).Reaches ok (idleServer s₀) s →
    s.task i = .waiting req op k → ok s (.step i c) →
    op.exec srv.storage.serde i c s.shared = some (t, a) →
    ownerTag srv.sha256 req.claims.sub ≠ S.owner → SessionUntouched S op s.shared t a

/-- **Sessions are isolated while the others keep to other names.** -/
theorem sessions_isolated (srv : FileServer V) (sub path id : Text) :
    IsolatedSession srv (srv.sessionOf sub path id)
      (SparesSession srv (srv.sessionOf sub path id)) := by
  intro s₀ s i req op k c t a hrun hwait hok hexec howner
  have hfiles : ∀ p ∈ [(srv.sessionOf sub path id).tmp, (srv.sessionOf sub path id).blocks],
      p ∈ (srv.sessionOf sub path id).allFiles := by
    intro p hp
    simp only [List.mem_cons, List.not_mem_nil, or_false] at hp
    rcases hp with rfl | rfl
    · exact List.mem_cons_self
    · exact List.mem_cons_of_mem _ List.mem_cons_self
  rcases standsApart_of_reaches hrun i req op k hwait with ⟨hown, -⟩ | ⟨files, hoff, hclear⟩
  · exact absurd hown howner
  · cases op with
    | store call =>
        refine ⟨?_, ?_, ?_⟩
        · intro p hp f hentry hreads
          unfold ServerOp.Reads at hreads
          split at hreads
          · next q held heq =>
              cases heq
              exact hoff.1.1 q (List.mem_singleton_self q) (hreads ▸ hfiles p hp)
          · next heq => cases heq
          · exact hreads
        · intro p hp hlists
          exact hlists
        · intro p hp f hentry
          exact kept_of_exec hexec hoff.1.1 hoff.1.2 hclear (hfiles p hp) hentry
    | read file pos len =>
        rw [exec_read hexec]
        refine ⟨?_, fun p hp hlists => hlists, fun p hp f hentry => ⟨hentry, rfl⟩⟩
        intro p hp f hentry hreads
        exact (hclear file hoff.1).2 p (hfiles p hp) hreads
    | readDir dir =>
        obtain ⟨rfl, hfound⟩ := exec_readDir hexec
        refine ⟨fun p hp f hentry hreads => hreads, ?_, fun p hp f hentry => ⟨hentry, rfl⟩⟩
        intro p hp hlists
        obtain ⟨names, rfl, name, hname, hp'⟩ := ServerOp.names_of_lists hlists
        apply hok req dir k hwait howner p hp _ name hp'
        rw [hp']
        exact hfound names rfl name hname

end Sessions

/-! ### A download of a session's temporary -/

/-- `serde_json` on the metadata of one file. -/
def plainMetaJson : MetaJson where
  toText := sampleMetaJson.toText
  fromText := fun text =>
    if text = "\x7b\"path\":\"f\",\"size\":2,\"mtime\":0,\"etag\":\"\"\x7d".toList then
      .ok ⟨"f".toList, 2, 0, []⟩
    else .error "expected value at line 1 column 1".toList

/-- SHA-256 of two names. -/
def sampleSha256 : Sha256 where
  digest := fun m =>
    if m = utf8 "alice".toList then
      [43, 216, 6, 201, 127, 14, 0, 175, 26, 31, 195, 50, 143, 167, 99, 169, 38, 151, 35, 200,
        219, 143, 172, 79, 147, 175, 113, 219, 24, 109, 110, 144]
    else if m = utf8 "bob".toList then
      [129, 182, 55, 216, 252, 210, 198, 218, 99, 89, 230, 150, 49, 19, 161, 23, 13, 231, 149,
        228, 183, 37, 184, 77, 30, 11, 76, 253, 158, 197, 140, 233]
    else List.replicate 32 0
  length_digest := by
    intro m
    split
    · rfl
    · split
      · rfl
      · exact List.length_replicate

/-- A server without a path codec. -/
def sampleFiles : FileServer (List UInt8) where
  storage := sampleServer
  downloads := helloServer
  validate := PathValidator.new.validate 0
  json := plainMetaJson
  jsonError := fun
    | .io _ => "invalid base64 character".toList
    | .json m => m
  sha256 := sampleSha256

def claimsOf (sub : Text) : TokenClaims := ⟨sub, none, [.read, .write], ["/".toList]⟩

/-- The first byte of two, in a session. -/
def aliceUpload : ClientRequest (List UInt8) :=
  .upload (claimsOf "alice".toList) "f".toList
    ⟨some (headerBytes (encodeFileMetaHeader plainMetaJson ⟨"f".toList, 2, 0, []⟩)), none,
      some (headerBytes "s1".toList), some (headerBytes "0".toList), none⟩
    ⟨[.data [5]], .ok []⟩

def aliceSession : Session := sampleFiles.sessionOf "alice".toList "f".toList "s1".toList

/-- A download of the temporary that upload leaves. -/
def bobDownload : ClientRequest (List UInt8) :=
  .download (claimsOf "bob".toList) ".libfw-sess-2bd806c97f0e00af-s1-f".toList
    ⟨none, none, none, none, none⟩

/-- The upload, and the download up to its first read. -/
def peekingActs : List (ServerAct (List UInt8)) :=
  .start 0 aliceUpload :: (List.replicate 12 (.step 0 ⟨.go, []⟩) ++
    .start 1 bobDownload :: List.replicate 4 (.step 1 ⟨.go, []⟩))

/-- Request 1 is another subject's, and about to read the temporary. -/
def readsTemp (s : ServerState (List UInt8)) : Bool :=
  match s.task 1 with
  | .waiting req (.read file _ _) _ =>
      decide (ownerTag sampleFiles.sha256 req.claims.sub ≠ aliceSession.owner) &&
        decide (s.shared.disk.entry aliceSession.tmp = .file file)
  | _ => false

/-- **A download that names a session's temporary is sent its bytes.** -/
theorem session_temporary_downloaded :
    ¬ ∀ (srv : FileServer (List UInt8)) (sub path id : Text),
      IsolatedSession srv (srv.sessionOf sub path id) fun _ _ => True := by
  intro hall
  have hrun : ((serverSystem sampleFiles).run (idleServer sampleStore) peekingActs).any
      readsTemp = true := by
    decide +kernel
  obtain ⟨s, hs, hlast⟩ := (Option.any_eq_true _ _).1 hrun
  unfold readsTemp at hlast
  split at hlast
  · next req file pos len k hwait =>
      obtain ⟨howner, hentry⟩ := Bool.and_eq_true_iff.1 hlast
      have hfile : s.shared.disk.entry aliceSession.tmp = .file file := of_decide_eq_true hentry
      have hreach := System.reaches_of_run (fun _ _ _ => trivial) hs
      have huntouched := hall sampleFiles "alice".toList "f".toList "s1".toList sampleStore s 1 req
        (.read file pos len) k ⟨.go, []⟩ _ _ hreach hwait trivial rfl (of_decide_eq_true howner)
      exact huntouched.unread aliceSession.tmp List.mem_cons_self file hfile hfile
  · cases hlast

/-! ### Two subjects with one name for a session -/

/-- Bob's session of the same path, under the same name. -/
def bobUpload : ClientRequest (List UInt8) :=
  .upload (claimsOf "bob".toList) "f".toList
    ⟨some (headerBytes (encodeFileMetaHeader plainMetaJson ⟨"f".toList, 2, 0, []⟩)), none,
      some (headerBytes "s1".toList), some (headerBytes "0".toList), none⟩
    ⟨[.data [9]], .ok []⟩

/-- A test of `InSession` for Alice's session. -/
def inSessionNow (req : ClientRequest (List UInt8)) : Bool :=
  match req with
  | .upload claims _ hdrs body =>
      match sampleFiles.resolvePath req with
      | .error _ => false
      | .ok path =>
          match sampleFiles.uploadJob claims path hdrs body with
          | .error _ => false
          | .ok job => decide (aliceSession.Has job)
  | _ => false

theorem inSession_of_inSessionNow {req : ClientRequest (List UInt8)}
    (h : inSessionNow req = true) : InSession sampleFiles aliceSession req := by
  unfold inSessionNow at h
  split at h
  · next claims shadow hdrs body =>
      split at h
      · cases h
      · next path hpath =>
          split at h
          · cases h
          · next job hjob =>
              exact ⟨claims, shadow, hdrs, body, path, job, rfl, hpath, hjob, of_decide_eq_true h⟩
  · cases h

/-- A test of `NamesOthers` for requests of another subject. -/
def namesOthersNow (req : ClientRequest (List UInt8)) : Bool :=
  decide (ownerTag sampleFiles.sha256 req.claims.sub ≠ aliceSession.owner) &&
    match sampleFiles.resolvePath req with
    | .error _ => true
    | .ok path =>
        match resolve sampleFiles.storage.root path with
        | .error _ => true
        | .ok full => aliceSession.allFiles.all fun p => !decide (p = full)

theorem namesOthers_of_namesOthersNow {req : ClientRequest (List UInt8)}
    (h : namesOthersNow req = true) : NamesOthers sampleFiles aliceSession req := by
  obtain ⟨howner, hfull⟩ := Bool.and_eq_true_iff.1 h
  intro path full hpath hres
  rw [hpath] at hfull
  dsimp only at hfull
  rw [hres] at hfull
  refine ⟨?_, fun h => absurd h (of_decide_eq_true howner)⟩
  intro hmem
  have hne := (Bool.not_eq_true' _).mp (List.all_eq_true.1 hfull full hmem)
  exact of_decide_eq_false hne rfl

/-- A test of `SparesSession`: nobody lists a directory. -/
def sparesSessionNow (s : ServerState (List UInt8)) : ServerAct (List UInt8) → Bool
  | .start _ req => inSessionNow req || namesOthersNow req
  | .step i _ =>
      match s.task i with
      | .waiting _ (.readDir _) _ => false
      | _ => true
  | _ => true

theorem sparesSession_of_sparesSessionNow {s : ServerState (List UInt8)}
    {a : ServerAct (List UInt8)} (h : sparesSessionNow s a = true) :
    SparesSession sampleFiles aliceSession s a := by
  cases a with
  | start i req =>
      rcases Bool.or_eq_true_iff.1 h with hin | hothers
      · exact Or.inl (inSession_of_inSessionNow hin)
      · exact Or.inr (Or.inr (namesOthers_of_namesOthersNow hothers))
  | step i c =>
      intro req dir k hwait
      unfold sparesSessionNow at h
      dsimp only at h
      rw [hwait] at h
      cases h
  | drop i => trivial
  | env e => trivial

/-- Alice's byte is stored while Bob's is about to be. -/
def sameNameActs : List (ServerAct (List UInt8)) :=
  [.start 0 aliceUpload, .start 1 bobUpload] ++
    (List.replicate 7 [.step 0 ⟨.go, []⟩, .step 1 ⟨.go, []⟩]).flatten ++
    List.replicate 5 (.step 0 ⟨.go, []⟩)

/-- Request 1 is Bob's and can write its byte, and Alice's temporary is there. -/
def writesBeside (s : ServerState (List UInt8)) : Bool :=
  match s.task 1 with
  | .waiting req op _ =>
      decide (ownerTag sampleFiles.sha256 req.claims.sub ≠ aliceSession.owner) &&
        (s.shared.disk.entry aliceSession.tmp).isFile &&
        (op.exec sampleServer.serde 1 ⟨.go, []⟩ s.shared).isSome &&
        match op with
        | .store (.writeAt _ _ _, _) => true
        | _ => false
  | _ => false

/-- **Bob's write leaves Alice's session of that name alone.** -/
theorem same_name_sessions_apart :
    ∃ s req op k t a, (serverSystem sampleFiles).Reaches (SparesSession sampleFiles aliceSession)
        (idleServer sampleStore) s ∧
      s.task 1 = .waiting req op k ∧ (s.shared.disk.entry aliceSession.tmp).isFile = true ∧
      op.exec sampleServer.serde 1 ⟨.go, []⟩ s.shared = some (t, a) ∧
      SessionUntouched aliceSession op s.shared t a := by
  have hrun : ((serverSystem sampleFiles).runIf sparesSessionNow (idleServer sampleStore)
      sameNameActs).any (fun s => sparesSessionNow s (.step 1 ⟨.go, []⟩) && writesBeside s) =
        true := by
    decide +kernel
  obtain ⟨s, hs, hlast⟩ := (Option.any_eq_true _ _).1 hrun
  obtain ⟨hok, hbeside⟩ := Bool.and_eq_true_iff.1 hlast
  have hreach := System.reaches_of_runIf
    (fun _ _ h => sparesSession_of_sparesSessionNow h) hs
  unfold writesBeside at hbeside
  split at hbeside
  · next req op k hwait =>
      obtain ⟨hbefore, -⟩ := Bool.and_eq_true_iff.1 hbeside
      obtain ⟨hboth, hexec⟩ := Bool.and_eq_true_iff.1 hbefore
      obtain ⟨howner, htemp⟩ := Bool.and_eq_true_iff.1 hboth
      obtain ⟨⟨t, a⟩, hexec⟩ := Option.isSome_iff_exists.1 hexec
      exact ⟨s, req, op, k, t, a, hreach, hwait, htemp, hexec,
        sessions_isolated sampleFiles "alice".toList "f".toList "s1".toList sampleStore s 1 req op
          k ⟨.go, []⟩ t a hreach hwait (sparesSession_of_sparesSessionNow hok) hexec
          (of_decide_eq_true howner)⟩
  · cases hbeside

end Libfw

import Libfw.MetaHeaders
import Libfw.PathResolution
import Libfw.RangeNegotiation
import Libfw.SoloPrograms
import Libfw.UploadSystem

/-!
# Every request over one store

The handlers `download`, `head_file`, `upload` and `list_dir` of
`libfw-server/src/handlers.rs` from the client's path on, with what they use of `FsStorage`:
the token has been verified, and axum has matched the route.

`serverSystem` runs any number of requests of any kind over one store, one awaited call a
step.  What an upload does once its headers have been read is `runUpload`.
-/

namespace Libfw

open SteppedPrograms SoloPrograms

/-! ## Calls -/

/-- The calls of a request: those of the upload code, a piece of an open file being read,
and a directory being read. -/
inductive ServerOp where
  | store (call : Call)
  | read (file pos len : Nat)
  | readDir (path : FsPath)

/-- What a call answers. -/
def ServerOp.Ans : ServerOp → Type
  | .store call => call.Ans
  | .read _ _ _ => Except IoError (List UInt8)
  | .readDir _ => Except IoError (List Text)

/-- What the surroundings decide about a call; and the names a scan of a directory finds. -/
structure ServerChoice where
  call : Choice
  names : List Text

/-- The bytes of a file; a hole reads as zeros. -/
def Content.bytesOf (serde : Serde) (c : Content) : List UInt8 :=
  (c.cells serde).map (·.getD 0)

/-- The meaning of a call by request `i`.  A scan finds names of the directory; beside
changes it may miss some, so nothing is said of what it leaves out. -/
def ServerOp.exec (serde : Serde) (i : Nat) :
    (op : ServerOp) → ServerChoice → Store → Option (Store × op.Ans)
  | .store call, c, s => call.1.exec serde i c.call s
  | .read file pos len, c, s =>
      match c.call with
      | .go => some (s, .ok ((((s.content file).bytesOf serde).drop pos).take len))
      | .fail _ m => some (s, .error ⟨false, m⟩)
  | .readDir path, c, s =>
      match c.call with
      | .go =>
          match s.disk.entry path with
          | .absent => some (s, .error .noEntry)
          | .file _ => some (s, .error .notDirectory)
          | .dir =>
              if c.names.Nodup ∧ ∀ name ∈ c.names, s.disk.entry (path ++ [.normal name]) ≠ .absent
              then some (s, .ok c.names) else none
      | .fail _ m => some (s, .error ⟨false, m⟩)

theorem exec_read {serde : Serde} {i file pos len : Nat} {c : ServerChoice} {s t : Store}
    {a : (ServerOp.read file pos len).Ans}
    (h : ServerOp.exec serde i (.read file pos len) c s = some (t, a)) : t = s := by
  obtain ⟨call, names⟩ := c
  cases call with
  | go =>
      cases h
      rfl
  | fail done m =>
      cases h
      rfl

/-- A scan changes nothing, and finds what is there. -/
theorem exec_readDir {serde : Serde} {i : Nat} {path : FsPath} {c : ServerChoice} {s t : Store}
    {a : (ServerOp.readDir path).Ans}
    (h : ServerOp.exec serde i (.readDir path) c s = some (t, a)) :
    t = s ∧ ∀ names, a = .ok names →
      ∀ name ∈ names, s.disk.entry (path ++ [.normal name]) ≠ .absent := by
  obtain ⟨call, names⟩ := c
  cases call with
  | fail done m =>
      cases h
      exact ⟨rfl, fun _ hn => nomatch hn⟩
  | go =>
      simp only [ServerOp.exec] at h
      split at h
      · cases h
        exact ⟨rfl, fun _ hn => nomatch hn⟩
      · cases h
        exact ⟨rfl, fun _ hn => nomatch hn⟩
      · split at h
        · next hfound =>
            cases h
            refine ⟨rfl, ?_⟩
            intro found hn
            cases hn
            exact hfound.2
        · cases h

/-! ## Handlers -/

/-- An async handler that returns a `Result`. -/
def Handler (ε α : Type) : Type := Prog ServerOp ServerOp.Ans (Except ε α)

namespace Handler

variable {ε ε' α β : Type}

def ret (a : α) : Handler ε α := .done (.ok a)

def fail (e : ε) : Handler ε α := .done (.error e)

instance : Monad (Handler ε) where
  pure := ret
  bind := okThen

/-- Await a call on the store. -/
def ask (op : Op) : Handler ε op.Ans := .call (.store (op, Held.nothing)) fun a => .done (.ok a)

/-- Await a piece of an open file. -/
def readPiece (file pos len : Nat) : Handler ε (Except IoError (List UInt8)) :=
  .call (.read file pos len) fun a => .done (.ok a)

/-- Await the names in a directory. -/
def scan (path : FsPath) : Handler ε (Except IoError (List Text)) :=
  .call (.readDir path) fun a => .done (.ok a)

def lift : Except ε α → Handler ε α
  | .ok a => ret a
  | .error e => fail e

/-- Run a function and keep its `Result` as a value. -/
def attempt (x : Handler ε α) : Handler ε' (Except ε α) := x.bind ret

/-- `map_err` followed by `?`. -/
def orElse (f : ε → ε') (x : Handler ε α) : Handler ε' α :=
  x.bind fun r => lift (r.mapError f)

/-- `map_err(StorageError::Other)?` on the result of a call. -/
def other (r : Except IoError α) : Handler StorageError α :=
  lift (r.mapError fun e => .other e.message)

/-- The upload code asks for nothing but calls on the store. -/
def ofCode {ρ : Type} : Code ρ → Prog ServerOp ServerOp.Ans ρ
  | .done r => .done r
  | .call call k => .call (.store call) fun a => ofCode (k a)

/-- A function of the upload code, from its start. -/
def ofFs (x : Fs ε α) : Handler ε α := (ofCode (x Held.nothing)).bind fun r => .done r.1

end Handler

open Handler

/-! ## Storage -/

/-- `DirEntry`. -/
structure DirEntry where
  path : Text
  isDir : Bool
  size : Nat
  mtime : Nat
  deriving DecidableEq

namespace FsStorage

variable (root : FsPath)

/-- How every function of the storage begins. -/
def checkedPath (path : Text) : Handler StorageError FsPath := do
  let full ← lift ((resolve root path).mapError .unsupported)
  other (← ask (.checkSymlinks full))
  ret full

def directoryMessage : Text := "path is a directory".toList

/-- `file_meta`. -/
def fileMeta (etag : Nat → Nat → Text) (path : Text) :
    Handler StorageError (Option FileMeta) := do
  let full ← checkedPath root path
  match ← ask (.metadata full) with
  | .error e => if e.notFound then ret none else fail (.other e.message)
  | .ok stat =>
      if stat.isDir then fail (.unsupported directoryMessage)
      else ret (some (FsSink.fileMetaAt etag path stat))

/-- `read_stream`: the open file.  To seek in it is no call of its own. -/
def readStream (path : Text) : Handler StorageError Nat := do
  let full ← checkedPath root path
  other (← ask (.openExisting full))

/-- An entry of a directory: `entry.metadata`. -/
def dirEntry (full : FsPath) (path name : Text) : Handler StorageError DirEntry := do
  let stat ← other (← ask (.metadata (full ++ [.normal name])))
  ret ⟨if path = [] then name else path ++ '/' :: name, stat.isDir,
    if stat.isDir then 0 else stat.size, stat.mtime / 1000000000⟩

/-- The entries of a directory, one by one. -/
def dirEntries (full : FsPath) (path : Text) : List Text → Handler StorageError (List DirEntry)
  | [] => ret []
  | name :: rest => do
      let entry ← dirEntry full path name
      let entries ← dirEntries full path rest
      ret (entry :: entries)

/-- `list_dir`. -/
def listDir (path : Text) : Handler StorageError (List DirEntry) := do
  let full ← lift (if path = [] then .ok root else (resolve root path).mapError .unsupported)
  other (← ask (.checkSymlinks full))
  match ← scan full with
  | .error e => if e.notFound then fail (.notFound path) else fail (.other e.message)
  | .ok names => do
      let entries ← dirEntries full path names
      ret (entries.mergeSort fun a b => decide (¬ b.path < a.path))

end FsStorage

/-! ## The server -/

/-- SHA-256, as far as it is used: a digest of 32 bytes. -/
structure Sha256 where
  digest : List UInt8 → List UInt8
  length_digest : ∀ m, (digest m).length = 32

/-- `ServerState`, with what its handlers get from third parties: SHA-256, and the text of a
`serde_json` error beside what `Server` and `DownloadServer` have. -/
structure FileServer (V : Type) where
  storage : Server
  downloads : DownloadServer V
  validate : Validator
  json : MetaJson
  jsonError : MetaHeaderError → Text
  sha256 : Sha256

/-- `HEX`. -/
def HEX : List Char := "0123456789abcdef".toList

/-- `owner_tag`. -/
def ownerTag (sha256 : Sha256) (sub : Text) : Text :=
  ((sha256.digest (utf8 sub)).take 8).flatMap fun b =>
    [HEX.getD (b.toNat / 16) '0', HEX.getD (b.toNat % 16) '0']

/-- The headers `upload` looks at. -/
structure UploadHeaders (V : Type) where
  fileMeta : Option V
  finalChunk : Option V
  session : Option V
  offset : Option V
  sessionStatus : Option V

/-- A request whose token has been verified.  The body of an upload has been decompressed. -/
inductive ClientRequest (V : Type) where
  | download (claims : TokenClaims) (path : Text) (hdrs : DownloadHeaders V)
  | head (claims : TokenClaims) (path : Text) (hdrs : DownloadHeaders V)
  | upload (claims : TokenClaims) (path : Text) (hdrs : UploadHeaders V) (body : Body)
  | list (claims : TokenClaims) (path : Text)

namespace ClientRequest

variable {V : Type}

def claims : ClientRequest V → TokenClaims
  | .download claims _ _ | .head claims _ _ | .upload claims _ _ _ | .list claims _ => claims

def path : ClientRequest V → Text
  | .download _ path _ | .head _ path _ | .upload _ path _ _ | .list _ path => path

/-- What the client wants to do. -/
def action : ClientRequest V → Action
  | .upload _ _ _ _ => .write
  | _ => .read

end ClientRequest

/-- What a response carries.  A download whose file cannot be read on breaks off. -/
inductive ResponseBody where
  | error (body : ErrorBody)
  | empty
  | bytes (data : List UInt8)
  | broken
  | file (file : FileMeta)
  | ranges (ranges : List ChunkRange)
  | entries (entries : List DirEntry)
  deriving DecidableEq

structure ServerResponse where
  status : Nat
  headers : List (Text × Text)
  body : ResponseBody
  deriving DecidableEq

/-- `into_response` of an error. -/
def ApiError.toResponse (e : ApiError) : ServerResponse := ⟨e.response.1, [], .error e.response.2⟩

def STREAM_BUF_SIZE : Nat := 64 * 1024

/-- The reader of a download, taken to its end: pieces until nothing is left. -/
def readPieces (file : Nat) : Nat → Nat → Nat → Handler Unit (List UInt8)
  | 0, _, _ => ret []
  | fuel + 1, pos, left => do
      if left = 0 then ret []
      else
        match ← readPiece file pos (min STREAM_BUF_SIZE left) with
        | .error _ => fail ()
        | .ok [] => ret []
        | .ok piece => do
            let rest ← readPieces file fuel (pos + piece.length) (left - piece.length)
            ret (piece ++ rest)

namespace FileServer

variable {V : Type} (srv : FileServer V)

/-- The real path of a request. -/
def resolvePath (req : ClientRequest V) : Except ApiError Text :=
  (resolveClientPath srv.storage.codec srv.validate req.claims req.path req.action).mapError
    resolveError

theorem canonical_of_resolvePath {req : ClientRequest V} {path : Text}
    (h : srv.resolvePath req = .ok path) : Canonical path := by
  unfold resolvePath at h
  cases hresolved : resolveClientPath srv.storage.codec srv.validate req.claims req.path
      req.action with
  | error e =>
      rw [hresolved] at h
      cases h
  | ok real =>
      rw [hresolved] at h
      cases h
      exact canonical_of_decodeClientPath (resolveClientPath_eq_ok_iff.1 hresolved).1

/-- `plan_download`: the plan, and the span of the open file to be sent. -/
def planDownload (path : Text) (hdrs : DownloadHeaders V) (withReader : Bool) :
    Handler Stopped (DownloadPlan × Option (Nat × RangeSpec)) := do
  let path ← lift ((validateRelPath path).mapError fun m => Stopped.failed (.badRequest m))
  let found ← orElse (fun e => Stopped.failed (.storage e))
    (FsStorage.fileMeta srv.storage.root srv.storage.etag path)
  match found with
  | none => fail (.failed (.notFound path))
  | some fileMeta =>
      if srv.downloads.notModified hdrs fileMeta.etag then fail (.failed .notModified)
      else
        match srv.downloads.requestedRange hdrs with
        | none => fail (.failed .rangeMalformed)
        | some asked => do
            let range := srv.downloads.honoured hdrs fileMeta.etag asked
            let spec ← lift ((DownloadServer.resolveRange fileMeta.size range).mapError
              Stopped.failed)
            let reader ←
              if withReader then do
                let file ← orElse (fun e => Stopped.failed (.storage e))
                  (FsStorage.readStream srv.storage.root path)
                ret (some (file, spec))
              else ret none
            let plan ← lift (srv.downloads.planSpan path fileMeta hdrs false range.isSome spec)
            ret (plan, reader)

/-- `download`, after its path has been resolved. -/
def download (path : Text) (hdrs : DownloadHeaders V) : Handler Stopped ServerResponse := do
  let (plan, reader) ← srv.planDownload path hdrs true
  match reader with
  | none => ret ⟨plan.status, plan.headers, .empty⟩
  | some (file, spec) => do
      match ← attempt (readPieces file spec.len spec.start spec.len) with
      | .ok data =>
          ret ⟨plan.status, plan.headers,
            .bytes (srv.downloads.bodyStream data plan.format plan.level)⟩
      | .error _ => ret ⟨plan.status, plan.headers, .broken⟩

/-- `head_file`, after its path has been resolved. -/
def headFile (path : Text) (hdrs : DownloadHeaders V) : Handler Stopped ServerResponse := do
  let (plan, _) ← srv.planDownload path hdrs false
  ret ⟨plan.status, plan.headers, .empty⟩

/-- `list_dir_impl`, after its path has been resolved. -/
def listDir (path : Text) : Handler Stopped ServerResponse := do
  let entries ← orElse (fun e => Stopped.failed (.storage e))
    (FsStorage.listDir srv.storage.root path)
  ret ⟨200, [], .entries (entries.map fun e =>
    { e with path := srv.storage.exposePath e.path })⟩

def missingMeta : ApiError := .badRequest "missing `x-libfw-file-meta` header".toList

/-- A header whose value is `1` or `true`. -/
def isSet (v : Text) : Bool := trim v = ['1'] || eqIgnoreAsciiCase (trim v) "true".toList

/-- The session of an upload: a blank id is none. -/
def sessionKey (claims : TokenClaims) (hdrs : UploadHeaders V) : Option SessionKey :=
  let id := ((hdrs.session.bind srv.downloads.toStr).map trim).filter (· ≠ [])
  let probe := (hdrs.sessionStatus.bind srv.downloads.toStr).any fun v =>
    isSet v || eqIgnoreAsciiCase (trim v) "probe".toList
  id.map fun id => ⟨id, ownerTag srv.sha256 claims.sub, probe⟩

/-- What `upload` reads from the headers. -/
def uploadJob (claims : TokenClaims) (path : Text) (hdrs : UploadHeaders V) (body : Body) :
    Except ApiError UploadJob := do
  let metaHeader ← match hdrs.fileMeta.bind srv.downloads.toStr with
    | none => .error missingMeta
    | some v => .ok v
  let fileMeta ← (decodeFileMetaHeader srv.json metaHeader).mapError fun e =>
    .badRequest ("invalid file meta: ".toList ++ srv.jsonError e)
  if srv.storage.maxUploadSize < fileMeta.size then
    .error (.payloadTooLarge srv.storage.maxUploadSize)
  else
    .ok ⟨path, fileMeta, (hdrs.finalChunk.bind srv.downloads.toStr).any isSet,
      hdrs.offset.bind srv.downloads.toStr, srv.sessionKey claims hdrs, body⟩

/-- An upload keeps its path, and its session is its subject's. -/
theorem uploadJob_eq_ok {claims : TokenClaims} {path : Text} {hdrs : UploadHeaders V} {body : Body}
    {job : UploadJob} (h : srv.uploadJob claims path hdrs body = .ok job) :
    job.path = path ∧ job.session = srv.sessionKey claims hdrs := by
  unfold uploadJob at h
  cases hmeta : hdrs.fileMeta.bind srv.downloads.toStr with
  | none =>
      rw [hmeta] at h
      cases h
  | some header =>
      rw [hmeta] at h
      cases hdecoded : (decodeFileMetaHeader srv.json header).mapError fun e =>
          ApiError.badRequest ("invalid file meta: ".toList ++ srv.jsonError e) with
      | error e =>
          have hfailed : (Except.error e : Except ApiError UploadJob) = .ok job := by
            rw [← h]
            simp only [bind, Except.bind, hdecoded]
          cases hfailed
      | ok fileMeta =>
          have hread : (if srv.storage.maxUploadSize < fileMeta.size then
              .error (.payloadTooLarge srv.storage.maxUploadSize) else
              .ok ⟨path, fileMeta, (hdrs.finalChunk.bind srv.downloads.toStr).any isSet,
                hdrs.offset.bind srv.downloads.toStr, srv.sessionKey claims hdrs, body⟩ :
              Except ApiError UploadJob) = .ok job := by
            rw [← h]
            simp only [bind, Except.bind, hdecoded]
          split at hread
          · cases hread
          · cases hread
            exact ⟨rfl, rfl⟩

/-- `upload`, after its headers have been read. -/
def serveUpload (job : UploadJob) : Handler Stopped ServerResponse := do
  let reply ← orElse Stopped.failed (ofFs (runUpload srv.storage job))
  match reply with
  | .created file => ret ⟨201, [], .file file⟩
  | .status ranges => ret ⟨200, [], .ranges ranges⟩

/-- `upload`, after its path has been resolved. -/
def upload (claims : TokenClaims) (path : Text) (hdrs : UploadHeaders V) (body : Body) :
    Handler Stopped ServerResponse := do
  let job ← lift ((srv.uploadJob claims path hdrs body).mapError Stopped.failed)
  srv.serveUpload job

/-- A request after its path has been resolved. -/
def handle (path : Text) : ClientRequest V → Handler Stopped ServerResponse
  | .download _ _ hdrs => srv.download path hdrs
  | .head _ _ hdrs => srv.headFile path hdrs
  | .upload claims _ hdrs body => srv.upload claims path hdrs body
  | .list _ _ => srv.listDir path

/-- A request, up to its response; none if it panics on an overflow. -/
def serve (req : ClientRequest V) : Prog ServerOp ServerOp.Ans (Option ServerResponse) :=
  match srv.resolvePath req with
  | .error e => .done (some e.toResponse)
  | .ok path =>
      (srv.handle path req).bind fun
        | .ok response => .done (some response)
        | .error (.failed e) => .done (some e.toResponse)
        | .error .overflowed => .done none

end FileServer

/-- The requests of a server, interleaved call by call. -/
def serverSystem {V : Type} (srv : FileServer V) :
    System ServerOp ServerOp.Ans (ClientRequest V) (Option ServerResponse) ServerChoice Outside
      Store where
  code := srv.serve
  exec := fun i op c s => op.exec srv.storage.serde i c s
  enter := fun _ _ s => s
  leave := fun i s => s.release i
  disturb := Outside.apply

abbrev ServerState (V : Type) :=
  State ServerOp ServerOp.Ans (ClientRequest V) (Option ServerResponse) Store

abbrev ServerAct (V : Type) := Act (ClientRequest V) ServerChoice Outside

/-- No request has started. -/
def idleServer {V : Type} (s : Store) : ServerState V := ⟨s, fun _ => .idle⟩

end Libfw

import Libfw.FsStorage

/-!
# The upload handlers

`upload_session` and the sequential part of `upload` in
`libfw-server/src/handlers.rs`, from the point where the headers of a request
have been read: an `UploadJob` is such a request.

The decompressor works on the request's own bytes only, so a job carries its
body already decompressed, as the events the streaming loop sees: batches, a
body that breaks off, data the decompressor rejects.  `decodeBody` makes those
events from the raw chunks.
-/

namespace Libfw

open SteppedPrograms Fs FsStorage

/-- Static configuration of the server, with what it gets from third parties:
`serde_json` for sidecars, the SHA-256 text of `etag_from_size_mtime`. -/
structure Server where
  root : FsPath
  serde : Serde
  etag : Nat → Nat → Text
  maxUploadSize : Nat
  codec : PathCodec

/-- `ServerState::expose_path`. -/
def Server.exposePath (srv : Server) (real : Text) : Text := srv.codec.encode real

/-! ## Request bodies -/

/-- One turn of the streaming loop: a batch of decompressed bytes, a transport
error, or a chunk the decompressor rejects. -/
inductive BodyEvent where
  | data (bytes : List UInt8)
  | broken (message : Text)
  | invalid (message : Text)
  deriving DecidableEq

/-- The events of a body, and what `decomp.finish` gives after them. -/
structure Body where
  events : List BodyEvent
  finish : Except Text (List UInt8)

/-- `Decompressor`, with its state explicit. -/
structure Decompressor (δ : Type) where
  decompress : δ → List UInt8 → Except Text (δ × List UInt8)
  finish : δ → Except Text (List UInt8)

/-- The events of a stream of chunks, up to the first error. -/
def decodeBody {δ : Type} (decomp : Decompressor δ) :
    δ → List (Except Text (List UInt8)) → Body
  | state, [] => ⟨[], decomp.finish state⟩
  | _, .error m :: _ => ⟨[.broken m], .ok []⟩
  | state, .ok chunk :: rest =>
      match decomp.decompress state chunk with
      | .error e => ⟨[.invalid e], .ok []⟩
      | .ok (state', out) =>
          let body := decodeBody decomp state' rest
          ⟨.data out :: body.events, body.finish⟩

/-- Why the streaming loop stopped: `disconnected` is set when the request body
itself failed. -/
structure StreamError where
  error : ApiError
  disconnected : Bool
  deriving DecidableEq

/-- Write one batch unless it is empty; `count` bytes went before. -/
def writeSome (writeBatch : Nat → List UInt8 → Fs ApiError Unit) (count : Nat)
    (data : List UInt8) : Fs StreamError Nat :=
  if data = [] then ret count
  else do
    orElse (fun e => ⟨e, false⟩) (writeBatch count data)
    ret (satAdd count data.length)

/-- The loop over the body stream. -/
def streamEvents (writeBatch : Nat → List UInt8 → Fs ApiError Unit) :
    Nat → List BodyEvent → Fs StreamError Nat
  | count, [] => ret count
  | count, event :: rest => do
      await .nextChunk
      match event with
      | .broken m => fail ⟨.io m, true⟩
      | .invalid m => fail ⟨.badRequest ("compressed stream invalid: ".toList ++ m), false⟩
      | .data bytes => do
          let count ← writeSome writeBatch count bytes
          streamEvents writeBatch count rest

/-- The whole body: the loop, the end of the stream, the decompressor's tail.
The result is the number of bytes written. -/
def streamBody (writeBatch : Nat → List UInt8 → Fs ApiError Unit) (body : Body) :
    Fs StreamError Nat := do
  let count ← streamEvents writeBatch 0 body.events
  await .nextChunk
  match body.finish with
  | .error e => fail ⟨.badRequest ("compressed stream truncated: ".toList ++ e), false⟩
  | .ok out => writeSome writeBatch count out

/-! ## Upload requests -/

/-- A session request's own headers: session id, owner tag, status probe. -/
structure SessionKey where
  id : Text
  owner : Text
  statusProbe : Bool
  deriving DecidableEq

/-- An upload request whose headers have been read. -/
structure UploadJob where
  path : Text
  fileMeta : FileMeta
  finalChunk : Bool
  offsetHdr : Option Text
  session : Option SessionKey
  body : Body

/-- The answer of a successful upload request. -/
inductive Reply where
  | created (file : FileMeta)
  | status (ranges : List ChunkRange)
  deriving DecidableEq

/-- `str::trim`. -/
def trim (t : Text) : Text :=
  ((t.dropWhile isWhitespace).reverse.dropWhile isWhitespace).reverse

/-- `str::parse::<u64>`. -/
def parseU64 (t : Text) : Option Nat :=
  let digits := match t with
    | '+' :: rest => rest
    | t => t
  if digits = [] then none
  else if digits.all Char.isDigit then
    let n := Nat.ofDigitChars 10 digits 0
    if n < 2 ^ 64 then some n else none
  else none

theorem lt_of_parseU64 {t : Text} {n : Nat} (h : parseU64 t = some n) : n < 2 ^ 64 := by
  unfold parseU64 at h
  dsimp only at h
  split_ifs at h with hempty hdigits hlt
  cases h
  exact hlt

def invalidOffset : ApiError := .badRequest "invalid `x-libfw-offset`".toList

def exceedsDeclared : ApiError :=
  .badRequest "uploaded bytes exceed the declared file size".toList

/-- `write_at_batch`. -/
def writeAtBatch (srv : Server) (sink : FsSink) (baseOffset metaSize written : Nat)
    (data : List UInt8) : Fs ApiError Unit :=
  let abs := satAdd baseOffset written
  let stop := satAdd abs data.length
  if srv.maxUploadSize < stop then fail (.payloadTooLarge srv.maxUploadSize)
  else if metaSize < stop then fail exceedsDeclared
  else orElse .storage (sink.writeAt srv.serde abs data)

/-- `write_batch`. -/
def writeBatch (srv : Server) (sink : FsSink) (resumeOffset metaSize written : Nat)
    (data : List UInt8) : Fs ApiError Unit :=
  let total := satAdd resumeOffset (satAdd written data.length)
  if srv.maxUploadSize < total then fail (.payloadTooLarge srv.maxUploadSize)
  else if metaSize < total then fail exceedsDeclared
  else orElse .storage (sink.write data)

/-- Abort the sink, then fail. -/
def abortWith {α : Type} (sink : FsSink) (e : ApiError) : Fs ApiError α := do
  let _ ← attempt sink.abort
  fail e

/-- `iter().map(end - start).sum::<u64>()`. -/
def coveredBytes (ranges : List ChunkRange) : Nat :=
  HalfOpenRanges.totalLength ranges % 2 ^ 64

def wrongLength (len size : Nat) : ApiError :=
  .badRequest ("commit yields ".toList ++ decimal len
    ++ " bytes but the declared file size is ".toList ++ decimal size)

def missingBlocks (covered size : Nat) : ApiError :=
  .badRequest ("commit covers ".toList ++ decimal covered
    ++ " bytes but the declared file size is ".toList ++ decimal size
    ++ "; some blocks are missing".toList)

/-- Commit and answer with the shadow path. -/
def commitReply (srv : Server) (sink : FsSink) : Fs ApiError Reply := do
  let committed ← orElse .storage (sink.commit srv.etag)
  ret (.created { committed with path := srv.exposePath committed.path })

/-- The final request of a session: length check, coverage check, commit. -/
def finishSession (srv : Server) (sink : FsSink) (size : Nat) : Fs ApiError Reply := do
  let len ← orElse .storage sink.len
  if len ≠ size then abortWith sink (wrongLength len size)
  else do
    let received ← orElse .storage FsSink.receivedRanges
    if received ≠ [] ∧ coveredBytes received ≠ size then
      abortWith sink (missingBlocks (coveredBytes received) size)
    else commitReply srv sink

/-- `base_offset` of `upload_session`. -/
def baseOffset : Option Text → Except ApiError Nat
  | none => .ok 0
  | some off =>
      match parseU64 (trim off) with
      | some n => .ok n
      | none => .error invalidOffset

/-- `create_mode` of `upload_session`. -/
def createMode (offsetHdr : Option Text) : WriteMode :=
  if offsetHdr.isNone then .create else .overwrite

/-- A session request after its sink is open: probe, or write and finish. -/
def serveSession (srv : Server) (job : UploadJob) (key : SessionKey) (base : Nat)
    (sink : FsSink) : Fs ApiError Reply := do
  if key.statusProbe then do
    let ranges ← orElse .storage FsSink.receivedRanges
    ret (.status ranges)
  else
    match ← attempt (streamBody (writeAtBatch srv sink base job.fileMeta.size) job.body) with
    | .error e => if e.disconnected then fail e.error else abortWith sink e.error
    | .ok _ =>
        if job.finalChunk then finishSession srv sink job.fileMeta.size
        else ret (.created job.fileMeta)

/-- `upload_session`. -/
def uploadSession (srv : Server) (job : UploadJob) (key : SessionKey) :
    Fs ApiError Reply := do
  let base ← lift (baseOffset job.offsetHdr)
  let sink ← orElse .storage (writeStreamSession srv.serde srv.root job.path key.id
    key.owner (createMode job.offsetHdr))
  serveSession srv job key base sink

/-- The write mode of a sequential upload: absent offset is Create, `0` is
Overwrite, `N > 0` is Resume. -/
def writeMode : Option Text → Except ApiError WriteMode
  | none => .ok .create
  | some off =>
      match parseU64 (trim off) with
      | some 0 => .ok .overwrite
      | some n => .ok (.resume n)
      | none => .error invalidOffset

def WriteMode.resumeOffset : WriteMode → Nat
  | .resume offset => offset
  | _ => 0

def wrongFinalSize (finalSize size : Nat) : ApiError :=
  .badRequest ("final chunk yields ".toList ++ decimal finalSize
    ++ " bytes but the declared file size is ".toList ++ decimal size)

/-- A sequential upload after its sink is open. -/
def serveSequential (srv : Server) (job : UploadJob) (mode : WriteMode) (sink : FsSink) :
    Fs ApiError Reply := do
  match ← attempt (streamBody (writeBatch srv sink mode.resumeOffset job.fileMeta.size)
      job.body) with
  | .error e => abortWith sink e.error
  | .ok appended =>
      let finalSize := satAdd mode.resumeOffset appended
      if job.finalChunk ∧ finalSize ≠ job.fileMeta.size then
        abortWith sink (wrongFinalSize finalSize job.fileMeta.size)
      else commitReply srv sink

/-- The sequential part of `upload`. -/
def uploadSequential (srv : Server) (job : UploadJob) : Fs ApiError Reply := do
  let mode ← lift (writeMode job.offsetHdr)
  let sink ← orElse .storage (writeStream srv.root job.path mode)
  serveSequential srv job mode sink

/-- `upload`, once the headers have been read. -/
def runUpload (srv : Server) (job : UploadJob) : Fs ApiError Reply :=
  match job.session with
  | some key => uploadSession srv job key
  | none => uploadSequential srv job

end Libfw

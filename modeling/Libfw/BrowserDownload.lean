import Libfw.PlayedPrograms
import Libfw.TransferPlans

/-!
# Downloads of the browser engine

`download_file` of `libfw-client/src/download.rs`, cut at what it asks of its
surroundings: the server, the callbacks of the SDK, the tuning engine and the user
who may cancel.  Each of these answers as it likes.

The range requests of one batch run side by side and are asked for together
(`fetchBatch`): the answer tells what every attempt of every chunk got, and which of
the errors came first.  The main loop is `downloadRound`, one attempt at the whole
file; nothing in the code bounds their number, so `downloadFileBrowser` is given one.
Waiting (pauses, backoff) and logging are left out, and of the tuning engine all but
the parameters it hands out.
-/

namespace Libfw

open SteppedPrograms PlayedPrograms

/-- `FileEntry`, as listed by the server. -/
structure FileEntry where
  path : Text
  size : Nat
  deriving DecidableEq

/-- What ends a response body early. -/
inductive BodyError where
  | broken (message : Text)
  | undecodable (message : Text)
  | callback (message : Text)
  deriving DecidableEq

def BodyError.toClient : BodyError → ClientError
  | .broken m => .network m
  | .undecodable m => .decompress m
  | .callback m => .js m

/-- What each read of a body decompresses to, and what the decompressor held back. -/
structure StreamBody where
  pieces : List (Except BodyError (List UInt8))
  finish : Except Text (List UInt8)

/-- The answer to `HEAD`. -/
structure HeadResponse where
  status : Nat
  etag : Option Text
  contentLength : Option Nat

/-- The answer to a range request that is streamed. -/
structure GetResponse where
  status : Nat
  etag : Option Text
  contentRangeStart : Option Nat
  body : StreamBody

/-- What one attempt at a chunk meets.  `reported` is the last progress callback. -/
inductive ChunkReply where
  | cancelled
  | failed (message : Text)
  | answered (status : Nat) (body : StreamBody) (reported : Except Text Unit)

/-- The attempts of every chunk of a batch, and the error that came first. -/
structure BatchReply where
  attempt : Nat → Nat → ChunkReply
  first : Nat

/-- What a download asks of its surroundings. -/
inductive BrowserOp where
  | onFileStart
  | loadState
  | ready
  | progress (bytes : Nat)
  | head
  | live
  | fetchBatch (etag : Text) (batch : List (Nat × Nat))
  | get (offset : Nat) (ifRange : Option Text)
  | writeChunk (offset : Nat) (data : List UInt8)
  | saveState (etag : Text) (offset : Nat)
  | onFileCompleted

def BrowserOp.Ans : BrowserOp → Type
  | .onFileStart => Except Text Unit
  | .loadState => Except ClientError (Option (Text × Nat))
  | .ready => Bool
  | .progress _ => Except Text Unit
  | .head => Except Text HeadResponse
  | .live => Nat × Nat
  | .fetchBatch _ _ => BatchReply
  | .get _ _ => Except Text GetResponse
  | .writeChunk _ _ => Except Text Unit
  | .saveState _ _ => Except Text Unit
  | .onFileCompleted => Except Text Unit

abbrev BrowserProg := Prog BrowserOp BrowserOp.Ans
abbrev BrowserHistory := History BrowserOp BrowserOp.Ans

/-- Go on with a success; an error ends the program, as `?` does. -/
def BrowserProg.okThen {α β : Type} (p : BrowserProg (Except ClientError α))
    (f : α → BrowserProg (Except ClientError β)) : BrowserProg (Except ClientError β) :=
  p.bind fun
    | .ok a => f a
    | .error e => .done (.error e)

/-- A verified part, and what comes after its success. -/
theorem ensures_okThen {α β : Type} {p : BrowserProg (Except ClientError α)}
    {f : α → BrowserProg (Except ClientError β)}
    {P : Except ClientError α → BrowserHistory → Prop}
    {Q : Except ClientError β → BrowserHistory → Prop} {h : BrowserHistory}
    (hp : Ensures p P h) (hok : ∀ a h', P (.ok a) h' → Ensures (f a) Q h')
    (herr : ∀ e h', P (.error e) h' → Q (.error e) h') :
    Ensures (p.okThen f) Q h := by
  apply ensures_bind hp
  intro r h' hr
  cases r with
  | ok a => exact hok a h' hr
  | error e => exact herr e h' hr

/-- A callback that must not fail. -/
def BrowserProg.callback (o : BrowserOp) (h : o.Ans = Except Text Unit) :
    BrowserProg (Except ClientError Unit) :=
  .call o fun a => .done ((cast h a).mapError .js)

namespace BrowserProg

def onFileStart : BrowserProg (Except ClientError Unit) := callback .onFileStart rfl
def progress (bytes : Nat) : BrowserProg (Except ClientError Unit) := callback (.progress bytes) rfl
def onFileCompleted : BrowserProg (Except ClientError Unit) := callback .onFileCompleted rfl

def writeChunk (offset : Nat) (data : List UInt8) : BrowserProg (Except ClientError Unit) :=
  callback (.writeChunk offset data) rfl

def saveState (etag : Text) (offset : Nat) : BrowserProg (Except ClientError Unit) :=
  callback (.saveState etag offset) rfl

/-- `wait_ready` and `check`. -/
def ready : BrowserProg (Except ClientError Unit) :=
  .call .ready fun
    | true => .done (.ok ())
    | false => .done (.error .cancelled)

end BrowserProg

open BrowserProg

/-! ## One chunk -/

/-- All that a body decompresses to. -/
def StreamBody.collect (body : StreamBody) : Except ClientError (List UInt8) :=
  go body.pieces
where
  go : List (Except BodyError (List UInt8)) → Except ClientError (List UInt8)
    | [] => body.finish.mapError .decompress
    | .error e :: _ => .error e.toClient
    | .ok out :: rest => (go rest).map fun later => out ++ later

/-- An attempt at a chunk ends its download, or may be repeated. -/
inductive ChunkEnd where
  | ended (result : Except ClientError (List UInt8))
  | retry (e : ClientError)

/-- One turn of `download_chunk_with_retry`, around `download_chunk_once`. -/
def chunkAttempt (path : Text) (start stop : Nat) : ChunkReply → ChunkEnd
  | .cancelled => .ended (.error .cancelled)
  | .failed m => .retry (.network m)
  | .answered status body reported =>
      if status = 206 then
        match body.collect with
        | .error e => .retry e
        | .ok data =>
            if data.length ≠ stop - start then
              .ended (.error (wrongChunkLength path start stop data.length))
            else .ended ((reported.mapError .js).map fun _ => data)
      else if isRestartErr (.http status) then .ended (.error (.http status))
      else .retry (.http status)

/-- `download_chunk_with_retry`, with so many retries left. -/
def downloadChunkWithRetry (path : Text) (start stop : Nat) (replies : Nat → ChunkReply) :
    Nat → Nat → Except ClientError (List UInt8)
  | 0, attempt =>
      match chunkAttempt path start stop (replies attempt) with
      | .ended result => result
      | .retry e => .error e
  | left + 1, attempt =>
      match chunkAttempt path start stop (replies attempt) with
      | .ended result => result
      | .retry _ => downloadChunkWithRetry path start stop replies left (attempt + 1)

/-- The error of a result. -/
def errorOf {α : Type} : Except ClientError α → Option ClientError
  | .error e => some e
  | .ok _ => none

/-- What became of every chunk of a batch. -/
def batchOutcomes (path : Text) (maxRetries : Nat) (batch : List (Nat × Nat))
    (attempt : Nat → Nat → ChunkReply) : List (Nat × Except ClientError (List UInt8)) :=
  batch.mapIdx fun i (start, stop) =>
    (start, downloadChunkWithRetry path start stop (attempt i) maxRetries 0)

/-- The chunks of a batch in order, or the error that came first. -/
def batchResults (path : Text) (maxRetries : Nat) (batch : List (Nat × Nat))
    (reply : BatchReply) : Except ClientError (List (Nat × List UInt8)) :=
  let results := batchOutcomes path maxRetries batch reply.attempt
  let errors := results.filterMap fun (_, result) => errorOf result
  match errors[reply.first % errors.length]? with
  | some e => .error e
  | none => .ok (results.filterMap fun (start, result) =>
      result.toOption.map fun data => (start, data))

/-! ## The chunked path -/

/-- `fetch_meta`. -/
def browserFetchMeta : BrowserProg (Except ClientError (Text × Nat)) :=
  .call .head fun
    | .error m => .done (.error (.network m))
    | .ok resp =>
        .done (if resp.status ≠ 200 then .error (.http resp.status)
          else .ok (resp.etag.getD [], resp.contentLength.getD 0))

/-- `chunk_batch`: at most `window` chunks. -/
def chunkBatch (start size chunkSize window : Nat) : List (Nat × Nat) :=
  chunksFrom size (if chunkSize = 0 then CHUNK_SIZE else chunkSize) window (min start size)

/-- Save the offset every few MiB; a failure is ignored. -/
def saveEvery (etag : Text) (offset lastSaved : Nat) : BrowserProg Nat :=
  if lastSaved + RESUME_SAVE_EVERY ≤ offset then
    .call (.saveState etag offset) fun _ => .done offset
  else .done lastSaved

/-- What a batch that is not contiguous is refused with. -/
def lostOffset (path : Text) (contiguous start : Nat) : ClientError :=
  .protocol ("download of `".toList ++ path ++ "` lost its contiguous offset (".toList ++
    decimal contiguous ++ " != ".toList ++ decimal start ++ ")".toList)

/-- Hand the chunks of a batch over, in order. -/
def emitChunks (path etag : Text) : List (Nat × List UInt8) → Nat → Nat →
    BrowserProg (Except ClientError (Nat × Nat))
  | [], contiguous, lastSaved => .done (.ok (contiguous, lastSaved))
  | (start, data) :: rest, contiguous, lastSaved =>
      if start ≠ contiguous then .done (.error (lostOffset path contiguous start))
      else
        okThen (writeChunk contiguous data) fun _ =>
          (saveEvery etag (contiguous + data.length) lastSaved).bind fun lastSaved =>
            emitChunks path etag rest (contiguous + data.length) lastSaved

/-- The batches of `download_file_parallel`; `left` bounds their number. -/
def parallelBatches (path : Text) (maxRetries : Nat) (etag : Text) (size : Nat) :
    Nat → Nat → Nat → BrowserProg (Except ClientError Nat)
  | 0, contiguous, _ => .done (.ok contiguous)
  | left + 1, contiguous, lastSaved =>
      if contiguous < size then
        okThen ready fun _ =>
          .call .live fun (window, chunkSize) =>
            let batch := chunkBatch contiguous size (max chunkSize 1) (max window 1)
            .call (.fetchBatch etag batch) fun reply =>
              match batchResults path maxRetries batch reply with
              | .error e => .done (.error e)
              | .ok chunks =>
                  okThen (emitChunks path etag chunks contiguous lastSaved)
                    fun (contiguous, lastSaved) =>
                      parallelBatches path maxRetries etag size left contiguous lastSaved
      else .done (.ok contiguous)

/-- Where a chunked attempt starts: a changed file restarts. -/
def passStart (resumeEtag metaEtag : Text) (resumeOffset size : Nat) : Nat :=
  if resumeEtag ≠ [] ∧ resumeEtag ≠ metaEtag then 0 else min resumeOffset size

/-- What a chunked attempt that stopped early is refused with. -/
def stoppedEarly (path : Text) (contiguous size : Nat) : ClientError :=
  .protocol ("download of `".toList ++ path ++ "` stopped at ".toList ++ decimal contiguous ++
    " bytes, expected ".toList ++ decimal size)

def zeroSize (path : Text) : ClientError :=
  .protocol ("remote size of `".toList ++ path ++
    "` is 0; cannot plan parallel chunks".toList)

/-- `download_file_parallel`, once `HEAD` has told the version and its size. -/
def chunkedPass (path : Text) (maxRetries : Nat) (resumeEtag : Text) (resumeOffset : Nat)
    (metaEtag : Text) (size : Nat) : BrowserProg (Except ClientError (Text × Nat)) :=
  if size = 0 then .done (.error (zeroSize path))
  else
    let start := passStart resumeEtag metaEtag resumeOffset size
    okThen (if 0 < start then progress start else .done (.ok ())) fun _ =>
      okThen (parallelBatches path maxRetries metaEtag size (size - start) start 0)
        fun contiguous =>
          .done (if contiguous ≠ size then .error (stoppedEarly path contiguous size)
            else .ok (metaEtag, contiguous))

/-- `download_file_parallel`. -/
def downloadFileParallel (path : Text) (maxRetries : Nat) (resumeEtag : Text)
    (resumeOffset : Nat) : BrowserProg (Except ClientError (Text × Nat)) :=
  okThen browserFetchMeta fun (metaEtag, size) =>
    chunkedPass path maxRetries resumeEtag resumeOffset metaEtag size

/-! ## The streamed path -/

/-- The reads of `stream_download`. -/
def streamReads (etag : Text) : List (Except BodyError (List UInt8)) → Nat → Nat →
    BrowserProg (Except ClientError Nat)
  | [], offset, _ => .done (.ok offset)
  | piece :: rest, offset, lastSaved =>
      match piece with
      | .error e => .done (.error e.toClient)
      | .ok data =>
          okThen ready fun _ =>
            if data = [] then streamReads etag rest offset lastSaved
            else
              okThen (writeChunk offset data) fun _ =>
                okThen (progress data.length) fun _ =>
                  (saveEvery etag (offset + data.length) lastSaved).bind fun lastSaved =>
                    streamReads etag rest (offset + data.length) lastSaved

/-- `stream_download`. -/
def streamDownload (file : FileEntry) (body : StreamBody) (start : Nat) (etag : Text) :
    BrowserProg (Except ClientError Nat) :=
  okThen (if 0 < start then progress start else .done (.ok ())) fun _ =>
    okThen (streamReads etag body.pieces start 0) fun offset =>
      match body.finish with
      | .error m => .done (.error (.decompress m))
      | .ok tail =>
          if tail = [] then .done (.ok (max file.size offset))
          else
            okThen (writeChunk offset tail) fun _ =>
              okThen (progress tail.length) fun _ =>
                .done (.ok (max file.size (offset + tail.length)))

/-! ## The whole download -/

/-- `finish_download`. -/
def finishDownload (etag : Text) (size : Nat) : BrowserProg (Except ClientError Nat) :=
  okThen (saveState etag size) fun _ =>
    okThen onFileCompleted fun _ => .done (.ok size)

/-- The variables of the main loop. -/
structure Engine where
  offset : Nat
  etag : Text
  attempts : Nat

/-- The loop of `download_file` ends with this result. -/
def ends (p : BrowserProg (Except ClientError Nat)) :
    BrowserProg (Engine ⊕ Except ClientError Nat) :=
  p.bind fun result => .done (.inr result)

/-- After an error that is no restart: another attempt, if one is left. -/
def retryOr (maxRetries : Nat) (s : Engine) (e : ClientError) :
    Engine ⊕ Except ClientError Nat :=
  if maxRetries ≤ s.attempts then .inr (.error e)
  else .inl { s with attempts := s.attempts + 1 }

/-- From byte zero, with a clean slate. -/
def restart (s : Engine) : Engine := { s with offset := 0, attempts := 0 }

/-- One turn of the loop of `download_file`. -/
def downloadRound (file : FileEntry) (maxRetries : Nat) (s : Engine) :
    BrowserProg (Engine ⊕ Except ClientError Nat) :=
  ready.bind fun
    | .error e => .done (.inr (.error e))
    | .ok _ =>
        if shouldChunked file.size s.offset then
          (downloadFileParallel file.path maxRetries s.etag s.offset).bind fun
            | .ok (etag, size) => ends (finishDownload etag size)
            | .error e =>
                .done (if isRestartErr e then .inl (restart s) else retryOr maxRetries s e)
        else
          .call (.get s.offset (if 0 < s.offset ∧ s.etag ≠ [] then some s.etag else none)) fun
            | .error m => .done (retryOr maxRetries s (.network m))
            | .ok resp =>
                if resp.status = 200 then
                  let etag := resp.etag.getD s.etag
                  ends (okThen (streamDownload file resp.body 0 etag) fun size =>
                    finishDownload etag size)
                else if resp.status = 206 then
                  let etag := if s.etag = [] then resp.etag.getD [] else s.etag
                  let start := resp.contentRangeStart.getD s.offset
                  ends (okThen (streamDownload file resp.body start etag) fun size =>
                    finishDownload etag size)
                else if resp.status = 416 then .done (.inl (restart s))
                else .done (.inr (.error (.http resp.status)))

/-- `DownloadDisposition`. -/
inductive DownloadDisposition where
  | restart
  | alreadyDone
  | transfer
  deriving DecidableEq

/-- `classify_download`. -/
def classifyDownload (size offset : Nat) : DownloadDisposition :=
  if size < offset then .restart else if offset = size then .alreadyDone else .transfer

/-- The persisted state that counts. -/
def usableState (saved : Option (Text × Nat)) : Text × Nat :=
  match saved with
  | some (etag, offset) => if etag ≠ [] ∧ 0 < offset then (etag, offset) else ([], 0)
  | none => ([], 0)

/-- Where a loaded state lets the download start, or its result. -/
def resumeDownload (file : FileEntry) (saved : Option (Text × Nat)) :
    BrowserProg (Engine ⊕ Except ClientError Nat) :=
  let (etag, offset) := usableState saved
  match classifyDownload file.size offset with
  | .restart => .done (.inl ⟨0, [], 0⟩)
  | .alreadyDone =>
      ends (okThen (if 0 < offset then progress offset else .done (.ok ())) fun _ =>
        finishDownload etag file.size)
  | .transfer => .done (.inl ⟨offset, etag, 0⟩)

/-- `download_file` before its loop. -/
def openDownload (file : FileEntry) : BrowserProg (Engine ⊕ Except ClientError Nat) :=
  onFileStart.bind fun
    | .error e => .done (.inr (.error e))
    | .ok _ =>
        .call .loadState fun
          | .error e => .done (.inr (.error e))
          | .ok saved => resumeDownload file saved

/-- `download_file`, for at most so many turns of its loop. -/
def downloadFileBrowser (file : FileEntry) (maxRetries turns : Nat) :
    BrowserProg (Option (Except ClientError Nat)) :=
  (openDownload file).bind fun
    | .inl s => rounds (downloadRound file maxRetries) turns s
    | .inr result => .done (some result)

end Libfw

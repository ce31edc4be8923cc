import Libfw.PosixStore
import Libfw.SoloPrograms
import Libfw.TransferPlans

/-!
# Downloads of the native client

`libfw-client/src/native/download.rs`: one destination, its resume sidecar, and
the code of a download cut at its calls.  A call may fail, and the client may
stop at any call; a write that fails has written some of its bytes, a sidecar that
is being written is unreadable.

The server is taken at its word: what an answered range delivers is the
beginning of that range of the version it serves, cut into pieces at will.  The
attempts of a range request that is retried come with the call that waits for it
(`nextRange`), as do the requests in flight beside it.

`touched` is no part of the code: some other version's download has changed the
destination since the sidecar was saved.
-/

namespace Libfw

open PosixStore SteppedPrograms SoloPrograms

/-- `ResumeState`: the sidecar of a destination. -/
structure ResumeState where
  etag : Text
  offset : Nat
  deriving DecidableEq

/-- A version of the remote file. -/
structure Remote where
  etag : Text
  content : List UInt8

/-- What of the configuration a download reads. -/
structure NativeConfig where
  remote : Text
  maxRetries : Nat

/-- What a response body decompresses to, and what the decompressor still held. -/
structure RangeBody where
  pieces : List (Except ClientError (List UInt8))
  finish : Except ClientError (List UInt8)

/-- The calls of a download. -/
inductive NativeOp where
  | prepareTransfer
  | fetchMeta
  | loadResume
  | localLen
  | openDest
  | liveParams
  | rangeRequest (start stop : Nat)
  | nextRange (inFlight : List (Nat × Nat))
  | write (pos : Nat) (data : List UInt8)
  | saveResume (etag : Text) (offset : Nat)
  | setLen (n : Nat)
  | flush

def NativeOp.Ans : NativeOp → Type
  | .prepareTransfer => Except ClientError Unit
  | .fetchMeta => Except ClientError (Text × Nat)
  | .loadResume => Option ResumeState
  | .localLen => Nat
  | .openDest => Except ClientError Unit
  | .liveParams => Nat × Nat
  | .rangeRequest _ _ => Except ClientError RangeBody
  | .nextRange _ => Nat × Except ClientError (Nat × List UInt8)
  | .write _ _ => Except ClientError Unit
  | .saveResume _ _ => Unit
  | .setLen _ => Except ClientError Unit
  | .flush => Except ClientError Unit

abbrev NativeProg := Prog NativeOp NativeOp.Ans

namespace NativeProg

def prepareTransfer : NativeProg (Except ClientError Unit) := .call .prepareTransfer .done
def fetchMeta : NativeProg (Except ClientError (Text × Nat)) := .call .fetchMeta .done
def openDest : NativeProg (Except ClientError Unit) := .call .openDest .done
def setLen (n : Nat) : NativeProg (Except ClientError Unit) := .call (.setLen n) .done
def flush : NativeProg (Except ClientError Unit) := .call .flush .done

def rangeRequest (start stop : Nat) : NativeProg (Except ClientError RangeBody) :=
  .call (.rangeRequest start stop) .done

/-- `seek` and `write_all`. -/
def writeAll (pos : Nat) (data : List UInt8) : NativeProg (Except ClientError Unit) :=
  .call (.write pos data) .done

end NativeProg

/-! ## The code -/

/-- `get_range_with_retry`, given what its attempts get; `none` while it still
tries. -/
def getRangeWithRetry (cfg : NativeConfig) (start stop : Nat) :
    Nat → List (Except ClientError (List UInt8)) → Option (Except ClientError (List UInt8))
  | _, [] => none
  | _, .ok data :: _ =>
      some (if data.length = stop - start then .ok data
        else .error (wrongChunkLength cfg.remote start stop data.length))
  | attempt, .error e :: rest =>
      if isRestartErr e then some (.error e)
      else if cfg.maxRetries ≤ attempt then some (.error e)
      else getRangeWithRetry cfg start stop (attempt + 1) rest

/-- Where a batch stands: the chunks that wait for their turn, by their starts. -/
structure BatchState where
  pending : List (Nat × List UInt8)
  cursor : Nat
  moved : Nat
  lastSaved : Nat

namespace BatchState

def insert (b : BatchState) (start : Nat) (data : List UInt8) : BatchState :=
  { b with pending := (start, data) :: b.pending.filter fun c => c.1 ≠ start }

/-- The chunk at the cursor has been written. -/
def advance (b : BatchState) (data : List UInt8) : BatchState :=
  { b with
    pending := b.pending.filter fun c => c.1 ≠ b.cursor
    cursor := b.cursor + data.length
    moved := b.moved + data.length }

end BatchState

/-- Flush everything that is now contiguous; `left` bounds the rounds. -/
def flushPending (etag : Text) : Nat → BatchState → NativeProg (Except ClientError BatchState)
  | 0, b => .done (.ok b)
  | left + 1, b =>
      match b.pending.lookup b.cursor with
      | none => .done (.ok b)
      | some data =>
          okThen (NativeProg.writeAll b.cursor data) fun _ =>
            let b := b.advance data
            if b.lastSaved + RESUME_SAVE_EVERY ≤ b.cursor then
              .call (.saveResume etag b.cursor) fun _ =>
                flushPending etag left { b with lastSaved := b.cursor }
            else flushPending etag left b

/-- The loop of `download_batch` over the chunks that have not ended yet. -/
def batchLoop (etag : Text) (window : Nat) :
    Nat → List (Nat × Nat) → BatchState → NativeProg (Except ClientError Nat)
  | 0, _, b => .done (.ok b.moved)
  | left + 1, remaining, b =>
      .call (.nextRange (remaining.take window)) fun
        | (_, .error e) => .done (.error e)
        | (i, .ok (start, data)) =>
            let b := b.insert start data
            okThen (flushPending etag b.pending.length b) fun b =>
              batchLoop etag window left (remaining.eraseIdx i) b

/-- `download_batch`: `window` concurrent range requests over `[start, stop)`. -/
def downloadBatch (etag : Text) (start stop window chunkSize : Nat) :
    NativeProg (Except ClientError Nat) :=
  let chunks := parallelChunks start stop chunkSize
  batchLoop etag window chunks.length chunks ⟨[], start, 0, start⟩

/-- The loop of `download_sequential` over the pieces of the body. -/
def streamPieces (etag : Text) : List (Except ClientError (List UInt8)) → Nat → Nat → Nat →
    NativeProg (Except ClientError (Nat × Nat))
  | [], cursor, moved, _ => .done (.ok (cursor, moved))
  | .error e :: _, _, _, _ => .done (.error e)
  | .ok out :: rest, cursor, moved, lastSaved =>
      if out = [] then streamPieces etag rest cursor moved lastSaved
      else
        okThen (NativeProg.writeAll cursor out) fun _ =>
          let cursor := cursor + out.length
          let moved := moved + out.length
          if lastSaved + RESUME_SAVE_EVERY ≤ cursor then
            .call (.saveResume etag cursor) fun _ => streamPieces etag rest cursor moved cursor
          else streamPieces etag rest cursor moved lastSaved

/-- `download_sequential`: `[start, size)` over one connection. -/
def downloadSequential (etag : Text) (start size : Nat) : NativeProg (Except ClientError Nat) :=
  okThen (NativeProg.rangeRequest start size) fun body =>
    okThen (streamPieces etag body.pieces start 0 0) fun (cursor, moved) =>
      match body.finish with
      | .error e => .done (.error e)
      | .ok out =>
          if out = [] then .done (.ok moved)
          else okThen (NativeProg.writeAll cursor out) fun _ => .done (.ok (moved + out.length))

/-- The batches of `download_once`; `left` bounds their number. -/
def downloadBatches (etag : Text) (size : Nat) : Nat → Nat → Nat →
    NativeProg (Except ClientError Nat)
  | 0, _, moved => .done (.ok moved)
  | left + 1, cursor, moved =>
      if cursor < size then
        .call .liveParams fun (window, chunkSize) =>
          let stop := cursor + batchSpan (size - cursor) chunkSize window
          okThen (downloadBatch etag cursor stop window chunkSize) fun got =>
            if got = 0 then .done (.ok moved)
            else
              .call (.saveResume etag (cursor + got)) fun _ =>
                downloadBatches etag size left (cursor + got) (moved + got)
      else .done (.ok moved)

/-- Where a pass starts: at the saved offset, if that is of this version and on
disk. -/
def resumeStart (forceRestart : Bool) (etag : Text) (size : Nat) (saved : Option ResumeState)
    (localLen : Nat) : Nat :=
  match saved.filter fun r => !forceRestart && r.etag = etag with
  | some state => if state.offset ≤ size ∧ state.offset ≤ localLen then state.offset else 0
  | none => 0

/-- What a pass that stopped early is refused with. -/
def stoppedAt (cfg : NativeConfig) (computed size : Nat) : ClientError :=
  .protocol ("download of `".toList ++ cfg.remote ++ "` stopped at ".toList ++
    decimal computed ++ " bytes, expected ".toList ++ decimal size)

/-- `download_once`, once it knows version, size and start. -/
def transferFrom (cfg : NativeConfig) (etag : Text) (size start : Nat) :
    NativeProg (Except ClientError Nat) :=
  okThen NativeProg.openDest fun _ =>
    okThen (if shouldChunked size start then downloadBatches etag size (size - start) start 0
      else downloadSequential etag start size) fun moved =>
        okThen (NativeProg.setLen size) fun _ =>
          okThen NativeProg.flush fun _ =>
            if start + moved ≠ size then .done (.error (stoppedAt cfg (start + moved) size))
            else .call (.saveResume etag size) fun _ => .done (.ok moved)

/-- `download_once`. -/
def downloadOnce (cfg : NativeConfig) (forceRestart : Bool) :
    NativeProg (Except ClientError Nat) :=
  okThen NativeProg.fetchMeta fun (etag, size) =>
    .call .loadResume fun saved =>
      .call .localLen fun localLen =>
        let start := resumeStart forceRestart etag size saved localLen
        if start = size then .done (.ok 0) else transferFrom cfg etag size start

/-- `download_file`. -/
def downloadFile (cfg : NativeConfig) : NativeProg (Except ClientError Nat) :=
  okThen NativeProg.prepareTransfer fun _ =>
    (downloadOnce cfg false).bind fun
      | .ok moved => .done (.ok moved)
      | .error e => if isRestartErr e then downloadOnce cfg true else .done (.error e)

/-! ## The destination -/

structure DestFiles where
  dest : Option (List (Option UInt8))
  sidecar : Option ResumeState
  touched : Bool

namespace DestFiles

def len (s : DestFiles) : Nat := (s.dest.getD []).length

/-- The sidecar names another version. -/
def foreign (s : DestFiles) (etag : Text) : Bool := s.sidecar.any fun r => r.etag ≠ etag

/-- A download of this version writes. -/
def put (s : DestFiles) (etag : Text) (pos : Nat) (data : List UInt8) : DestFiles :=
  if data = [] then s
  else
    { s with
      dest := some (writeAt (s.dest.getD []) pos data)
      touched := s.touched || s.foreign etag }

/-- A download of this version sets the length. -/
def cut (s : DestFiles) (etag : Text) (n : Nat) : DestFiles :=
  if s.len = n then s
  else
    { s with
      dest := some (resize (s.dest.getD []) n)
      touched := s.touched || s.foreign etag }

def saved (s : DestFiles) (etag : Text) (offset : Nat) : DestFiles :=
  { s with sidecar := some ⟨etag, offset⟩, touched := false }

end DestFiles

/-! ## The surroundings -/

/-- What the server sends of a body, in order, up to the first error. -/
def RangeBody.delivered (body : RangeBody) : List UInt8 :=
  go body.pieces
where
  go : List (Except ClientError (List UInt8)) → List UInt8
    | [] => match body.finish with
      | .ok out => out
      | .error _ => []
    | .error _ :: _ => []
    | .ok out :: rest => out ++ go rest

/-- The bytes `[start, stop)` of the version. -/
def Remote.slice (remote : Remote) (start stop : Nat) : List UInt8 :=
  (remote.content.take stop).drop start

/-- What the surroundings decide about a call. -/
inductive NativeChoice where
  | go
  | fail (e : ClientError) (done : Nat)
  | torn
  | tuned (window chunkSize : Nat)
  | respond (body : RangeBody)
  | complete (i : Nat) (attempts : List (Except ClientError (List UInt8)))

/-- An attempt gets the beginning of its range, or an error. -/
def Remote.Honest (remote : Remote) (start stop : Nat)
    (attempt : Except ClientError (List UInt8)) : Prop :=
  match attempt with
  | .ok data => data <+: remote.slice start stop
  | .error _ => True

instance (remote : Remote) (start stop : Nat) (attempt : Except ClientError (List UInt8)) :
    Decidable (remote.Honest start stop attempt) := by
  cases attempt <;> unfold Remote.Honest <;> infer_instance

/-- The range request that ends next, of those in flight. -/
def completeRange (cfg : NativeConfig) (remote : Remote) (inFlight : List (Nat × Nat)) (i : Nat)
    (attempts : List (Except ClientError (List UInt8))) :
    Option (Nat × Except ClientError (Nat × List UInt8)) :=
  match inFlight[i]? with
  | none => none
  | some (start, stop) =>
      if ∀ attempt ∈ attempts, remote.Honest start stop attempt then
        (getRangeWithRetry cfg start stop 0 attempts).map fun result =>
          (i, result.map fun data => (start, data))
      else none

/-- What a call does while the remote file is of this version. -/
def NativeOp.exec (cfg : NativeConfig) (remote : Remote) :
    Exec NativeOp NativeOp.Ans NativeChoice DestFiles
  | .prepareTransfer, .go, s => some (s, .ok ())
  | .prepareTransfer, .fail e _, s => some (s, .error e)
  | .fetchMeta, .go, s => some (s, .ok (remote.etag, remote.content.length))
  | .fetchMeta, .fail e _, s => some (s, .error e)
  | .loadResume, .go, s => some (s, s.sidecar)
  | .localLen, .go, s => some (s, s.len)
  | .openDest, .go, s => some ({ s with dest := some (s.dest.getD []) }, .ok ())
  | .openDest, .fail e _, s => some (s, .error e)
  | .liveParams, .tuned window chunkSize, s => some (s, (max window 1, max chunkSize 1))
  | .rangeRequest start stop, .respond body, s =>
      if body.delivered <+: remote.slice start stop then some (s, .ok body) else none
  | .rangeRequest _ _, .fail e _, s => some (s, .error e)
  | .nextRange inFlight, .complete i attempts, s =>
      (completeRange cfg remote inFlight i attempts).map fun ended => (s, ended)
  | .write pos data, .go, s => some (s.put remote.etag pos data, .ok ())
  | .write pos data, .fail e done, s =>
      some (s.put remote.etag pos (data.take done), .error e)
  | .saveResume etag offset, .go, s => some (s.saved etag offset, ())
  | .saveResume _ _, .torn, s => some ({ s with sidecar := none }, ())
  | .saveResume _ _, .fail _ _, s => some (s, ())
  | .setLen n, .go, s => some (s.cut remote.etag n, .ok ())
  | .setLen _, .fail e _, s => some (s, .error e)
  | .flush, .go, s => some (s, .ok ())
  | .flush, .fail e _, s => some (s, .error e)
  | _, _, _ => none

end Libfw

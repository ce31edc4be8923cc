import Libfw.BlockProgress
import Libfw.MissingRanges
import Libfw.ProgramPools
import Libfw.UploadRounds

/-!
# Session uploads of the browser engine

`upload_file` of `libfw-client/src/upload.rs` with `upload_session_resumable`,
`probe_session` and `commit_upload`, cut at what it asks of its surroundings, and the
surroundings in which it runs: the callbacks of the page, the user who may cancel, the
tuning engine, and the server behind a network.

The blocks of a batch are the programs `uploadOneChunk`, as they are, in one pool.  The
progress ticks of a `POST` are the surroundings' choice; `ticks` bounds their number.
Waiting (pauses, permits, backoff), logging and the samples for the tuner are left out.
-/

namespace Libfw

open SteppedPrograms SoloPrograms PlayedPrograms ProgramPools HalfOpenRanges NativeClient

/-- What an upload asks of its surroundings. -/
inductive BrowserUploadOp where
  | onFileStart
  | ready
  | chunkSize
  | uploadWindow
  | nextChunk (inFlight : Nat)
  | probe
  | chunk (start stop : Nat) (o : BlockOp)
  | commit
  | addProgress (bytes : Nat)
  | report
  | saveState (offset : Nat) (etag : Text) (size : Nat)
  | onFileCompleted

def BrowserUploadOp.Ans : BrowserUploadOp → Type
  | .onFileStart => Except Text Unit
  | .ready => Bool
  | .chunkSize => Nat
  | .uploadWindow => Nat
  | .nextChunk _ => Nat
  | .probe => Except ClientError Response
  | .chunk _ _ o => o.Ans
  | .commit => Except Text Nat
  | .addProgress _ => Nat
  | .report => Except Text Unit
  | .saveState _ _ _ => Except Text Unit
  | .onFileCompleted => Except Text Unit

abbrev BrowserUploadProg := Prog BrowserUploadOp BrowserUploadOp.Ans

namespace BrowserUpload

/-! ## The code -/

section Code

variable (cfg : UploadConfig) (file : FileMeta) (compress : Bool) (ticks : Nat)

/-- `wait_ready` and `check`. -/
def ready : BrowserUploadProg (Except ClientError Unit) :=
  .call .ready fun
    | true => .done (.ok ())
    | false => .done (.error .cancelled)

/-- `report_progress_if`. -/
def report : BrowserUploadProg (Except ClientError Unit) :=
  .call .report fun a => .done (a.mapError .js)

/-- `probe_session`. -/
def probeSession : BrowserUploadProg (Except ClientError (List (Nat × Nat))) :=
  .call .probe fun
    | .error e => .done (.error e)
    | .ok resp =>
        if resp.status ≠ 200 ∧ resp.status ≠ 201 then .done (.error (.http resp.status))
        else .done (.ok (resp.ranges.map fun r => (r.1, max r.2 r.1)))

/-- `post_chunk` without a body. -/
def postCommit : BrowserUploadProg (Except ClientError Unit) :=
  .call .commit fun
    | .error m => .done (.error (.network m))
    | .ok status => .done (if status = 201 then .ok () else .error (.http status))

/-- `commit_upload`, with so many retries left. -/
def commitUpload : Nat → BrowserUploadProg (Except ClientError Unit)
  | 0 => okThen ready fun _ => postCommit
  | left + 1 => okThen ready fun _ => postCommit.bind fun
      | .ok _ => .done (.ok ())
      | .error _ => commitUpload left

/-- Which block goes on, of those in flight. -/
def nextChunk (inFlight : Nat) : BrowserUploadProg Nat := .call (.nextChunk inFlight) .done

/-- A block of the file: `upload_one_chunk`. -/
def chunkTask (range : Nat × Nat) : BrowserUploadProg (Except ClientError Nat) :=
  via (.chunk range.1 range.2) (fun _ a => a)
    (BlockProg.uploadOneChunk cfg.path range.1 range.2 compress cfg.maxRetries)

/-- The calls that a block makes at most, each `POST` with so many ticks. -/
def chunkCalls : Nat := 3 + (cfg.maxRetries + 1) * (2 + 2 * ticks) + 2

/-- `first_error.get_or_insert`, for a block that has failed. -/
def noteFailure (first : Option ClientError) : Except ClientError Nat → Option ClientError
  | .ok _ => first
  | .error e => noteError first e

/-- The batches of a round, the window read before each; `left` bounds their number. -/
def sendBatches : Nat → List (Nat × Nat) → Option ClientError →
    BrowserUploadProg (List (Nat × Nat) × Option ClientError)
  | _, [], first => .done ([], first)
  | 0, range :: queue, first => .done (range :: queue, first)
  | left + 1, range :: queue, first =>
      .call .uploadWindow fun (window : Nat) =>
        let batch := (range :: queue).take (max window 1)
        (pool nextChunk (max window 1) noteFailure
          (batch.length * (chunkCalls cfg ticks + 1)) (batch.map (chunkTask cfg compress))
          first).bind fun (_, first) =>
            sendBatches left ((range :: queue).drop (max window 1)) first

/-- The state of the loop. -/
structure UploadLoop where
  rounds : Nat
  firstError : Option ClientError
  received : List (Nat × Nat)

/-- A round that finds everything at the server. -/
def commitHeld (uploaded : Nat) (st : UploadLoop) :
    BrowserUploadProg (UploadLoop ⊕ Except ClientError Nat) :=
  (commitUpload cfg.maxRetries).bind fun
    | .ok _ => .done (.inr (.ok uploaded))
    | .error e =>
        .done (if cfg.maxRetries ≤ st.rounds then .inr (.error e)
          else .inl { st with
            rounds := nextU32 st.rounds
            firstError := noteError st.firstError e })

/-- The last probe: everything has arrived after all, or the upload has failed. -/
def lastProbe (chunkSize uploaded : Nat) (st : UploadLoop) :
    BrowserUploadProg (Except ClientError Nat) :=
  okThen probeSession fun received =>
    if alignedMissing file.size chunkSize received = [] then
      okThen (commitUpload cfg.maxRetries) fun _ => .done (.ok uploaded)
    else .done (.error (st.firstError.getD (didNotConverge cfg st.rounds)))

/-- The end of a round that has sent blocks. -/
def commitSent (chunkSize uploaded : Nat) (st : UploadLoop) :
    BrowserUploadProg (UploadLoop ⊕ Except ClientError Nat) :=
  (commitUpload cfg.maxRetries).bind fun
    | .ok _ => .done (.inr (.ok uploaded))
    | .error e =>
        let rounds := nextU32 st.rounds
        if cfg.maxRetries < rounds then
          (lastProbe cfg file chunkSize uploaded { st with rounds := rounds }).bind
            fun r => .done (.inr r)
        else .done (.inl { st with rounds := rounds, firstError := noteError st.firstError e })

/-- Send the missing blocks, then commit. -/
def sendMissing (chunkSize uploaded : Nat) (missing : List (Nat × Nat)) (st : UploadLoop) :
    BrowserUploadProg (UploadLoop ⊕ Except ClientError Nat) :=
  (sendBatches cfg compress ticks missing.length missing st.firstError).bind fun (_, first) =>
    commitSent cfg file chunkSize uploaded { st with firstError := first }

/-- One turn of the loop, with what has been received known. -/
def roundFrom (chunkSize uploaded : Nat) (st : UploadLoop) :
    BrowserUploadProg (UploadLoop ⊕ Except ClientError Nat) :=
  let missing := alignedMissing file.size chunkSize st.received
  if missing = [] then commitHeld cfg uploaded st
  else sendMissing cfg file compress ticks chunkSize uploaded missing st

/-- One turn of the loop; the first reuses the initial probe. -/
def uploadRound (uploaded : Nat) (st : UploadLoop) :
    BrowserUploadProg (UploadLoop ⊕ Except ClientError Nat) :=
  ready.bind fun
    | .error e => .done (.inr (.error e))
    | .ok _ =>
        .call .chunkSize fun (chunkSize : Nat) =>
          if 0 < st.rounds then
            probeSession.bind fun
              | .error e => .done (.inr (.error e))
              | .ok received =>
                  roundFrom cfg file compress ticks (max chunkSize 1) uploaded
                    { st with received := received }
          else roundFrom cfg file compress ticks (max chunkSize 1) uploaded st

/-- Bytes the server already holds are progress. -/
def seedProgress (initialCovered : Nat) : BrowserUploadProg (Except ClientError Unit) :=
  if 0 < initialCovered then .call (.addProgress initialCovered) fun _ => report
  else .done (.ok ())

/-- The state for a later resume. -/
def saveState : BrowserUploadProg (Except ClientError Unit) :=
  .call (.saveState file.size file.etag file.size) fun a => .done (a.mapError .js)

/-- `upload_session_resumable`, cut after `n` rounds; `none` where its loop has not ended
by then. -/
def uploadSessionResumable (n : Nat) : BrowserUploadProg (Option (Except ClientError Nat)) :=
  probeSession.bind fun
    | .error e => .done (some (.error e))
    | .ok received =>
        let initialCovered := min (coveredBytesOf received) file.size
        (seedProgress initialCovered).bind fun
          | .error e => .done (some (.error e))
          | .ok _ =>
              (rounds (uploadRound cfg file compress ticks (file.size - initialCovered)) n
                ⟨0, none, received⟩).bind fun
                  | none => .done none
                  | some (.error e) => .done (some (.error e))
                  | some (.ok uploaded) =>
                      (saveState file).bind fun saved =>
                        .done (some (saved.map fun _ => uploaded))

/-- `upload_file`, its session cut after `n` rounds. -/
def uploadFile (n : Nat) : BrowserUploadProg (Option (Except ClientError Nat)) :=
  .call .onFileStart fun
    | .error m => .done (some (.error (.js m)))
    | .ok _ =>
        (uploadSessionResumable cfg file compress ticks n).bind fun
          | none => .done none
          | some (.error e) => .done (some (.error e))
          | some (.ok uploaded) =>
              .call .onFileCompleted fun a =>
                .done (some ((a.mapError .js).map fun _ => uploaded))

end Code

end BrowserUpload

/-! ## The surroundings -/

/-- What the surroundings decide about a call. -/
inductive BrowserChoice where
  | go
  | cancelled
  | threw (message : Text)
  | tuned (value : Nat)
  | pick (i : Nat)
  | held (others : Nat)
  | read (len : Nat)
  | sent (ticks : List Nat) (c : UploadChoice)

/-- What the page sees of a `POST` that reports its progress. -/
def xhrOutcome : Except ClientError Response → Except Text Nat
  | .ok resp => .ok resp.status
  | .error (.network m) => .error m
  | .error _ => .error []

section Surroundings

variable {δ : Type} (S : Session) (file : FileMeta) (data : List UInt8) (codec : BlockCodec δ)
  (compress : Bool) (ticks : Nat)

/-- What a block's body arrives as; only a body that is not empty is said to be compressed. -/
def chunkBody (payload : List UInt8) (c : UploadChoice) : Body :=
  if compress = true ∧ payload ≠ [] then bodyOf codec c else bodyOf BlockCodec.plain c

/-- A callback of the page. -/
def callBack {σ : Type} : BrowserChoice → σ → Option (σ × Except Text Unit)
  | .go, s => some (s, .ok ())
  | .threw m, s => some (s, .error m)
  | _, _ => none

/-- How the compressor ends: with bytes, or with its own error. -/
def compressOutcome : Except ClientError (List UInt8) → Option (Except Text (List UInt8))
  | .ok payload => some (.ok payload)
  | .error (.compress m) => some (.error m)
  | .error _ => none

/-- What a call of a block does while the page's file holds `data`. -/
def BlockOp.exec (start : Nat) : Exec BlockOp BlockOp.Ans BrowserChoice Store
  | .ready, .go, s => some (s, true)
  | .ready, .cancelled, s => some (s, false)
  | .readFile, .read len, s => some (s, .ok ((data.drop start).take len))
  | .readFile, .threw m, s => some (s, .error m)
  | .compress raw, .go, s =>
      (compressOutcome (codec.compress raw)).map fun r => (s, r)
  | .post payload, .sent told c, s =>
      if told.length ≤ ticks ∧ Carries payload c then
        (sendRequest S (S.blockJob file start (chunkBody codec compress payload c)) c s).map
          fun p => (p.1, told, xhrOutcome p.2)
      else none
  | .addProgress _, .held others, s => some (s, others)
  | .report, c, s => callBack c s
  | _, _, _ => none

/-- What a call does. -/
def BrowserUploadOp.exec : Exec BrowserUploadOp BrowserUploadOp.Ans BrowserChoice Store
  | .onFileStart, c, s => callBack c s
  | .ready, .go, s => some (s, true)
  | .ready, .cancelled, s => some (s, false)
  | .chunkSize, .tuned value, s => some (s, value)
  | .uploadWindow, .tuned value, s => some (s, value)
  | .nextChunk inFlight, .pick i, s => if i < inFlight then some (s, i) else none
  | .probe, .sent _ c, s => sendRequest S (S.probeJob file) c s
  | .chunk start _ o, c, s => BlockOp.exec S file data codec compress ticks start o c s
  | .commit, .sent _ c, s =>
      (sendRequest S (S.commitJob file) c s).map fun p => (p.1, xhrOutcome p.2)
  | .addProgress _, .held others, s => some (s, others)
  | .report, c, s => callBack c s
  | .saveState _ _ _, c, s => callBack c s
  | .onFileCompleted, c, s => callBack c s
  | _, _, _ => none

end Surroundings

end Libfw

import Libfw.AtomicRequests
import Libfw.PlayedPrograms
import Libfw.UploadPlans

/-!
# Session uploads of the native client

`upload_session` of `libfw-client/src/native/upload.rs` with `probe_session`,
`post_block` and `commit`, cut at its calls, and the surroundings in which it runs:
the server behind a network.

The futures of a round are polled one step at a time (`blockTurn`), in whatever order
the surroundings pick (`nextBlock`), of those that `buffer_unordered` has started.
`rounds : u32` wraps, as it does in a release build.

A request is lost, refused before it reaches the handler, or served; a served request
runs by itself (`serveAlone`), its body may break off on the way, and its answer may be
lost.  Logging, progress events and the tuner's statistics are left out; the values
the tuner supplies are the surroundings' choice.
-/

namespace Libfw

open SteppedPrograms SoloPrograms PlayedPrograms

/-- The format of block bodies: what the client compresses (`compress_chunk`, or nothing
at all) and what the server undoes. -/
structure BlockCodec (δ : Type) where
  compress : List UInt8 → Except ClientError (List UInt8)
  decomp : Decompressor δ
  start : δ

/-- Bodies sent as they are. -/
def BlockCodec.plain : BlockCodec Unit where
  compress := .ok
  decomp := ⟨fun _ chunk => .ok ((), chunk), fun _ => .ok []⟩
  start := ()

/-- What of the configuration an upload reads, and the path it names in its error. -/
structure UploadConfig where
  path : Text
  maxRetries : Nat
  bounded : maxRetries < 2 ^ 32

/-- An HTTP response, as far as the client reads it: `ranges` is empty where the body
lists none. -/
structure Response where
  status : Nat
  ranges : List (Nat × Nat)

/-- The calls of an upload. -/
inductive UploadOp where
  | liveParams
  | readSlice (start stop : Nat)
  | nextBlock (inFlight : Nat)
  | probe
  | block (start : Nat) (payload : List UInt8)
  | commit

def UploadOp.Ans : UploadOp → Type
  | .liveParams => Nat × Nat
  | .readSlice _ _ => Except ClientError (List UInt8)
  | .nextBlock _ => Nat
  | .probe | .block _ _ | .commit => Except ClientError Response

abbrev UploadProg := Prog UploadOp UploadOp.Ans

/-- `u32` addition of one. -/
def nextU32 (n : Nat) : Nat := (n + 1) % 2 ^ 32

namespace NativeClient

/-! ## The code -/

section Code

variable {δ : Type} (cfg : UploadConfig) (codec : BlockCodec δ)

/-- `probe_session`. -/
def probeSession : UploadProg (Except ClientError (List (Nat × Nat))) :=
  .call .probe fun
    | .error e => .done (.error e)
    | .ok resp =>
        if resp.status ≠ 200 ∧ resp.status ≠ 201 then .done (.error (.http resp.status))
        else .done (.ok (resp.ranges.map fun r => (r.1, max r.2 r.1)))

/-- `commit`. -/
def commit : UploadProg (Except ClientError Unit) :=
  .call .commit fun
    | .error e => .done (.error e)
    | .ok resp => .done (if resp.status = 201 then .ok () else .error (.http resp.status))

/-- A `post_block` that has not ended; its payload is read when it is first polled. -/
structure Block where
  start : Nat
  stop : Nat
  payload : Option (List UInt8)
  attempt : Nat

/-- A block that has not been polled. -/
def Block.waiting (range : Nat × Nat) : Block := ⟨range.1, range.2, none, 0⟩

/-- An attempt has failed. -/
def retryBlock (b : Block) (e : ClientError) : Block ⊕ Except ClientError Nat :=
  if cfg.maxRetries ≤ b.attempt then .inr (.error e)
  else .inl { b with attempt := b.attempt + 1 }

/-- One step of `post_block`: it goes on, or ends. -/
def blockTurn (b : Block) : UploadProg (Block ⊕ Except ClientError Nat) :=
  match b.payload with
  | none =>
      .call (.readSlice b.start b.stop) fun
        | .error e => .done (.inr (.error e))
        | .ok raw =>
            match codec.compress raw with
            | .error e => .done (.inr (.error e))
            | .ok payload => .done (.inl { b with payload := some payload })
  | some payload =>
      .call (.block b.start payload) fun
        | .error e => .done (retryBlock cfg b e)
        | .ok resp =>
            .done (if resp.status = 201 then .inr (.ok payload.length)
              else retryBlock cfg b (.http resp.status))

/-- What a round keeps count of. -/
structure Progress where
  sent : Nat
  firstError : Option ClientError

/-- `first_error.get_or_insert`. -/
def noteError (first : Option ClientError) (e : ClientError) : Option ClientError :=
  some (first.getD e)

/-- A block has ended. -/
def Progress.account (p : Progress) : Except ClientError Nat → Progress
  | .ok len => { p with sent := satAdd p.sent len }
  | .error e => { p with firstError := noteError p.firstError e }

/-- The stream of blocks, `window` of them in flight; `left` bounds the steps. -/
def sendBlocks (window : Nat) : Nat → List Block → Progress → UploadProg (List Block × Progress)
  | 0, pending, p => .done (pending, p)
  | left + 1, pending, p =>
      if pending = [] then .done ([], p)
      else
        .call (.nextBlock (min window pending.length)) fun (i : Nat) =>
          match pending[i]? with
          | none => .done (pending, p)
          | some b =>
              (blockTurn cfg codec b).bind fun
                | .inl b => sendBlocks window left (pending.set i b) p
                | .inr r => sendBlocks window left (pending.eraseIdx i) (p.account r)

/-- The state of the loop. -/
structure UploadLoop where
  sent : Nat
  rounds : Nat
  firstError : Option ClientError
  received : List (Nat × Nat)

def didNotConverge (rounds : Nat) : ClientError :=
  .protocol ("upload of `".toList ++ cfg.path ++ "` did not converge after ".toList ++
    decimal rounds ++ " rounds".toList)

/-- A round that finds everything at the server. -/
def commitHeld (st : UploadLoop) : UploadProg (UploadLoop ⊕ Except ClientError Nat) :=
  commit.bind fun
    | .ok _ => .done (.inr (.ok st.sent))
    | .error e =>
        .done (if cfg.maxRetries ≤ st.rounds then .inr (.error e)
          else .inl { st with
            rounds := nextU32 st.rounds
            firstError := noteError st.firstError e })

/-- The last probe: everything has arrived after all, or the upload has failed. -/
def lastProbe (size chunkSize : Nat) (st : UploadLoop) : UploadProg (Except ClientError Nat) :=
  okThen probeSession fun received =>
    if alignedMissing size chunkSize received = [] then
      okThen commit fun _ => .done (.ok st.sent)
    else .done (.error (st.firstError.getD (didNotConverge cfg st.rounds)))

/-- The end of a round that has sent blocks. -/
def commitSent (size chunkSize : Nat) (st : UploadLoop) :
    UploadProg (UploadLoop ⊕ Except ClientError Nat) :=
  commit.bind fun
    | .ok _ => .done (.inr (.ok st.sent))
    | .error e =>
        let rounds := nextU32 st.rounds
        if cfg.maxRetries < rounds then
          (lastProbe cfg size chunkSize { st with rounds := rounds }).bind fun r => .done (.inr r)
        else .done (.inl { st with rounds := rounds, firstError := noteError st.firstError e })

/-- Send the missing blocks, then commit. -/
def sendMissing (size window chunkSize : Nat) (missing : List (Nat × Nat)) (st : UploadLoop) :
    UploadProg (UploadLoop ⊕ Except ClientError Nat) :=
  (sendBlocks cfg codec window (missing.length * (cfg.maxRetries + 2))
    (missing.map Block.waiting) ⟨st.sent, st.firstError⟩).bind fun (_, p) =>
      commitSent cfg size chunkSize { st with sent := p.sent, firstError := p.firstError }

/-- One turn of the loop, with what has been received known. -/
def roundFrom (size : Nat) (st : UploadLoop) :
    UploadProg (UploadLoop ⊕ Except ClientError Nat) :=
  .call .liveParams fun (window, chunkSize) =>
    let window := max window 1
    let chunkSize := max chunkSize 1
    let missing := alignedMissing size chunkSize st.received
    if missing = [] then commitHeld cfg st
    else sendMissing cfg codec size window chunkSize missing st

/-- One turn of the loop; the first reuses the initial probe. -/
def uploadRound (size : Nat) (st : UploadLoop) :
    UploadProg (UploadLoop ⊕ Except ClientError Nat) :=
  if 0 < st.rounds then
    probeSession.bind fun
      | .error e => .done (.inr (.error e))
      | .ok received => roundFrom cfg codec size { st with received := received }
  else roundFrom cfg codec size st

/-- `upload_session`, cut after `n` rounds; `none` where its loop has not ended by then. -/
def uploadSession (size n : Nat) : UploadProg (Option (Except ClientError Nat)) :=
  probeSession.bind fun
    | .error e => .done (some (.error e))
    | .ok received => rounds (uploadRound cfg codec size) n ⟨0, 0, none, received⟩

end Code

end NativeClient

/-! ## The requests -/

namespace Session

variable (S : Session) (file : FileMeta)

/-- A request without a body. -/
def emptyBody : Body := ⟨[], .ok []⟩

/-- The request of `probe_session`. -/
def probeJob : UploadJob where
  path := S.path
  fileMeta := file
  finalChunk := false
  offsetHdr := some "0".toList
  session := some ⟨S.id, S.owner, true⟩
  body := emptyBody

/-- The request of `post_block`. -/
def blockJob (start : Nat) (body : Body) : UploadJob where
  path := S.path
  fileMeta := file
  finalChunk := false
  offsetHdr := some (decimal start)
  session := some ⟨S.id, S.owner, false⟩
  body := body

/-- The request of `commit`. -/
def commitJob : UploadJob where
  path := S.path
  fileMeta := file
  finalChunk := true
  offsetHdr := some (decimal file.size)
  session := some ⟨S.id, S.owner, false⟩
  body := emptyBody

end Session

/-! ## The surroundings -/

/-- The response to a successful request. -/
def Reply.toResponse : Reply → Response
  | .created _ => ⟨201, []⟩
  | .status ranges => ⟨200, ranges.map fun r => (r.start, r.stop)⟩

/-- What the client sees of an answer. -/
def responseOf : Except ApiError Reply → Response
  | .ok reply => reply.toResponse
  | .error e => ⟨e.response.1, []⟩

/-- What the surroundings decide about a call. -/
inductive UploadChoice where
  | go
  | fail (e : ClientError)
  | tuned (window chunkSize : Nat)
  | pick (i : Nat)
  | lost (message : Text)
  | refused (status : Nat)
  | served (arrived : List (Except Text (List UInt8))) (calls : List Choice)
      (answerLost : Option Text)

/-- What arrives of a body: all of it, in pieces, or a beginning before it breaks off. -/
def Arrives : List UInt8 → List (Except Text (List UInt8)) → Prop
  | payload, [] => payload = []
  | _, .error _ :: _ => True
  | payload, .ok chunk :: rest => chunk <+: payload ∧ Arrives (payload.drop chunk.length) rest

instance decidableArrives : (payload : List UInt8) →
    (arrived : List (Except Text (List UInt8))) → Decidable (Arrives payload arrived)
  | payload, [] => inferInstanceAs (Decidable (payload = []))
  | _, .error _ :: _ => inferInstanceAs (Decidable True)
  | payload, .ok chunk :: rest =>
      have := decidableArrives (payload.drop chunk.length) rest
      inferInstanceAs (Decidable (chunk <+: payload ∧ Arrives (payload.drop chunk.length) rest))

section Surroundings

variable {δ : Type} (S : Session) (file : FileMeta) (data : List UInt8) (codec : BlockCodec δ)

/-- A request on its way. -/
def sendRequest (job : UploadJob) : UploadChoice → Store →
    Option (Store × Except ClientError Response)
  | .lost m, s => some (s, .error (.network m))
  | .refused status, s =>
      if status = 200 ∨ status = 201 then none else some (s, .ok ⟨status, []⟩)
  | .served _ calls answerLost, s =>
      match serveAlone S.srv job calls s with
      | none => none
      | some (t, r) =>
          some (t, match answerLost with
            | some m => .error (.network m)
            | none => .ok (responseOf r))
  | _, _ => none

/-- What a block's body arrives as. -/
def bodyOf (codec : BlockCodec δ) : UploadChoice → Body
  | .served arrived _ _ => decodeBody codec.decomp codec.start arrived
  | _ => Session.emptyBody

/-- What arrives of a block is its payload. -/
def Carries (payload : List UInt8) : UploadChoice → Prop
  | .served arrived _ _ => Arrives payload arrived
  | _ => True

instance (payload : List UInt8) (c : UploadChoice) : Decidable (Carries payload c) := by
  cases c <;> unfold Carries <;> infer_instance

/-- `read_exact` at the end of the file. -/
def earlyEof (start stop : Nat) : ClientError :=
  .storage ("read ".toList ++ decimal (stop - start) ++ " bytes at ".toList ++ decimal start ++
    ": early eof".toList)

/-- `read_slice`. -/
def readLocal (data : List UInt8) (start stop : Nat) : Except ClientError (List UInt8) :=
  if stop ≤ data.length then .ok ((data.take stop).drop start) else .error (earlyEof start stop)

theorem readLocal_prefix {data raw : List UInt8} {start stop : Nat}
    (h : readLocal data start stop = .ok raw) : raw <+: data.drop start := by
  unfold readLocal at h
  split at h
  · cases h
    rw [List.drop_take]
    exact List.take_prefix _ _
  · cases h

/-- What a call does while the local file holds `data`. -/
def UploadOp.exec : Exec UploadOp UploadOp.Ans UploadChoice Store
  | .liveParams, .tuned window chunkSize, s => some (s, (window, chunkSize))
  | .readSlice start stop, .go, s => some (s, readLocal data start stop)
  | .readSlice _ _, .fail e, s => some (s, .error e)
  | .nextBlock inFlight, .pick i, s => if i < inFlight then some (s, i) else none
  | .probe, c, s => sendRequest S (S.probeJob file) c s
  | .block start payload, c, s =>
      if Carries payload c then sendRequest S (S.blockJob file start (bodyOf codec c)) c s
      else none
  | .commit, c, s => sendRequest S (S.commitJob file) c s
  | _, _, _ => none

/-! Everything a local call can do. -/

variable {S file data codec} {c : UploadChoice} {s t : Store}

theorem exec_liveParams {a : Nat × Nat}
    (h : UploadOp.exec S file data codec .liveParams c s = some (t, a)) : t = s := by
  cases c with
  | tuned window chunkSize =>
      cases h
      rfl
  | go | fail | pick | lost | refused | served => cases h

theorem exec_readSlice {start stop : Nat} {a : Except ClientError (List UInt8)}
    (h : UploadOp.exec S file data codec (.readSlice start stop) c s = some (t, a)) :
    t = s ∧ ∀ raw, a = .ok raw → raw <+: data.drop start := by
  cases c with
  | go =>
      cases h
      exact ⟨rfl, fun raw hraw => readLocal_prefix hraw⟩
  | fail e =>
      cases h
      exact ⟨rfl, fun raw hraw => nomatch hraw⟩
  | tuned | pick | lost | refused | served => cases h

theorem exec_nextBlock {inFlight : Nat} {a : Nat}
    (h : UploadOp.exec S file data codec (.nextBlock inFlight) c s = some (t, a)) :
    t = s ∧ a < inFlight := by
  cases c with
  | pick i =>
      have hi : (if i < inFlight then some (s, i) else none) = some (t, a) := h
      split at hi
      · next hlt =>
          cases hi
          exact ⟨rfl, hlt⟩
      · cases hi
  | go | fail | tuned | lost | refused | served => cases h

theorem exec_block {start : Nat} {payload : List UInt8} {a : Except ClientError Response}
    (h : UploadOp.exec S file data codec (.block start payload) c s = some (t, a)) :
    Carries payload c ∧
      sendRequest S (S.blockJob file start (bodyOf codec c)) c s = some (t, a) := by
  have hif : (if Carries payload c then
      sendRequest S (S.blockJob file start (bodyOf codec c)) c s else none) = some (t, a) := h
  split at hif
  · next hcarries => exact ⟨hcarries, hif⟩
  · cases hif

end Surroundings

end Libfw

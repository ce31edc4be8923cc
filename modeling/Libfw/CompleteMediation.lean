import Libfw.DownloadIsolation
import Libfw.RequestRouting

/-!
# Every call is somebody's right

What any number of HTTP requests do to a store, from the first byte of a request on.

* `complete_mediation` — a request that calls on the store has passed the handshake, its token
  has been verified and allows its real path, and the call names nothing but what belongs to
  that path; only an upload changes anything.
* `strangers_keep_out` — a file whose path no token allows to write keeps its bytes, and one that
  no token allows at all is not read either, whatever is open and renamed meanwhile.
-/

namespace Libfw

open SteppedPrograms SoloPrograms Handler PosixStore SegmentPaths

/-! ## Admission -/

/-- The shadow path a route is about. -/
def Route.shadow : Route → Option Text
  | .file encoded | .dir encoded => pathParam encoded
  | .dirRoot => some []
  | .capabilities => none

/-- What a method does to its path. -/
def HttpMethod.action : HttpMethod → Action
  | .post => .write
  | _ => .read

section Admission

variable {V : Type} {srv : HttpServer V} {req : HttpRequest V}

/-- The request has a compatible protocol if any, a token that is verified to these claims,
and a route about this path. -/
structure HttpServer.Admits (srv : HttpServer V) (req : HttpRequest V) (claims : TokenClaims)
    (shadow : Text) : Prop where
  protocol : ∀ v, srv.headerText req HEADER_PROTOCOL = some v → protocolCompatible v = true
  token : ∃ token, srv.headerText req AUTHORIZATION = some ("Bearer ".toList ++ token) ∧
    srv.verify (trim token) = .ok claims
  path : ∃ route, routeOf req.path = some route ∧ route.shadow = some shadow

theorem append_of_stripPrefix {p t rest : Text} (h : stripPrefix p t = some rest) :
    t = p ++ rest := by
  unfold stripPrefix at h
  split at h
  · next hp =>
      cases h
      exact (List.prefix_append_drop (Text.startsWith_iff.1 hp)).trans rfl
  · cases h

/-- A token that is accepted has been verified. -/
theorem token_of_bearerClaims {claims : TokenClaims} (h : srv.bearerClaims req = .ok claims) :
    ∃ token, srv.headerText req AUTHORIZATION = some ("Bearer ".toList ++ token) ∧
      srv.verify (trim token) = .ok claims := by
  unfold HttpServer.bearerClaims at h
  cases hvalue : srv.headerText req AUTHORIZATION with
  | none =>
      rw [hvalue] at h
      cases h
  | some value =>
      rw [hvalue] at h
      cases hstrip : stripPrefix "Bearer ".toList value with
      | none =>
          simp only [hstrip] at h
          cases h
      | some token =>
          simp only [hstrip] at h
          cases hverify : srv.verify (trim token) with
          | error e =>
              rw [hverify] at h
              cases h
          | ok c =>
              rw [hverify] at h
              cases h
              exact ⟨token, by rw [append_of_stripPrefix hstrip], hverify⟩

/-- A handler with a path has got it, and the claims. -/
theorem onPath_eq_ok {encoded : Text} {handler : TokenClaims → Text → ClientRequest V}
    {r : ClientRequest V} (h : srv.onPath req encoded handler = .ok r) :
    ∃ claims path, pathParam encoded = some path ∧ srv.bearerClaims req = .ok claims ∧
      r = handler claims path := by
  unfold HttpServer.onPath at h
  cases hpath : pathParam encoded with
  | none =>
      rw [hpath] at h
      cases h
  | some path =>
      rw [hpath] at h
      cases hclaims : srv.bearerClaims req with
      | error e =>
          simp only [hclaims] at h
          cases h
      | ok claims =>
          simp only [hclaims] at h
          cases h
          exact ⟨claims, path, rfl, rfl, rfl⟩

/-- A route that gets to a handler. -/
theorem dispatch_eq_some {route : Route} {r : ClientRequest V}
    (h : srv.dispatch req route = .ok (some r)) :
    srv.bearerClaims req = .ok r.claims ∧ route.shadow = some r.path ∧
      r.action = req.method.action := by
  have hmap : ∀ x : Except HttpResponse (ClientRequest V), x.map some = .ok (some r) → x = .ok r := by
    intro x hx
    cases x with
    | error e => cases hx
    | ok a =>
        cases hx
        rfl
  cases route with
  | capabilities =>
      unfold HttpServer.dispatch at h
      cases hm : req.method <;> rw [hm] at h <;> cases h
  | dirRoot =>
      unfold HttpServer.dispatch at h
      cases hclaims : srv.bearerClaims req with
      | error e => cases hm : req.method <;> simp only [hm, hclaims] at h <;> cases h
      | ok claims =>
          cases hm : req.method <;> simp only [hm, hclaims] at h <;> cases h <;> exact ⟨rfl, rfl, rfl⟩
  | dir encoded =>
      unfold HttpServer.dispatch at h
      cases hm : req.method <;> simp only [hm] at h
      case get | head =>
        obtain ⟨claims, path, hpath, hclaims, rfl⟩ := onPath_eq_ok (hmap _ h)
        exact ⟨hclaims, hpath, rfl⟩
      case post | other => cases h
  | file encoded =>
      unfold HttpServer.dispatch at h
      cases hm : req.method <;> simp only [hm] at h
      case get | head | post =>
        obtain ⟨claims, path, hpath, hclaims, rfl⟩ := onPath_eq_ok (hmap _ h)
        exact ⟨hclaims, hpath, rfl⟩
      case other => cases h

/-- **What gets to a handler has been admitted**, and does what its method says. -/
theorem admits_of_receive {r : ClientRequest V} (h : srv.receive req = .ok (some r)) :
    srv.Admits req r.claims r.path ∧ r.action = req.method.action := by
  unfold HttpServer.receive at h
  split at h
  · cases h
  · next hprotocol =>
      split at h
      · cases h
      · next route hroute =>
          obtain ⟨hclaims, hpath, haction⟩ := dispatch_eq_some h
          refine ⟨⟨?_, token_of_bearerClaims hclaims, route, hroute, hpath⟩, haction⟩
          intro v hv
          rw [hv] at hprotocol
          simpa [Option.filter] using hprotocol

end Admission

/-! ## What belongs to a path -/

/-- The paths that belong to a real path for a subject: itself, the directory it is in and the
names in it, the temporaries of uploads to it, and the files of the subject's sessions there. -/
inductive BelongsTo (full : FsPath) (owner : Text) : FsPath → Prop where
  | target : BelongsTo full owner full
  | parent {dir : FsPath} : full.parent = some dir → BelongsTo full owner dir
  | child (name : Text) : BelongsTo full owner (full ++ [.normal name])
  | attempt (nanos counter : Nat) : BelongsTo full owner (tempPathFor full nanos counter)
  | session (id : Text) {p : FsPath} : p ∈ sessionFilesOf full id owner → BelongsTo full owner p

/-- The paths a call names. -/
def ServerOp.names : ServerOp → List FsPath
  | .store call => call.1.files ++ call.1.dirs
  | .read _ _ _ => []
  | .readDir dir => [dir]

/-- A call that names nothing else, and changes nothing unless that is the action. -/
structure Rightful (full : FsPath) (owner : Text) (action : Action) (op : ServerOp) : Prop where
  names : ∀ p ∈ op.names, BelongsTo full owner p
  looks : action = .read → op.looks = true

namespace Handler

section Handlers

variable {V : Type} {srv : FileServer V} {full : FsPath} {owner path : Text}

theorem allowsReading_rightful (root : FsPath)
    (hfull : ∀ target, resolve root path = .ok target → target = full) :
    AllowsReading (Rightful full owner .read) root path := by
  have hnamed : ∀ (op : Op), (ServerOp.store (op, Held.nothing)).names = [full] →
      op.looks = true → Rightful full owner .read (.store (op, Held.nothing)) := by
    intro op hnames hlooks
    refine ⟨?_, fun _ => hlooks⟩
    intro p hp
    rw [hnames] at hp
    rw [List.mem_singleton.1 hp]
    exact .target
  refine ⟨⟨?_, ?_⟩, ?_⟩
  · intro target htarget op hop
    obtain rfl := hfull target htarget
    simp only [List.mem_cons, List.not_mem_nil, or_false] at hop
    rcases hop with rfl | rfl
    · exact hnamed _ rfl rfl
    · exact hnamed _ rfl rfl
  · intro file pos len
    exact ⟨fun p hp => absurd hp List.not_mem_nil, fun _ => rfl⟩
  · intro target htarget
    obtain rfl := hfull target htarget
    exact hnamed _ rfl rfl

/-- A directory is read at the head of a `do` block. -/
theorem asks_scan_then {P : ServerOp → Prop} {ε β : Type} {dir : FsPath}
    {f : Except IoError (List Text) → Handler ε β} {Q : β → Prop} (h : P (.readDir dir))
    (hf : ∀ a, Asks P (f a) Q) : Asks P (scan dir >>= f) Q := ⟨h, hf⟩

theorem asks_dirEntries (path : Text) : ∀ found : List Text,
    Asks (Rightful full owner .read) (FsStorage.dirEntries full path found) fun _ => True
  | [] => asks_ret trivial
  | name :: rest => by
      unfold FsStorage.dirEntries FsStorage.dirEntry
      apply asks_then (R := fun _ => True)
      · apply asks_then
        · apply asks_ask
          refine ⟨?_, fun _ => rfl⟩
          intro p hp
          rw [List.mem_singleton.1 hp]
          exact .child name
        · intro r _
          apply asks_then (R := fun _ => True) (asks_lift fun _ _ => trivial)
          intro _ _
          exact asks_ret trivial
      · intro entry _
        apply asks_then (asks_dirEntries path rest)
        intro entries _
        exact asks_ret trivial

/-- A listing. -/
theorem asks_listDir (hfull : resolve srv.storage.root path = .ok full) :
    Asks (Rightful full owner .read) (srv.listDir path) fun _ => True := by
  have hroot : path = [] → srv.storage.root = full := by
    intro hpath
    rw [hpath, resolve_canonical _ (by decide)] at hfull
    have hempty : (segments ([] : Text)).map Component.normal = [] := by decide
    rw [hempty, List.append_nil] at hfull
    exact Except.ok.inj hfull
  have hnamed : ∀ op ∈ [ServerOp.store (.checkSymlinks full, Held.nothing), .readDir full],
      Rightful full owner .read op := by
    intro op hop
    simp only [List.mem_cons, List.not_mem_nil, or_false] at hop
    rcases hop with rfl | rfl
    all_goals
      refine ⟨?_, fun _ => rfl⟩
      intro p hp
      rw [List.mem_singleton.1 hp]
      exact .target
  have hresolved : Asks (Rightful full owner .read) (lift (if path = [] then .ok srv.storage.root
      else (resolve srv.storage.root path).mapError StorageError.unsupported))
      fun target => target = full := by
    apply asks_lift
    intro target h
    by_cases hpath : path = []
    · rw [if_pos hpath] at h
      cases h
      exact hroot hpath
    · rw [if_neg hpath, hfull] at h
      cases h
      rfl
  unfold FileServer.listDir FsStorage.listDir
  apply asks_then (asks_orElse (Q := fun _ => True) _)
  · intro entries _
    exact asks_ret trivial
  · apply asks_then hresolved
    rintro _ rfl
    apply asks_then (asks_ask (hnamed _ (by simp)))
    intro r _
    apply asks_then (R := fun _ => True) (asks_lift fun _ _ => trivial)
    intro _ _
    apply asks_scan_then (hnamed _ (by simp))
    intro r
    cases r with
    | error e =>
        dsimp only
        split
        · exact asks_fail
        · exact asks_fail
    | ok found =>
        apply asks_then (asks_dirEntries path found)
        intro entries _
        exact asks_ret trivial

/-- What the upload code asks for, the handler asks for. -/
theorem asks_ofFs {ε α : Type} {P : ServerOp → Prop} {P' : Op → Prop} {x : Fs ε α}
    (hx : Fs.Asks P' (fun _ => True) x) (hP : ∀ call : Call, P' call.1 → P (.store call)) :
    Asks P (ofFs x) fun _ => True := by
  have hcode : ∀ {ρ : Type} (p : Code ρ), p.Along (fun call => P' call.1) (fun _ => True) →
      (ofCode p).Along P fun _ => True := by
    intro ρ p
    induction p with
    | done r => exact fun _ => trivial
    | call call k ih => exact fun hp => ⟨hP call hp.1, fun a => ih a (hp.2 a)⟩
  unfold ofFs
  apply (Prog.along_bind _ _).2
  have hbody : (x Held.nothing).Along (fun call => P' call.1) fun _ => True :=
    (hx Held.nothing).mono (fun _ => id) fun _ _ => trivial
  apply (hcode _ hbody).mono fun _ => id
  intro r _ a _
  trivial

/-- An upload. -/
theorem asks_upload {claims : TokenClaims} {hdrs : UploadHeaders V} {body : Body}
    (hfull : ∀ target, resolve srv.storage.root path = .ok target → target = full) :
    Asks (Rightful full (ownerTag srv.sha256 claims.sub) .write)
      (srv.upload claims path hdrs body) fun _ => True := by
  have hjob : Asks (Rightful full (ownerTag srv.sha256 claims.sub) .write)
      (lift ((srv.uploadJob claims path hdrs body).mapError Stopped.failed))
      fun job => srv.uploadJob claims path hdrs body = .ok job := by
    apply asks_lift
    intro job h
    cases hres : srv.uploadJob claims path hdrs body with
    | error e =>
        rw [hres] at h
        cases h
    | ok j =>
        rw [hres] at h
        cases h
        rfl
  unfold FileServer.upload
  apply asks_then hjob
  intro job hjob
  obtain ⟨hpath, hsession⟩ := srv.uploadJob_eq_ok hjob
  unfold FileServer.serveUpload
  apply asks_then (asks_orElse (asks_ofFs runUpload_asks _))
  · intro reply _
    cases reply with
    | created file => exact asks_ret trivial
    | status ranges => exact asks_ret trivial
  · intro call hcall
    refine ⟨?_, fun h => by cases h⟩
    intro p hp
    rcases List.mem_append.1 hp with hfile | hdir
    · cases hcall.files p hfile with
      | target hres =>
          rw [hpath] at hres
          rw [hfull p hres]
          exact .target
      | made hmade =>
          cases hmade with
          | session hsess =>
              obtain ⟨target, key, hres, hkey, hmem⟩ := mem_sessionFilesOf hsess
              rw [hpath] at hres
              rw [hsession] at hkey
              rw [hfull target hres, owner_of_sessionKey hkey] at hmem
              exact .session key.id hmem
          | attempt hdrawn =>
              obtain ⟨target, nanos, counter, hres, rfl⟩ := hdrawn
              rw [hpath] at hres
              rw [hfull target hres]
              exact .attempt nanos counter
    · obtain ⟨target, hres, hparent⟩ := hcall.dirs p hdir
      rw [hpath] at hres
      rw [hfull target hres] at hparent
      exact .parent hparent

end Handlers

end Handler

/-! ## Mediation -/

section Mediation

variable {V : Type} {srv : HttpServer V}

/-- What a request of the server stands on when it calls: its admission, and the right of its
claims to the real path. -/
structure HttpServer.Mediates (srv : HttpServer V) (req : HttpRequest V) (op : ServerOp)
    (claims : TokenClaims) (shadow real : Text) (full : FsPath) : Prop where
  admitted : srv.Admits req claims shadow
  decoded : decodeClientPath srv.files.storage.codec shadow = .ok real
  allowed : srv.files.validate claims real req.method.action = .ok ()
  resolved : resolve srv.files.storage.root real = .ok full
  rightful : Rightful full (ownerTag srv.files.sha256 claims.sub) req.method.action op

/-- A request, from its path on, asks only for what belongs to it. -/
theorem handle_rightful {files : FileServer V} {r : ClientRequest V} {real : Text} {full : FsPath}
    (hreal : files.resolvePath r = .ok real) (hfull : resolve files.storage.root real = .ok full) :
    Asks (Rightful full (ownerTag files.sha256 r.claims.sub) r.action) (files.handle real r)
      fun _ => True := by
  have hone : ∀ target, resolve files.storage.root real = .ok target → target = full := by
    intro target htarget
    rw [hfull] at htarget
    exact (Except.ok.inj htarget).symm
  have hcanon : validateRelPath real = .ok real := files.canonical_of_resolvePath hreal
  have hP : ∀ p, validateRelPath real = .ok p → AllowsReading (Rightful full
      (ownerTag files.sha256 r.claims.sub) .read) files.storage.root p := by
    intro p hp
    rw [hcanon] at hp
    cases hp
    exact allowsReading_rightful _ hone
  cases r with
  | download claims path hdrs => exact asks_download hP hcanon hdrs
  | head claims path hdrs => exact asks_headFile hP hdrs
  | upload claims path hdrs body => exact asks_upload hone
  | list claims path => exact asks_listDir hfull

/-- **Each call of a request is mediated**, whatever it has been answered. -/
theorem serve_mediated (req : HttpRequest V) :
    (srv.serve req).Along (fun op => ∃ claims shadow real full,
      srv.Mediates req op claims shadow real full) fun _ => True := by
  unfold HttpServer.serve
  cases hreceive : srv.receive req with
  | error response => trivial
  | ok received =>
      cases received with
      | none => trivial
      | some r =>
          obtain ⟨hadmits, haction⟩ := admits_of_receive hreceive
          apply (Prog.along_bind _ _).2
          unfold FileServer.serve
          cases hreal : srv.files.resolvePath r with
          | error e => trivial
          | ok real =>
              have hresolve : resolveClientPath srv.files.storage.codec srv.files.validate r.claims
                  r.path r.action = .ok real := by
                unfold FileServer.resolvePath at hreal
                cases hres : resolveClientPath srv.files.storage.codec srv.files.validate r.claims
                    r.path r.action with
                | error e =>
                    rw [hres] at hreal
                    cases hreal
                | ok p =>
                    rw [hres] at hreal
                    cases hreal
                    rfl
              obtain ⟨hdecoded, hallowed⟩ := resolveClientPath_eq_ok_iff.1 hresolve
              have hfull := resolve_canonical srv.files.storage.root
                (canonical_of_decodeClientPath hdecoded)
              apply (Prog.along_bind _ _).2
              rw [haction] at hallowed
              have hasks := handle_rightful hreal hfull
              rw [haction] at hasks
              apply Prog.Along.mono hasks
              · exact fun op hop => ⟨_, _, real, _, hadmits, hdecoded, hallowed, hfull, hop⟩
              · intro result _
                cases result with
                | ok response => trivial
                | error e => cases e <;> trivial

/-- **Complete mediation.**  In every run of the server, a request that waits for the store has
been admitted, and asks for what its claims allow. -/
theorem complete_mediation {s₀ : Store} {s : HttpState V}
    (hrun : (httpSystem srv).Reaches (fun _ _ => True) (quietServer s₀) s) {i : Nat}
    {req : HttpRequest V} {op : ServerOp}
    {k : op.Ans → Prog ServerOp ServerOp.Ans (Option HttpResponse)}
    (hwait : s.task i = .waiting req op k) :
    ∃ claims shadow real full, srv.Mediates req op claims shadow real full := by
  have hall := hrun.along (P := fun req op => ∃ claims shadow real full,
      srv.Mediates req op claims shadow real full) (K := fun _ => True) (I := fun _ => True)
    (fun req _ => serve_mediated req) (fun _ _ _ _ => trivial) (fun _ _ _ _ => trivial)
    (fun _ _ _ => trivial) (fun _ _ _ _ _ _ _ _ _ _ _ => trivial) (fun _ _ _ _ => trivial)
    (fun _ => rfl) trivial
  exact (hall.2 i req op k hwait).2.1

end Mediation

/-! ## Files that no token covers -/

section Strangers

variable {V : Type} {srv : HttpServer V} {path : Text} {s₀ : Store} {s : HttpState V}

/-- The file of a real path. -/
def HttpServer.fileAt (srv : HttpServer V) (path : Text) : FsPath :=
  srv.files.storage.root ++ (segments path).map .normal

/-- No request that starts has a token for these actions on the path, and nobody else puts a
file there. -/
def HttpServer.Strangers (srv : HttpServer V) (actions : List Action) (path : Text)
    (_ : HttpState V) : HttpAct V → Prop
  | .start _ req => ∀ claims, srv.bearerClaims req = .ok claims → ∀ action ∈ actions,
      srv.files.validate claims path action ≠ .ok ()
  | .env (.place p _) => p ≠ srv.fileAt path
  | _ => True

/-- The names of everything that uploads make for themselves begin so. -/
def LIBFW_PREFIX : Text := ".libfw-".toList

/-- A file of another name is no temporary and no file of a session. -/
theorem tempPathFor_ne_plain {target : FsPath} (hname : ¬ LIBFW_PREFIX <+: baseName target)
    (full : FsPath) (nanos counter : Nat) : tempPathFor full nanos counter ≠ target := by
  apply tempPathFor_ne
  exact fun h => hname ((by decide : LIBFW_PREFIX <+: TMP_PREFIX).trans h)

theorem not_mem_sessionFiles_plain {target full : FsPath} {id owner : Text}
    (hname : ¬ LIBFW_PREFIX <+: baseName target) : target ∉ sessionFilesOf full id owner := by
  intro hmem
  obtain ⟨rest, hfile⟩ := fileName_of_mem_sessionFiles hmem
  apply hname
  unfold baseName
  rw [hfile, Option.getD_some]
  exact (by decide : LIBFW_PREFIX <+: SESSION_PREFIX).trans (List.prefix_append _ _)

/-- Real paths that differ have different files. -/
theorem fileAt_injective {a b : Text} (h : srv.fileAt a = srv.fileAt b) : a = b := by
  apply MountPathCodec.segments_injective
  have hmap := List.append_cancel_left h
  exact List.map_injective_iff.2 (fun _ _ hc => Component.normal.inj hc) hmap

/-- What a real path of a request is resolved to. -/
theorem resolved_fileAt {r : ClientRequest V} {real : Text} {full : FsPath}
    (hreal : srv.files.resolvePath r = .ok real)
    (hfull : resolve srv.files.storage.root real = .ok full) : full = srv.fileAt real := by
  rw [resolve_canonical _ (srv.files.canonical_of_resolvePath hreal)] at hfull
  exact (Except.ok.inj hfull).symm

/-- A request is allowed its real path. -/
theorem validate_of_resolvePath {r : ClientRequest V} {real : Text}
    (hreal : srv.files.resolvePath r = .ok real) :
    srv.files.validate r.claims real r.action = .ok () := by
  unfold FileServer.resolvePath at hreal
  cases hres : resolveClientPath srv.files.storage.codec srv.files.validate r.claims r.path
      r.action with
  | error e =>
      rw [hres] at hreal
      cases hreal
  | ok p =>
      rw [hres] at hreal
      cases hreal
      exact (resolveClientPath_eq_ok_iff.1 hres).2

/-- A request whose claims do not allow its action on the path is about another file. -/
theorem elsewhere_of_forbidden {r : ClientRequest V} {real : Text} {full : FsPath}
    (hforbidden : srv.files.validate r.claims path r.action ≠ .ok ())
    (hreal : srv.files.resolvePath r = .ok real)
    (hfull : resolve srv.files.storage.root real = .ok full) : full ≠ srv.fileAt path := by
  intro heq
  rw [resolved_fileAt hreal hfull] at heq
  have hsame := fileAt_injective heq
  rw [hsame] at hreal
  exact hforbidden (validate_of_resolvePath hreal)

/-- What a request that gets to a handler has been verified to. -/
theorem bearerClaims_of_receive {req : HttpRequest V} {r : ClientRequest V}
    (h : srv.receive req = .ok (some r)) : srv.bearerClaims req = .ok r.claims := by
  unfold HttpServer.receive at h
  split at h
  · cases h
  · split at h
    · cases h
    · exact (dispatch_eq_some h).1

/-- The request of the handler does what the HTTP request does to the store. -/
theorem serve_of_receive {req : HttpRequest V}
    {P : Prog ServerOp ServerOp.Ans (Option HttpResponse) → Prop}
    (hdone : ∀ r, P (.done r))
    (hserve : ∀ r, srv.receive req = .ok (some r) →
      P ((srv.files.serve r).bind fun response => .done (response.map (HttpServer.respond req)))) :
    P (srv.serve req) := by
  unfold HttpServer.serve
  cases hreceive : srv.receive req with
  | error response => exact hdone _
  | ok received =>
      cases received with
      | none => exact hdone _
      | some r => exact hserve r hreceive

/-- What is done with the response makes no difference. -/
theorem OffTarget.bind_done {ρ τ : Type} {target : FsPath} {p : Prog ServerOp ServerOp.Ans ρ}
    {f : ρ → τ} {u : Store} (h : OffTarget target p u) :
    OffTarget target (p.bind fun r => .done (f r)) u := by
  obtain ⟨files, hoff, hclear⟩ := h
  refine ⟨files, ?_, hclear⟩
  apply (Prog.staged_bind _ _ _).2
  exact Prog.Staged.mono hoff fun _ _ _ => trivial

theorem SparesTarget.bind_done {ρ τ : Type} {target : FsPath} {p : Prog ServerOp ServerOp.Ans ρ}
    {f : ρ → τ} {u : Store} (h : SparesTarget target p u) :
    SparesTarget target (p.bind fun r => .done (f r)) u := by
  rcases h with hlooks | hoff
  · left
    apply (Prog.along_bind _ _).2
    exact hlooks.mono (fun _ => id) fun _ _ => trivial
  · exact Or.inr hoff.bind_done

theorem overStore_httpSystem (srv : HttpServer V) :
    OverStore srv.files.storage.serde (httpSystem srv) :=
  ⟨fun _ _ _ _ => rfl, fun _ _ _ => rfl, fun _ _ => rfl, fun _ _ => rfl⟩

/-! ### Writers -/

/-- A request that may not write the path spares its file. -/
theorem serve_spares (hname : ¬ LIBFW_PREFIX <+: baseName (srv.fileAt path)) {req : HttpRequest V}
    (hforbidden : ∀ claims, srv.bearerClaims req = .ok claims →
      srv.files.validate claims path .write ≠ .ok ()) (u : Store) :
    SparesTarget (srv.fileAt path) (srv.serve req) u := by
  apply serve_of_receive (P := fun p => SparesTarget (srv.fileAt path) p u)
  · exact fun r => Or.inl trivial
  · intro r hreceive
    apply SparesTarget.bind_done
    apply serve_sparesTarget (tempPathFor_ne_plain hname)
    have hother := hforbidden r.claims (bearerClaims_of_receive hreceive)
    cases r with
    | upload claims shadow hdrs body =>
        intro real full hreal hfull
        exact ⟨elsewhere_of_forbidden hother hreal hfull,
          fun _ _ => not_mem_sessionFiles_plain hname⟩
    | download claims shadow hdrs => trivial
    | head claims shadow hdrs => trivial
    | list claims shadow => trivial

/-- Every request of such a run spares the file. -/
theorem spares_of_reaches {actions : List Action} (hwrite : Action.write ∈ actions)
    (hname : ¬ LIBFW_PREFIX <+: baseName (srv.fileAt path))
    (hrun : (httpSystem srv).Reaches (srv.Strangers actions path) (quietServer s₀) s) :
    System.Standing (fun _ p u => SparesTarget (srv.fileAt path) p u) s := by
  apply System.Reaches.standing (W := fun _ p u => SparesTarget (srv.fileAt path) p u) _ _ _
    (fun _ => rfl) hrun
  · intro u i req hok
    exact serve_spares hname (fun claims hclaims => hok claims hclaims _ hwrite) _
  · intro i c req op k sh sh' a hspares hexec
    have hx : op.exec srv.files.storage.serde i c sh = some (sh', a) := hexec
    exact sparesTarget_of_exec hspares hx
  · intro u a t _ hstand hnext req p hp
    exact sparesTarget_of_next (overStore_httpSystem srv) hstand hnext hp

/-- **Run lemma**: the file keeps its bytes. -/
theorem kept_of_strangers {actions : List Action} (hwrite : Action.write ∈ actions)
    (hname : ¬ LIBFW_PREFIX <+: baseName (srv.fileAt path))
    (hrun : (httpSystem srv).Reaches (srv.Strangers actions path) (quietServer s₀) s) :
    FileKept (srv.fileAt path) s₀ s.shared := by
  induction hrun with
  | refl => exact FileKept.refl _ _
  | tail hreach hok hnext ih =>
      apply ih.trans
      apply fileKept_of_next (overStore_httpSystem srv) (spares_of_reaches hwrite hname hreach) _
        hnext
      rintro p cells rfl
      exact hok

/-! ### Readers -/

/-- A request that may do nothing with the path keeps off its file. -/
theorem serve_keepsOff (hname : ¬ LIBFW_PREFIX <+: baseName (srv.fileAt path))
    {req : HttpRequest V} (hforbidden : ∀ claims, srv.bearerClaims req = .ok claims →
      ∀ action, srv.files.validate claims path action ≠ .ok ()) (u : Store) :
    OffTarget (srv.fileAt path) (srv.serve req) u := by
  apply serve_of_receive (P := fun p => OffTarget (srv.fileAt path) p u)
  · exact fun r => ⟨[], trivial, fun f hf => absurd hf List.not_mem_nil⟩
  · intro r hreceive
    apply OffTarget.bind_done
    refine ⟨[], ?_, fun f hf => absurd hf List.not_mem_nil⟩
    have hother := hforbidden r.claims (bearerClaims_of_receive hreceive)
    cases r with
    | download claims shadow hdrs =>
        apply serve_off
        intro real hreal
        apply Handler.off_download
        intro p full hp hfull hmem
        have hcanon : validateRelPath real = .ok real := srv.files.canonical_of_resolvePath hreal
        rw [hcanon] at hp
        cases hp
        exact elsewhere_of_forbidden (hother .read) hreal hfull (List.mem_singleton.1 hmem)
    | head claims shadow hdrs => exact serve_off fun real _ => Handler.off_headFile hdrs
    | list claims shadow => exact serve_off fun real _ => Handler.off_list
    | upload claims shadow hdrs body =>
        apply upload_staysOff (tempPathFor_ne_plain hname)
        intro real full hreal hfull
        exact ⟨elsewhere_of_forbidden (hother .write) hreal hfull,
          fun _ _ => not_mem_sessionFiles_plain hname⟩

/-- Along a run of strangers to `path`, what is left of every request keeps off its file: the guard
lets the request in for other paths only, and a call that keeps off the file leaves it so. -/
theorem keepsOff_of_reaches (hname : ¬ LIBFW_PREFIX <+: baseName (srv.fileAt path))
    (hrun : (httpSystem srv).Reaches (srv.Strangers [.read, .write] path) (quietServer s₀) s) :
    System.Standing (fun _ p u => OffTarget (srv.fileAt path) p u) s := by
  apply System.Reaches.standing (W := fun _ p u => OffTarget (srv.fileAt path) p u) _ _ _
    (fun _ => rfl) hrun
  · intro u i req hok
    apply serve_keepsOff hname
    intro claims hclaims action
    apply hok claims hclaims
    cases action <;> simp
  · intro i c req op k sh sh' a hoff hexec
    have hx : op.exec srv.files.storage.serde i c sh = some (sh', a) := hexec
    exact offTarget_of_exec hoff hx
  · intro u a t _ hstand hnext req p hp
    exact offTarget_of_next (overStore_httpSystem srv)
      (fun i req op k hwait => Or.inr (hstand i req op k hwait)) hnext hp

/-- **Strangers keep out.**  A file whose path no token allows to write keeps its bytes, and one
whose path no token allows at all is not read either. -/
theorem strangers_keep_out (hname : ¬ LIBFW_PREFIX <+: baseName (srv.fileAt path)) :
    (∀ s, (httpSystem srv).Reaches (srv.Strangers [.write] path) (quietServer s₀) s →
      FileKept (srv.fileAt path) s₀ s.shared) ∧
    ∀ s, (httpSystem srv).Reaches (srv.Strangers [.read, .write] path) (quietServer s₀) s →
      FileKept (srv.fileAt path) s₀ s.shared ∧
      ∀ i req op k, s.task i = .waiting req op k → ¬ op.Reads s.shared (srv.fileAt path) := by
  constructor
  · exact fun s hrun => kept_of_strangers List.mem_cons_self hname hrun
  · intro s hrun
    refine ⟨kept_of_strangers (by simp) hname hrun, ?_⟩
    intro i req op k hwait hreads
    obtain ⟨files, hoff, hclear⟩ := keepsOff_of_reaches hname hrun i req op k hwait
    cases op with
    | readDir dir => exact hreads
    | read file pos len =>
        exact (hclear file hoff.1).2 _ (List.mem_singleton_self _) hreads
    | store call =>
        obtain ⟨op, held⟩ := call
        cases op with
        | readToString q =>
            have hq : q = srv.fileAt path := hreads
            exact hoff.1.1 q (List.mem_singleton_self q) (List.mem_singleton.2 hq)
        | _ => exact hreads

end Strangers

/-! ### A stranger's download and upload -/

/-- A token is a subject's name, and stands for everything in `docs`. -/
def tokenClaims (token : Text) : TokenClaims := ⟨token, none, [.read, .write], ["/docs/".toList]⟩

def tokenServer : HttpServer (List UInt8) where
  files := sampleFiles
  verify := fun token => if token = [] then .error .missingToken else .ok (tokenClaims token)
  decodeFrame := fun _ => .error "unsupported frame".toList
  limits := none

/-- A download by Alice, of this protocol. -/
def docsDownload : HttpRequest (List UInt8) where
  method := .get
  path := "/file/docs/a.txt".toList
  header := fun name =>
    if name = AUTHORIZATION then some (headerBytes "Bearer alice".toList)
    else if name = HEADER_PROTOCOL then some (headerBytes "LIBFW/1".toList)
    else none
  body := []

/-- An upload of hers. -/
def docsUpload : HttpRequest (List UInt8) where
  method := .post
  path := "/file/docs/b.txt".toList
  header := fun name =>
    if name = AUTHORIZATION then some (headerBytes "Bearer alice".toList)
    else if name = HEADER_FILE_META then
      some (headerBytes (encodeFileMetaHeader plainMetaJson ⟨"f".toList, 2, 0, []⟩))
    else none
  body := [.ok [5, 6]]

/-- Alice's requests, and nothing but them. -/
def aliceOnly (_ : HttpState (List UInt8)) : HttpAct (List UInt8) → Bool
  | .start _ req => decide (tokenServer.bearerClaims req = .ok (tokenClaims "alice".toList))
  | .env _ => false
  | _ => true

/-- The file `a` of `hiStore` is no affair of hers. -/
theorem strangers_of_aliceOnly {s : HttpState (List UInt8)} {a : HttpAct (List UInt8)}
    (h : aliceOnly s a = true) : tokenServer.Strangers [.read, .write] "a".toList s a := by
  cases a with
  | start i req =>
      intro claims hclaims action _
      have halice : tokenServer.bearerClaims req = .ok (tokenClaims "alice".toList) :=
        of_decide_eq_true h
      rw [halice] at hclaims
      cases hclaims
      cases action
      · decide +kernel
      · decide +kernel
  | step i c => trivial
  | drop i => trivial
  | env e => cases h

/-- Requests 0 and 1 wait for the store, the second with an upload. -/
def waitForStore (s : HttpState (List UInt8)) : Bool :=
  match s.task 0, s.task 1 with
  | .waiting _ _ _, .waiting up _ _ => decide (up.method = .post)
  | _, _ => false

/-- Her download waits for the metadata, and her upload is under way. -/
theorem docs_started : ∃ s op k up op' k',
    (httpSystem tokenServer).Reaches (tokenServer.Strangers [.read, .write] "a".toList)
      (quietServer hiStore) s ∧ s.task 0 = .waiting docsDownload op k ∧
      s.task 1 = .waiting up op' k' ∧ up.method = .post := by
  have hrun : ((httpSystem tokenServer).runIf aliceOnly (quietServer hiStore)
      (.start 0 docsDownload :: .start 1 docsUpload ::
        (List.replicate 6 (.step 1 ⟨.go, []⟩) ++ [.step 0 ⟨.go, []⟩]))).any waitForStore = true := by
    decide +kernel
  obtain ⟨s, hs, hwait⟩ := (Option.any_eq_true _ _).1 hrun
  have hreach := System.reaches_of_runIf (fun _ _ h => strangers_of_aliceOnly h) hs
  have hreq := System.request_of_runIf hs
  unfold waitForStore at hwait
  split at hwait
  · next req op k up op' k' hfirst hsecond =>
      rw [hfirst] at hreq
      cases hreq
      exact ⟨s, op, k, up, op', k', hreach, hfirst, hsecond, of_decide_eq_true hwait⟩
  · cases hwait

/-- What her download and her upload ask for is mediated. -/
theorem docs_mediated : ∃ op claims shadow real full up op' claims' shadow' real' full',
    tokenServer.Mediates docsDownload op claims shadow real full ∧
      up.method = .post ∧ tokenServer.Mediates up op' claims' shadow' real' full' := by
  obtain ⟨s, op, k, up, op', k', hreach, hfirst, hsecond, hmethod⟩ := docs_started
  have hany : (httpSystem tokenServer).Reaches (fun _ _ => True) (quietServer hiStore) s :=
    hreach.mono fun _ _ _ => trivial
  obtain ⟨claims, shadow, real, full, h⟩ := complete_mediation hany hfirst
  obtain ⟨claims', shadow', real', full', h'⟩ := complete_mediation hany hsecond
  exact ⟨op, claims, shadow, real, full, up, op', claims', shadow', real', full', h, hmethod, h'⟩

/-- They leave the file `a` alone. -/
theorem a_kept_from_docs : ∃ s : HttpState (List UInt8), waitForStore s = true ∧
    FileKept (tokenServer.fileAt "a".toList) hiStore s.shared ∧
    ∀ i req op k, s.task i = .waiting req op k →
      ¬ op.Reads s.shared (tokenServer.fileAt "a".toList) := by
  have hname : ¬ LIBFW_PREFIX <+: baseName (tokenServer.fileAt "a".toList) := by
    decide +kernel
  obtain ⟨s, op, k, up, op', k', hreach, hfirst, hsecond, hmethod⟩ := docs_started
  refine ⟨s, ?_, (strangers_keep_out hname).2 s hreach⟩
  unfold waitForStore
  rw [hfirst, hsecond]
  exact decide_eq_true hmethod

end Libfw

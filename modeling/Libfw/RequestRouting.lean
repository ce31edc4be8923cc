import Libfw.ServerRequests
import Libfw.TuneParams
import Libfw.UrlPaths
import Libfw.ZstdStreams

/-!
# From the wire to a handler

`router`, `validate_protocol` and `ServerState::capabilities` of `libfw-server/src/lib.rs`, the
extractor `BearerClaims` of `libfw-server/src/auth.rs`, and what the handlers of
`libfw-server/src/handlers.rs` take from their request before they look at it.

`httpSystem` runs any number of HTTP requests over one store.
-/

namespace Libfw

open SteppedPrograms PercentEncoding

/-! ## Requests and responses -/

/-- The methods that the routes tell apart. -/
inductive HttpMethod where
  | get
  | head
  | post
  | other
  deriving DecidableEq

/-- A request as it arrives: the path of its URI, the first value of every header, and the
pieces of its body. -/
structure HttpRequest (V : Type) where
  method : HttpMethod
  path : Text
  header : Text → Option V
  body : List (Except Text (List UInt8))

/-- What is sent back.  Of the answers that axum makes by itself there is only the status. -/
inductive HttpResponse where
  | plain (status : Nat) (body : Text)
  | capabilities (caps : Capabilities)
  | served (response : ServerResponse)
  deriving DecidableEq

/-! ### Header names -/

def HEADER_PROTOCOL : Text := "x-libfw-protocol".toList
def HEADER_FILE_META : Text := "x-libfw-file-meta".toList
def HEADER_OFFSET : Text := "x-libfw-offset".toList
def HEADER_FINAL : Text := "x-libfw-final".toList
def HEADER_SESSION : Text := "x-libfw-session".toList
def HEADER_SESSION_STATUS : Text := "x-libfw-session-status".toList
def AUTHORIZATION : Text := "authorization".toList
def ACCEPT_ENCODING : Text := "accept-encoding".toList
def IF_NONE_MATCH : Text := "if-none-match".toList
def IF_RANGE : Text := "if-range".toList
def RANGE : Text := "range".toList

/-! ## The protocol handshake -/

/-- `protocol_header_value`. -/
def protocolHeaderValue : Text := "libfw/1".toList

/-- `protocol_compatible`. -/
def protocolCompatible (value : Text) : Bool := eqIgnoreAsciiCase (trim value) protocolHeaderValue

def unsupportedProtocol (value : Text) : Text :=
  "unsupported protocol `".toList ++ value ++ "`; expected `".toList ++ protocolHeaderValue ++ ['`']

/-! ## Routes -/

/-- A route with what its wildcard has matched. -/
inductive Route where
  | file (encoded : Text)
  | dirRoot
  | dir (encoded : Text)
  | capabilities
  deriving DecidableEq

/-- The route of a path under a prefix: a wildcard matches at least one character. -/
def wildcard (route : Text → Route) : Text → Option Route
  | [] => none
  | rest => some (route rest)

/-- The routes of `router`. -/
def routeOf (path : Text) : Option Route :=
  if path = "/dir".toList then some .dirRoot
  else if path = "/capabilities".toList then some .capabilities
  else
    match stripPrefix "/file/".toList path, stripPrefix "/dir/".toList path with
    | some rest, _ => wildcard .file rest
    | none, some rest => wildcard .dir rest
    | none, none => none

/-- The extractor `Path<String>`: percent-decoded, and UTF-8. -/
def pathParam (encoded : Text) : Option Text := fromUtf8 (decode (utf8 encoded))

/-! ## Bodies -/

/-- `CompressionFormat::parse_header`. -/
def CompressionFormat.parseHeader (s : Text) : Option CompressionFormat :=
  let name := (trim s).map Char.toLower
  if name = [] ∨ name = "identity".toList ∨ name = "none".toList then some .none
  else if name = "zrip".toList ∨ name = "zstd".toList then some .zrip
  else none

/-- The text of an error. -/
def DecompressError.message : DecompressError → Text
  | .truncated m => "truncated compressed stream: ".toList ++ m
  | .io m => "io error while decompressing: ".toList ++ m
  | .tooLarge limit =>
      "frame output exceeds safety limit of ".toList ++ decimal limit ++ " bytes".toList

/-- `PassthroughDecompressor`. -/
def passthroughDecompressor : Decompressor Unit where
  decompress := fun _ input => .ok ((), input)
  finish := fun _ => .ok []

/-- `ZripDecompressor`, for output that is taken after every call. -/
def zripDecompressor (decodeFrame : List UInt8 → Except Text (List UInt8)) :
    Decompressor ZripDecompressor where
  decompress := fun d input =>
    match d.decompress decodeFrame input [] with
    | (d, out, .ok _) => .ok (d, out)
    | (_, _, .error e) => .error e.message
  finish := fun d =>
    match d.finish decodeFrame [] with
    | (_, out, .ok _) => .ok out
    | (_, _, .error e) => .error e.message

/-- The body of an upload, through `decompressor_with_limit`. -/
def decompressBody (decodeFrame : List UInt8 → Except Text (List UInt8))
    (arrived : List (Except Text (List UInt8))) : CompressionFormat → Body
  | .none => decodeBody passthroughDecompressor () arrived
  | .zrip => decodeBody (zripDecompressor decodeFrame) ZripDecompressor.new arrived

/-! ## The server -/

/-- `ServerState`, with the zstd decoder. -/
structure HttpServer (V : Type) where
  files : FileServer V
  verify : Text → Except AuthError TokenClaims
  decodeFrame : List UInt8 → Except Text (List UInt8)
  limits : Option Limits

namespace HttpServer

variable {V : Type} (srv : HttpServer V)

/-- A header as text. -/
def headerText (req : HttpRequest V) (name : Text) : Option Text :=
  (req.header name).bind srv.files.downloads.toStr

/-- `ServerState::capabilities`. -/
def capabilities : Capabilities :=
  let limits := srv.limits.getD Capabilities.dflt.limits
  let levels := srv.files.downloads.zripLevels.getD Capabilities.dflt.compression.zripLevels
  let formats := match srv.files.downloads.compression with
    | .zrip => [.none, .zrip]
    | .none => [.none]
  { protocol := Capabilities.dflt.protocol
    compression := ⟨formats, levels⟩
    limits :=
      { limits with
        maxUploadSize := min limits.maxUploadSize srv.files.storage.maxUploadSize } }

/-! ### Extractors -/

def missingBearer : AuthRejection := .unauthorized "missing bearer token".toList

def malformedAuthorization : AuthRejection :=
  .unauthorized "malformed authorization header".toList

/-- `BearerClaims::from_request_parts`. -/
def bearerClaims (req : HttpRequest V) : Except AuthRejection TokenClaims :=
  match srv.headerText req AUTHORIZATION with
  | none => .error missingBearer
  | some value =>
      match stripPrefix "Bearer ".toList value with
      | none => .error malformedAuthorization
      | some token => (srv.verify (trim token)).mapError AuthRejection.ofAuthError

/-- The headers of a download. -/
def downloadHeaders (req : HttpRequest V) : DownloadHeaders V :=
  ⟨req.header IF_NONE_MATCH, req.header RANGE, req.header IF_RANGE, req.header ACCEPT_ENCODING,
    req.header HEADER_COMPRESS_LEVEL⟩

/-- The headers of an upload. -/
def uploadHeaders (req : HttpRequest V) : UploadHeaders V :=
  ⟨req.header HEADER_FILE_META, req.header HEADER_FINAL, req.header HEADER_SESSION,
    req.header HEADER_OFFSET, req.header HEADER_SESSION_STATUS⟩

/-- The body of an upload: an unknown format is none. -/
def uploadBody (req : HttpRequest V) : Body :=
  decompressBody srv.decodeFrame req.body
    (((srv.headerText req HEADER_COMPRESS).bind CompressionFormat.parseHeader).getD .none)

/-- A rejected token. -/
def rejected (rejection : AuthRejection) : HttpResponse :=
  .served (ApiError.auth rejection).toResponse

/-- A handler with a path of its own: the path, then the token. -/
def onPath (req : HttpRequest V) (encoded : Text) (handler : TokenClaims → Text → ClientRequest V) :
    Except HttpResponse (ClientRequest V) :=
  match pathParam encoded with
  | none => .error (.plain 400 [])
  | some path =>
      match srv.bearerClaims req with
      | .error rejection => .error (rejected rejection)
      | .ok claims => .ok (handler claims path)

/-! ### Routing -/

/-- What a route makes of a request: an answer, or a request for a handler; `none` is the
public route. -/
def dispatch (req : HttpRequest V) : Route → Except HttpResponse (Option (ClientRequest V))
  | .file encoded =>
      match req.method with
      | .get => (srv.onPath req encoded fun claims path =>
          .download claims path (downloadHeaders req)).map some
      | .head => (srv.onPath req encoded fun claims path =>
          .head claims path (downloadHeaders req)).map some
      | .post => (srv.onPath req encoded fun claims path =>
          .upload claims path (uploadHeaders req) (srv.uploadBody req)).map some
      | .other => .error (.plain 405 [])
  | .dir encoded =>
      match req.method with
      | .get | .head => (srv.onPath req encoded .list).map some
      | .post | .other => .error (.plain 405 [])
  | .dirRoot =>
      match req.method with
      | .get | .head =>
          match srv.bearerClaims req with
          | .error rejection => .error (rejected rejection)
          | .ok claims => .ok (some (.list claims []))
      | .post | .other => .error (.plain 405 [])
  | .capabilities =>
      match req.method with
      | .get | .head => .ok none
      | .post | .other => .error (.plain 405 [])

/-- `validate_protocol`, around every route and around none. -/
def receive (req : HttpRequest V) : Except HttpResponse (Option (ClientRequest V)) :=
  match (srv.headerText req HEADER_PROTOCOL).filter fun v => !protocolCompatible v with
  | some value => .error (.plain 426 (unsupportedProtocol value))
  | none =>
      match routeOf req.path with
      | none => .error (.plain 404 [])
      | some route => srv.dispatch req route

/-- A GET route that answers HEAD drops the body. -/
def respond (req : HttpRequest V) (response : ServerResponse) : HttpResponse :=
  .served (if req.method = .head then { response with body := .empty } else response)

/-- A request, up to its response. -/
def serve (req : HttpRequest V) : Prog ServerOp ServerOp.Ans (Option HttpResponse) :=
  match srv.receive req with
  | .error response => .done (some response)
  | .ok none => .done (some (.capabilities srv.capabilities))
  | .ok (some request) =>
      (srv.files.serve request).bind fun response => .done (response.map (respond req))

end HttpServer

/-- HTTP requests over one store, interleaved call by call. -/
def httpSystem {V : Type} (srv : HttpServer V) :
    System ServerOp ServerOp.Ans (HttpRequest V) (Option HttpResponse) ServerChoice Outside Store
    where
  code := srv.serve
  exec := fun i op c s => op.exec srv.files.storage.serde i c s
  enter := fun _ _ s => s
  leave := fun i s => s.release i
  disturb := Outside.apply

abbrev HttpState (V : Type) :=
  State ServerOp ServerOp.Ans (HttpRequest V) (Option HttpResponse) Store

abbrev HttpAct (V : Type) := Act (HttpRequest V) ServerChoice Outside

/-- No request has arrived. -/
def quietServer {V : Type} (s : Store) : HttpState V := ⟨s, fun _ => .idle⟩

end Libfw

import Libfw.PathCodecs
import Libfw.StoragePaths

/-!
# Errors of the server, and what they answer

`StorageError` and `AuthError` of `libfw-core`, `AuthRejection`,
`PathResolveError` and `ApiError` of `libfw-server`, and the response each of
them is turned into.  An I/O error is represented by its text; `std` and
`tokio` put no path into it.
-/

namespace Libfw

/-- `FileMeta`. -/
structure FileMeta where
  path : Text
  size : Nat
  mtime : Nat
  etag : Text
  deriving DecidableEq

inductive StorageError where
  | notFound (path : Text)
  | alreadyExists (path : Text)
  | tooLarge (size : Nat)
  | writeFailed (offset : Nat) (source : Text)
  | unsupported (message : Text)
  | other (source : Text)
  deriving DecidableEq

/-- The `Display` text of a storage error. -/
def StorageError.display : StorageError → Text
  | .notFound p => "path not found: ".toList ++ p
  | .alreadyExists p => "path already exists: ".toList ++ p
  | .tooLarge n => "file too large: ".toList ++ decimal n
  | .writeFailed off source =>
      "write failed at offset ".toList ++ decimal off ++ ": ".toList ++ source
  | .unsupported m => "operation not supported: ".toList ++ m
  | .other source => "storage error: ".toList ++ source

/-- The operation a client is trying to perform. -/
inductive Action where
  | read
  | write
  deriving DecidableEq

def Action.display : Action → Text
  | .read => "read".toList
  | .write => "write".toList

inductive AuthError where
  | missingToken
  | invalid (message : Text)
  | expired
  | forbidden (path : Text) (action : Action)
  deriving DecidableEq

def permissionDenied (action path : Text) : Text :=
  "permission denied: ".toList ++ action ++ " on `".toList ++ path ++ "`".toList

def AuthError.display : AuthError → Text
  | .missingToken => "missing or malformed bearer token".toList
  | .invalid m => "invalid token: ".toList ++ m
  | .expired => "token expired".toList
  | .forbidden path action => permissionDenied action.display path

inductive AuthRejection where
  | unauthorized (message : Text)
  | forbidden (path action : Text)
  deriving DecidableEq

/-- `From<AuthError> for AuthRejection`, used by the token extractor. -/
def AuthRejection.ofAuthError : AuthError → AuthRejection
  | .missingToken => .unauthorized "missing bearer token".toList
  | .invalid m => .unauthorized ("invalid token: ".toList ++ m)
  | .expired => .unauthorized "token expired".toList
  | .forbidden path action => .forbidden path action.display

/-- Error resolving a client-supplied (shadow) path to a real storage path. -/
inductive PathResolveError where
  | invalid (message : Text)
  | codec (e : PathCodecError)
  | auth (e : AuthError)
  deriving DecidableEq

/-- Errors surfaced by handlers. -/
inductive ApiError where
  | badRequest (message : Text)
  | notFound (path : Text)
  | conflict (message : Text)
  | payloadTooLarge (limit : Nat)
  | rangeMalformed
  | rangeUnsatisfiable (total : Nat)
  | notModified
  | auth (rejection : AuthRejection)
  | storage (e : StorageError)
  | io (message : Text)
  deriving DecidableEq

/-- `authorize_request_error`. -/
def authorizeRequestError : AuthError → ApiError
  | .forbidden path action => .auth (.forbidden path action.display)
  | other => .auth (.unauthorized other.display)

/-- `resolve_error`: malformed shadows are 400, authorization failures keep
their 401/403 shape. -/
def resolveError : PathResolveError → ApiError
  | .invalid m => .badRequest m
  | .codec e => .badRequest e.message
  | .auth e => authorizeRequestError e

/-- The body of an error response: none, a plain text, or `{"error": …}`. -/
inductive ErrorBody where
  | empty
  | text (t : Text)
  | json (error : Text)
  deriving DecidableEq

/-- `AuthRejection::into_response`. -/
def AuthRejection.response : AuthRejection → Nat × ErrorBody
  | .unauthorized m => (401, .json m)
  | .forbidden path action => (403, .json (permissionDenied action path))

/-- `ApiError::into_response`: status and body. -/
def ApiError.response : ApiError → Nat × ErrorBody
  | .auth rejection => rejection.response
  | .rangeUnsatisfiable _ => (416, .empty)
  | .notModified => (304, .empty)
  | .storage (.notFound p) => (404, .text p)
  | .storage (.alreadyExists p) => (409, .text p)
  | .storage (.tooLarge _) => (413, .text "upload exceeds configured limit".toList)
  | .storage (.writeFailed _ _) =>
      (412, .text "resume offset mismatch; reset client state".toList)
  | .storage (.unsupported m) => (400, .text m)
  | .badRequest m => (400, .text m)
  | .notFound m => (404, .text m)
  | .conflict m => (409, .text m)
  | .payloadTooLarge limit =>
      (413, .text ("upload exceeds limit of ".toList ++ decimal limit ++ " bytes".toList))
  | .rangeMalformed => (400, .text "malformed range header".toList)
  | .storage e => (500, .text e.display)
  | .io m => (500, .text m)

end Libfw

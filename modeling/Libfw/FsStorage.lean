import Libfw.ServerErrors
import Libfw.SteppedPrograms
import Libfw.UploadStore

/-!
# `FsStorage`: upload sinks of the filesystem backend

`write_stream`, `write_stream_session` and `FsSink` of
`libfw-server/src/storage.rs`, as programs that stop at every awaited call.

`Fs` is their monad: an async function with `?`.  A suspended function shows, at
each call, what its sink holds at that moment (`Held`): the open file, whether
the sink has been handed to the handler, the bytes written and the received
ranges in memory.
-/

namespace Libfw

open SteppedPrograms

inductive WriteMode where
  | create
  | overwrite
  | resume (offset : Nat)
  deriving DecidableEq

/-- What a suspended request holds in its sink. -/
structure Held where
  file : Option Nat
  opened : Bool
  written : Nat
  ranges : List ChunkRange
  deriving DecidableEq

/-- A request holds nothing when it starts. -/
def Held.nothing : Held := ⟨none, false, 0, []⟩

/-- A call, and what the request holds while it awaits it. -/
abbrev Call := Op × Held

abbrev Call.Ans (c : Call) : Type := c.1.Ans

abbrev Code (ρ : Type) := Prog Call Call.Ans ρ

/-- An async function that returns a `Result`. -/
def Fs (ε α : Type) : Type := Held → Code (Except ε α × Held)

namespace Fs

variable {ε ε' α β : Type}

def ret (a : α) : Fs ε α := fun h => .done (.ok a, h)

def fail (e : ε) : Fs ε α := fun h => .done (.error e, h)

def andThen (x : Fs ε α) (f : α → Fs ε β) : Fs ε β := fun h =>
  (x h).bind fun
    | (.ok a, h') => f a h'
    | (.error e, h') => .done (.error e, h')

instance : Monad (Fs ε) where
  pure := ret
  bind := andThen

/-- Await a call. -/
def await (op : Op) : Fs ε op.Ans := fun h => .call (op, h) fun a => .done (.ok a, h)

/-- Run a function and keep its `Result` as a value. -/
def attempt (x : Fs ε α) : Fs ε' (Except ε α) := fun h =>
  (x h).bind fun (r, h') => .done (.ok r, h')

def lift : Except ε α → Fs ε α
  | .ok a => ret a
  | .error e => fail e

/-- `map_err` followed by `?`. -/
def orElse (f : ε → ε') (x : Fs ε α) : Fs ε' α := do
  match ← attempt x with
  | .ok a => ret a
  | .error e => fail (f e)

def held : Fs ε Held := fun h => .done (.ok h, h)

def update (f : Held → Held) : Fs ε Unit := fun h => .done (.ok (), f h)

/-- `map_err(StorageError::Other)?` on the result of a call. -/
def other (r : Except IoError α) : Fs StorageError α :=
  lift (r.mapError fun e => .other e.message)

end Fs

open Fs

/-- `FsSink`, as far as it does not change: the rest is in `Held`. -/
structure FsSink where
  file : Nat
  tmp : Option FsPath
  target : FsPath
  rel : Text
  mode : WriteMode
  blocksPath : Option FsPath
  deriving DecidableEq

namespace FsStorage

/-- Resolve, check for symlinks and create the parent directory: how both
write functions begin. -/
def prepare (root : FsPath) (path : Text) : Fs StorageError FsPath := do
  let full ← lift ((resolve root path).mapError .unsupported)
  other (← await (.checkSymlinks full))
  match full.parent with
  | some parent => other (← await (.createDirAll parent))
  | none => ret ()
  ret full

/-- The check `mode == Create && try_exists(full)`. -/
def refuseExisting (full : FsPath) (path : Text) (mode : WriteMode) :
    Fs StorageError Unit := do
  if mode = .create then
    if (← other (← await (.tryExists full))) = true then fail (.alreadyExists path)
    else ret ()
  else ret ()

/-- The sink takes over a file that has just been opened. -/
def holdFile (file : Nat) : Fs StorageError Unit :=
  update fun h => { h with file := some file }

/-- The sink is built and handed to the handler. -/
def openSink (sink : FsSink) (written : Nat) (ranges : List ChunkRange) :
    Fs StorageError FsSink := do
  update fun h => { h with opened := true, written := written, ranges := ranges }
  ret sink

/-- The `Create | Overwrite` arm of `write_stream`. -/
def writeStreamTemp (full : FsPath) (path : Text) (mode : WriteMode) :
    Fs StorageError FsSink := do
  refuseExisting full path mode
  let (nanos, counter) ← await .uniqueName
  let tmp := tempPathFor full nanos counter
  let file ← other (← await (.create tmp))
  holdFile file
  openSink ⟨file, some tmp, full, path, mode, none⟩ 0 []

/-- The `Resume` arm of `write_stream`. -/
def writeStreamResume (full : FsPath) (path : Text) (offset : Nat) :
    Fs StorageError FsSink := do
  await (.lock full)
  let file ← other (← await (.openExisting full))
  holdFile file
  let current ← other (← await (.len file))
  if current ≠ offset then
    fail (.writeFailed offset ("existing file is ".toList ++ decimal current
      ++ " bytes, expected ".toList ++ decimal offset))
  else openSink ⟨file, none, full, path, .resume offset, none⟩ offset []

/-- `write_stream`. -/
def writeStream (root : FsPath) (path : Text) (mode : WriteMode) :
    Fs StorageError FsSink := do
  let full ← prepare root path
  match mode with
  | .resume offset => writeStreamResume full path offset
  | mode => writeStreamTemp full path mode

def contiguousResumeMessage : Text :=
  "session upload does not support contiguous resume; use the block probe".toList

/-- `read_ranges`. -/
def readRanges (serde : Serde) (blocks : FsPath) : Fs StorageError (List ChunkRange) := do
  match ← await (.readToString blocks) with
  | .ok text => lift ((text.ranges serde).mapError fun e =>
      .other ("corrupt session state: ".toList ++ e))
  | .error e => if e.notFound then ret [] else fail (.other e.message)

/-- `persist_ranges`: write the sibling, then rename it over the sidecar. -/
def persistRanges (blocks : FsPath) (ranges : List ChunkRange) : Fs StorageError Unit := do
  let tmp := persistPathFor blocks
  other (← await (.writeRanges tmp ranges))
  other (← await (.rename tmp blocks))

/-- `remove_blocks_sidecar`: best effort. -/
def removeBlocksSidecar : Option FsPath → Fs StorageError Unit
  | some blocks => do
      let _ ← await (.removeFile blocks)
      ret ()
  | none => ret ()

/-- How `write_stream_session` gets its file: `exists` is the answer of
`try_exists(&tmp)`. -/
def openSessionTemp (full tmp : FsPath) (path : Text) (mode : WriteMode)
    (tmpExists : Bool) : Fs StorageError Nat := do
  if tmpExists then other (← await (.openExisting tmp))
  else
    match mode with
    | .resume _ => fail (.unsupported contiguousResumeMessage)
    | mode => do
        refuseExisting full path mode
        other (← await (.createNew tmp))

/-- `write_stream_session`. -/
def writeStreamSession (serde : Serde) (root : FsPath) (path session owner : Text)
    (mode : WriteMode) : Fs StorageError FsSink := do
  let full ← prepare root path
  let tmp := sessionTempFor full session owner
  let tmpExists ← other (← await (.tryExists tmp))
  let file ← openSessionTemp full tmp path mode tmpExists
  holdFile file
  await (.lock tmp)
  let blocks := blocksPathFor tmp
  -- a temp that has just been made has received nothing: a sidecar is stale
  let ranges ← if tmpExists then readRanges serde blocks
    else do
      removeBlocksSidecar (some blocks)
      ret []
  openSink ⟨file, some tmp, full, path, mode, some blocks⟩ 0 ranges

end FsStorage

open FsStorage

namespace FsSink

variable (sink : FsSink)

/-- `write_all` at the position of the handle: behind what this sink has
written, or at the end of a file opened in append mode. -/
def writeAll (buf : List UInt8) (position : Nat) : Fs StorageError (Except IoError Unit) :=
  match sink.mode with
  | .resume _ => await (.append sink.file buf)
  | _ => await (.writeAt sink.file position buf)

/-- `write`. -/
def write (buf : List UInt8) : Fs StorageError Unit := do
  let h ← held
  match ← sink.writeAll buf h.written with
  | .ok _ => update fun h => { h with written := h.written + buf.length }
  | .error e => fail (.writeFailed h.written e.message)

/-- The sidecar update of `write_at`: re-read, merge, persist. -/
def recordRange (serde : Serde) (blocks : FsPath) (new : ChunkRange) :
    Fs StorageError Unit := do
  let current ← readRanges serde blocks
  let merged := mergeRange current new
  persistRanges blocks merged
  update fun h => { h with ranges := merged }

/-- `write_at`. -/
def writeAt (serde : Serde) (offset : Nat) (buf : List UInt8) : Fs StorageError Unit := do
  match ← await (.writeAt sink.file offset buf) with
  | .error e => fail (.writeFailed offset e.message)
  | .ok _ => do
      update fun h => { h with written := max h.written (satAdd offset buf.length) }
      match sink.blocksPath with
      | some blocks => recordRange serde blocks ⟨offset, satAdd offset buf.length⟩
      | none => ret ()

/-- `received_ranges`. -/
def receivedRanges : Fs StorageError (List ChunkRange) := do
  let h ← held
  ret h.ranges

/-- `len`. -/
def len : Fs StorageError Nat := do
  other (← await (.len sink.file))

/-- Create mode never clobbers a target that appeared while streaming. -/
def refuseAppeared (tmp : FsPath) : Fs StorageError Unit := do
  if sink.mode = .create then
    if (← other (← await (.tryExists sink.target))) = true then do
      let _ ← await (.removeFile tmp)
      fail (.alreadyExists sink.rel)
    else ret ()
  else ret ()

/-- Rename the temporary onto the target, and make the rename durable. -/
def moveIntoPlace (tmp : FsPath) : Fs StorageError Unit := do
  other (← await (.rename tmp sink.target))
  match sink.target.parent with
  | some parent => do
      let _ ← await (.syncDir parent)
      ret ()
  | none => ret ()

/-- The end of `commit`, where there is a temporary. -/
def publish (tmp : FsPath) : Fs StorageError Unit := do
  sink.refuseAppeared tmp
  sink.moveIntoPlace tmp

/-- `file_meta_at`; times are kept in nanoseconds and told in seconds. -/
def fileMetaAt (etag : Nat → Nat → Text) (rel : Text) (stat : Stat) : FileMeta :=
  let mtime := stat.mtime / 1000000000
  ⟨rel, stat.size, mtime, etag stat.size mtime⟩

/-- `commit`. -/
def commit (etag : Nat → Nat → Text) : Fs StorageError FileMeta := do
  removeBlocksSidecar sink.blocksPath
  -- flush, then sync_all
  other (← await (.sync sink.file))
  other (← await (.sync sink.file))
  match sink.tmp with
  | some tmp => sink.publish tmp
  | none => ret ()
  let stat ← other (← await (.metadata sink.target))
  ret (fileMetaAt etag sink.rel stat)

/-- `abort`. -/
def abort : Fs StorageError Unit := do
  match sink.tmp with
  | some tmp => do
      let _ ← await (.removeFile tmp)
      ret ()
  | none => ret ()
  removeBlocksSidecar sink.blocksPath

end FsSink

end Libfw

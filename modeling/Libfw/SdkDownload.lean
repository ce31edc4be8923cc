import Libfw.BrowserDownload
import Libfw.GuardedRuns

/-!
# Downloads of the SDK into a folder

What `src/sdk/index.js` keeps of one download in file-system mode: the destination
file, the stream open on it, and the record `{etag, offset}` in IndexedDB.  A stream
writes to a copy; closing it publishes the copy, and a page that dies loses it.

The engine's side is what `download_file_parallel` does: a pass starts where the
version told by `HEAD` lets it, delivers the bytes of that version in order, saves its
offset every few MiB and at the end.  `saveState` first stores the record and then
checkpoints the stream, and the page may die between the two.

* `SdkState.onWriteChunk`, `checkpointDownload`, `loadResumeState`,
  `syncResumeOffsets` — the callbacks.
* `SdkState.next` — the steps of page and engine.

A stream and the destination file carry the version their bytes were opened for
(`etag`, `diskEtag`).  No step depends on these two.
-/

namespace Libfw

/-- Bytes written at a position; what is missing before it is filled with zeros. -/
def overwrite (bytes : List UInt8) (pos : Nat) (data : List UInt8) : List UInt8 :=
  (bytes ++ List.replicate (pos - bytes.length) 0).take pos ++ data ++
    bytes.drop (pos + data.length)

/-- An entry of `_writables`: a stream, its copy of the file and its position. -/
structure Writable where
  bytes : List UInt8
  pos : Nat
  lastOffset : Nat
  etag : Text
  deriving DecidableEq

/-- `entry.lastOffset = offset; entry.writable.write(data)`. -/
def Writable.write (w : Writable) (offset : Nat) (data : List UInt8) : Writable :=
  { w with
    bytes := overwrite w.bytes w.pos data
    pos := w.pos + data.length
    lastOffset := offset }

/-- A pass of the engine over one version. -/
structure Pass where
  etag : Text
  start : Nat
  contiguous : Nat
  lastSaved : Nat
  deriving DecidableEq

/-- The engine's download: its resume state, its pass, and a checkpoint that is due. -/
structure EngineRun where
  etag : Text
  offset : Nat
  pass : Option Pass
  due : Option Nat
  deriving DecidableEq

structure SdkState where
  disk : List UInt8
  diskEtag : Option Text
  record : Option (Text × Nat)
  writable : Option Writable
  handled : Bool
  engine : Option EngineRun
  deriving DecidableEq

/-- How the opening of a stream ends. -/
inductive Opening where
  | opened
  | noHandle
  | noWritable
  deriving DecidableEq

/-- How closing and reopening a stream ends. -/
inductive Reopening where
  | reopened
  | closeFails
  | reopenFails
  deriving DecidableEq

namespace SdkState

variable (s : SdkState)

/-! ## Callbacks -/

/-- `close()`: the copy becomes the file. -/
def publish (w : Writable) : SdkState :=
  { s with disk := w.bytes, diskEtag := some w.etag, writable := none }

/-- The open stream, unless a chunk at `offset` restarts the file. -/
def keptWritable (offset : Nat) : Option Writable :=
  s.writable.filter fun w => w.lastOffset < offset

/-- A stream opened at `offset`, which only a file of at least this length allows. -/
def openWritable (etag : Text) (offset : Nat) : Option Writable :=
  if 0 < offset then
    if s.disk.length < offset then none else some ⟨s.disk, offset, offset, etag⟩
  else some ⟨[], 0, offset, etag⟩

/-- `_onWriteChunk`, and whether the chunk was written. -/
def onWriteChunk (etag : Text) (offset : Nat) (data : List UInt8) (opening : Opening) :
    SdkState × Bool :=
  match s.keptWritable offset with
  | some w => ({ s with writable := some (w.write offset data) }, true)
  | none =>
      match opening with
      | .noHandle => ({ s with writable := none }, false)
      | .noWritable => ({ s with writable := none, handled := true }, false)
      | .opened =>
          match s.openWritable etag offset with
          | none => ({ s with writable := none, handled := true }, false)
          | some w =>
              ({ s with writable := some (w.write offset data), handled := true }, true)

/-- Whether `_checkpointDownload` closes the stream: something new is to be published. -/
def checkpoints (offset : Nat) : Bool := s.handled && decide (s.disk.length < offset)

/-- `_checkpointDownload`. -/
def checkpointDownload (offset : Nat) (reopening : Reopening) : SdkState :=
  match s.writable with
  | none => s
  | some w =>
      if s.checkpoints offset then
        match reopening with
        | .closeFails => s
        | .reopenFails => s.publish w
        | .reopened =>
            { s.publish w with writable := some { w with pos := w.bytes.length } }
      else s

/-- `_closeWritable`, and `_flushWritables`. -/
def closeWritable (closes : Bool) : SdkState :=
  match s.writable with
  | none => s
  | some w => if closes then s.publish w else { s with writable := none }

/-- `_syncResumeOffsets`. -/
def syncResumeOffsets : SdkState :=
  if s.handled then
    { s with
      record := s.record.map fun (etag, _) => (etag, s.disk.length)
      handled := false }
  else s

/-- `_loadResumeState`: the offset is clamped to what is on disk. -/
def loadResumeState : Option (Text × Nat) :=
  s.record.map fun (etag, offset) => (etag, min offset s.disk.length)

end SdkState

/-! ## Steps -/

/-- What page and engine do.  `begin` is told the listed size, `head` the version. -/
inductive SdkEvent where
  | begin (size : Nat)
  | head (etag : Text)
  | chunk (len : Nat) (opening : Opening)
  | save
  | checkpoint (reopening : Reopening)
  | retry
  | restart
  | complete (closes : Bool)
  | settle (closes : Bool)
  | kill
  deriving DecidableEq

namespace SdkState

variable (remote : Text → List UInt8) (s : SdkState)

/-- A download begins; one that is complete already only saves its state again. -/
def beginDownload (size : Nat) : SdkState :=
  let (etag, offset) := usableState s.loadResumeState
  match classifyDownload size offset with
  | .restart => { s with engine := some ⟨[], 0, none, none⟩ }
  | .alreadyDone => { s with record := some (etag, size) }
  | .transfer => { s with engine := some ⟨etag, offset, none, none⟩ }

/-- A pass over the version that `HEAD` tells. -/
def beginPass (e : EngineRun) (etag : Text) : SdkState :=
  let start := passStart e.etag etag e.offset (remote etag).length
  { s with engine := some { e with pass := some ⟨etag, start, start, 0⟩ } }

/-- The next bytes of the version; an error of the callback ends the pass. -/
def deliver (e : EngineRun) (p : Pass) (len : Nat) (opening : Opening) : SdkState :=
  match s.onWriteChunk p.etag p.contiguous (((remote p.etag).drop p.contiguous).take len)
      opening with
  | (s', true) =>
      let pass := { p with contiguous := p.contiguous + len }
      { s' with engine := some { e with pass := some pass } }
  | (s', false) => { s' with engine := some { e with pass := none } }

/-- The record is stored; the checkpoint is still to come. -/
def saveState (e : EngineRun) (p : Pass) : SdkState :=
  { s with
    record := some (p.etag, p.contiguous)
    engine := some ⟨e.etag, e.offset, some { p with lastSaved := p.contiguous },
      some p.contiguous⟩ }

/-- Whether the engine saves its offset here: every few MiB, and at the end. -/
def saves (p : Pass) : Bool :=
  decide (p.start < p.contiguous ∧ p.lastSaved + RESUME_SAVE_EVERY ≤ p.contiguous) ||
    decide (p.contiguous = (remote p.etag).length)

/-- One step; `none` where it cannot happen. -/
def next : SdkEvent → Option SdkState
  | .begin size =>
      if s.engine = none ∧ s.handled = false then some (s.beginDownload size) else none
  | .head etag =>
      s.engine.bind fun e =>
        if e.pass = none then some (s.beginPass remote e etag) else none
  | .chunk len opening =>
      s.engine.bind fun e => e.pass.bind fun p =>
        if e.due = none ∧ 0 < len ∧ p.contiguous + len ≤ (remote p.etag).length then
          some (s.deliver remote e p len opening)
        else none
  | .save =>
      s.engine.bind fun e => e.pass.bind fun p =>
        if e.due = none ∧ saves remote p then some (s.saveState e p) else none
  | .checkpoint reopening =>
      s.engine.bind fun e => e.due.map fun offset =>
        { s.checkpointDownload offset reopening with engine := some { e with due := none } }
  | .retry =>
      s.engine.bind fun e =>
        if e.due = none then some { s with engine := some { e with pass := none } } else none
  | .restart =>
      s.engine.bind fun e =>
        if e.due = none then
          some { s with engine := some { e with offset := 0, pass := none } }
        else none
  | .complete closes =>
      s.engine.bind fun e => e.pass.bind fun p =>
        if e.due = none ∧ p.contiguous = (remote p.etag).length ∧
            s.record = some (p.etag, p.contiguous) then
          some { s.closeWritable closes with engine := none }
        else none
  | .settle closes =>
      if (s.engine.bind fun e => e.due) = none then
        some ({ s.closeWritable closes with engine := none } : SdkState).syncResumeOffsets
      else none
  | .kill => some { s with writable := none, handled := false, engine := none }

end SdkState

end Libfw

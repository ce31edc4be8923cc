import Libfw.PosixStore
import Libfw.ReceivedRanges
import Libfw.StoragePaths

/-!
# The store under the upload code

The filesystem calls `FsStorage` awaits, and what each does to the store.  One
call is one step of a request: between two calls other requests may run, and a
request may be dropped.

`Op.exec` is the meaning of a call.  A call either *goes* as POSIX says, or it
*fails* with any other I/O error; a failing write may have written a part.  An
open handle is a file number, so it keeps meaning the same file after its name
is renamed or unlinked.  The `exec_*` lemmas say, once for each call, everything
it can do; later proofs do not unfold `Op.exec`.

The JSON text of a sidecar is kept as the list it encodes (`Content.blocks`);
what `serde_json` makes of other bytes, and which bytes it writes, is given by
`Serde`.  Symbolic links do not occur.
-/

namespace Libfw

open PosixStore HalfOpenRanges

/-- `serde_json` on the sidecar's `Vec<ChunkRange>`. -/
structure Serde where
  toJson : List ChunkRange → List UInt8
  fromJson : List UInt8 → Except Text (List ChunkRange)

/-- What a file holds: bytes, with holes where nothing was written, or the JSON
text of a range list. -/
inductive Content where
  | bytes (cells : List (Option UInt8))
  | blocks (ranges : List ChunkRange)
  deriving DecidableEq

namespace Content

/-- The content as bytes. -/
def cells (serde : Serde) : Content → List (Option UInt8)
  | .bytes cells => cells
  | .blocks ranges => (serde.toJson ranges).map some

/-- The content read as a range list; a hole reads as a zero byte. -/
def ranges (serde : Serde) : Content → Except Text (List ChunkRange)
  | .bytes cells => serde.fromJson (cells.map (·.getD 0))
  | .blocks ranges => .ok ranges

/-- Its length in bytes. -/
def len (serde : Serde) (c : Content) : Nat := (c.cells serde).length

end Content

/-- A file: its content and when it was last written. -/
structure Node where
  content : Content
  mtime : Nat

/-- `std::io::Error`, as far as the code tells errors apart. -/
structure IoError where
  notFound : Bool
  message : Text
  deriving DecidableEq

namespace IoError

def noEntry : IoError := ⟨true, "No such file or directory (os error 2)".toList⟩
def fileExists : IoError := ⟨false, "File exists (os error 17)".toList⟩
def notDirectory : IoError := ⟨false, "Not a directory (os error 20)".toList⟩
def isDirectory : IoError := ⟨false, "Is a directory (os error 21)".toList⟩
def tooLarge : IoError := ⟨false, "File too large (os error 27)".toList⟩

end IoError

/-- The largest offset a file can have. -/
def MAX_FILE_SIZE : Nat := 2 ^ 63 - 1

/-- Metadata of an existing path. -/
structure Stat where
  isDir : Bool
  size : Nat
  mtime : Nat
  deriving DecidableEq

/-- The calls a request awaits.  `file` is an open handle. -/
inductive Op where
  | checkSymlinks (path : FsPath)
  | createDirAll (path : FsPath)
  | tryExists (path : FsPath)
  | create (path : FsPath)
  | createNew (path : FsPath)
  | openExisting (path : FsPath)
  | lock (path : FsPath)
  | len (file : Nat)
  | readToString (path : FsPath)
  | writeAt (file offset : Nat) (buf : List UInt8)
  | append (file : Nat) (buf : List UInt8)
  | writeRanges (path : FsPath) (ranges : List ChunkRange)
  | rename (source target : FsPath)
  | removeFile (path : FsPath)
  | sync (file : Nat)
  | syncDir (path : FsPath)
  | metadata (path : FsPath)
  | uniqueName
  | nextChunk
  deriving DecidableEq

/-- The calls that only look at the store. -/
def Op.looks : Op → Bool
  | .checkSymlinks _ | .tryExists _ | .openExisting _ | .len _ | .readToString _ => true
  | .sync _ | .syncDir _ | .metadata _ | .nextChunk => true
  | _ => false

/-- What a call answers. -/
def Op.Ans : Op → Type
  | .checkSymlinks _ | .createDirAll _ => Except IoError Unit
  | .tryExists _ => Except IoError Bool
  | .create _ | .createNew _ | .openExisting _ => Except IoError Nat
  | .lock _ => Unit
  | .len _ => Except IoError Nat
  | .readToString _ => Except IoError Content
  | .writeAt _ _ _ | .append _ _ | .writeRanges _ _ => Except IoError Unit
  | .rename _ _ | .removeFile _ | .sync _ | .syncDir _ => Except IoError Unit
  | .metadata _ => Except IoError Stat
  | .uniqueName => Nat × Nat
  | .nextChunk => Unit

/-- What the surroundings decide about a call: it goes, or it fails with an
error of their choice, a write after `done` bytes. -/
inductive Choice where
  | go
  | fail (done : Nat) (message : Text)
  deriving DecidableEq

/-- The state all requests share: the filesystem, the lock registry (who holds
the lock of a path), the counter behind temporary names, and the clock. -/
structure Store where
  disk : Disk FsPath Node
  holder : FsPath → Option Nat
  counter : Nat
  now : Nat

namespace Store

variable (s : Store)

/-- The content of a file. -/
def content (file : Nat) : Content := (s.disk.content file).content

/-- A new file under a path. -/
def create (path : FsPath) (c : Content) : Store :=
  { s with disk := s.disk.create path ⟨c, s.now⟩ }

/-- A file gets another content. -/
def write (file : Nat) (f : Content → Content) : Store :=
  { s with disk := s.disk.modify file fun node => ⟨f node.content, s.now⟩ }

def unlink (path : FsPath) : Store := { s with disk := s.disk.unlink path }

def rename (source target : FsPath) : Store :=
  { s with disk := s.disk.rename source target }

def mkdirs (paths : List FsPath) : Store := { s with disk := s.disk.mkdirs paths }

def acquire (path : FsPath) (i : Nat) : Store :=
  { s with holder := fun p => if p = path then some i else s.holder p }

/-- Guards are dropped with the request that holds them. -/
def release (i : Nat) : Store :=
  { s with holder := fun p => if s.holder p = some i then none else s.holder p }

def count : Store := { s with counter := s.counter + 1 }

end Store

/-- A path and its ancestors. -/
def ancestors (path : FsPath) : List FsPath := path.inits.filter (· ≠ [])

/-- The directories above a path are proper beginnings of it. -/
theorem prefix_of_mem_ancestors {path parent p : FsPath} (hparent : path.parent = some parent)
    (hp : p ∈ ancestors parent) : p <+: path ∧ p ≠ path := by
  have hpre : p <+: parent := (List.mem_inits _ _).1 (List.mem_of_mem_filter hp)
  have hdrop : parent = path.dropLast ∧ path ≠ [] := by
    unfold FsPath.parent at hparent
    split at hparent
    · cases hparent
    · next c hlast =>
        cases hparent
        refine ⟨rfl, ?_⟩
        rintro rfl
        cases hlast
    · cases hparent
  obtain ⟨rfl, hne⟩ := hdrop
  refine ⟨hpre.trans (List.dropLast_prefix _), ?_⟩
  rintro rfl
  have hlen := hpre.length_le
  have hpos := List.length_pos_iff.2 hne
  rw [List.length_dropLast] at hlen
  omega

/-- No directory above a path takes the name of a path as long as it. -/
theorem not_mem_ancestors {path parent q : FsPath} (hparent : path.parent = some parent)
    (hq : path.length ≤ q.length) : q ∉ ancestors parent := by
  intro hmem
  obtain ⟨hpre, hne⟩ := prefix_of_mem_ancestors hparent hmem
  exact hne (hpre.eq_of_length_le hq)

/-- `File::create` on a file that exists empties it. -/
def emptied (_ : Content) : Content := .bytes []

/-- A positional write. -/
def written (serde : Serde) (offset : Nat) (buf : List UInt8) (c : Content) : Content :=
  .bytes (writeAt (c.cells serde) offset buf)

/-- A write through a handle in append mode. -/
def appended (serde : Serde) (buf : List UInt8) (c : Content) : Content :=
  .bytes (c.cells serde ++ buf.map some)

/-- `tokio::fs::write`: the file at the path, made where there is none. -/
def Store.replaceAt (s : Store) (path : FsPath) (c : Content) : Except IoError Store :=
  match s.disk.entry path with
  | .absent => .ok (s.create path c)
  | .file ino => .ok (s.write ino fun _ => c)
  | .dir => .error .isDirectory

/-- The state after a failing `tokio::fs::write`: untouched, or the file was
opened and emptied. -/
def Store.tornAt (s : Store) (path : FsPath) (done : Nat) : Store :=
  if done = 0 then s
  else
    match s.replaceAt path (.bytes []) with
    | .ok t => t
    | .error _ => s

/-- The meaning of a call by request `i`; `none` where it has to wait. -/
def Op.exec (serde : Serde) (i : Nat) :
    (op : Op) → Choice → Store → Option (Store × op.Ans)
  | .checkSymlinks _, .go, s => some (s, .ok ())
  | .checkSymlinks _, .fail _ m, s => some (s, .error ⟨false, m⟩)
  | .createDirAll path, .go, s =>
      if (ancestors path).any fun p => (s.disk.entry p).isFile then
        some (s, .error .notDirectory)
      else some (s.mkdirs (ancestors path), .ok ())
  | .createDirAll _, .fail _ m, s => some (s, .error ⟨false, m⟩)
  | .tryExists path, .go, s => some (s, .ok (s.disk.entry path ≠ .absent))
  | .tryExists _, .fail _ m, s => some (s, .error ⟨false, m⟩)
  | .create path, .go, s =>
      match s.disk.entry path with
      | .absent => some (s.create path (.bytes []), .ok s.disk.next)
      | .file ino => some (s.write ino emptied, .ok ino)
      | .dir => some (s, .error .isDirectory)
  | .create _, .fail _ m, s => some (s, .error ⟨false, m⟩)
  | .createNew path, .go, s =>
      match s.disk.entry path with
      | .absent => some (s.create path (.bytes []), .ok s.disk.next)
      | _ => some (s, .error .fileExists)
  | .createNew _, .fail _ m, s => some (s, .error ⟨false, m⟩)
  | .openExisting path, .go, s =>
      match s.disk.entry path with
      | .absent => some (s, .error .noEntry)
      | .file ino => some (s, .ok ino)
      | .dir => some (s, .error .isDirectory)
  | .openExisting _, .fail _ m, s => some (s, .error ⟨false, m⟩)
  | .lock path, _, s =>
      if s.holder path = none then some (s.acquire path i, ()) else none
  | .len file, .go, s => some (s, .ok ((s.content file).len serde))
  | .len _, .fail _ m, s => some (s, .error ⟨false, m⟩)
  | .readToString path, .go, s =>
      match s.disk.entry path with
      | .absent => some (s, .error .noEntry)
      | .file ino => some (s, .ok (s.content ino))
      | .dir => some (s, .error .isDirectory)
  | .readToString _, .fail _ m, s => some (s, .error ⟨false, m⟩)
  | .writeAt file offset buf, .go, s =>
      if MAX_FILE_SIZE < offset + buf.length then some (s, .error .tooLarge)
      else some (s.write file (written serde offset buf), .ok ())
  | .writeAt file offset buf, .fail done m, s =>
      some (s.write file (written serde offset (buf.take (min done (MAX_FILE_SIZE - offset)))),
        .error ⟨false, m⟩)
  | .append file buf, .go, s => some (s.write file (appended serde buf), .ok ())
  | .append file buf, .fail done m, s =>
      some (s.write file (appended serde (buf.take done)), .error ⟨false, m⟩)
  | .writeRanges path ranges, .go, s =>
      match s.replaceAt path (.blocks ranges) with
      | .ok t => some (t, .ok ())
      | .error e => some (s, .error e)
  | .writeRanges path _, .fail done m, s =>
      some (s.tornAt path done, .error ⟨false, m⟩)
  | .rename source target, .go, s =>
      match s.disk.entry source, s.disk.entry target with
      | .file _, .dir => some (s, .error .isDirectory)
      | .file _, _ => some (s.rename source target, .ok ())
      | .absent, _ => some (s, .error .noEntry)
      | .dir, _ => some (s, .error .notDirectory)
  | .rename _ _, .fail _ m, s => some (s, .error ⟨false, m⟩)
  | .removeFile path, .go, s =>
      match s.disk.entry path with
      | .absent => some (s, .error .noEntry)
      | .file _ => some (s.unlink path, .ok ())
      | .dir => some (s, .error .isDirectory)
  | .removeFile _, .fail _ m, s => some (s, .error ⟨false, m⟩)
  | .sync _, .go, s => some (s, .ok ())
  | .sync _, .fail _ m, s => some (s, .error ⟨false, m⟩)
  | .syncDir _, .go, s => some (s, .ok ())
  | .syncDir _, .fail _ m, s => some (s, .error ⟨false, m⟩)
  | .metadata path, .go, s =>
      match s.disk.entry path with
      | .absent => some (s, .error .noEntry)
      | .file ino => some (s, .ok ⟨false, (s.content ino).len serde, (s.disk.content ino).mtime⟩)
      | .dir => some (s, .ok ⟨true, 0, 0⟩)
  | .metadata _, .fail _ m, s => some (s, .error ⟨false, m⟩)
  | .uniqueName, _, s => some (s.count, (s.now, s.counter))
  | .nextChunk, _, s => some (s, ())

/-! ## Everything a call can do -/

section Calls

variable {serde : Serde} {i : Nat} {c : Choice} {s t : Store}

-- The equations of the calls are derived here, once for all the theorems below.
attribute [local simp] Op.exec

@[simp] theorem write_content_self {f : Nat} {g : Content → Content} :
    (s.write f g).content f = g (s.content f) := by
  unfold Store.content Store.write
  rw [Disk.modify_content_self]

theorem write_content_ne {f m : Nat} {g : Content → Content} (h : m ≠ f) :
    (s.write f g).content m = s.content m := by
  unfold Store.content Store.write
  rw [Disk.modify_content_ne _ h]

theorem unlink_entry_file {p q : FsPath} {f : Nat}
    (h : (s.unlink p).disk.entry q = .file f) : s.disk.entry q = .file f := by
  unfold Store.unlink at h
  by_cases hqp : q = p
  · subst hqp
    rw [Disk.unlink_entry_self] at h
    cases h
  · rw [Disk.unlink_entry_ne _ _ hqp] at h
    exact h

theorem exec_checkSymlinks {path : FsPath} {a : (Op.checkSymlinks path).Ans}
    (h : Op.exec serde i (.checkSymlinks path) c s = some (t, a)) : t = s := by
  cases c <;> (cases h; rfl)

theorem exec_createDirAll {path : FsPath} {a : (Op.createDirAll path).Ans}
    (h : Op.exec serde i (.createDirAll path) c s = some (t, a)) :
    t = s ∨ t = s.mkdirs (ancestors path) := by
  cases c with
  | go =>
      simp only [Op.exec] at h
      split at h
      · cases h
        exact Or.inl rfl
      · cases h
        exact Or.inr rfl
  | fail n m =>
      cases h
      exact Or.inl rfl

theorem exec_tryExists {path : FsPath} {a : (Op.tryExists path).Ans}
    (h : Op.exec serde i (.tryExists path) c s = some (t, a)) :
    t = s ∧ ∀ b, a = .ok b → (b = true ↔ s.disk.entry path ≠ .absent) := by
  cases c with
  | go =>
      cases h
      refine ⟨rfl, ?_⟩
      intro b hb
      cases hb
      exact decide_eq_true_iff
  | fail n m =>
      cases h
      exact ⟨rfl, fun b hb => by cases hb⟩

/-- A call that makes a file under a path: it fails and changes nothing, or the
file is new. -/
def Made (path : FsPath) (s t : Store) (a : Except IoError Nat) : Prop :=
  (t = s ∧ ∃ e, a = .error e) ∨
    (s.disk.entry path = .absent ∧ a = .ok s.disk.next ∧
      t = s.create path (.bytes []))

theorem exec_createNew {path : FsPath} {a : (Op.createNew path).Ans}
    (h : Op.exec serde i (.createNew path) c s = some (t, a)) : Made path s t a := by
  cases c with
  | go =>
      simp only [Op.exec] at h
      split at h
      · next habsent =>
          cases h
          exact Or.inr ⟨habsent, rfl, rfl⟩
      · cases h
        exact Or.inl ⟨rfl, _, rfl⟩
  | fail n m =>
      cases h
      exact Or.inl ⟨rfl, _, rfl⟩

theorem exec_create {path : FsPath} {a : (Op.create path).Ans}
    (h : Op.exec serde i (.create path) c s = some (t, a)) :
    Made path s t a ∨ ∃ ino, s.disk.entry path = .file ino ∧ a = .ok ino ∧
      t = s.write ino emptied := by
  cases c with
  | go =>
      simp only [Op.exec] at h
      split at h
      · next habsent =>
          cases h
          exact Or.inl (Or.inr ⟨habsent, rfl, rfl⟩)
      · next ino hfile =>
          cases h
          exact Or.inr ⟨ino, hfile, rfl, rfl⟩
      · cases h
        exact Or.inl (Or.inl ⟨rfl, _, rfl⟩)
  | fail n m =>
      cases h
      exact Or.inl (Or.inl ⟨rfl, _, rfl⟩)

theorem exec_openExisting {path : FsPath} {a : (Op.openExisting path).Ans}
    (h : Op.exec serde i (.openExisting path) c s = some (t, a)) :
    t = s ∧ ((∃ e, a = .error e) ∨ ∃ ino, s.disk.entry path = .file ino ∧ a = .ok ino) := by
  cases c with
  | go =>
      simp only [Op.exec] at h
      split at h
      · cases h
        exact ⟨rfl, Or.inl ⟨_, rfl⟩⟩
      · next ino hfile =>
          cases h
          exact ⟨rfl, Or.inr ⟨ino, hfile, rfl⟩⟩
      · cases h
        exact ⟨rfl, Or.inl ⟨_, rfl⟩⟩
  | fail n m =>
      cases h
      exact ⟨rfl, Or.inl ⟨_, rfl⟩⟩

theorem exec_lock {path : FsPath} {a : (Op.lock path).Ans}
    (h : Op.exec serde i (.lock path) c s = some (t, a)) :
    s.holder path = none ∧ t = s.acquire path i := by
  simp only [Op.exec] at h
  split at h
  · next hfree =>
      cases h
      exact ⟨hfree, rfl⟩
  · cases h

theorem exec_len {file : Nat} {a : (Op.len file).Ans}
    (h : Op.exec serde i (.len file) c s = some (t, a)) :
    t = s ∧ ∀ n, a = .ok n → n = (s.content file).len serde := by
  cases c with
  | go =>
      cases h
      refine ⟨rfl, ?_⟩
      intro n hn
      cases hn
      rfl
  | fail n m =>
      cases h
      exact ⟨rfl, fun n hn => by cases hn⟩

theorem exec_readToString {path : FsPath} {a : (Op.readToString path).Ans}
    (h : Op.exec serde i (.readToString path) c s = some (t, a)) :
    t = s ∧ ((∃ e, a = .error e ∧ (e.notFound = true → s.disk.entry path = .absent)) ∨
      ∃ ino, s.disk.entry path = .file ino ∧ a = .ok (s.content ino)) := by
  cases c with
  | go =>
      simp only [Op.exec] at h
      split at h
      · next habsent =>
          cases h
          exact ⟨rfl, Or.inl ⟨_, rfl, fun _ => habsent⟩⟩
      · next ino hfile =>
          cases h
          exact ⟨rfl, Or.inr ⟨ino, hfile, rfl⟩⟩
      · cases h
        exact ⟨rfl, Or.inl ⟨_, rfl, fun hnf => by cases hnf⟩⟩
  | fail n m =>
      cases h
      exact ⟨rfl, Or.inl ⟨_, rfl, fun hnf => by cases hnf⟩⟩

theorem exec_readToString_go {path : FsPath} {a : (Op.readToString path).Ans}
    (hdir : s.disk.entry path ≠ .dir)
    (h : Op.exec serde i (.readToString path) .go s = some (t, a)) :
    (s.disk.entry path = .absent ∧ a = .error .noEntry) ∨
      ∃ ino, s.disk.entry path = .file ino ∧ a = .ok (s.content ino) := by
  simp only [Op.exec] at h
  split at h
  · next habsent =>
      cases h
      exact Or.inl ⟨habsent, rfl⟩
  · next ino hfile =>
      cases h
      exact Or.inr ⟨ino, hfile, rfl⟩
  · next hd => exact absurd hd hdir

/-- A positional write puts a part of the buffer in, and all of it if it
succeeds. -/
theorem exec_writeAt {file offset : Nat} {buf : List UInt8}
    {a : (Op.writeAt file offset buf).Ans}
    (h : Op.exec serde i (.writeAt file offset buf) c s = some (t, a)) :
    (∃ e n, a = .error e ∧ t = s.write file (written serde offset (buf.take n))) ∨
      (a = .ok () ∧ offset + buf.length ≤ MAX_FILE_SIZE ∧
        t = s.write file (written serde offset buf)) ∨
      (∃ e, a = .error e ∧ t = s) := by
  cases c with
  | go =>
      simp only [Op.exec] at h
      split at h
      · cases h
        exact Or.inr (Or.inr ⟨_, rfl, rfl⟩)
      · next hfits =>
          cases h
          exact Or.inr (Or.inl ⟨rfl, Nat.not_lt.1 hfits, rfl⟩)
  | fail n m =>
      cases h
      exact Or.inl ⟨_, _, rfl, rfl⟩

theorem exec_writeAt_go {file offset : Nat} {buf : List UInt8}
    {a : (Op.writeAt file offset buf).Ans}
    (h : Op.exec serde i (.writeAt file offset buf) .go s = some (t, a)) :
    (a = .ok () ∧ offset + buf.length ≤ MAX_FILE_SIZE ∧
        t = s.write file (written serde offset buf)) ∨ ((∃ e, a = .error e) ∧ t = s) := by
  simp only [Op.exec] at h
  split at h
  · cases h
    exact Or.inr ⟨⟨_, rfl⟩, rfl⟩
  · next hfits =>
      cases h
      exact Or.inl ⟨rfl, Nat.not_lt.1 hfits, rfl⟩

theorem exec_append {file : Nat} {buf : List UInt8} {a : (Op.append file buf).Ans}
    (h : Op.exec serde i (.append file buf) c s = some (t, a)) :
    (∃ e n, a = .error e ∧ t = s.write file (appended serde (buf.take n))) ∨
      (a = .ok () ∧ t = s.write file (appended serde buf)) := by
  cases c with
  | go =>
      cases h
      exact Or.inr ⟨rfl, rfl⟩
  | fail n m =>
      cases h
      exact Or.inl ⟨_, n, rfl, rfl⟩

/-- The file at a path is replaced as a whole, made where there is none. -/
def ReplacedAt (path : FsPath) (c : Content) (s t : Store) : Prop :=
  (s.disk.entry path = .absent ∧ t = s.create path c) ∨
    ∃ ino, s.disk.entry path = .file ino ∧ t = s.write ino fun _ => c

/-- After a replacement the path leads to a file with that content; nothing else
has changed. -/
theorem ReplacedAt.file {path : FsPath} {c : Content} (h : ReplacedAt path c s t) :
    ∃ m, t.disk.entry path = .file m ∧ t.content m = c ∧
      (s.disk.entry path = .file m ∨ m = s.disk.next) ∧
      (∀ p, p ≠ path → t.disk.entry p = s.disk.entry p) ∧
      (∀ g, g ≠ m → t.content g = s.content g) ∧
      s.disk.next ≤ t.disk.next ∧
      (∀ g, g ≠ m → g < t.disk.next → g < s.disk.next) := by
  rcases h with ⟨habsent, rfl⟩ | ⟨ino, hfile, rfl⟩
  · refine ⟨s.disk.next, Disk.create_entry_self _ _, ?_, Or.inr rfl, ?_, ?_,
      Nat.le_succ _, ?_⟩
    · unfold Store.content Store.create
      rw [Disk.create_content_next]
    · intro p hp
      exact Disk.create_entry_ne _ _ hp
    · intro g hg
      unfold Store.content Store.create Disk.create
      simp only [if_neg hg]
    · intro g hg hlt
      exact Nat.lt_of_le_of_ne (Nat.le_of_lt_succ hlt) hg
  · refine ⟨ino, hfile, ?_, Or.inl hfile, fun p _ => rfl, ?_, Nat.le_refl _,
      fun g _ hlt => hlt⟩
    · exact write_content_self
    · intro g hg
      exact write_content_ne hg

theorem ReplacedAt.holder {path : FsPath} {c : Content} (h : ReplacedAt path c s t) :
    t.holder = s.holder := by
  rcases h with ⟨-, rfl⟩ | ⟨ino, -, rfl⟩
  · rfl
  · rfl

theorem replaceAt_eq_ok {path : FsPath} {content : Content}
    (h : s.replaceAt path content = .ok t) : ReplacedAt path content s t := by
  unfold Store.replaceAt at h
  split at h
  · next habsent =>
      cases h
      exact Or.inl ⟨habsent, rfl⟩
  · next ino hfile =>
      cases h
      exact Or.inr ⟨ino, hfile, rfl⟩
  · cases h

theorem exec_writeRanges {path : FsPath} {ranges : List ChunkRange}
    {a : (Op.writeRanges path ranges).Ans}
    (h : Op.exec serde i (.writeRanges path ranges) c s = some (t, a)) :
    (∃ e, a = .error e ∧ (t = s ∨ ReplacedAt path (.bytes []) s t)) ∨
      (a = .ok () ∧ ReplacedAt path (.blocks ranges) s t) := by
  cases c with
  | go =>
      simp only [Op.exec] at h
      split at h
      · next t' hok =>
          cases h
          exact Or.inr ⟨rfl, replaceAt_eq_ok hok⟩
      · cases h
        exact Or.inl ⟨_, rfl, Or.inl rfl⟩
  | fail n m =>
      cases h
      refine Or.inl ⟨_, rfl, ?_⟩
      unfold Store.tornAt
      by_cases hn : n = 0
      · exact Or.inl (if_pos hn)
      · rw [if_neg hn]
        split
        · next t' hok => exact Or.inr (replaceAt_eq_ok hok)
        · exact Or.inl rfl

theorem exec_writeRanges_go {path : FsPath} {ranges : List ChunkRange}
    {a : (Op.writeRanges path ranges).Ans} (hdir : s.disk.entry path ≠ .dir)
    (h : Op.exec serde i (.writeRanges path ranges) .go s = some (t, a)) :
    a = .ok () ∧ ReplacedAt path (.blocks ranges) s t := by
  simp only [Op.exec] at h
  split at h
  · next t' hok =>
      cases h
      exact ⟨rfl, replaceAt_eq_ok hok⟩
  · next e herr =>
      unfold Store.replaceAt at herr
      split at herr
      · cases herr
      · cases herr
      · next hd => exact absurd hd hdir

theorem exec_rename {source target : FsPath} {a : (Op.rename source target).Ans}
    (h : Op.exec serde i (.rename source target) c s = some (t, a)) :
    (t = s ∧ ∃ e, a = .error e) ∨
      (∃ ino, s.disk.entry source = .file ino ∧ s.disk.entry target ≠ .dir ∧
        a = .ok () ∧ t = s.rename source target) := by
  cases c with
  | go =>
      simp only [Op.exec] at h
      split at h
      · cases h
        exact Or.inl ⟨rfl, _, rfl⟩
      · next ino hfile hdir =>
          cases h
          exact Or.inr ⟨ino, hfile, hdir, rfl, rfl⟩
      · cases h
        exact Or.inl ⟨rfl, _, rfl⟩
      · cases h
        exact Or.inl ⟨rfl, _, rfl⟩
  | fail n m =>
      cases h
      exact Or.inl ⟨rfl, _, rfl⟩

theorem exec_rename_go {source target : FsPath} {ino : Nat} {a : (Op.rename source target).Ans}
    (hfile : s.disk.entry source = .file ino) (hdir : s.disk.entry target ≠ .dir)
    (h : Op.exec serde i (.rename source target) .go s = some (t, a)) :
    a = .ok () ∧ t = s.rename source target := by
  simp only [Op.exec] at h
  split at h
  · next hd => exact absurd hd hdir
  · cases h
    exact ⟨rfl, rfl⟩
  · next habsent =>
      rw [hfile] at habsent
      cases habsent
  · next hd =>
      rw [hfile] at hd
      cases hd

theorem exec_removeFile {path : FsPath} {a : (Op.removeFile path).Ans}
    (h : Op.exec serde i (.removeFile path) c s = some (t, a)) :
    (t = s ∧ ∃ e, a = .error e) ∨
      (∃ ino, s.disk.entry path = .file ino ∧ a = .ok () ∧ t = s.unlink path) := by
  cases c with
  | go =>
      simp only [Op.exec] at h
      split at h
      · cases h
        exact Or.inl ⟨rfl, _, rfl⟩
      · next ino hfile =>
          cases h
          exact Or.inr ⟨ino, hfile, rfl, rfl⟩
      · cases h
        exact Or.inl ⟨rfl, _, rfl⟩
  | fail n m =>
      cases h
      exact Or.inl ⟨rfl, _, rfl⟩

/-- A removal that goes leaves no file under the path. -/
theorem exec_removeFile_go {path : FsPath} {a : (Op.removeFile path).Ans}
    (h : Op.exec serde i (.removeFile path) .go s = some (t, a)) :
    (t = s ∧ ∀ ino, s.disk.entry path ≠ .file ino) ∨
      (∃ ino, s.disk.entry path = .file ino ∧ t = s.unlink path) := by
  simp only [Op.exec] at h
  split at h
  · next habsent =>
      cases h
      exact Or.inl ⟨rfl, fun ino hfile => nomatch habsent.symm.trans hfile⟩
  · next ino hfile =>
      cases h
      exact Or.inr ⟨ino, hfile, rfl⟩
  · next hdir =>
      cases h
      exact Or.inl ⟨rfl, fun ino hfile => nomatch hdir.symm.trans hfile⟩

theorem exec_sync {file : Nat} {a : (Op.sync file).Ans}
    (h : Op.exec serde i (.sync file) c s = some (t, a)) : t = s := by
  cases c <;> (cases h; rfl)

theorem exec_syncDir {path : FsPath} {a : (Op.syncDir path).Ans}
    (h : Op.exec serde i (.syncDir path) c s = some (t, a)) : t = s := by
  cases c <;> (cases h; rfl)

theorem exec_metadata {path : FsPath} {a : (Op.metadata path).Ans}
    (h : Op.exec serde i (.metadata path) c s = some (t, a)) :
    t = s ∧ ∀ stat, a = .ok stat → stat.isDir = false →
      ∃ ino, s.disk.entry path = .file ino ∧ stat.size = (s.content ino).len serde := by
  cases c with
  | go =>
      simp only [Op.exec] at h
      split at h
      · cases h
        exact ⟨rfl, fun stat hs => by cases hs⟩
      · next ino hfile =>
          cases h
          refine ⟨rfl, ?_⟩
          intro stat hs _
          cases hs
          exact ⟨ino, hfile, rfl⟩
      · cases h
        refine ⟨rfl, ?_⟩
        intro stat hs hdir
        cases hs
        cases hdir
  | fail n m =>
      cases h
      exact ⟨rfl, fun stat hs => by cases hs⟩

theorem exec_uniqueName {a : Op.uniqueName.Ans}
    (h : Op.exec serde i .uniqueName c s = some (t, a)) :
    t = s.count ∧ a = (s.now, s.counter) := by
  cases h
  exact ⟨rfl, rfl⟩

theorem exec_nextChunk {a : Op.nextChunk.Ans}
    (h : Op.exec serde i .nextChunk c s = some (t, a)) : t = s := by
  cases h
  rfl

/-- Only `lock` changes who holds what. -/
theorem exec_holder {op : Op} {a : op.Ans} (h : op.exec serde i c s = some (t, a)) :
    t.holder = s.holder ∨ ∃ path, t = s.acquire path i := by
  cases op with
  | checkSymlinks p => exact Or.inl (by rw [exec_checkSymlinks h])
  | createDirAll p =>
      left
      rcases exec_createDirAll h with rfl | rfl
      · rfl
      · rfl
  | tryExists p => exact Or.inl (by rw [(exec_tryExists h).1])
  | create p =>
      left
      rcases exec_create h with (⟨rfl, -⟩ | ⟨-, -, rfl⟩) | ⟨ino, -, -, rfl⟩
      · rfl
      · rfl
      · rfl
  | createNew p =>
      left
      rcases exec_createNew h with ⟨rfl, -⟩ | ⟨-, -, rfl⟩
      · rfl
      · rfl
  | openExisting p => exact Or.inl (by rw [(exec_openExisting h).1])
  | lock p => exact Or.inr ⟨p, (exec_lock h).2⟩
  | len f => exact Or.inl (by rw [(exec_len h).1])
  | readToString p => exact Or.inl (by rw [(exec_readToString h).1])
  | writeAt f off buf =>
      left
      rcases exec_writeAt h with ⟨e, n, -, rfl⟩ | ⟨-, -, rfl⟩ | ⟨e, -, rfl⟩
      · rfl
      · rfl
      · rfl
  | append f buf =>
      left
      rcases exec_append h with ⟨e, n, -, rfl⟩ | ⟨-, rfl⟩
      · rfl
      · rfl
  | writeRanges p ranges =>
      left
      rcases exec_writeRanges h with ⟨e, -, rfl | hrep⟩ | ⟨-, hrep⟩
      · rfl
      · exact hrep.holder
      · exact hrep.holder
  | rename p q =>
      left
      rcases exec_rename h with ⟨rfl, -⟩ | ⟨ino, -, -, -, rfl⟩
      · rfl
      · rfl
  | removeFile p =>
      left
      rcases exec_removeFile h with ⟨rfl, -⟩ | ⟨ino, -, -, rfl⟩
      · rfl
      · rfl
  | sync f => exact Or.inl (by rw [exec_sync h])
  | syncDir p => exact Or.inl (by rw [exec_syncDir h])
  | metadata p => exact Or.inl (by rw [(exec_metadata h).1])
  | uniqueName =>
      left
      rw [(exec_uniqueName h).1]
      rfl
  | nextChunk => exact Or.inl (by rw [exec_nextChunk h])

theorem exec_looks {op : Op} {a : op.Ans} (hop : op.looks = true)
    (h : op.exec serde i c s = some (t, a)) : t = s := by
  cases op with
  | checkSymlinks p => exact exec_checkSymlinks h
  | tryExists p => exact (exec_tryExists h).1
  | openExisting p => exact (exec_openExisting h).1
  | len f => exact (exec_len h).1
  | readToString p => exact (exec_readToString h).1
  | sync f => exact exec_sync h
  | syncDir p => exact exec_syncDir h
  | metadata p => exact (exec_metadata h).1
  | nextChunk => exact exec_nextChunk h
  | _ => cases hop

/-- No call takes time. -/
theorem exec_now {op : Op} {a : op.Ans} (h : op.exec serde i c s = some (t, a)) :
    t.now = s.now := by
  have hreplaced : ∀ (p : FsPath) (b : Content), ReplacedAt p b s t → t.now = s.now := by
    intro p b hrep
    rcases hrep with ⟨-, rfl⟩ | ⟨ino, -, rfl⟩
    · rfl
    · rfl
  cases op with
  | createDirAll p =>
      rcases exec_createDirAll h with rfl | rfl
      · rfl
      · rfl
  | create p =>
      rcases exec_create h with (⟨rfl, -⟩ | ⟨-, -, rfl⟩) | ⟨ino, -, -, rfl⟩
      · rfl
      · rfl
      · rfl
  | createNew p =>
      rcases exec_createNew h with ⟨rfl, -⟩ | ⟨-, -, rfl⟩
      · rfl
      · rfl
  | lock p =>
      rw [(exec_lock h).2]
      rfl
  | writeAt f off buf =>
      rcases exec_writeAt h with ⟨e, n, -, rfl⟩ | ⟨-, -, rfl⟩ | ⟨e, -, rfl⟩
      · rfl
      · rfl
      · rfl
  | append f buf =>
      rcases exec_append h with ⟨e, n, -, rfl⟩ | ⟨-, rfl⟩
      · rfl
      · rfl
  | writeRanges p ranges =>
      rcases exec_writeRanges h with ⟨e, -, rfl | hrep⟩ | ⟨-, hrep⟩
      · rfl
      · exact hreplaced _ _ hrep
      · exact hreplaced _ _ hrep
  | rename p q =>
      rcases exec_rename h with ⟨rfl, -⟩ | ⟨ino, -, -, -, rfl⟩
      · rfl
      · rfl
  | removeFile p =>
      rcases exec_removeFile h with ⟨rfl, -⟩ | ⟨ino, -, -, rfl⟩
      · rfl
      · rfl
  | uniqueName =>
      rw [(exec_uniqueName h).1]
      rfl
  | checkSymlinks | tryExists | openExisting | len | readToString | sync | syncDir | metadata
  | nextChunk => rw [exec_looks rfl h]

end Calls

end Libfw

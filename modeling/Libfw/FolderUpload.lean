import Libfw.PathResolution
import Libfw.StackWalks
import Libfw.TransferPlans
import Mathlib.Data.Char
import Mathlib.Data.List.Lex
import Mathlib.Data.List.Sort
import Mathlib.Data.List.TakeWhile

/-!
# Uploading a folder

`upload_folder` and `walk_files` of `libfw-client/src/native/mod.rs` on a POSIX host: the walk
over the local directories and the remote path each file is given.

* `walkFiles_ends`, `walkFiles_spec`: the walk ends, and finds every regular file once.
* `upload_never_merges_iff`: the files get different remote paths, each the directory's followed
  by the file's own segments, exactly when no file's path has a backslash.
-/

namespace Libfw

open SegmentPaths StackWalk

/-! ## Local paths -/

def Component.text : Component → Text
  | .rootDir => []
  | .curDir => ['.']
  | .parentDir => ['.', '.']
  | .normal name => name

/-- `display`, `to_string_lossy`: the names are UTF-8. -/
def FsPath.text (p : FsPath) : Text :=
  if p = [.rootDir] then ['/'] else joinSegments (p.map Component.text)

/-- Components are compared in this order, names byte by byte. -/
def Component.sortKey : Component → List Nat
  | .rootDir => [0]
  | .curDir => [1]
  | .parentDir => [2]
  | .normal name => 3 :: (utf8 name).map UInt8.toNat

/-- `out.sort()` -/
def sortPaths (paths : List FsPath) : List FsPath :=
  paths.insertionSort fun a b => a.map Component.sortKey ≤ b.map Component.sortKey

/-! ## The walk -/

inductive FileType where
  | file
  | dir
  | symlink
  | other
  deriving DecidableEq

/-- A directory entry; the system may fail to say what it is. -/
structure LocalDirEntry where
  name : Text
  fileType : Except Text FileType

/-- `std::fs::read_dir`: the entries in any order, or what the system says of a failure. -/
abbrev ReadDir := FsPath → Except Text (List (Except Text LocalDirEntry))

/-- `for entry in entries`: directories are pushed, regular files kept. -/
def takeLocal (dir : FsPath) : List (Except Text LocalDirEntry) → List FsPath → List FsPath →
    Except ClientError (List FsPath × List FsPath)
  | [], stack, out => .ok (stack, out)
  | .error e :: _, _, _ => .error (.storage ("dir entry: ".toList ++ e))
  | .ok entry :: rest, stack, out =>
      let path := dir ++ [.normal entry.name]
      match entry.fileType with
      | .error e => .error (.storage ("file type: ".toList ++ e))
      | .ok .symlink => takeLocal dir rest stack out
      | .ok .dir => takeLocal dir rest (path :: stack) out
      | .ok .file => takeLocal dir rest stack (out ++ [path])
      | .ok .other => takeLocal dir rest stack out

/-- The error of a directory that cannot be read. -/
def readDirError (dir : FsPath) (e : Text) : ClientError :=
  .storage ("read_dir ".toList ++ dir.text ++ ": ".toList ++ e)

/-- `while let Some(dir) = stack.pop()`, for a number of turns. -/
def walkFilesFrom (readDir : ReadDir) :
    Nat → List FsPath → List FsPath → Option (Except ClientError (List FsPath))
  | 0, _, _ => none
  | _ + 1, [], out => some (.ok (sortPaths out))
  | fuel + 1, dir :: stack, out =>
      match readDir dir with
      | .error e => some (.error (readDirError dir e))
      | .ok entries =>
          match takeLocal dir entries stack out with
          | .error e => some (.error e)
          | .ok (stack, out) => walkFilesFrom readDir fuel stack out

/-- `walk_files` -/
def walkFiles (readDir : ReadDir) (fuel : Nat) (root : FsPath) :
    Option (Except ClientError (List FsPath)) :=
  walkFilesFrom readDir fuel [root] []

/-! ## Remote paths -/

/-- `entry.strip_prefix(&root).unwrap_or(&entry)` -/
def stripRoot (root entry : FsPath) : FsPath :=
  if root <+: entry then entry.drop root.length else entry

/-- `replace('\\', "/")` -/
def replaceBackslash (t : Text) : Text := t.map fun c => if c = '\\' then '/' else c

/-- The path a local file is uploaded to. -/
def remotePath (root : FsPath) (remoteDir : Text) (entry : FsPath) : Text :=
  let rel := replaceBackslash (stripRoot root entry).text
  if remoteDir = [] then rel else trimSlashes remoteDir ++ '/' :: rel

/-- `upload_folder`: the pairs it hands to `upload_files`. -/
def uploadFolder (readDir : ReadDir) (fuel : Nat) (root : FsPath) (remoteDir : Text) :
    Option (Except ClientError (List (FsPath × Text))) :=
  (walkFiles readDir fuel root).map fun files =>
    files.map fun files => files.map fun entry => (entry, remotePath root remoteDir entry)

/-! ## Folders -/

/-- The path is that of a directory of the folder. -/
inductive DirAt (readDir : ReadDir) (root : FsPath) : FsPath → Prop
  | root : DirAt readDir root root
  | child {dir : FsPath} {entries : List (Except Text LocalDirEntry)} {entry : LocalDirEntry}
      (hdir : DirAt readDir root dir) (hread : readDir dir = .ok entries)
      (hmem : .ok entry ∈ entries) (htype : entry.fileType = .ok .dir) :
      DirAt readDir root (dir ++ [.normal entry.name])

/-- The entries that the system does name. -/
def okEntries (entries : List (Except Text LocalDirEntry)) : List LocalDirEntry :=
  entries.filterMap Except.toOption

/-- A local directory tree.  Names are any a POSIX host allows, no two in one directory are the
same, and the directories are finitely many: links are not followed. -/
structure LocalFolder where
  root : FsPath
  readDir : ReadDir
  plain : ∀ {dir : FsPath} {entries : List (Except Text LocalDirEntry)} {entry : LocalDirEntry},
    readDir dir = .ok entries → .ok entry ∈ entries → PlainSegment entry.name
  distinct : ∀ {dir : FsPath} {entries : List (Except Text LocalDirEntry)},
    readDir dir = .ok entries → ((okEntries entries).map LocalDirEntry.name).Nodup
  finite : {dir | DirAt readDir root dir}.Finite

namespace LocalFolder

variable (folder : LocalFolder)

/-- The path of a file or directory, from the names that lead to it. -/
def path (names : List Text) : FsPath := folder.root ++ names.map .normal

/-- The names lead to a regular file. -/
def FileAt (names : List Text) : Prop :=
  ∃ dir entries entry, DirAt folder.readDir folder.root dir ∧ folder.readDir dir = .ok entries ∧
    .ok entry ∈ entries ∧ entry.fileType = .ok .file ∧
    folder.path names = dir ++ [.normal entry.name]

/-- Nothing fails below the root. -/
def Readable : Prop :=
  ∀ dir, DirAt folder.readDir folder.root dir → ∃ entries, folder.readDir dir = .ok entries ∧
    ∀ e ∈ entries, ∃ entry fileType, e = .ok entry ∧ entry.fileType = .ok fileType

end LocalFolder

/-- The path under a remote directory that has the given segments. -/
def joinUnder (remoteDir : Text) (names : List Text) : Text :=
  if remoteDir = [] then joinSegments names
  else trimSlashes remoteDir ++ '/' :: joinSegments names

/-- The segments of a path, wherever slashes stand. -/
def pathSegments (path : Text) : List Text := (path.splitOn '/').filter (· ≠ [])

/-- Every regular file is assigned a path of its own, which is the directory's followed by the
file's segments. -/
structure Apart (folder : LocalFolder) (remoteDir : Text) (assigned : List (FsPath × Text)) :
    Prop where
  files : ∀ p, (∃ remote, (p, remote) ∈ assigned) ↔ ∃ names, folder.FileAt names ∧
    p = folder.path names
  once : (assigned.map Prod.fst).Nodup
  distinct : (assigned.map Prod.snd).Nodup
  joined : ∀ names remote, (folder.path names, remote) ∈ assigned →
    remote = joinUnder remoteDir names ∧
      pathSegments remote = pathSegments remoteDir ++ names

/-- An upload of the folder comes to its end, and if it gets to its files it keeps them
apart. -/
structure NeverMerges (folder : LocalFolder) (remoteDir : Text) : Prop where
  ends : ∃ fuel r, uploadFolder folder.readDir fuel folder.root remoteDir = some r
  apart : ∀ fuel assigned,
    uploadFolder folder.readDir fuel folder.root remoteDir = some (.ok assigned) →
      Apart folder remoteDir assigned

/-! ## One directory -/

/-- A directory's own subdirectories and files. -/
def expandDir (readDir : ReadDir) (dir : FsPath) :
    Except ClientError (List FsPath × List FsPath) :=
  match readDir dir with
  | .error e => .error (readDirError dir e)
  | .ok entries =>
      match takeLocal dir entries [] [] with
      | .error e => .error e
      | .ok (stack, out) => .ok (stack.reverse, out)

def LocalDirEntry.hasType (t : FileType) (entry : LocalDirEntry) : Bool :=
  match entry.fileType with
  | .ok u => u = t
  | .error _ => false

/-- The paths of the entries of a type. -/
def listed (t : FileType) (dir : FsPath) (entries : List (Except Text LocalDirEntry)) :
    List FsPath :=
  ((okEntries entries).filter (LocalDirEntry.hasType t)).map fun e => dir ++ [.normal e.name]

theorem takeLocal_append (dir : FsPath) (entries : List (Except Text LocalDirEntry))
    (pushed stack out kept : List FsPath) :
    takeLocal dir entries (pushed ++ stack) (out ++ kept) =
      (takeLocal dir entries pushed kept).map fun r => (r.1 ++ stack, out ++ r.2) := by
  induction entries generalizing pushed kept with
  | nil => rfl
  | cons e rest ih =>
      cases e with
      | error e => rfl
      | ok entry =>
          rw [takeLocal, takeLocal]
          cases entry.fileType with
          | error e => rfl
          | ok t =>
              cases t with
              | symlink | other => exact ih pushed kept
              | dir => exact ih ((dir ++ [.normal entry.name]) :: pushed) kept
              | file =>
                  have h := ih pushed (kept ++ [dir ++ [.normal entry.name]])
                  rw [← List.append_assoc] at h
                  exact h

/-- **The loop is a depth-first walk over the directories.** -/
theorem walkFilesFrom_eq (readDir : ReadDir) (fuel : Nat) (stack out : List FsPath) :
    walkFilesFrom readDir fuel stack out =
      (walk (expandDir readDir) fuel stack out).map (·.map sortPaths) := by
  induction fuel generalizing stack out with
  | zero => rfl
  | succ fuel ih =>
      cases stack with
      | nil => rfl
      | cons dir stack =>
          rw [walkFilesFrom, walk, expandDir]
          cases readDir dir with
          | error e => rfl
          | ok entries =>
              have htake := takeLocal_append dir entries [] stack out []
              rw [List.nil_append, List.append_nil] at htake
              simp only [htake]
              cases takeLocal dir entries [] [] with
              | error e => rfl
              | ok r =>
                  simp only [Except.map, List.reverse_reverse]
                  exact ih _ _

theorem listed_cons_ok (t : FileType) (dir : FsPath) (entry : LocalDirEntry)
    (rest : List (Except Text LocalDirEntry)) :
    listed t dir (.ok entry :: rest) =
      if entry.hasType t then (dir ++ [.normal entry.name]) :: listed t dir rest
      else listed t dir rest := by
  have hcut : okEntries (.ok entry :: rest) = entry :: okEntries rest := rfl
  unfold listed
  rw [hcut, List.filter_cons]
  split <;> rfl

/-- What the loop leaves, and that all entries have been named with their types. -/
theorem takeLocal_eq_ok {dir : FsPath} {entries : List (Except Text LocalDirEntry)}
    {stack out stack' out' : List FsPath} (h : takeLocal dir entries stack out = .ok (stack', out')) :
    stack' = (listed .dir dir entries).reverse ++ stack ∧ out' = out ++ listed .file dir entries ∧
      ∀ e ∈ entries, ∃ entry t, e = .ok entry ∧ entry.fileType = .ok t := by
  induction entries generalizing stack out with
  | nil =>
      cases h
      exact ⟨rfl, (List.append_nil _).symm, fun e he => absurd he List.not_mem_nil⟩
  | cons e rest ih =>
      cases e with
      | error e => cases h
      | ok entry =>
          rw [takeLocal] at h
          cases htype : entry.fileType with
          | error e =>
              rw [htype] at h
              cases h
          | ok t =>
              rw [htype] at h
              have hall : (∀ e ∈ rest, ∃ entry t, e = .ok entry ∧ entry.fileType = .ok t) →
                  ∀ e ∈ Except.ok entry :: rest,
                    ∃ entry t, e = .ok entry ∧ entry.fileType = .ok t := by
                intro hrest e he
                rcases List.mem_cons.1 he with rfl | he
                · exact ⟨entry, t, rfl, htype⟩
                · exact hrest e he
              have hkind : ∀ u, entry.hasType u = decide (t = u) := by
                intro u
                unfold LocalDirEntry.hasType
                rw [htype]
              rw [listed_cons_ok, listed_cons_ok, hkind, hkind]
              cases t with
              | symlink | other =>
                  obtain ⟨hstack, hout, hrest⟩ := ih h
                  exact ⟨hstack, hout, hall hrest⟩
              | dir =>
                  obtain ⟨hstack, hout, hrest⟩ := ih h
                  exact ⟨by simpa using hstack, hout, hall hrest⟩
              | file =>
                  obtain ⟨hstack, hout, hrest⟩ := ih h
                  exact ⟨hstack, by simpa using hout, hall hrest⟩

/-- Entries that can all be named are all taken. -/
theorem takeLocal_ok {dir : FsPath} {entries : List (Except Text LocalDirEntry)}
    (h : ∀ e ∈ entries, ∃ entry t, e = .ok entry ∧ entry.fileType = .ok t)
    (stack out : List FsPath) : ∃ r, takeLocal dir entries stack out = .ok r := by
  induction entries generalizing stack out with
  | nil => exact ⟨_, rfl⟩
  | cons e rest ih =>
      obtain ⟨entry, t, rfl, htype⟩ := h e List.mem_cons_self
      have hrest := ih fun e he => h e (List.mem_cons_of_mem _ he)
      rw [takeLocal, htype]
      cases t with
      | file | dir | symlink | other => exact hrest _ _

theorem mem_okEntries {entries : List (Except Text LocalDirEntry)} {entry : LocalDirEntry} :
    entry ∈ okEntries entries ↔ .ok entry ∈ entries := by
  unfold okEntries
  rw [List.mem_filterMap]
  constructor
  · intro h
    obtain ⟨e, he, hentry⟩ := h
    cases e with
    | error e => cases hentry
    | ok found =>
        cases hentry
        exact he
  · intro h
    exact ⟨_, h, rfl⟩

theorem mem_listed {t : FileType} {dir p : FsPath} {entries : List (Except Text LocalDirEntry)} :
    p ∈ listed t dir entries ↔
      ∃ entry, .ok entry ∈ entries ∧ entry.fileType = .ok t ∧ p = dir ++ [.normal entry.name] := by
  unfold listed
  rw [List.mem_map]
  constructor
  · intro h
    obtain ⟨entry, hentry, rfl⟩ := h
    obtain ⟨hmem, htype⟩ := List.mem_filter.1 hentry
    refine ⟨entry, mem_okEntries.1 hmem, ?_, rfl⟩
    unfold LocalDirEntry.hasType at htype
    split at htype
    · next u hu => rw [hu, of_decide_eq_true htype]
    · cases htype
  · intro h
    obtain ⟨entry, hentry, htype, rfl⟩ := h
    refine ⟨entry, List.mem_filter.2 ⟨mem_okEntries.2 hentry, ?_⟩, rfl⟩
    unfold LocalDirEntry.hasType
    rw [htype]
    exact decide_eq_true rfl

theorem append_normal_injective {dir dir' : FsPath} {name name' : Text}
    (h : dir ++ [Component.normal name] = dir' ++ [.normal name']) : dir = dir' ∧ name = name' := by
  obtain ⟨hdir, hname⟩ := List.append_inj' h rfl
  cases hname
  exact ⟨hdir, rfl⟩

theorem nodup_listed {t : FileType} {dir : FsPath} {entries : List (Except Text LocalDirEntry)}
    (h : ((okEntries entries).map LocalDirEntry.name).Nodup) : (listed t dir entries).Nodup := by
  have hnames : (((okEntries entries).filter (LocalDirEntry.hasType t)).map
      LocalDirEntry.name).Nodup := h.sublist (List.filter_sublist.map _)
  have hpaths : listed t dir entries = (((okEntries entries).filter
      (LocalDirEntry.hasType t)).map LocalDirEntry.name).map
        fun name => dir ++ [.normal name] := by
    unfold listed
    rw [List.map_map]
    rfl
  rw [hpaths]
  exact hnames.map fun name name' heq => (append_normal_injective heq).2

/-! ## The tree below the root -/

namespace LocalFolder

variable {folder : LocalFolder}

/-- A directory that can be expanded: its entries, and what they come to. -/
theorem expandDir_eq_ok {dir : FsPath} {dirs files : List FsPath}
    (h : expandDir folder.readDir dir = .ok (dirs, files)) :
    ∃ entries, folder.readDir dir = .ok entries ∧ dirs = listed .dir dir entries ∧
      files = listed .file dir entries ∧
      ∀ e ∈ entries, ∃ entry t, e = .ok entry ∧ entry.fileType = .ok t := by
  unfold expandDir at h
  cases hread : folder.readDir dir with
  | error e =>
      rw [hread] at h
      cases h
  | ok entries =>
      rw [hread] at h
      cases htake : takeLocal dir entries [] [] with
      | error e => simp [htake] at h
      | ok r =>
          obtain ⟨stack, out⟩ := r
          obtain ⟨hstack, hout, hall⟩ := takeLocal_eq_ok htake
          simp only [htake, Except.ok.injEq, Prod.mk.injEq] at h
          obtain ⟨rfl, rfl⟩ := h
          refine ⟨entries, rfl, ?_, hout, hall⟩
          rw [hstack, List.append_nil, List.reverse_reverse]

theorem child_iff {dir child : FsPath} (h : ¬ Stuck (expandDir folder.readDir) dir) :
    Child (expandDir folder.readDir) dir child ↔ ∃ entries entry, folder.readDir dir = .ok entries ∧
      .ok entry ∈ entries ∧ entry.fileType = .ok .dir ∧ child = dir ++ [.normal entry.name] := by
  obtain ⟨entries, hread, hdirs, -, -⟩ := expandDir_eq_ok (expand_of_not_stuck h)
  unfold Child
  rw [hdirs, mem_listed]
  constructor
  · intro hchild
    obtain ⟨entry, hmem, htype, rfl⟩ := hchild
    exact ⟨entries, entry, hread, hmem, htype, rfl⟩
  · intro hchild
    obtain ⟨entries', entry, hread', hmem, htype, rfl⟩ := hchild
    rw [hread] at hread'
    cases hread'
    exact ⟨entry, hmem, htype, rfl⟩

theorem not_stuck_of_child {dir child : FsPath}
    (h : Child (expandDir folder.readDir) dir child) : ¬ Stuck (expandDir folder.readDir) dir := by
  intro hstuck
  obtain ⟨e, he⟩ := hstuck
  unfold Child children at h
  rw [he] at h
  cases h

/-- A directory's path is longer by one name than that of the directory it is in. -/
theorem length_of_child {dir child : FsPath} (h : Child (expandDir folder.readDir) dir child) :
    child.length = dir.length + 1 := by
  obtain ⟨-, entry, -, -, -, rfl⟩ := (child_iff (not_stuck_of_child h)).1 h
  exact List.length_append

theorem length_of_reach {dir other : FsPath} (h : Reach (expandDir folder.readDir) dir other) :
    dir.length ≤ other.length := by
  induction h with
  | refl => exact Nat.le_refl _
  | tail _ hchild ih =>
      rw [length_of_child hchild]
      exact Nat.le_succ_of_le ih

theorem acyclic (dir : FsPath) : ¬ Below (expandDir folder.readDir) dir dir := by
  intro hcycle
  obtain ⟨child, hchild, hback⟩ := Relation.TransGen.head'_iff.1 hcycle
  have hlen := length_of_child hchild
  have hle := length_of_reach hback
  omega

/-- What the walk can reach are directories of the folder. -/
theorem dirAt_of_reach {dir : FsPath}
    (h : Reach (expandDir folder.readDir) folder.root dir) :
    DirAt folder.readDir folder.root dir := by
  induction h with
  | refl => exact .root
  | tail _ hchild ih =>
      obtain ⟨entries, entry, hread, hmem, htype, rfl⟩ :=
        (child_iff (not_stuck_of_child hchild)).1 hchild
      exact .child ih hread hmem htype

theorem reach_finite : {dir | Reach (expandDir folder.readDir) folder.root dir}.Finite :=
  folder.finite.subset fun _ hdir => dirAt_of_reach hdir

/-- **The walk ends.** -/
theorem walkFiles_ends : ∃ fuel r, walkFiles folder.readDir fuel folder.root = some r := by
  have hfinite : {dir | Reach (expandDir folder.readDir) folder.root dir}.Finite := reach_finite
  obtain ⟨fuel, r, hwalk⟩ := ends_of_acyclic hfinite (fun dir _ => acyclic dir) []
  refine ⟨fuel, r.map sortPaths, ?_⟩
  unfold walkFiles
  rw [walkFilesFrom_eq, hwalk]
  rfl

/-- If nothing fails the walk reaches all directories. -/
theorem reach_of_dirAt (h : Sound (expandDir folder.readDir) folder.root) {dir : FsPath}
    (hdir : DirAt folder.readDir folder.root dir) :
    Reach (expandDir folder.readDir) folder.root dir := by
  induction hdir with
  | root => exact .refl
  | child _ hread hmem htype ih =>
      apply ih.tail
      exact (child_iff (h _ ih).1).2 ⟨_, _, hread, hmem, htype, rfl⟩

/-- **The directories form a tree.** -/
theorem isTree (h : Sound (expandDir folder.readDir) folder.root) :
    IsTree (expandDir folder.readDir) folder.root := by
  constructor
  · intro dir hdir
    exact (h dir hdir).1
  · intro dir hdir
    obtain ⟨entries, hread, hdirs, -, -⟩ := expandDir_eq_ok (expand_of_not_stuck (h dir hdir).1)
    rw [hdirs]
    exact nodup_listed (folder.distinct hread)
  · intro x y child _ _ hx hy
    obtain ⟨-, e, -, -, -, hxe⟩ := (child_iff (not_stuck_of_child hx)).1 hx
    obtain ⟨-, f, -, -, -, hyf⟩ := (child_iff (not_stuck_of_child hy)).1 hy
    exact (append_normal_injective (hxe.symm.trans hyf)).1
  · intro dir hdir hchild
    have hlen := length_of_child hchild
    have hle := length_of_reach hdir
    omega

theorem readable_iff : folder.Readable ↔ Sound (expandDir folder.readDir) folder.root := by
  constructor
  · intro h dir hdir
    refine ⟨?_, acyclic dir⟩
    intro hstuck
    obtain ⟨e, he⟩ := hstuck
    obtain ⟨entries, hread, hall⟩ := h dir (dirAt_of_reach hdir)
    obtain ⟨r, hr⟩ := @takeLocal_ok dir entries hall [] []
    unfold expandDir at he
    simp only [hread, hr] at he
    cases he
  · intro h dir hdir
    obtain ⟨entries, hread, -, -, hall⟩ :=
      expandDir_eq_ok (expand_of_not_stuck (h dir (reach_of_dirAt h hdir)).1)
    exact ⟨entries, hread, hall⟩

theorem path_concat (names : List Text) (name : Text) :
    folder.path (names ++ [name]) = folder.path names ++ [.normal name] := by
  unfold path
  rw [List.map_append, List.append_assoc]
  rfl

theorem path_injective {names names' : List Text} (h : folder.path names = folder.path names') :
    names = names' := by
  apply List.map_injective_iff.2 _ (List.append_cancel_left h)
  intro a b hab
  cases hab
  rfl

/-- The names that lead from the root to a directory. -/
theorem dirAt_names {dir : FsPath} (h : DirAt folder.readDir folder.root dir) :
    ∃ names, dir = folder.path names ∧ ∀ name ∈ names, PlainSegment name := by
  induction h with
  | root => exact ⟨[], (List.append_nil _).symm, fun name hname => absurd hname List.not_mem_nil⟩
  | @child dir entries entry _ hread hmem htype ih =>
      obtain ⟨names, rfl, hplain⟩ := ih
      refine ⟨names ++ [entry.name], (path_concat _ _).symm, ?_⟩
      intro name hname
      rcases List.mem_append.1 hname with hname | hname
      · exact hplain name hname
      · rw [List.mem_singleton.1 hname]
        exact folder.plain hread hmem

/-- The names of a file are plain, and there is at least one. -/
theorem FileAt.plain {names : List Text} (h : folder.FileAt names) :
    names ≠ [] ∧ ∀ name ∈ names, PlainSegment name := by
  obtain ⟨dir, entries, entry, hdir, hread, hmem, -, hpath⟩ := h
  obtain ⟨dirs, rfl, hplain⟩ := dirAt_names hdir
  rw [← path_concat] at hpath
  rw [path_injective hpath]
  refine ⟨List.append_ne_nil_of_right_ne_nil _ (List.cons_ne_nil _ _), ?_⟩
  intro name hname
  rcases List.mem_append.1 hname with hname | hname
  · exact hplain name hname
  · rw [List.mem_singleton.1 hname]
    exact folder.plain hread hmem

/-- What a walk that succeeds has found: every regular file, once. -/
theorem walkFiles_spec {fuel : Nat} {files : List FsPath}
    (h : walkFiles folder.readDir fuel folder.root = some (.ok files)) :
    folder.Readable ∧ files.Nodup ∧
      ∀ p, p ∈ files ↔ ∃ names, folder.FileAt names ∧ p = folder.path names := by
  unfold walkFiles at h
  rw [walkFilesFrom_eq, Option.map_eq_some_iff] at h
  obtain ⟨r, hwalk, hr⟩ := h
  cases r with
  | error e => cases hr
  | ok found =>
      cases hr
      obtain ⟨seen, hseen, hfound⟩ := visits_of_walk hwalk
      have hsound := hseen.sound List.mem_cons_self
      have htree := isTree hsound
      have hreach : ∀ dir ∈ seen, Reach (expandDir folder.readDir) folder.root dir := by
        intro dir hdir
        obtain ⟨root, hroot, hreach⟩ := hseen.mem_iff.1 hdir
        rwa [List.mem_singleton.1 hroot] at hreach
      have hheld : ∀ dir ∈ seen, ∃ entries, folder.readDir dir = .ok entries ∧
          held (expandDir folder.readDir) dir = listed .file dir entries := by
        intro dir hdir
        obtain ⟨entries, hread, -, hfiles, -⟩ :=
          expandDir_eq_ok (expand_of_not_stuck (hsound dir (hreach dir hdir)).1)
        exact ⟨entries, hread, hfiles⟩
      have hperm := List.perm_insertionSort
        (fun a b : FsPath => a.map Component.sortKey ≤ b.map Component.sortKey) found
      rw [List.nil_append] at hfound
      refine ⟨readable_iff.2 hsound, ?_, ?_⟩
      · apply hperm.nodup_iff.2
        rw [hfound, List.nodup_flatMap]
        refine ⟨?_, ?_⟩
        · intro dir hdir
          obtain ⟨entries, hread, hfiles⟩ := hheld dir hdir
          rw [hfiles]
          exact nodup_listed (folder.distinct hread)
        · apply (hseen.nodup_root htree).pairwise_of_forall_ne
          intro dir hdir dir' hdir' hne p hp hp'
          obtain ⟨entries, -, hfiles⟩ := hheld dir hdir
          obtain ⟨entries', -, hfiles'⟩ := hheld dir' hdir'
          rw [hfiles, mem_listed] at hp
          rw [hfiles', mem_listed] at hp'
          obtain ⟨e, -, -, he⟩ := hp
          obtain ⟨f, -, -, hf⟩ := hp'
          exact hne (append_normal_injective (he.symm.trans hf)).1
      · intro p
        rw [show p ∈ sortPaths found ↔ p ∈ found from hperm.mem_iff, hfound, List.mem_flatMap]
        constructor
        · intro hp
          obtain ⟨dir, hdir, hp⟩ := hp
          obtain ⟨entries, hread, hfiles⟩ := hheld dir hdir
          rw [hfiles, mem_listed] at hp
          obtain ⟨entry, hmem, htype, rfl⟩ := hp
          have hat := dirAt_of_reach (hreach dir hdir)
          obtain ⟨dirs, rfl, -⟩ := dirAt_names hat
          exact ⟨dirs ++ [entry.name],
            ⟨_, entries, entry, hat, hread, hmem, htype, path_concat _ _⟩, (path_concat _ _).symm⟩
        · intro hp
          obtain ⟨names, ⟨dir, entries, entry, hat, hread, hmem, htype, hpath⟩, rfl⟩ := hp
          have hdir : dir ∈ seen :=
            hseen.mem_iff.2 ⟨_, List.mem_cons_self, reach_of_dirAt hsound hat⟩
          obtain ⟨entries', hread', hfiles⟩ := hheld dir hdir
          rw [hread] at hread'
          cases hread'
          refine ⟨dir, hdir, ?_⟩
          rw [hfiles, mem_listed, hpath]
          exact ⟨entry, hmem, htype, rfl⟩

/-- A folder that can be read is walked to its end. -/
theorem walkFiles_of_readable (h : folder.Readable) :
    ∃ fuel files, walkFiles folder.readDir fuel folder.root = some (.ok files) := by
  have hsucceeds : ∃ fuel found,
      walk (expandDir folder.readDir) fuel [folder.root] [] = some (.ok found) :=
    succeeds_iff.2 ⟨reach_finite, readable_iff.1 h⟩
  obtain ⟨fuel, found, hwalk⟩ := hsucceeds
  refine ⟨fuel, sortPaths found, ?_⟩
  unfold walkFiles
  rw [walkFilesFrom_eq, hwalk]
  rfl

end LocalFolder

/-! ## Remote paths -/

theorem replaceBackslash_eq_self_iff (t : Text) : replaceBackslash t = t ↔ '\\' ∉ t := by
  unfold replaceBackslash
  constructor
  · intro h hmem
    rw [← h] at hmem
    obtain ⟨c, -, hc⟩ := List.mem_map.1 hmem
    split at hc
    · cases hc
    · next hne => exact hne hc
  · intro h
    apply (List.map_congr_left ?_).trans (List.map_id t)
    intro c hc
    apply if_neg
    intro hback
    exact h (hback ▸ hc)

/-- A letter of a name is one of the joined path. -/
theorem mem_joinSegments_of_mem {names : List Text} {name : Text} {c : Char} (hc : c ∈ name)
    (h : name ∈ names) : c ∈ joinSegments names := by
  induction names with
  | nil => cases h
  | cons first rest ih =>
      by_cases hrest : rest = []
      · subst hrest
        rw [List.mem_singleton.1 h] at hc
        exact hc
      · rw [joinSegments, join_cons '/' first hrest, List.mem_append]
        rcases List.mem_cons.1 h with rfl | h
        · exact .inl hc
        · exact .inr (List.mem_cons_of_mem _ (ih h))

theorem backslash_not_mem_iff (names : List Text) :
    '\\' ∉ joinSegments names ↔ ∀ name ∈ names, '\\' ∉ name := by
  constructor
  · intro h name hname hback
    exact h (mem_joinSegments_of_mem hback hname)
  · intro h hback
    rcases mem_joinSegments hback with hslash | ⟨name, hname, hback⟩
    · cases hslash
    · exact h name hname hback

/-- What a file's remote path is. -/
theorem remotePath_path (folder : LocalFolder) (remoteDir : Text) (names : List Text) :
    remotePath folder.root remoteDir (folder.path names) =
      if remoteDir = [] then replaceBackslash (joinSegments names)
      else trimSlashes remoteDir ++ '/' :: replaceBackslash (joinSegments names) := by
  have hstrip : stripRoot folder.root (folder.path names) = names.map .normal := by
    unfold stripRoot LocalFolder.path
    rw [if_pos (List.prefix_append _ _), List.drop_left]
  have htext : FsPath.text (names.map .normal) = joinSegments names := by
    have hne : names.map Component.normal ≠ [.rootDir] := by
      intro h
      cases names with
      | nil => cases h
      | cons name rest => cases (List.cons.inj h).1
    have hnames : (Component.text ∘ Component.normal) = id := rfl
    unfold FsPath.text
    rw [if_neg hne, List.map_map, hnames, List.map_id]
  unfold remotePath
  rw [hstrip, htext]

/-- **A remote path is the joined one exactly if no name has a backslash.** -/
theorem remotePath_eq_joinUnder_iff (folder : LocalFolder) (remoteDir : Text)
    (names : List Text) :
    remotePath folder.root remoteDir (folder.path names) = joinUnder remoteDir names ↔
      ∀ name ∈ names, '\\' ∉ name := by
  rw [remotePath_path, joinUnder, ← backslash_not_mem_iff, ← replaceBackslash_eq_self_iff]
  split
  · rfl
  · constructor
    · intro h
      exact (List.cons.inj (List.append_cancel_left h)).2
    · intro h
      rw [h]

theorem joinUnder_injective {remoteDir : Text} {names names' : List Text}
    (h : ∀ name ∈ names, PlainSegment name) (h' : ∀ name ∈ names', PlainSegment name)
    (heq : joinUnder remoteDir names = joinUnder remoteDir names') : names = names' := by
  have hjoin : joinSegments names = joinSegments names' := by
    unfold joinUnder at heq
    split at heq
    · exact heq
    · exact (List.cons.inj (List.append_cancel_left heq)).2
  exact join_injective '/' (isSegment_of_plain h) (isSegment_of_plain h') hjoin

/-- Paths on both sides of a slash. -/
theorem pathSegments_slash (s t : Text) :
    pathSegments (s ++ '/' :: t) = pathSegments s ++ pathSegments t := by
  unfold pathSegments
  rw [List.splitOn_append_cons_self, List.filter_append]

theorem pathSegments_of_slashes {t : Text} (h : ∀ c ∈ t, c = '/') : pathSegments t = [] := by
  induction t with
  | nil => rfl
  | cons c t ih =>
      rw [h c List.mem_cons_self]
      exact (pathSegments_slash [] t).trans (ih fun d hd => h d (List.mem_cons_of_mem c hd))

theorem pathSegments_append_slashes {s t : Text} (h : ∀ c ∈ t, c = '/') :
    pathSegments (s ++ t) = pathSegments s := by
  cases t with
  | nil => rw [List.append_nil]
  | cons c t =>
      rw [h c List.mem_cons_self, pathSegments_slash,
        pathSegments_of_slashes fun d hd => h d (List.mem_cons_of_mem c hd), List.append_nil]

/-- Slashes around a path do not matter. -/
theorem pathSegments_trimSlashes (t : Text) : pathSegments (trimSlashes t) = pathSegments t := by
  have hstart : pathSegments (trimStartSlashes t) = pathSegments t := by
    unfold trimStartSlashes
    induction t with
    | nil => rfl
    | cons c t ih =>
        rw [List.dropWhile_cons]
        split
        · next hc =>
            rw [ih, of_decide_eq_true hc]
            exact (pathSegments_slash [] t).symm
        · rfl
  have hend : ∀ s : Text, pathSegments (s.reverse.dropWhile (· = '/')).reverse =
      pathSegments s := by
    intro s
    have hcut : s = (s.reverse.dropWhile (· = '/')).reverse ++
        (s.reverse.takeWhile (· = '/')).reverse := by
      rw [← List.reverse_append, List.takeWhile_append_dropWhile, List.reverse_reverse]
    have hslashes : ∀ c ∈ (s.reverse.takeWhile (· = '/')).reverse, c = '/' := by
      intro c hc
      have hslash := List.mem_takeWhile_imp (List.mem_reverse.1 hc)
      exact of_decide_eq_true hslash
    rw [← pathSegments_append_slashes hslashes, ← hcut]
  unfold trimSlashes
  rw [hend, hstart]

/-- **The segments of the joined path are the directory's and the file's.** -/
theorem pathSegments_joinUnder {remoteDir : Text} {names : List Text} (hne : names ≠ [])
    (h : ∀ name ∈ names, PlainSegment name) :
    pathSegments (joinUnder remoteDir names) = pathSegments remoteDir ++ names := by
  have hnames : pathSegments (joinSegments names) = names := by
    unfold pathSegments
    rw [splitOn_join '/' (isSegment_of_plain h) hne]
    apply List.filter_eq_self.2
    intro name hname
    exact decide_eq_true (h name hname).nonempty
  unfold joinUnder
  split
  · next hempty =>
      rw [hnames, hempty]
      rfl
  · rw [pathSegments_slash, pathSegments_trimSlashes, hnames]

/-! ## The folder's upload -/

theorem uploadFolder_eq_ok {folder : LocalFolder} {remoteDir : Text} {fuel : Nat}
    {assigned : List (FsPath × Text)}
    (h : uploadFolder folder.readDir fuel folder.root remoteDir = some (.ok assigned)) :
    ∃ files, walkFiles folder.readDir fuel folder.root = some (.ok files) ∧
      assigned = files.map fun entry => (entry, remotePath folder.root remoteDir entry) := by
  unfold uploadFolder at h
  rw [Option.map_eq_some_iff] at h
  obtain ⟨r, hwalk, hr⟩ := h
  cases r with
  | error e => cases hr
  | ok files =>
      cases hr
      exact ⟨files, hwalk, rfl⟩

/-- Where no file has a backslash in its path, the files are kept apart. -/
theorem apart_of_no_backslash {folder : LocalFolder} {remoteDir : Text} {fuel : Nat}
    {assigned : List (FsPath × Text)}
    (h : uploadFolder folder.readDir fuel folder.root remoteDir = some (.ok assigned))
    (hback : ∀ names, folder.FileAt names → ∀ name ∈ names, '\\' ∉ name) :
    Apart folder remoteDir assigned := by
  obtain ⟨files, hwalk, rfl⟩ := uploadFolder_eq_ok h
  obtain ⟨-, hnodup, hfiles⟩ := LocalFolder.walkFiles_spec hwalk
  have hfst : (files.map fun entry =>
      (entry, remotePath folder.root remoteDir entry)).map Prod.fst = files := by
    rw [List.map_map]
    exact List.map_id files
  constructor
  · intro p
    rw [← hfiles p]
    simp
  · rw [hfst]
    exact hnodup
  · rw [List.map_map]
    apply List.Nodup.map_on _ hnodup
    intro p hp q hq heq
    obtain ⟨names, hname, rfl⟩ := (hfiles p).1 hp
    obtain ⟨names', hname', rfl⟩ := (hfiles q).1 hq
    have hremote : joinUnder remoteDir names = joinUnder remoteDir names' := by
      rw [← (remotePath_eq_joinUnder_iff folder remoteDir names).2 (hback names hname),
        ← (remotePath_eq_joinUnder_iff folder remoteDir names').2 (hback names' hname')]
      exact heq
    rw [joinUnder_injective hname.plain.2 hname'.plain.2 hremote]
  · intro names remote hmem
    obtain ⟨entry, hentry, hpair⟩ := List.mem_map.1 hmem
    cases hpair
    obtain ⟨names', hname, hpath⟩ := (hfiles _).1 hentry
    obtain rfl := LocalFolder.path_injective hpath
    rw [(remotePath_eq_joinUnder_iff folder remoteDir names).2 (hback names hname)]
    exact ⟨rfl, pathSegments_joinUnder hname.plain.1 hname.plain.2⟩

/-- **A folder's files never merge exactly if the folder cannot be read, or no regular file in
it has a backslash in its path.** -/
theorem upload_never_merges_iff (folder : LocalFolder) (remoteDir : Text) :
    NeverMerges folder remoteDir ↔
      (folder.Readable → ∀ names, folder.FileAt names → ∀ name ∈ names, '\\' ∉ name) := by
  constructor
  · intro hall hread names hname
    obtain ⟨fuel, files, hwalk⟩ := LocalFolder.walkFiles_of_readable hread
    obtain ⟨-, -, hfiles⟩ := LocalFolder.walkFiles_spec hwalk
    have hupload : uploadFolder folder.readDir fuel folder.root remoteDir =
        some (.ok (files.map fun entry =>
          (entry, remotePath folder.root remoteDir entry))) := by
      unfold uploadFolder
      rw [hwalk]
      rfl
    have hmem := List.mem_map_of_mem (f := fun entry =>
      (entry, remotePath folder.root remoteDir entry)) ((hfiles _).2 ⟨names, hname, rfl⟩)
    have hjoined := ((hall.apart _ _ hupload).joined names _ hmem).1
    exact (remotePath_eq_joinUnder_iff folder remoteDir names).1 hjoined
  · intro hback
    constructor
    · obtain ⟨fuel, r, hwalk⟩ := folder.walkFiles_ends
      exact ⟨fuel, _, congrArg _ hwalk⟩
    · intro fuel assigned h
      obtain ⟨files, hwalk, -⟩ := uploadFolder_eq_ok h
      exact apart_of_no_backslash h (hback (LocalFolder.walkFiles_spec hwalk).1)

/-! ## A file with a backslash in its name -/

def mergedRoot : FsPath := [.normal "src".toList]

/-- A file `a\b` beside a directory `a` with a file `b`. -/
def mergedReadDir : ReadDir := fun dir =>
  if dir = mergedRoot then
    .ok [.ok ⟨"a\\b".toList, .ok .file⟩, .ok ⟨"a".toList, .ok .dir⟩]
  else if dir = mergedRoot ++ [.normal "a".toList] then .ok [.ok ⟨"b".toList, .ok .file⟩]
  else .error "No such file or directory".toList

theorem mergedReadDir_eq_ok {dir : FsPath} {entries : List (Except Text LocalDirEntry)}
    (h : mergedReadDir dir = .ok entries) :
    (dir = mergedRoot ∧
      entries = [.ok ⟨"a\\b".toList, .ok .file⟩, .ok ⟨"a".toList, .ok .dir⟩]) ∨
    (dir = mergedRoot ++ [.normal "a".toList] ∧ entries = [.ok ⟨"b".toList, .ok .file⟩]) := by
  unfold mergedReadDir at h
  split at h
  · next hroot =>
      cases h
      exact .inl ⟨hroot, rfl⟩
  · split at h
    · next hdir =>
        cases h
        exact .inr ⟨hdir, rfl⟩
    · cases h

def mergedFolder : LocalFolder where
  root := mergedRoot
  readDir := mergedReadDir
  plain := by
    have hplain : ∀ name ∈ ["a\\b".toList, "a".toList, "b".toList], PlainSegment name := by
      intro name hname
      simp only [List.mem_cons, List.not_mem_nil, or_false] at hname
      rcases hname with rfl | rfl | rfl <;> constructor <;> decide
    intro dir entries entry hread hmem
    apply hplain
    rcases mergedReadDir_eq_ok hread with ⟨-, rfl⟩ | ⟨-, rfl⟩
    · simp only [List.mem_cons, List.not_mem_nil, or_false, Except.ok.injEq] at hmem
      rcases hmem with rfl | rfl
      · exact List.mem_cons_self
      · exact List.mem_cons_of_mem _ List.mem_cons_self
    · simp only [List.mem_singleton, Except.ok.injEq] at hmem
      rw [hmem]
      exact List.mem_cons_of_mem _ (List.mem_cons_of_mem _ List.mem_cons_self)
  distinct := by
    intro dir entries hread
    rcases mergedReadDir_eq_ok hread with ⟨-, rfl⟩ | ⟨-, rfl⟩ <;> decide
  finite := by
    have hfinite : {dir | dir = mergedRoot ∨
        dir = mergedRoot ++ [Component.normal "a".toList]}.Finite :=
      Set.toFinite {mergedRoot, mergedRoot ++ [Component.normal "a".toList]}
    apply hfinite.subset
    intro dir hdir
    induction hdir with
    | root => exact .inl rfl
    | @child dir entries entry _ hread hmem htype ih =>
        rcases mergedReadDir_eq_ok hread with ⟨rfl, rfl⟩ | ⟨rfl, rfl⟩
        · simp only [List.mem_cons, List.not_mem_nil, or_false, Except.ok.injEq] at hmem
          rcases hmem with rfl | rfl
          · cases htype
          · exact .inr rfl
        · simp only [List.mem_singleton, Except.ok.injEq] at hmem
          rw [hmem] at htype
          cases htype

/-- Both files of the folder are uploaded to `a/b`. -/
theorem backslash_merges_files :
    ¬ ∀ (folder : LocalFolder) (remoteDir : Text), NeverMerges folder remoteDir := by
  intro hall
  have hupload : uploadFolder mergedReadDir 3 mergedRoot [] = some (.ok
      [(mergedRoot ++ [.normal "a".toList, .normal "b".toList], "a/b".toList),
        (mergedRoot ++ [.normal "a\\b".toList], "a/b".toList)]) := by
    decide +kernel
  have hdistinct := ((hall mergedFolder []).apart 3 _ hupload).distinct
  exact absurd hdistinct (by decide)

end Libfw

import Libfw.NativeDownload
import Mathlib.Data.Char
import Mathlib.Data.List.Lex
import Mathlib.Data.List.Sort

/-!
# Remote folders

A remote tree, as the server lists it directory by directory, and
`collect_remote_files` of `libfw-client/src/native/mod.rs`, which walks it.

`collectRemoteFiles_spec`: the walk finds every file below the directory, only files of the
tree, and none twice.
-/

namespace Libfw

open SegmentPaths

/-! ## Trees -/

/-- An entry of a remote tree: a directory, or a file with its version. -/
structure RemoteEntry where
  path : Text
  file : Option Remote

/-- A file that is to be downloaded. -/
structure FolderFile where
  path : Text
  remote : Remote

def RemoteEntry.folderFile (e : RemoteEntry) : Option FolderFile :=
  e.file.map fun remote => ⟨e.path, remote⟩

/-- The directory an entry is listed in. -/
def parentPath (path : Text) : Text := joinSegments (segments path).dropLast

/-- A finite remote tree: its listed paths are canonical and pairwise distinct, and each is
listed in the root or in a directory of the tree. -/
structure RemoteTree where
  entries : List RemoteEntry
  canonical : ∀ {e : RemoteEntry}, e ∈ entries → Canonical e.path ∧ e.path ≠ []
  distinct : (entries.map RemoteEntry.path).Nodup
  placed : ∀ {e : RemoteEntry}, e ∈ entries →
    parentPath e.path = [] ∨ ⟨parentPath e.path, none⟩ ∈ entries

/-- The path lies below the directory. -/
def Under (dir path : Text) : Prop := segments dir <+: segments path ∧ segments path ≠ segments dir

instance (dir path : Text) : Decidable (Under dir path) := inferInstanceAs (Decidable (_ ∧ _))

namespace RemoteTree

variable (tree : RemoteTree)

/-- The files of the tree. -/
def files : List FolderFile := tree.entries.filterMap RemoteEntry.folderFile

/-- The files below a directory. -/
def filesUnder (dir : Text) : List FolderFile := tree.files.filter fun f => Under dir f.path

/-- The immediate children of a directory. -/
def children (dir : Text) : List RemoteEntry :=
  tree.entries.filter fun e => parentPath e.path = dir

/-- `list_dir`: what the server answers, unless the request fails. -/
def listDir (fails : Text → Option ClientError) (dir : Text) :
    Except ClientError (List RemoteEntry) :=
  match fails dir with
  | some e => .error e
  | none =>
      match validateRelPath dir with
      | .ok dir => .ok (tree.children dir)
      | .error _ => .error (.http 400)

end RemoteTree

/-! ## The walk -/

/-- `validate_relative`. -/
def validateRelative (path : Text) : Except ClientError Unit :=
  if path.head? = some '/' then
    .error (.protocol ("server returned an absolute path: `".toList ++ path ++ "`".toList))
  else if (path.splitOn '/').any fun seg => seg = ['.', '.'] || '\\' ∈ seg then
    .error (.protocol ("refusing unsafe path from server: `".toList ++ path ++ "`".toList))
  else .ok ()

/-- The entries of one listing: directories are pushed, files kept. -/
def takeEntries : List RemoteEntry → List Text → List FolderFile →
    Except ClientError (List Text × List FolderFile)
  | [], stack, out => .ok (stack, out)
  | entry :: rest, stack, out =>
      match validateRelative entry.path with
      | .error e => .error e
      | .ok _ =>
          match entry.file with
          | none => takeEntries rest (entry.path :: stack) out
          | some remote => takeEntries rest stack (out ++ [⟨entry.path, remote⟩])

/-- `out.sort_by(|a, b| a.path.cmp(&b.path))`. -/
def sortByPath (files : List FolderFile) : List FolderFile :=
  files.insertionSort fun a b => a.path ≤ b.path

/-- The loop of `collect_remote_files`, for a number of directories. -/
def collectFrom (list : Text → Except ClientError (List RemoteEntry)) :
    Nat → List Text → List FolderFile → Option (Except ClientError (List FolderFile))
  | 0, _, _ => none
  | _ + 1, [], out => some (.ok (sortByPath out))
  | fuel + 1, current :: stack, out =>
      match list current with
      | .error e => some (.error e)
      | .ok entries =>
          match takeEntries entries stack out with
          | .error e => some (.error e)
          | .ok (stack, out) => collectFrom list fuel stack out

/-- `collect_remote_files`. -/
def collectRemoteFiles (list : Text → Except ClientError (List RemoteEntry)) (fuel : Nat)
    (dir : Text) : Option (Except ClientError (List FolderFile)) :=
  collectFrom list fuel [dir] []

theorem mem_sortByPath {files : List FolderFile} {f : FolderFile} :
    f ∈ sortByPath files ↔ f ∈ files := List.mem_insertionSort _

theorem takeEntries_eq_ok {entries : List RemoteEntry} {stack stack' : List Text}
    {out out' : List FolderFile} (h : takeEntries entries stack out = .ok (stack', out')) :
    stack' = ((entries.filter fun e => e.file.isNone).map RemoteEntry.path).reverse ++ stack ∧
      out' = out ++ entries.filterMap RemoteEntry.folderFile := by
  induction entries generalizing stack out with
  | nil =>
      cases h
      simp
  | cons entry rest ih =>
      rw [takeEntries] at h
      split at h
      · cases h
      · cases hfile : entry.file with
        | none =>
            rw [hfile] at h
            obtain ⟨hstack, hout⟩ := ih h
            simp [hstack, hout, hfile, RemoteEntry.folderFile]
        | some remote =>
            rw [hfile] at h
            obtain ⟨hstack, hout⟩ := ih h
            simp [hstack, hout, hfile, RemoteEntry.folderFile]

/-! ## Directories and their children -/

namespace RemoteTree

variable {tree : RemoteTree} {dir : Text} {e : RemoteEntry}

theorem mem_files {f : FolderFile} : f ∈ tree.files ↔ ⟨f.path, some f.remote⟩ ∈ tree.entries := by
  unfold files
  rw [List.mem_filterMap]
  constructor
  · intro h
    obtain ⟨e, he, hf⟩ := h
    obtain ⟨remote, hremote, rfl⟩ := Option.map_eq_some_iff.1 hf
    rw [← hremote]
    exact he
  · intro h
    exact ⟨_, h, rfl⟩

theorem mem_filesUnder {f : FolderFile} :
    f ∈ tree.filesUnder dir ↔ f ∈ tree.files ∧ Under dir f.path := by
  unfold filesUnder
  rw [List.mem_filter, decide_eq_true_iff]

/-- Entries with one path are one entry. -/
theorem eq_of_path_eq {e' : RemoteEntry} (he : e ∈ tree.entries) (he' : e' ∈ tree.entries)
    (h : e.path = e'.path) : e = e' :=
  List.inj_on_of_nodup_map tree.distinct he he' h

/-- A child's segments are its directory's and one more. -/
theorem mem_children :
    e ∈ tree.children dir ↔ e ∈ tree.entries ∧ ∃ x, segments e.path = segments dir ++ [x] := by
  unfold children
  rw [List.mem_filter, decide_eq_true_iff]
  refine and_congr_right ?_
  intro he
  obtain ⟨hcanon, hne⟩ := tree.canonical he
  have hsegs : segments e.path ≠ [] := by
    intro hnil
    apply hne
    rw [← joinSegments_segments e.path, hnil]
    rfl
  constructor
  · intro hparent
    refine ⟨(segments e.path).getLast hsegs, ?_⟩
    have hdrop : segments dir = (segments e.path).dropLast := by
      rw [← hparent, parentPath, segments_joinSegments]
      intro seg hseg
      exact isSegment_of_plain hcanon.plainSegments seg (List.mem_of_mem_dropLast hseg)
    rw [hdrop, List.dropLast_append_getLast hsegs]
  · intro h
    obtain ⟨x, hx⟩ := h
    rw [parentPath, hx, List.dropLast_concat, joinSegments_segments]

/-- Every proper beginning of a listed path is a directory of the tree. -/
theorem dir_mem_entries {us rest : List Text} {v : Text} (he : e ∈ tree.entries)
    (hsegs : segments e.path = us ++ v :: rest) (hne : rest ≠ []) :
    ⟨joinSegments (us ++ [v]), none⟩ ∈ tree.entries := by
  induction rest using List.reverseRecOn generalizing e with
  | nil => exact absurd rfl hne
  | append_singleton rest x ih =>
      have hparent : parentPath e.path = joinSegments (us ++ v :: rest) := by
        rw [parentPath, hsegs, ← List.cons_append, ← List.append_assoc, List.dropLast_concat]
      have hplain : ∀ s ∈ us ++ v :: rest, IsSegment '/' s := by
        intro s hs
        apply isSegment_of_plain (tree.canonical he).1.plainSegments
        rw [hsegs, ← List.cons_append, ← List.append_assoc]
        exact List.mem_append_left _ hs
      have hplaced : ⟨parentPath e.path, none⟩ ∈ tree.entries := by
        rcases tree.placed he with hroot | hplaced
        · rw [hparent, joinSegments, join_eq_nil_iff '/' hplain] at hroot
          cases us with
          | nil => cases hroot
          | cons u us => cases hroot
        · exact hplaced
      rw [hparent] at hplaced
      by_cases hrest : rest = []
      · rw [hrest] at hplaced
        exact hplaced
      · exact ih hplaced (segments_joinSegments hplain) hrest

/-- What lies below a directory is a child, or lies below a child. -/
theorem child_or_under {f : FolderFile} (hf : f ∈ tree.filesUnder dir) :
    f ∈ (tree.children dir).filterMap RemoteEntry.folderFile ∨
      ∃ c, ⟨c, none⟩ ∈ tree.children dir ∧ f ∈ tree.filesUnder c := by
  obtain ⟨hmem, ⟨more, hmore⟩, hne⟩ := mem_filesUnder.1 hf
  have hentry := mem_files.1 hmem
  cases more with
  | nil =>
      rw [List.append_nil] at hmore
      exact absurd hmore.symm hne
  | cons v rest =>
      by_cases hrest : rest = []
      · left
        subst hrest
        exact List.mem_filterMap.2 ⟨_, mem_children.2 ⟨hentry, v, hmore.symm⟩, rfl⟩
      · right
        have hplain : ∀ s ∈ segments dir ++ [v], IsSegment '/' s := by
          intro s hs
          apply isSegment_of_plain (tree.canonical hentry).1.plainSegments
          rw [← hmore, ← List.singleton_append, ← List.append_assoc]
          exact List.mem_append_left _ hs
        have hsegs := segments_joinSegments hplain
        refine ⟨joinSegments (segments dir ++ [v]), ?_, ?_⟩
        · exact mem_children.2 ⟨dir_mem_entries hentry hmore.symm hrest, v, hsegs⟩
        · refine mem_filesUnder.2 ⟨hmem, ?_, ?_⟩
          · rw [hsegs, ← hmore]
            exact ⟨rest, by simp⟩
          · rw [hsegs, ← hmore]
            simpa using hrest

/-! ## The walk finds every file once -/

theorem nodup_files : tree.files.Nodup := by
  have hpaths : (tree.files.map FolderFile.path).Nodup := by
    have hmap : ∀ entries : List RemoteEntry,
        ((entries.filterMap RemoteEntry.folderFile).map FolderFile.path).Sublist
          (entries.map RemoteEntry.path) := by
      intro entries
      induction entries with
      | nil => exact List.Sublist.refl _
      | cons e rest ih =>
          cases hfile : e.file with
          | none =>
              have hnone : e.folderFile = none := by simp [RemoteEntry.folderFile, hfile]
              rw [List.filterMap_cons_none hnone]
              exact ih.cons _
          | some remote =>
              have hsome : e.folderFile = some ⟨e.path, remote⟩ := by
                simp [RemoteEntry.folderFile, hfile]
              rw [List.filterMap_cons_some hsome]
              exact ih.cons_cons _
    exact (hmap tree.entries).nodup tree.distinct
  exact hpaths.of_map

/-- A file below two directories that are listed together: they are one. -/
theorem eq_of_under {c c' : Text} {f : FolderFile} (hc : ⟨c, none⟩ ∈ tree.children dir)
    (hc' : ⟨c', none⟩ ∈ tree.children dir) (hf : f ∈ tree.filesUnder c)
    (hf' : f ∈ tree.filesUnder c') : c = c' := by
  obtain ⟨-, x, hx⟩ := mem_children.1 hc
  obtain ⟨-, y, hy⟩ := mem_children.1 hc'
  obtain ⟨-, hpre, -⟩ := mem_filesUnder.1 hf
  obtain ⟨-, hpre', -⟩ := mem_filesUnder.1 hf'
  dsimp only at hx hy
  have hlen : (segments c).length = (segments c').length := by
    rw [hx, hy, List.length_append, List.length_append]
    rfl
  have hsegs := (List.prefix_of_prefix_length_le hpre hpre' (Nat.le_of_eq hlen)).eq_of_length hlen
  rw [← joinSegments_segments c, hsegs, joinSegments_segments]

/-- The directories listed in a directory, as the walk pushes them. -/
def childDirs (tree : RemoteTree) (dir : Text) : List Text :=
  (((tree.children dir).filter fun e => e.file.isNone).map RemoteEntry.path).reverse

/-- The files listed in a directory. -/
def childFiles (tree : RemoteTree) (dir : Text) : List FolderFile :=
  (tree.children dir).filterMap RemoteEntry.folderFile

/-- The files of a directory, and those below its directories. -/
def spread (tree : RemoteTree) (dir : Text) : List FolderFile :=
  tree.childFiles dir ++ (tree.childDirs dir).flatMap tree.filesUnder

theorem mem_childDirs {c : Text} :
    c ∈ tree.childDirs dir ↔ ⟨c, none⟩ ∈ tree.children dir := by
  unfold childDirs
  rw [List.mem_reverse, List.mem_map]
  constructor
  · intro h
    obtain ⟨⟨path, file⟩, he, rfl⟩ := h
    obtain ⟨hmem, hnone⟩ := List.mem_filter.1 he
    cases file with
    | none => exact hmem
    | some remote => cases hnone
  · intro h
    exact ⟨_, List.mem_filter.2 ⟨h, rfl⟩, rfl⟩

theorem mem_spread {f : FolderFile} : f ∈ tree.spread dir ↔
    f ∈ tree.childFiles dir ∨ ∃ c, ⟨c, none⟩ ∈ tree.children dir ∧ f ∈ tree.filesUnder c := by
  unfold spread
  rw [List.mem_append, List.mem_flatMap]
  refine or_congr_right ⟨?_, ?_⟩
  · intro h
    obtain ⟨c, hc, hf⟩ := h
    exact ⟨c, mem_childDirs.1 hc, hf⟩
  · intro h
    obtain ⟨c, hc, hf⟩ := h
    exact ⟨c, mem_childDirs.2 hc, hf⟩

/-- Of a child that is a file, its directory's segments and one more. -/
theorem segments_of_child {f : FolderFile} (hf : f ∈ tree.childFiles dir) :
    f ∈ tree.files ∧ ∃ x, segments f.path = segments dir ++ [x] := by
  obtain ⟨e, he, hfile⟩ := List.mem_filterMap.1 hf
  obtain ⟨hmem, hx⟩ := mem_children.1 he
  obtain ⟨remote, -, rfl⟩ := Option.map_eq_some_iff.1 hfile
  exact ⟨List.mem_filterMap.2 ⟨e, hmem, hfile⟩, hx⟩

theorem spread_subset : tree.spread dir ⊆ tree.filesUnder dir := by
  intro f hf
  rcases mem_spread.1 hf with hchild | ⟨c, hc, hf⟩
  · obtain ⟨hmem, x, hx⟩ := segments_of_child hchild
    refine mem_filesUnder.2 ⟨hmem, ?_, ?_⟩
    · rw [hx]
      exact List.prefix_append _ _
    · rw [hx]
      simp
  · obtain ⟨-, x, hx⟩ := mem_children.1 hc
    obtain ⟨hmem, hpre, hne⟩ := mem_filesUnder.1 hf
    dsimp only at hx
    have hstart : segments dir <+: segments c := by
      rw [hx]
      exact List.prefix_append _ _
    refine mem_filesUnder.2 ⟨hmem, hstart.trans hpre, ?_⟩
    intro heq
    have hlen := hpre.length_le
    rw [heq, hx, List.length_append, List.length_singleton] at hlen
    omega

theorem nodup_spread : (tree.spread dir).Nodup := by
  have hfiles : (tree.childFiles dir).Nodup :=
    (List.filter_sublist.filterMap _).nodup nodup_files
  have hdirs : (tree.childDirs dir).Nodup := by
    unfold childDirs
    rw [List.nodup_reverse]
    exact ((List.filter_sublist.trans List.filter_sublist).map RemoteEntry.path).nodup
      tree.distinct
  unfold spread
  rw [List.nodup_append']
  refine ⟨hfiles, ?_, ?_⟩
  · rw [List.nodup_flatMap]
    refine ⟨fun c _ => nodup_files.filter _, ?_⟩
    apply hdirs.imp_of_mem
    intro c c' hc hc' hne f hf hf'
    exact hne (eq_of_under (mem_childDirs.1 hc) (mem_childDirs.1 hc') hf hf')
  · intro f hf hbelow
    obtain ⟨c, hc, hunder⟩ := List.mem_flatMap.1 hbelow
    obtain ⟨-, x, hx⟩ := segments_of_child hf
    obtain ⟨-, y, hy⟩ := mem_children.1 (mem_childDirs.1 hc)
    obtain ⟨-, hpre, hne⟩ := mem_filesUnder.1 hunder
    dsimp only at hy
    apply hne
    symm
    apply hpre.eq_of_length
    rw [hx, hy, List.length_append, List.length_append]
    rfl

/-- What the walk still has to find in a directory it is told. -/
def below (tree : RemoteTree) (dir : Text) : List FolderFile :=
  match validateRelPath dir with
  | .ok dir => tree.filesUnder dir
  | .error _ => []

theorem below_of_canonical (h : Canonical dir) : tree.below dir = tree.filesUnder dir := by
  unfold below
  rw [show validateRelPath dir = .ok dir from h]

theorem listDir_eq_ok {fails : Text → Option ClientError} {entries : List RemoteEntry}
    (h : tree.listDir fails dir = .ok entries) :
    ∃ d, tree.below dir = tree.filesUnder d ∧ entries = tree.children d := by
  unfold listDir at h
  split at h
  · cases h
  · split at h
    · next d hd =>
        cases h
        refine ⟨d, ?_, rfl⟩
        unfold below
        rw [hd]
    · cases h

/-- One directory: what was below it is now found, or below what has been pushed. -/
theorem flatMap_below (d : Text) (stack : List Text) (out : List FolderFile) :
    out ++ tree.childFiles d ++ (tree.childDirs d ++ stack).flatMap tree.below =
      out ++ (tree.spread d ++ stack.flatMap tree.below) := by
  have hdirs : (tree.childDirs d).flatMap tree.below =
      (tree.childDirs d).flatMap tree.filesUnder := by
    apply List.flatMap_congr
    intro c hc
    obtain ⟨hmem, -⟩ := mem_children.1 (mem_childDirs.1 hc)
    exact below_of_canonical (tree.canonical hmem).1
  rw [List.flatMap_append, hdirs]
  unfold spread
  simp only [List.append_assoc]

/-- What is listed in a directory, as the walk takes it. -/
theorem takeEntries_children {d : Text} {stack stack' : List Text} {out out' : List FolderFile}
    (h : takeEntries (tree.children d) stack out = .ok (stack', out')) :
    stack' = tree.childDirs d ++ stack ∧ out' = out ++ tree.childFiles d := takeEntries_eq_ok h

/-- **What the walk has found or still has to find, it ends with.** -/
theorem collectFrom_spec {fails : Text → Option ClientError} {fuel : Nat} {stack : List Text}
    {out found : List FolderFile}
    (h : collectFrom (tree.listDir fails) fuel stack out = some (.ok found)) :
    (∀ f ∈ out ++ stack.flatMap tree.below, f ∈ found) ∧
      ((out ++ stack.flatMap tree.below).Nodup → found.Nodup) ∧
      (out ⊆ tree.files → found ⊆ tree.files) := by
  induction fuel generalizing stack out with
  | zero => cases h
  | succ fuel ih =>
      cases stack with
      | nil =>
          cases h
          rw [List.flatMap_nil, List.append_nil]
          refine ⟨fun f hf => mem_sortByPath.2 hf, ?_, fun hsub f hf => hsub (mem_sortByPath.1 hf)⟩
          exact (List.perm_insertionSort _ out).nodup_iff.2
      | cons current stack =>
          rw [collectFrom] at h
          split at h
          · cases h
          · next entries hentries =>
              split at h
              · cases h
              · next stack' out' htake =>
                  obtain ⟨d, hbelow, rfl⟩ := listDir_eq_ok hentries
                  obtain ⟨hstack, hout⟩ := takeEntries_children htake
                  obtain ⟨hall, hnodup, hsub⟩ := ih h
                  rw [hstack, hout, flatMap_below] at hall hnodup
                  rw [List.flatMap_cons, hbelow]
                  refine ⟨?_, ?_, ?_⟩
                  · intro f hf
                    apply hall
                    rcases List.mem_append.1 hf with hf | hf
                    · exact List.mem_append_left _ hf
                    · apply List.mem_append_right
                      rcases List.mem_append.1 hf with hf | hf
                      · exact List.mem_append_left _ (mem_spread.2 (child_or_under hf))
                      · exact List.mem_append_right _ hf
                  · intro hold
                    apply hnodup
                    obtain ⟨hout', hrest, hdisjoint⟩ := List.nodup_append'.1 hold
                    obtain ⟨hunder, hstack', hdisjoint'⟩ := List.nodup_append'.1 hrest
                    have hgrow : tree.spread d ++ stack.flatMap tree.below ⊆
                        tree.filesUnder d ++ stack.flatMap tree.below := by
                      intro f hf
                      exact (List.mem_append.1 hf).elim
                        (fun hf => List.mem_append_left _ (spread_subset hf))
                        (List.mem_append_right _)
                    refine List.nodup_append'.2 ⟨hout', ?_, ?_⟩
                    · exact List.nodup_append'.2 ⟨nodup_spread, hstack',
                        fun f hf => hdisjoint' (spread_subset hf)⟩
                    · intro f hf hg
                      exact hdisjoint hf (hgrow hg)
                  · intro hold
                    apply hsub
                    rw [hout]
                    intro f hf
                    rcases List.mem_append.1 hf with hf | hf
                    · exact hold hf
                    · exact (segments_of_child hf).1

/-- **The walk finds every file below the directory, only files of the tree, and none
twice.** -/
theorem collectRemoteFiles_spec {fails : Text → Option ClientError} {fuel : Nat}
    {found : List FolderFile}
    (h : collectRemoteFiles (tree.listDir fails) fuel dir = some (.ok found)) :
    (∀ f ∈ tree.below dir, f ∈ found) ∧ found.Nodup ∧ found ⊆ tree.files := by
  obtain ⟨hall, hnodup, hsub⟩ := collectFrom_spec h
  rw [List.nil_append, List.flatMap_singleton] at hall hnodup
  refine ⟨hall, hnodup ?_, hsub (List.nil_subset _)⟩
  unfold below
  split
  · exact nodup_files.filter _
  · exact List.nodup_nil

/-- Files with one path are one file. -/
theorem file_eq_of_path_eq {f g : FolderFile} (hf : f ∈ tree.files) (hg : g ∈ tree.files)
    (h : f.path = g.path) : f = g := by
  have hentry := eq_of_path_eq (mem_files.1 hf) (mem_files.1 hg) h
  obtain ⟨path, remote⟩ := f
  cases hentry
  rfl

/-- Nothing is listed below a file. -/
theorem not_under_file {f g : FolderFile} (hf : f ∈ tree.files) (hg : g ∈ tree.files) :
    ¬ Under f.path g.path := by
  intro h
  obtain ⟨⟨more, hmore⟩, hne⟩ := h
  have hentry := mem_files.1 hf
  obtain ⟨hcanon, hpath⟩ := tree.canonical hentry
  have hmore' : more ≠ [] := by
    rintro rfl
    rw [List.append_nil] at hmore
    exact hne hmore.symm
  have hsegs : segments f.path ≠ [] := by
    intro hnil
    apply hpath
    rw [← joinSegments_segments f.path, hnil]
    rfl
  have hlast : segments g.path =
      (segments f.path).dropLast ++ (segments f.path).getLast hsegs :: more := by
    rw [← hmore, ← List.singleton_append, ← List.append_assoc,
      List.dropLast_append_getLast hsegs]
  have hdir := dir_mem_entries (mem_files.1 hg) hlast hmore'
  rw [List.dropLast_append_getLast hsegs, joinSegments_segments] at hdir
  cases eq_of_path_eq hdir hentry rfl

end RemoteTree

end Libfw

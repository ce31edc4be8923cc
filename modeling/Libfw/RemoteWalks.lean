import Libfw.RemoteFolders
import Libfw.StackWalks

/-!
# Walking what a server lists

`collect_remote_files` of `libfw-client/src/native/mod.rs` and `collect_files` of
`libfw-client/src/download.rs`, over any listings: entries may name any directory again.

`listings_walked_iff`: the walks end exactly when no directory is listed below itself, or a
directory that fails to be listed comes first; over a tree they find every file once.
-/

namespace Libfw

open StackWalk

/-- What a server lists in each directory, or why it does not. -/
abbrev Listings := Text → Except ClientError (List RemoteEntry)

/-- `for entry in list_dir(…).await?`: each entry's path is checked, directories are pushed,
files kept. -/
def takeListed (check : Text → Except ClientError Unit) :
    List RemoteEntry → List Text → List FolderFile →
      Except ClientError (List Text × List FolderFile)
  | [], stack, out => .ok (stack, out)
  | entry :: rest, stack, out =>
      match check entry.path with
      | .error e => .error e
      | .ok _ =>
          match entry.file with
          | none => takeListed check rest (entry.path :: stack) out
          | some remote => takeListed check rest stack (out ++ [⟨entry.path, remote⟩])

/-- `while let Some(current) = stack.pop()`, for a number of turns. -/
def walkListings (check : Text → Except ClientError Unit) (list : Listings) :
    Nat → List Text → List FolderFile → Option (Except ClientError (List FolderFile))
  | 0, _, _ => none
  | _ + 1, [], out => some (.ok (sortByPath out))
  | fuel + 1, current :: stack, out =>
      match list current with
      | .error e => some (.error e)
      | .ok entries =>
          match takeListed check entries stack out with
          | .error e => some (.error e)
          | .ok (stack, out) => walkListings check list fuel stack out

/-- The browser's walk does not check the paths it is listed. -/
def acceptPath (_ : Text) : Except ClientError Unit := .ok ()

/-- `collect_files`. -/
def collectFiles (list : Listings) (fuel : Nat) (dir : Text) :
    Option (Except ClientError (List FolderFile)) :=
  walkListings acceptPath list fuel [dir] []

/-! ## One walk -/

theorem takeEntries_eq (entries : List RemoteEntry) (stack : List Text) (out : List FolderFile) :
    takeEntries entries stack out = takeListed validateRelative entries stack out := by
  induction entries generalizing stack out with
  | nil => rfl
  | cons entry rest ih =>
      rw [takeEntries, takeListed]
      cases validateRelative entry.path with
      | error e => rfl
      | ok _ =>
          cases entry.file with
          | none => exact ih _ _
          | some remote => exact ih _ _

theorem collectFrom_eq (list : Listings) (fuel : Nat) (stack : List Text)
    (out : List FolderFile) :
    collectFrom list fuel stack out = walkListings validateRelative list fuel stack out := by
  induction fuel generalizing stack out with
  | zero => rfl
  | succ fuel ih =>
      cases stack with
      | nil => rfl
      | cons current stack =>
          rw [collectFrom, walkListings]
          cases list current with
          | error e => rfl
          | ok entries =>
              simp only [takeEntries_eq]
              cases takeListed validateRelative entries stack out with
              | error e => rfl
              | ok taken => exact ih _ _

/-- What a directory's listing comes to: the directories it names and the files it holds. -/
def takenListing (check : Text → Except ClientError Unit) (list : Listings) (dir : Text) :
    Except ClientError (List Text × List FolderFile) :=
  match list dir with
  | .error e => .error e
  | .ok entries =>
      match takeListed check entries [] [] with
      | .error e => .error e
      | .ok (stack, out) => .ok (stack.reverse, out)

variable {check : Text → Except ClientError Unit} {list : Listings}

theorem takeListed_append (entries : List RemoteEntry) (pushed stack : List Text)
    (out kept : List FolderFile) :
    takeListed check entries (pushed ++ stack) (out ++ kept) =
      (takeListed check entries pushed kept).map fun r => (r.1 ++ stack, out ++ r.2) := by
  induction entries generalizing pushed kept with
  | nil => rfl
  | cons entry rest ih =>
      rw [takeListed, takeListed]
      cases check entry.path with
      | error e => rfl
      | ok u =>
          cases entry.file with
          | none => exact ih (entry.path :: pushed) kept
          | some remote =>
              have h := ih pushed (kept ++ [⟨entry.path, remote⟩])
              rw [← List.append_assoc] at h
              exact h

/-- **The loop is a depth-first walk over the listings.** -/
theorem walkListings_eq (fuel : Nat) (stack : List Text) (out : List FolderFile) :
    walkListings check list fuel stack out =
      (walk (takenListing check list) fuel stack out).map (·.map sortByPath) := by
  induction fuel generalizing stack out with
  | zero => rfl
  | succ fuel ih =>
      cases stack with
      | nil => rfl
      | cons current stack =>
          rw [walkListings, walk, takenListing]
          cases list current with
          | error e => rfl
          | ok entries =>
              have htake : takeListed check entries ([] ++ stack) (out ++ []) =
                  (takeListed check entries [] []).map fun r => (r.1 ++ stack, out ++ r.2) :=
                takeListed_append entries [] stack out []
              rw [List.nil_append, List.append_nil] at htake
              simp only [htake]
              cases takeListed check entries [] [] with
              | error e => rfl
              | ok r =>
                  simp only [Except.map, List.reverse_reverse]
                  exact ih _ _

/-! ## What is listed -/

/-- The files a directory's listing names. -/
def filesListed (list : Listings) (dir : Text) : List FolderFile :=
  match list dir with
  | .error _ => []
  | .ok entries => entries.filterMap RemoteEntry.folderFile

theorem takeListed_eq_ok {entries : List RemoteEntry} {stack stack' : List Text}
    {out out' : List FolderFile} (h : takeListed check entries stack out = .ok (stack', out')) :
    stack' = ((entries.filter fun e => e.file.isNone).map RemoteEntry.path).reverse ++ stack ∧
      out' = out ++ entries.filterMap RemoteEntry.folderFile := by
  induction entries generalizing stack out with
  | nil =>
      cases h
      simp
  | cons entry rest ih =>
      rw [takeListed] at h
      split at h
      · cases h
      · cases hfile : entry.file with
        | none =>
            rw [hfile] at h
            obtain ⟨hstack, hout⟩ := ih h
            simp [hstack, hout, hfile, RemoteEntry.folderFile]
        | some remote =>
            rw [hfile] at h
            obtain ⟨hstack, hout⟩ := ih h
            simp [hstack, hout, hfile, RemoteEntry.folderFile]

/-- A listing that is taken: the directories it pushes, and its files. -/
theorem takenListing_eq_ok {dir : Text} {dirs : List Text} {files : List FolderFile}
    (h : takenListing check list dir = .ok (dirs, files)) : ∃ entries, list dir = .ok entries ∧
      dirs = (entries.filter fun e => e.file.isNone).map RemoteEntry.path ∧
      files = filesListed list dir := by
  rw [takenListing] at h
  cases hlist : list dir with
  | error e => simp [hlist] at h
  | ok entries =>
      simp only [hlist] at h
      cases htake : takeListed check entries [] [] with
      | error e => simp [htake] at h
      | ok r =>
          obtain ⟨stack, out⟩ := r
          obtain ⟨hstack, hout⟩ := takeListed_eq_ok htake
          simp only [htake, Except.ok.injEq, Prod.mk.injEq] at h
          obtain ⟨rfl, rfl⟩ := h
          refine ⟨entries, rfl, ?_, ?_⟩
          · rw [hstack, List.append_nil, List.reverse_reverse]
          · rw [hout, filesListed, hlist, List.nil_append]

/-- The directories are finitely many: the listing of each names only these. -/
def ListedWithin (list : Listings) (dirs : Finset Text) : Prop :=
  ∀ dir ∈ dirs, ∀ entries, list dir = .ok entries →
    ∀ e ∈ entries, e.file = none → e.path ∈ dirs

theorem ListedWithin.reach_finite {dirs : Finset Text} (h : ListedWithin list dirs) {dir : Text}
    (hdir : dir ∈ dirs) : {x | Reach (takenListing check list) dir x}.Finite := by
  apply dirs.finite_toSet.subset
  intro x hx
  induction hx with
  | refl => exact hdir
  | @tail y z _ hyz ih =>
      unfold Child children at hyz
      split at hyz
      · cases hyz
      · next found files hfound =>
          obtain ⟨entries, hlist, rfl, -⟩ := takenListing_eq_ok hfound
          obtain ⟨e, he, rfl⟩ := List.mem_map.1 hyz
          obtain ⟨hmem, hnone⟩ := List.mem_filter.1 he
          exact h y ih entries hlist e hmem (Option.isNone_iff_eq_none.1 hnone)

theorem held_takenListing {dir : Text} (h : ¬ Stuck (takenListing check list) dir) :
    held (takenListing check list) dir = filesListed list dir := by
  obtain ⟨-, -, -, hfiles⟩ := takenListing_eq_ok (expand_of_not_stuck h)
  exact hfiles

/-! ## The walks -/

theorem pairwise_sortByPath (files : List FolderFile) :
    (sortByPath files).Pairwise fun a b => a.path ≤ b.path := by
  have : Std.Total fun a b : FolderFile => a.path ≤ b.path :=
    ⟨fun a b => le_total a.path b.path⟩
  have : IsTrans FolderFile fun a b => a.path ≤ b.path := ⟨fun _ _ _ => le_trans⟩
  exact List.pairwise_insertionSort _ files

/-- What a walk is for: it ends, and over a tree it ends with the files of all directories,
each directory's taken once, sorted by path. -/
structure WalksAll (list : Listings) (tree : Prop) (reach : Text → Prop)
    (collect : Nat → Option (Except ClientError (List FolderFile))) : Prop where
  ends : ∃ fuel r, collect fuel = some r
  complete : tree → ∃ fuel files, collect fuel = some (.ok files) ∧
    (files.Pairwise fun a b => a.path ≤ b.path) ∧
    ∃ dirs : List Text, dirs.Nodup ∧ (∀ x, x ∈ dirs ↔ reach x) ∧
      files.Perm (dirs.flatMap (filesListed list))

/-- No directory that is reached is listed below itself, and all can be listed; or one that
cannot is met first. -/
def Ending (check : Text → Except ClientError Unit) (list : Listings) (dir : Text) : Prop :=
  Sound (takenListing check list) dir ∨ FailsFirst (takenListing check list) dir

theorem walkListings_ends_iff {dirs : Finset Text} (h : ListedWithin list dirs) {dir : Text}
    (hdir : dir ∈ dirs) :
    (∃ fuel r, walkListings check list fuel [dir] [] = some r) ↔ Ending check list dir := by
  unfold Ending
  rw [← ends_iff (h.reach_finite hdir) []]
  simp only [walkListings_eq, Option.map_eq_some_iff]
  constructor
  · intro h
    obtain ⟨fuel, r, raw, hraw, -⟩ := h
    exact ⟨fuel, raw, hraw⟩
  · intro h
    obtain ⟨fuel, raw, hraw⟩ := h
    exact ⟨fuel, _, raw, hraw, rfl⟩

theorem walkListings_complete {dirs : Finset Text} (h : ListedWithin list dirs) {dir : Text}
    (hdir : dir ∈ dirs) (htree : IsTree (takenListing check list) dir) :
    ∃ fuel files, walkListings check list fuel [dir] [] = some (.ok files) ∧
      (files.Pairwise fun a b => a.path ≤ b.path) ∧
      ∃ seen : List Text, seen.Nodup ∧ (∀ x, x ∈ seen ↔ Reach (takenListing check list) dir x) ∧
        files.Perm (seen.flatMap (filesListed list)) := by
  obtain ⟨seen, hnodup, hmem, hwalk⟩ := walk_of_tree (h.reach_finite hdir) htree
  have hheld : seen.flatMap (held (takenListing check list)) = seen.flatMap (filesListed list) := by
    apply List.flatMap_congr
    intro x hx
    exact held_takenListing (htree.expands x ((hmem x).1 hx))
  refine ⟨seen.length + 1, sortByPath (seen.flatMap (filesListed list)), ?_,
    pairwise_sortByPath _, seen, hnodup, hmem, List.perm_insertionSort _ _⟩
  rw [walkListings_eq, hwalk _ (Nat.lt_succ_self _), hheld]
  rfl

theorem walksAll_iff {dirs : Finset Text} (h : ListedWithin list dirs) {dir : Text}
    (hdir : dir ∈ dirs) :
    WalksAll list (IsTree (takenListing check list) dir) (Reach (takenListing check list) dir)
      (fun fuel => walkListings check list fuel [dir] []) ↔ Ending check list dir := by
  rw [← walkListings_ends_iff h hdir]
  constructor
  · intro hall
    exact hall.ends
  · intro hends
    exact ⟨hends, walkListings_complete h hdir⟩

/-- **Both walks end, and find every file of a tree once and in order, exactly when the
listings come to an end below the directory.** -/
theorem listings_walked_iff {dirs : Finset Text} (h : ListedWithin list dirs) {dir : Text}
    (hdir : dir ∈ dirs) :
    (WalksAll list (IsTree (takenListing validateRelative list) dir)
        (Reach (takenListing validateRelative list) dir)
        (fun fuel => collectRemoteFiles list fuel dir) ↔ Ending validateRelative list dir) ∧
      (WalksAll list (IsTree (takenListing acceptPath list) dir)
        (Reach (takenListing acceptPath list) dir)
        (fun fuel => collectFiles list fuel dir) ↔ Ending acceptPath list dir) := by
  refine ⟨?_, walksAll_iff h hdir⟩
  unfold collectRemoteFiles
  simp only [collectFrom_eq]
  exact walksAll_iff h hdir

/-- A directory with a file and a directory in it, which holds another file. -/
def nestedListings : Listings := fun dir =>
  .ok (if dir = "d".toList then [⟨"d/e".toList, none⟩, ⟨"d/f".toList, some ⟨[], []⟩⟩]
    else [⟨"d/e/g".toList, some ⟨[], []⟩⟩])

theorem nested_files_walked :
    ListedWithin nestedListings {"d".toList, "d/e".toList} ∧
      WalksAll nestedListings (IsTree (takenListing acceptPath nestedListings) "d".toList)
        (Reach (takenListing acceptPath nestedListings) "d".toList)
        (fun fuel => collectFiles nestedListings fuel "d".toList) := by
  have hwithin : ListedWithin nestedListings {"d".toList, "d/e".toList} := by
    intro dir _ entries hlist e he hnone
    unfold nestedListings at hlist
    split at hlist
    · cases hlist
      rcases List.mem_cons.1 he with rfl | he
      · exact Finset.mem_insert_of_mem (Finset.mem_singleton_self _)
      · rw [List.mem_singleton.1 he] at hnone
        cases hnone
    · cases hlist
      rw [List.mem_singleton.1 he] at hnone
      cases hnone
  have htop : takenListing acceptPath nestedListings "d".toList =
      .ok (["d/e".toList], [⟨"d/f".toList, ⟨[], []⟩⟩]) := rfl
  have hinner : takenListing acceptPath nestedListings "d/e".toList =
      .ok ([], [⟨"d/e/g".toList, ⟨[], []⟩⟩]) := rfl
  have hexpands : ∀ {dir : Text} {r : List Text × List FolderFile},
      takenListing acceptPath nestedListings dir = .ok r →
        ¬ Stuck (takenListing acceptPath nestedListings) dir := by
    intro dir r hlisted hstuck
    obtain ⟨e, he⟩ := hstuck
    rw [hlisted] at he
    cases he
  have hsoundInner : Sound (takenListing acceptPath nestedListings) "d/e".toList := by
    apply sound_of_children (hexpands hinner)
    intro child hchild
    unfold children at hchild
    rw [hinner] at hchild
    cases hchild
  have hsound : Sound (takenListing acceptPath nestedListings) "d".toList := by
    apply sound_of_children (hexpands htop)
    intro child hchild
    unfold children at hchild
    rw [htop] at hchild
    rw [List.mem_singleton.1 hchild]
    exact hsoundInner
  exact ⟨hwithin,
    (listings_walked_iff hwithin (Finset.mem_insert_self _ _)).2.2 (.inl hsound)⟩

/-- A server whose one directory lists itself. -/
def selfListings : Listings := fun _ => .ok [⟨"d".toList, none⟩]

/-- A directory that lists itself keeps both walks going for ever. -/
theorem self_listing_never_ends :
    ListedWithin selfListings {"d".toList} ∧
      ∀ fuel, collectRemoteFiles selfListings fuel "d".toList = none ∧
        collectFiles selfListings fuel "d".toList = none := by
  have hloop : ∀ check : Text → Except ClientError Unit, check "d".toList = .ok () →
      ∀ fuel, walkListings check selfListings fuel ["d".toList] [] = none := by
    intro check hcheck fuel
    induction fuel with
    | zero => rfl
    | succ fuel ih =>
        rw [walkListings, selfListings]
        simp only [takeListed, hcheck]
        exact ih
  refine ⟨?_, ?_⟩
  · intro dir _ entries hlist e he _
    cases hlist
    rw [List.mem_singleton.1 he]
    exact Finset.mem_singleton_self _
  · intro fuel
    refine ⟨?_, hloop acceptPath rfl fuel⟩
    rw [collectRemoteFiles, collectFrom_eq]
    exact hloop validateRelative rfl fuel

end Libfw

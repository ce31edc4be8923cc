import Libfw.RemoteFolders
import Libfw.UploadStore

/-!
# The folder a download goes to

The filesystem below the native client: paths made by `join_virtual` and `resume_path` of
`libfw-client/src/native`, and what the calls of one file's download do there.  A download
holds its file open from the first write on; nothing the client does takes a name away, so
the file is meant by its path.

* `Framed` — what a call leaves alone: all but the destination, its sidecar and the
  directories above it (`execAt_frame`).
* `execAt_sees` — a call does to its destination and sidecar what `NativeOp.exec` says.
-/

namespace Libfw

open PosixStore SteppedPrograms SoloPrograms SegmentPaths

/-! ## Paths -/

def RESUME_SUFFIX : Text := ".libfw-resume.json".toList

/-- `resume_path`. -/
def resumePath (dest : FsPath) : FsPath := dest.pushExtension RESUME_SUFFIX

/-- `join_virtual`. -/
def joinVirtual (base : FsPath) (path : Text) : FsPath :=
  let segs := (path.splitOn '/').filter fun seg => seg ≠ [] ∧ seg ≠ ['.']
  base ++ segs.map fun seg => if seg = ['.', '.'] then .parentDir else .normal seg

/-- A canonical path keeps all its segments. -/
theorem joinVirtual_canonical (base : FsPath) {path : Text} (h : Canonical path)
    (hne : path ≠ []) : joinVirtual base path = base ++ (segments path).map .normal := by
  have hplain := h.plainSegments
  have hsplit : path.splitOn '/' = segments path := by
    unfold segments split
    rw [if_neg hne]
  have hkeep : (segments path).filter (fun seg => seg ≠ [] ∧ seg ≠ ['.']) = segments path := by
    apply List.filter_eq_self.2
    intro seg hseg
    simpa using ⟨(hplain seg hseg).nonempty, (hplain seg hseg).notDot⟩
  unfold joinVirtual
  rw [hsplit]
  simp only [hkeep]
  congr 1
  apply List.map_congr_left
  intro seg hseg
  exact if_neg (hplain seg hseg).notDotDot

/-- The destination ends in a file name. -/
theorem joinVirtual_eq_append (base : FsPath) {path : Text} (h : Canonical path) (hne : path ≠ []) :
    ∃ dir name, joinVirtual base path = dir ++ [.normal name] := by
  have hsegs : segments path ≠ [] := by
    intro hnil
    apply hne
    rw [← joinSegments_segments path, hnil]
    rfl
  rw [joinVirtual_canonical base h hne, ← List.dropLast_append_getLast hsegs, List.map_append,
    ← List.append_assoc]
  exact ⟨_, _, rfl⟩

theorem resumePath_append (dir : FsPath) (name : Text) :
    resumePath (dir ++ [.normal name]) = dir ++ [.normal (name ++ RESUME_SUFFIX)] :=
  FsPath.pushExtension_append_normal dir name RESUME_SUFFIX

/-- Two files do not share a sidecar. -/
theorem resumePath_injective {d e : FsPath} {n m : Text}
    (h : resumePath (d ++ [.normal n]) = resumePath (e ++ [.normal m])) :
    d ++ [Component.normal n] = e ++ [.normal m] := by
  rw [resumePath_append, resumePath_append] at h
  obtain ⟨hdir, hname⟩ := List.append_inj' h rfl
  have hnames : n ++ RESUME_SUFFIX = m ++ RESUME_SUFFIX := by simpa using hname
  rw [hdir, List.append_cancel_right hnames]

/-- The sidecar is not the destination, nor a directory above it. -/
theorem resumePath_not_prefix (dir : FsPath) (name : Text) :
    ¬ resumePath (dir ++ [.normal name]) <+: dir ++ [.normal name] := by
  intro h
  rw [resumePath_append] at h
  have heq := h.eq_of_length (by simp)
  have hname : name ++ RESUME_SUFFIX = name := by simpa using heq
  have hnil : RESUME_SUFFIX = [] := List.append_right_eq_self.1 hname
  exact absurd hnil (by decide)

/-! ## The local tree -/

/-- What a local file holds: bytes, or the JSON text of a resume state. -/
inductive LocalContent where
  | bytes (cells : List (Option UInt8))
  | resume (state : ResumeState)

/-- `serde_json` on `ResumeState`: an empty file is not the text of one. -/
structure ResumeJson where
  toJson : ResumeState → List UInt8
  fromJson : List UInt8 → Option ResumeState
  fromJson_nil : fromJson [] = none

/-- How the local system reads: the JSON of a sidecar, and the length it reports of a
directory. -/
structure LocalSystem where
  json : ResumeJson
  dirLen : Nat

namespace LocalContent

variable (sys : LocalSystem)

/-- The content as bytes. -/
def cells : LocalContent → List (Option UInt8)
  | .bytes cells => cells
  | .resume state => (sys.json.toJson state).map some

/-- The content read as a resume state; a hole reads as a zero byte. -/
def state : LocalContent → Option ResumeState
  | .bytes cells => sys.json.fromJson (cells.map (·.getD 0))
  | .resume state => some state

end LocalContent

inductive LocalEntry where
  | absent
  | dir
  | file (content : LocalContent)

def LocalEntry.isFile : LocalEntry → Bool
  | .file _ => true
  | _ => false

def LocalEntry.isAbsent : LocalEntry → Bool
  | .absent => true
  | _ => false

abbrev LocalTree := FsPath → LocalEntry

namespace LocalTree

variable (sys : LocalSystem) (t : LocalTree) (dest : FsPath)

def set (p : FsPath) (e : LocalEntry) : LocalTree := fun q => if q = p then e else t q

/-- Directories are made where there is nothing. -/
def mkdirs (dirs : List FsPath) : LocalTree :=
  fun p => if p ∈ dirs ∧ (t p).isAbsent = true then .dir else t p

/-- `create_dir_all` of the parent of the destination; `none` where a file is in the way. -/
def ready : Option LocalTree :=
  match dest.parent with
  | none => some t
  | some parent =>
      if (ancestors parent).any fun p => (t p).isFile then none
      else some (t.mkdirs (ancestors parent))

/-- After a failure of `create_dir_all` some of the directories have been made. -/
def partlyReady (done : Nat) : LocalTree :=
  match dest.parent with
  | none => t
  | some parent =>
      t.mkdirs (((ancestors parent).takeWhile fun p => !(t p).isFile).take done)

/-- The bytes of a file. -/
def cellsAt : Option (List (Option UInt8)) :=
  match t dest with
  | .file content => some (content.cells sys)
  | _ => none

/-- What `load_resume` finds. -/
def resumeAt : Option ResumeState :=
  match t (resumePath dest) with
  | .file content => content.state sys
  | _ => none

/-- What `metadata(dest).len()` reports. -/
def lenAt : Nat :=
  match t dest with
  | .absent => 0
  | .dir => sys.dirLen
  | .file content => (content.cells sys).length

/-- The file is changed. -/
def change (f : List (Option UInt8) → List (Option UInt8)) : Option LocalTree :=
  match t dest with
  | .file content => some (t.set dest (.file (.bytes (f (content.cells sys)))))
  | _ => none

/-- A positional write. -/
def put (pos : Nat) (data : List UInt8) : Option LocalTree :=
  if data = [] then some t else t.change sys dest fun cells => writeAt cells pos data

/-- `set_len`. -/
def cut (n : Nat) : Option LocalTree :=
  if (t.cellsAt sys dest).map List.length = some n then some t
  else t.change sys dest fun cells => resize cells n

/-- The file is opened, and made where there is none. -/
def opened : Option LocalTree :=
  match t dest with
  | .absent => some (t.set dest (.file (.bytes [])))
  | .file _ => some t
  | .dir => none

/-- The sidecar is written. -/
def saved (content : LocalContent) : Option LocalTree :=
  match t (resumePath dest) with
  | .dir => none
  | _ => some (t.set (resumePath dest) (.file content))

end LocalTree

/-- What a call of the download to `dest` does to the local tree; `none` where the choice is
impossible. -/
def NativeOp.execAt (sys : LocalSystem) (cfg : NativeConfig) (remote : Remote) (dest : FsPath) :
    Exec NativeOp NativeOp.Ans NativeChoice LocalTree
  | .prepareTransfer, .go, t => some (t, .ok ())
  | .prepareTransfer, .fail e _, t => some (t, .error e)
  | .fetchMeta, .go, t => some (t, .ok (remote.etag, remote.content.length))
  | .fetchMeta, .fail e _, t => some (t, .error e)
  | .loadResume, .go, t => some (t, t.resumeAt sys dest)
  | .localLen, .go, t => some (t, t.lenAt sys dest)
  | .openDest, .go, t =>
      ((t.ready dest).bind fun t => t.opened dest).map fun t => (t, .ok ())
  | .openDest, .fail e done, t => some (t.partlyReady dest done, .error e)
  | .liveParams, .tuned window chunkSize, t => some (t, (max window 1, max chunkSize 1))
  | .rangeRequest start stop, .respond body, t =>
      if body.delivered <+: remote.slice start stop then some (t, .ok body) else none
  | .rangeRequest _ _, .fail e _, t => some (t, .error e)
  | .nextRange inFlight, .complete i attempts, t =>
      (completeRange cfg remote inFlight i attempts).map fun ended => (t, ended)
  | .write pos data, .go, t => (t.put sys dest pos data).map fun t => (t, .ok ())
  | .write pos data, .fail e done, t =>
      (t.put sys dest pos (data.take done)).map fun t => (t, .error e)
  | .saveResume etag offset, .go, t =>
      ((t.ready dest).bind fun t => t.saved dest (.resume ⟨etag, offset⟩)).map fun t => (t, ())
  | .saveResume _ _, .torn, t =>
      ((t.ready dest).bind fun t => t.saved dest (.bytes [])).map fun t => (t, ())
  | .saveResume _ _, .fail _ done, t => some (t.partlyReady dest done, ())
  | .setLen n, .go, t => (t.cut sys dest n).map fun t => (t, .ok ())
  | .setLen _, .fail e _, t => some (t, .error e)
  | .flush, .go, t => some (t, .ok ())
  | .flush, .fail e _, t => some (t, .error e)
  | _, _, _ => none

/-! ## What a call leaves alone -/

/-- Nothing has changed but directories that have been made above the destination. -/
def DirsMade (dest : FsPath) (t u : LocalTree) : Prop :=
  ∀ p, u p = t p ∨ (t p = .absent ∧ u p = .dir ∧ p <+: dest ∧ p ≠ dest)

/-- Nothing has changed but the destination, its sidecar and the directories above it. -/
def Framed (dest : FsPath) (t u : LocalTree) : Prop :=
  ∀ p, p ≠ dest → p ≠ resumePath dest →
    u p = t p ∨ (t p = .absent ∧ u p = .dir ∧ p <+: dest ∧ p ≠ dest)

section Frames

variable {sys : LocalSystem} {t u v : LocalTree} {dest : FsPath}

/-- Directories that are made stand in no file's place. -/
theorem DirsMade.frame (h : DirsMade dest t u) : Framed dest t u := fun p _ _ => h p

theorem frame_refl : Framed dest t t := fun _ _ _ => Or.inl rfl

theorem set_self (p : FsPath) (e : LocalEntry) : t.set p e p = e := if_pos rfl

theorem set_ne {p q : FsPath} (e : LocalEntry) (h : q ≠ p) : t.set p e q = t q := if_neg h

/-- After directories the destination or the sidecar is changed. -/
theorem DirsMade.frame_set (h : DirsMade dest t u) {p : FsPath}
    (hp : p = dest ∨ p = resumePath dest) (e : LocalEntry) : Framed dest t (u.set p e) := by
  intro q hq hq'
  have hne : q ≠ p := by
    rcases hp with rfl | rfl
    · exact hq
    · exact hq'
  rw [set_ne e hne]
  exact h q

/-- The ancestors of the destination are made, and nothing else. -/
theorem dirsMade_mkdirs {parent : FsPath} {dirs : List FsPath}
    (hparent : dest.parent = some parent) (hdirs : dirs ⊆ ancestors parent) :
    DirsMade dest t (t.mkdirs dirs) := by
  intro p
  unfold LocalTree.mkdirs
  split
  · next h =>
      obtain ⟨hmem, habsent⟩ := h
      right
      have hentry : t p = .absent := by
        cases hp : t p with
        | absent => rfl
        | dir | file =>
            rw [hp] at habsent
            cases habsent
      exact ⟨hentry, rfl, prefix_of_mem_ancestors hparent (hdirs hmem)⟩
  · exact Or.inl rfl

theorem dirsMade_ready (h : t.ready dest = some u) : DirsMade dest t u := by
  unfold LocalTree.ready at h
  split at h
  · cases h
    exact fun _ => Or.inl rfl
  · next parent hparent =>
      split at h
      · cases h
      · cases h
        exact dirsMade_mkdirs hparent (List.Subset.refl _)

/-- Also where making them fails half-way. -/
theorem dirsMade_partlyReady (done : Nat) : DirsMade dest t (t.partlyReady dest done) := by
  unfold LocalTree.partlyReady
  split
  · exact fun _ => Or.inl rfl
  · next parent hparent =>
      apply dirsMade_mkdirs hparent
      intro p hp
      exact (List.takeWhile_prefix _).subset (List.mem_of_mem_take hp)

/-- Made directories change neither the destination nor what is not above it. -/
theorem DirsMade.eq_of_not_prefix (h : DirsMade dest t u) {p : FsPath}
    (hp : p = dest ∨ ¬ p <+: dest) : u p = t p := by
  rcases h p with heq | ⟨-, -, hpre, hne⟩
  · exact heq
  · rcases hp with hp | hp
    · exact absurd hp hne
    · exact absurd hpre hp

/-- Only an open file is changed, and only its bytes. -/
theorem exists_of_change {f : List (Option UInt8) → List (Option UInt8)}
    (h : t.change sys dest f = some u) : ∃ content, t dest = .file content ∧
      u = t.set dest (.file (.bytes (f (content.cells sys)))) := by
  unfold LocalTree.change at h
  split at h
  · next content hfile =>
      cases h
      exact ⟨content, hfile, rfl⟩
  · cases h

/-- An open makes an empty file where there is none, and changes nothing otherwise. -/
theorem opened_cases (h : t.opened dest = some u) :
    (t dest = .absent ∧ u = t.set dest (.file (.bytes []))) ∨
      ((∃ content, t dest = .file content) ∧ u = t) := by
  unfold LocalTree.opened at h
  split at h
  · next habsent =>
      cases h
      exact Or.inl ⟨habsent, rfl⟩
  · next content hfile =>
      cases h
      exact Or.inr ⟨⟨content, hfile⟩, rfl⟩
  · cases h

theorem eq_of_saved {content : LocalContent} (h : t.saved dest content = some u) :
    u = t.set (resumePath dest) (.file content) := by
  unfold LocalTree.saved at h
  split at h
  · cases h
  · cases h
    rfl

theorem frame_put {pos : Nat} {data : List UInt8} (h : t.put sys dest pos data = some u) :
    Framed dest t u := by
  unfold LocalTree.put at h
  split at h
  · cases h
    exact frame_refl
  · obtain ⟨content, -, rfl⟩ := exists_of_change h
    exact DirsMade.frame_set (fun _ => Or.inl rfl) (Or.inl rfl) _

/-- Saving the sidecar touches the sidecar and the directories above. -/
theorem frame_saved {content : LocalContent}
    (h : ((t.ready dest).bind fun t => t.saved dest content) = some u) : Framed dest t u := by
  obtain ⟨v, hready, hsaved⟩ := Option.bind_eq_some_iff.1 h
  rw [eq_of_saved hsaved]
  exact (dirsMade_ready hready).frame_set (Or.inr rfl) _

end Frames

/-- The calls that only look. -/
def NativeOp.looks : NativeOp → Bool
  | .prepareTransfer | .fetchMeta | .loadResume | .localLen => true
  | _ => false

section Calls

variable {sys : LocalSystem} {cfg : NativeConfig} {remote : Remote} {dest : FsPath}
  {o : NativeOp} {c : NativeChoice} {t u : LocalTree} {a : o.Ans}

/-- A call that only looks changes nothing. -/
theorem execAt_looks (hlooks : o.looks = true)
    (h : o.execAt sys cfg remote dest c t = some (u, a)) : u = t := by
  cases o with
  | prepareTransfer | fetchMeta =>
      cases c with
      | go | fail =>
          cases h
          rfl
      | torn | tuned | respond | complete => cases h
  | loadResume | localLen =>
      cases c with
      | go =>
          cases h
          rfl
      | fail | torn | tuned | respond | complete => cases h
  | _ => cases hlooks

/-- **A call leaves all but its destination and sidecar alone**, directories that it makes
apart. -/
theorem execAt_frame (h : o.execAt sys cfg remote dest c t = some (u, a)) : Framed dest t u := by
  by_cases hlooks : o.looks = true
  · rw [execAt_looks hlooks h]
    exact frame_refl
  · cases o with
    | prepareTransfer | fetchMeta | loadResume | localLen => exact absurd rfl hlooks
    | openDest =>
        cases c with
        | go =>
            obtain ⟨v, hv, hpair⟩ := Option.map_eq_some_iff.1 h
            cases hpair
            obtain ⟨w, hready, hopened⟩ := Option.bind_eq_some_iff.1 hv
            rcases opened_cases hopened with ⟨-, rfl⟩ | ⟨-, rfl⟩
            · exact (dirsMade_ready hready).frame_set (Or.inl rfl) _
            · exact (dirsMade_ready hready).frame
        | fail e done =>
            cases h
            exact (dirsMade_partlyReady done).frame
        | torn | tuned | respond | complete => cases h
    | liveParams =>
        cases c with
        | tuned w n =>
            cases h
            exact frame_refl
        | go | fail | torn | respond | complete => cases h
    | rangeRequest start stop =>
        cases c with
        | respond body =>
            simp only [NativeOp.execAt] at h
            split at h
            · cases h
              exact frame_refl
            · cases h
        | fail e done =>
            cases h
            exact frame_refl
        | go | torn | tuned | complete => cases h
    | nextRange inFlight =>
        cases c with
        | complete i attempts =>
            obtain ⟨ended, -, hpair⟩ := Option.map_eq_some_iff.1 h
            cases hpair
            exact frame_refl
        | go | fail | torn | tuned | respond => cases h
    | write pos data =>
        cases c with
        | go | fail =>
            obtain ⟨v, hput, hpair⟩ := Option.map_eq_some_iff.1 h
            cases hpair
            exact frame_put hput
        | torn | tuned | respond | complete => cases h
    | saveResume etag offset =>
        cases c with
        | go | torn =>
            obtain ⟨v, hsaved, hpair⟩ := Option.map_eq_some_iff.1 h
            cases hpair
            exact frame_saved hsaved
        | fail e done =>
            cases h
            exact (dirsMade_partlyReady done).frame
        | tuned | respond | complete => cases h
    | setLen n =>
        cases c with
        | go =>
            obtain ⟨v, hcut, hpair⟩ := Option.map_eq_some_iff.1 h
            cases hpair
            unfold LocalTree.cut at hcut
            split at hcut
            · cases hcut
              exact frame_refl
            · obtain ⟨content, -, rfl⟩ := exists_of_change hcut
              exact DirsMade.frame_set (fun _ => Or.inl rfl) (Or.inl rfl) _
        | fail e done =>
            cases h
            exact frame_refl
        | torn | tuned | respond | complete => cases h
    | flush =>
        cases c with
        | go | fail =>
            cases h
            exact frame_refl
        | torn | tuned | respond | complete => cases h

end Calls

/-! ## What a call does to its destination -/

/-- The destination and the sidecar in the tree. -/
structure Sees (sys : LocalSystem) (dest : FsPath) (t : LocalTree) (s : DestFiles) : Prop where
  cells : s.dest = t.cellsAt sys dest
  sidecar : s.sidecar = t.resumeAt sys dest
  notDir : t dest ≠ .dir

section Seen

variable {sys : LocalSystem} {cfg : NativeConfig} {remote : Remote} {dest : FsPath}
  {t u : LocalTree} {s : DestFiles}

/-- A download sees its two files only. -/
theorem Sees.of_eq (h : Sees sys dest t s) (hdest : u dest = t dest)
    (hsidecar : u (resumePath dest) = t (resumePath dest)) : Sees sys dest u s := by
  constructor
  · rw [h.cells]
    unfold LocalTree.cellsAt
    rw [hdest]
  · rw [h.sidecar]
    unfold LocalTree.resumeAt
    rw [hsidecar]
  · rw [hdest]
    exact h.notDir

/-- It sees the length of its destination. -/
theorem Sees.len (h : Sees sys dest t s) : t.lenAt sys dest = s.len := by
  unfold DestFiles.len
  rw [h.cells]
  unfold LocalTree.lenAt LocalTree.cellsAt
  cases hentry : t dest with
  | absent => rfl
  | dir => exact absurd hentry h.notDir
  | file content => rfl

/-- The destination is a file with these bytes now. -/
theorem Sees.set_dest (h : Sees sys dest t s) (hne : resumePath dest ≠ dest)
    (cells : List (Option UInt8)) (touched : Bool) :
    Sees sys dest (t.set dest (.file (.bytes cells))) ⟨some cells, s.sidecar, touched⟩ := by
  constructor
  · unfold LocalTree.cellsAt
    rw [set_self]
    rfl
  · rw [h.sidecar]
    unfold LocalTree.resumeAt
    rw [set_ne _ hne]
  · rw [set_self]
    intro hdir
    cases hdir

/-- The sidecar is a file now. -/
theorem Sees.set_resume (h : Sees sys dest t s) (hne : resumePath dest ≠ dest)
    (content : LocalContent) (touched : Bool) :
    Sees sys dest (t.set (resumePath dest) (.file content))
      ⟨s.dest, content.state sys, touched⟩ := by
  constructor
  · rw [h.cells]
    unfold LocalTree.cellsAt
    rw [set_ne _ hne.symm]
  · unfold LocalTree.resumeAt
    rw [set_self]
  · rw [set_ne _ hne.symm]
    exact h.notDir

/-- The sidecar is neither the destination nor a directory above it. -/
def Sidecarred (dest : FsPath) : Prop := ¬ resumePath dest <+: dest

/-- The sidecar is another file. -/
theorem Sidecarred.ne (h : Sidecarred dest) : resumePath dest ≠ dest := by
  intro heq
  apply h
  rw [heq]

/-- Directories that others make are not seen. -/
theorem Sees.of_dirsMade (h : Sees sys dest t s) (hside : Sidecarred dest)
    (hmade : DirsMade dest t u) : Sees sys dest u s :=
  h.of_eq (hmade.eq_of_not_prefix (Or.inl rfl)) (hmade.eq_of_not_prefix (Or.inr hside))

/-- Opening the destination does to the local tree what it does to the two files. -/
theorem sees_openDest (h : Sees sys dest t s) (hside : Sidecarred dest)
    (hopen : ((t.ready dest).bind fun t => t.opened dest) = some u) :
    Sees sys dest u { s with dest := some (s.dest.getD []) } := by
  obtain ⟨v, hready, hopened⟩ := Option.bind_eq_some_iff.1 hopen
  have hv := h.of_dirsMade hside (dirsMade_ready hready)
  rcases opened_cases hopened with ⟨habsent, rfl⟩ | ⟨⟨content, hfile⟩, rfl⟩
  · have hnone : s.dest = none := by
      rw [hv.cells]
      unfold LocalTree.cellsAt
      rw [habsent]
    have hset := hv.set_dest hside.ne [] s.touched
    rw [hnone]
    exact hset
  · have hsome : s.dest = some (content.cells sys) := by
      rw [hv.cells]
      unfold LocalTree.cellsAt
      rw [hfile]
    constructor
    · rw [← hv.cells, hsome]
      rfl
    · exact hv.sidecar
    · exact hv.notDir

/-- So does changing its bytes. -/
theorem sees_change (h : Sees sys dest t s) (hside : Sidecarred dest)
    {f : List (Option UInt8) → List (Option UInt8)} (hchange : t.change sys dest f = some u)
    (touched : Bool) : Sees sys dest u ⟨some (f (s.dest.getD [])), s.sidecar, touched⟩ := by
  obtain ⟨content, hfile, rfl⟩ := exists_of_change hchange
  have hsome : s.dest = some (content.cells sys) := by
    rw [h.cells]
    unfold LocalTree.cellsAt
    rw [hfile]
  rw [hsome]
  exact h.set_dest hside.ne _ touched

/-- So does writing a piece. -/
theorem sees_put (h : Sees sys dest t s) (hside : Sidecarred dest) {pos : Nat}
    {data : List UInt8} (hput : t.put sys dest pos data = some u) (etag : Text) :
    Sees sys dest u (s.put etag pos data) := by
  unfold LocalTree.put at hput
  unfold DestFiles.put
  by_cases hnil : data = []
  · rw [if_pos hnil] at hput ⊢
    cases hput
    exact h
  · rw [if_neg hnil] at hput ⊢
    exact sees_change h hside hput _

/-- So does cutting it off. -/
theorem sees_cut (h : Sees sys dest t s) (hside : Sidecarred dest) {n : Nat}
    (hcut : t.cut sys dest n = some u) (etag : Text) : Sees sys dest u (s.cut etag n) := by
  have hfile : ∃ cells, s.dest = some cells := by
    rw [h.cells]
    unfold LocalTree.cut at hcut
    split at hcut
    · next hlen =>
        obtain ⟨cells, hcells, -⟩ := Option.map_eq_some_iff.1 hlen
        exact ⟨cells, hcells⟩
    · obtain ⟨content, hcontent, -⟩ := exists_of_change hcut
      unfold LocalTree.cellsAt
      rw [hcontent]
      exact ⟨_, rfl⟩
  obtain ⟨cells, hcells⟩ := hfile
  have hlen : s.len = n ↔ (t.cellsAt sys dest).map List.length = some n := by
    unfold DestFiles.len
    rw [← h.cells, hcells]
    simp
  unfold LocalTree.cut at hcut
  unfold DestFiles.cut
  by_cases hn : s.len = n
  · rw [if_pos (hlen.1 hn)] at hcut
    rw [if_pos hn]
    cases hcut
    exact h
  · rw [if_neg fun hmap => hn (hlen.2 hmap)] at hcut
    rw [if_neg hn]
    exact sees_change h hside hcut _

/-- So does saving the sidecar. -/
theorem sees_saved (h : Sees sys dest t s) (hside : Sidecarred dest) {content : LocalContent}
    (hsaved : ((t.ready dest).bind fun t => t.saved dest content) = some u) (touched : Bool) :
    Sees sys dest u ⟨s.dest, content.state sys, touched⟩ := by
  obtain ⟨v, hready, hsaved⟩ := Option.bind_eq_some_iff.1 hsaved
  rw [eq_of_saved hsaved]
  exact (h.of_dirsMade hside (dirsMade_ready hready)).set_resume hside.ne content touched

/-- **A call does to its destination what the download by itself does.** -/
theorem execAt_sees {o : NativeOp} {c : NativeChoice} {a : o.Ans} (hside : Sidecarred dest)
    (h : Sees sys dest t s) (hexec : o.execAt sys cfg remote dest c t = some (u, a)) :
    ∃ c' s', o.exec cfg remote c' s = some (s', a) ∧ Sees sys dest u s' := by
  cases o with
  | prepareTransfer | fetchMeta | flush =>
      cases c with
      | go =>
          cases hexec
          exact ⟨.go, s, rfl, h⟩
      | fail e done =>
          cases hexec
          exact ⟨.fail e done, s, rfl, h⟩
      | torn | tuned | respond | complete => cases hexec
  | loadResume =>
      cases c with
      | go =>
          cases hexec
          rw [← h.sidecar]
          exact ⟨.go, s, rfl, h⟩
      | fail | torn | tuned | respond | complete => cases hexec
  | localLen =>
      cases c with
      | go =>
          cases hexec
          rw [h.len]
          exact ⟨.go, s, rfl, h⟩
      | fail | torn | tuned | respond | complete => cases hexec
  | openDest =>
      cases c with
      | go =>
          obtain ⟨v, hopen, hpair⟩ := Option.map_eq_some_iff.1 hexec
          cases hpair
          exact ⟨.go, _, rfl, sees_openDest h hside hopen⟩
      | fail e done =>
          cases hexec
          exact ⟨.fail e done, s, rfl, h.of_dirsMade hside (dirsMade_partlyReady done)⟩
      | torn | tuned | respond | complete => cases hexec
  | liveParams =>
      cases c with
      | tuned w n =>
          cases hexec
          exact ⟨.tuned w n, s, rfl, h⟩
      | go | fail | torn | respond | complete => cases hexec
  | rangeRequest start stop =>
      cases c with
      | respond body =>
          simp only [NativeOp.execAt] at hexec
          split at hexec
          · next hprefix =>
              cases hexec
              exact ⟨.respond body, s, if_pos hprefix, h⟩
          · cases hexec
      | fail e done =>
          cases hexec
          exact ⟨.fail e done, s, rfl, h⟩
      | go | torn | tuned | complete => cases hexec
  | nextRange inFlight =>
      cases c with
      | complete i attempts =>
          obtain ⟨ended, hended, hpair⟩ := Option.map_eq_some_iff.1 hexec
          cases hpair
          refine ⟨.complete i attempts, s, ?_, h⟩
          simp only [NativeOp.exec, hended, Option.map_some]
      | go | fail | torn | tuned | respond => cases hexec
  | write pos data =>
      cases c with
      | go =>
          obtain ⟨v, hput, hpair⟩ := Option.map_eq_some_iff.1 hexec
          cases hpair
          exact ⟨.go, _, rfl, sees_put h hside hput remote.etag⟩
      | fail e done =>
          obtain ⟨v, hput, hpair⟩ := Option.map_eq_some_iff.1 hexec
          cases hpair
          exact ⟨.fail e done, _, rfl, sees_put h hside hput remote.etag⟩
      | torn | tuned | respond | complete => cases hexec
  | saveResume etag offset =>
      cases c with
      | go =>
          obtain ⟨v, hsaved, hpair⟩ := Option.map_eq_some_iff.1 hexec
          cases hpair
          exact ⟨.go, _, rfl, sees_saved h hside hsaved false⟩
      | torn =>
          obtain ⟨v, hsaved, hpair⟩ := Option.map_eq_some_iff.1 hexec
          cases hpair
          have hempty : (LocalContent.bytes []).state sys = none := sys.json.fromJson_nil
          have hseen := sees_saved h hside hsaved s.touched
          rw [hempty] at hseen
          exact ⟨.torn, _, rfl, hseen⟩
      | fail e done =>
          cases hexec
          exact ⟨.fail e done, s, rfl, h.of_dirsMade hside (dirsMade_partlyReady done)⟩
      | tuned | respond | complete => cases hexec
  | setLen n =>
      cases c with
      | go =>
          obtain ⟨v, hcut, hpair⟩ := Option.map_eq_some_iff.1 hexec
          cases hpair
          exact ⟨.go, _, rfl, sees_cut h hside hcut remote.etag⟩
      | fail e done =>
          cases hexec
          exact ⟨.fail e done, s, rfl, h⟩
      | torn | tuned | respond | complete => cases hexec

end Seen

end Libfw

import Libfw.FolderDownload
import Libfw.RemoteWalks

/-!
# Where a folder download writes

`download_folder` of `libfw-client/src/native/mod.rs` against a server that answers as it
likes: any listing, any metadata, any bodies.  A listed path whose segments are all dropped by
`join_virtual` means the destination directory itself, and its sidecar lies beside that.

`folder_stays_inside_iff`: every file that is opened, made or written lies below the
destination exactly when no such path is listed, or the destination cannot be made a file.
-/

namespace Libfw

open PosixStore SteppedPrograms SoloPrograms SegmentPaths StackWalk

/-! ## Paths below the destination -/

/-- A file name: no separator, and neither `.` nor `..`. -/
structure Ordinary (seg : Text) : Prop where
  nonempty : seg ≠ []
  noSlash : '/' ∉ seg
  notDot : seg ≠ ['.']
  notDotDot : seg ≠ ['.', '.']

/-- The path is the directory's, followed by one or more ordinary segments. -/
def InFolder (base p : FsPath) : Prop :=
  ∃ segs : List Text, segs ≠ [] ∧ (∀ seg ∈ segs, Ordinary seg) ∧ p = base ++ segs.map .normal

/-- The segments that `join_virtual` takes. -/
def keptSegments (path : Text) : List Text :=
  (path.splitOn '/').filter fun seg => seg ≠ [] ∧ seg ≠ ['.']

/-- A segment of the path is left. -/
def NamesFile (path : Text) : Prop := keptSegments path ≠ []

instance (path : Text) : Decidable (NamesFile path) := inferInstanceAs (Decidable (_ ≠ _))

/-- What `validate_relative` has let through and the join keeps is a plain name: the empty segments
and the dots are dropped, and a path with two dots or a backslash is refused. -/
theorem ordinary_keptSegments {path : Text} (h : validateRelative path = .ok ()) :
    ∀ seg ∈ keptSegments path, Ordinary seg := by
  intro seg hseg
  obtain ⟨hmem, hkept⟩ := List.mem_filter.1 hseg
  have hkept : seg ≠ [] ∧ seg ≠ ['.'] := of_decide_eq_true hkept
  have hsafe : ¬ ((path.splitOn '/').any fun seg => seg = ['.', '.'] || '\\' ∈ seg) = true := by
    intro hany
    unfold validateRelative at h
    split at h
    · cases h
    · cases h
  refine ⟨hkept.1, sep_not_mem_splitOn '/' hmem, hkept.2, ?_⟩
  intro hdots
  apply hsafe
  rw [List.any_eq_true]
  exact ⟨seg, hmem, by simp [hdots]⟩

/-- Where `join_virtual` leads for a path that is let through. -/
theorem joinVirtual_valid (base : FsPath) {path : Text} (h : validateRelative path = .ok ()) :
    joinVirtual base path = base ++ (keptSegments path).map .normal := by
  have hordinary := ordinary_keptSegments h
  have hkept : joinVirtual base path = base ++ (keptSegments path).map fun seg =>
      if seg = ['.', '.'] then .parentDir else .normal seg := rfl
  rw [hkept]
  congr 1
  apply List.map_congr_left
  intro seg hseg
  exact if_neg (hordinary seg hseg).notDotDot

theorem inFolder_joinVirtual (base : FsPath) {path : Text} (h : validateRelative path = .ok ())
    (hnames : NamesFile path) : InFolder base (joinVirtual base path) :=
  ⟨keptSegments path, hnames, ordinary_keptSegments h, joinVirtual_valid base h⟩

theorem joinVirtual_of_not_namesFile (base : FsPath) {path : Text}
    (h : validateRelative path = .ok ()) (hnames : ¬ NamesFile path) :
    joinVirtual base path = base := by
  have hnone : keptSegments path = [] := not_not.1 hnames
  rw [joinVirtual_valid base h, hnone, List.map_nil, List.append_nil]

/-- The sidecar of an ordinary name is one. -/
theorem Ordinary.sidecar {name : Text} (h : Ordinary name) : Ordinary (name ++ RESUME_SUFFIX) := by
  have hlen : 2 < (name ++ RESUME_SUFFIX).length := by
    rw [List.length_append]
    have hsuffix : 2 < RESUME_SUFFIX.length := by decide
    omega
  constructor
  · intro hnil
    rw [hnil] at hlen
    exact absurd hlen (by decide)
  · intro hslash
    rcases List.mem_append.1 hslash with hslash | hslash
    · exact h.noSlash hslash
    · exact absurd hslash (by decide)
  · intro hdot
    rw [hdot] at hlen
    exact absurd hlen (by decide)
  · intro hdots
    rw [hdots] at hlen
    exact absurd hlen (by decide)

/-- **A sidecar lies where its file does.** -/
theorem InFolder.resumePath {base p : FsPath} (h : InFolder base p) :
    InFolder base (resumePath p) := by
  obtain ⟨segs, hne, hall, rfl⟩ := h
  obtain ⟨init, name, rfl⟩ : ∃ init name, segs = init ++ [name] :=
    ⟨segs.dropLast, segs.getLast hne, (List.dropLast_append_getLast hne).symm⟩
  have hname := hall name (List.mem_append_right _ List.mem_cons_self)
  refine ⟨init ++ [name ++ RESUME_SUFFIX], by simp, ?_, ?_⟩
  · intro seg hseg
    rcases List.mem_append.1 hseg with hseg | hseg
    · exact hall seg (List.mem_append_left _ hseg)
    · rw [List.mem_singleton.1 hseg]
      exact hname.sidecar
  · rw [List.map_append, List.map_singleton, ← List.append_assoc, resumePath_append,
      List.map_append, List.map_singleton, ← List.append_assoc]

/-- What leads to a path below the directory leads to the directory, or lies below it. -/
theorem InFolder.above {base p q : FsPath} (h : InFolder base q) (hpq : p <+: q) :
    p <+: base ∨ InFolder base p := by
  obtain ⟨segs, -, hall, rfl⟩ := h
  rcases List.prefix_or_prefix_of_prefix hpq (List.prefix_append _ _) with hbase | ⟨more, rfl⟩
  · exact .inl hbase
  · have hmore := (List.prefix_append_right_inj base).1 hpq
    obtain ⟨taken, htaken, rfl⟩ := List.prefix_map_iff.1 hmore
    by_cases hnil : taken = []
    · left
      rw [hnil, List.map_nil, List.append_nil]
    · exact .inr ⟨taken, hnil, fun seg hseg => hall seg (htaken.subset hseg), rfl⟩

theorem not_inFolder_above {base p : FsPath} (h : p <+: base) : ¬ InFolder base p := by
  intro hin
  obtain ⟨segs, hne, -, rfl⟩ := hin
  have hlen := h.length_le
  rw [List.length_append, List.length_map] at hlen
  have hpos := List.length_pos_iff.2 hne
  omega

/-! ## Any server -/

/-- What the surroundings decide about a call: the local system as always, and an answer of
any kind from the server and the tuner. -/
inductive AnyChoice where
  | disk (c : NativeChoice)
  | reply (answer : (o : NativeOp) → o.Ans)

/-- The calls that are answered from elsewhere. -/
def NativeOp.offDisk : NativeOp → Bool
  | .prepareTransfer | .fetchMeta | .liveParams | .rangeRequest _ _ | .nextRange _ => true
  | _ => false

/-- A call on the local tree.  What ends in no name (`/`, `.`, `..`) is a directory, which
`open` refuses to make a file. -/
def NativeOp.onDisk (sys : LocalSystem) (dest : FsPath) :
    Exec NativeOp NativeOp.Ans NativeChoice LocalTree
  | .openDest, .go, t =>
      if dest.fileName = none then none
      else NativeOp.openDest.execAt sys ⟨[], 0⟩ ⟨[], []⟩ dest .go t
  | o, c, t => o.execAt sys ⟨[], 0⟩ ⟨[], []⟩ dest c t

/-- A call of the download to `dest`, whatever the server answers. -/
def NativeOp.execAny (sys : LocalSystem) (dest : FsPath) :
    Exec NativeOp NativeOp.Ans AnyChoice LocalTree
  | o, .reply answer, t => if o.offDisk then some (t, answer o) else none
  | o, .disk c, t => if o.offDisk then none else o.onDisk sys dest c t

/-- The downloads of `download_folder`, whatever the server answers. -/
def FolderClient.anyServer (client : FolderClient) (files : List FolderFile) :
    System NativeOp NativeOp.Ans FolderFile (Except ClientError Nat) AnyChoice Empty
      LocalTree where
  code := client.downloadEntry
  exec := fun i o c t =>
    match files[i]? with
    | some f => o.execAny client.sys (client.localPath f) c t
    | none => none
  enter := fun _ _ t => t
  leave := fun _ t => t
  disturb := fun e _ => nomatch e

/-- Files start in order, so many at a time, under any server. -/
def BufferedAny (client : FolderClient) (files : List FolderFile) (s : FolderState) :
    Act FolderFile AnyChoice Empty → Prop
  | .start i f => files[i]? = some f ∧ (∀ j < i, isIdle s j = false) ∧
      ((List.range files.length).countP (isWaiting s)) < max client.concurrency 1
  | .step _ _ => True
  | .drop _ => False
  | .env _ => False

instance (client : FolderClient) (files : List FolderFile) (s : FolderState)
    (a : Act FolderFile AnyChoice Empty) : Decidable (BufferedAny client files s a) := by
  cases a <;> unfold BufferedAny <;> infer_instance

/-- The calls that open, make or write a file, where they do. -/
def NativeOp.touches : (o : NativeOp) → o.Ans → Bool
  | .openDest, .ok _ => true
  | .write _ _, _ | .saveResume _ _, _ | .setLen _, _ | .flush, _ => true
  | _, _ => false

/-- What has changed lies below the directory, directories on the way to it apart. -/
def ChangedInside (base : FsPath) (before t : LocalTree) : Prop :=
  ∀ p, t p ≠ before p → InFolder base p ∨ (before p = .absent ∧ t p = .dir ∧ p <+: base)

/-- Nothing outside the destination is touched: a call that opens, makes or writes a file does
so below it, for the download and for its sidecar, and nothing elsewhere has changed. -/
structure StaysInside (client : FolderClient) (files : List FolderFile) (before : LocalTree)
    (s : FolderState) : Prop where
  touched : ∀ i f o k c u a, s.task i = .waiting f o k →
    (client.anyServer files).exec i o c s.shared = some (u, a) → o.touches a = true →
    InFolder client.base (client.localPath f) ∧
      InFolder client.base (resumePath (client.localPath f))
  changed : ChangedInside client.base before s.shared

/-- The destination directory itself could be made, or opened, as a file.  Where links in the
local tree lead is not asked: paths are compared as they are written. -/
structure Openable (t : LocalTree) (base : FsPath) : Prop where
  named : base.fileName ≠ none
  notDir : t base ≠ .dir
  way : ∀ parent, base.parent = some parent → ∀ p ∈ ancestors parent, (t p).isFile = false

/-! ## No file before it is opened -/

/-- Whether the destination may have been opened, after a call. -/
def mayBeOpen (opened : Bool) (o : NativeOp) (a : o.Ans) : Bool :=
  opened || match o, a with
    | .openDest, .ok _ => true
    | _, _ => false

/-- The calls on the file come when it has been opened. -/
def OpenFirst (opened : Bool) (o : NativeOp) : Prop :=
  match o with
  | .write _ _ | .saveResume _ _ | .setLen _ | .flush => opened = true
  | _ => True

/-- The program keeps to that order. -/
abbrev OpensFirst {ρ : Type} (p : NativeProg ρ) (opened : Bool) : Prop :=
  p.Staged OpenFirst mayBeOpen (fun _ _ => True) opened

theorem opensFirst_opened {ρ : Type} (p : NativeProg ρ) : OpensFirst p true := by
  induction p with
  | done r => trivial
  | call o k ih =>
      refine ⟨?_, ih⟩
      cases o <;> trivial

theorem opensFirst_transferFrom (cfg : NativeConfig) (etag : Text) (size start : Nat)
    (opened : Bool) : OpensFirst (transferFrom cfg etag size start) opened := by
  refine ⟨trivial, ?_⟩
  intro r
  cases r with
  | error e => trivial
  | ok _ =>
      have hopen : mayBeOpen opened .openDest (.ok ()) = true := Bool.or_true opened
      rw [hopen]
      exact opensFirst_opened _

theorem opensFirst_downloadOnce (cfg : NativeConfig) (forceRestart opened : Bool) :
    OpensFirst (downloadOnce cfg forceRestart) opened := by
  refine ⟨trivial, ?_⟩
  intro r
  cases r with
  | error e => trivial
  | ok found =>
      obtain ⟨etag, size⟩ := found
      refine ⟨trivial, fun saved => ⟨trivial, fun localLen => ?_⟩⟩
      dsimp only
      split
      · trivial
      · exact opensFirst_transferFrom cfg etag size _ _

theorem opensFirst_downloadFile (cfg : NativeConfig) (opened : Bool) :
    OpensFirst (downloadFile cfg) opened := by
  refine ⟨trivial, ?_⟩
  intro r
  cases r with
  | error e => trivial
  | ok _ =>
      refine (Prog.staged_bind (downloadOnce cfg false) _ _).2 ?_
      apply (opensFirst_downloadOnce cfg false _).mono
      intro opened r _
      cases r with
      | ok moved => trivial
      | error e =>
          dsimp only
          split
          · exact opensFirst_downloadOnce cfg true opened
          · trivial

/-! ## One call -/

section Calls

variable {sys : LocalSystem} {dest : FsPath} {o : NativeOp} {t u : LocalTree}

theorem execAny_reply (answer : (o : NativeOp) → o.Ans) :
    o.execAny sys dest (.reply answer) t = if o.offDisk then some (t, answer o) else none := rfl

theorem execAny_disk (c : NativeChoice) :
    o.execAny sys dest (.disk c) t = if o.offDisk then none else o.onDisk sys dest c t := rfl

/-- What a call on the local tree did is what it does there for any server. -/
theorem execAt_of_onDisk {c : NativeChoice} {a : o.Ans}
    (h : o.onDisk sys dest c t = some (u, a)) :
    o.execAt sys ⟨[], 0⟩ ⟨[], []⟩ dest c t = some (u, a) := by
  unfold NativeOp.onDisk at h
  split at h
  · split at h
    · cases h
    · exact h
  · exact h

/-- Opening succeeds only where the destination is openable. -/
theorem openable_of_openDest {c : AnyChoice} {r : Unit}
    (h : NativeOp.openDest.execAny sys dest c t = some (u, .ok r)) : Openable t dest := by
  cases c with
  | reply answer => cases h
  | disk c =>
      cases c with
      | go =>
          have hopen : (if dest.fileName = none then none
              else NativeOp.openDest.execAt sys ⟨[], 0⟩ ⟨[], []⟩ dest .go t) =
                some (u, .ok r) := h
          split at hopen
          · cases hopen
          · next hnamed =>
              obtain ⟨v, hv, -⟩ := Option.map_eq_some_iff.1 hopen
              obtain ⟨w, hready, hopened⟩ := Option.bind_eq_some_iff.1 hv
              have hmade := dirsMade_ready hready
              have hdir := hmade.eq_of_not_prefix (.inl rfl)
              refine ⟨hnamed, ?_, ?_⟩
              · intro hisDir
                rw [hisDir] at hdir
                unfold LocalTree.opened at hopened
                rw [hdir] at hopened
                cases hopened
              · intro parent hparent p hp
                unfold LocalTree.ready at hready
                rw [hparent] at hready
                dsimp only at hready
                split at hready
                · cases hready
                · next hway =>
                    simp only [List.any_eq_true, not_exists, not_and,
                      Bool.not_eq_true] at hway
                    exact hway p hp
      | fail | torn | tuned | respond | complete => cases h

/-- A call before the destination is opened makes directories at most. -/
theorem dirsMade_of_execAny {c : AnyChoice} {a : o.Ans}
    (h : o.execAny sys dest c t = some (u, a)) (ho : OpenFirst false o)
    (ha : mayBeOpen false o a = false) : DirsMade dest t u := by
  cases c with
  | reply answer =>
      rw [execAny_reply] at h
      split at h
      · cases h
        exact fun _ => .inl rfl
      · cases h
  | disk c =>
      rw [execAny_disk] at h
      split at h
      · cases h
      · next hoff =>
          have hexec := execAt_of_onDisk h
          cases o with
          | write | saveResume | setLen | flush => exact absurd ho Bool.false_ne_true
          | prepareTransfer | fetchMeta | liveParams | rangeRequest | nextRange =>
              exact absurd rfl hoff
          | loadResume | localLen =>
              rw [execAt_looks rfl hexec]
              exact fun _ => .inl rfl
          | openDest =>
              cases c with
              | go =>
                  obtain ⟨v, -, hpair⟩ := Option.map_eq_some_iff.1 hexec
                  cases hpair
                  cases ha
              | fail e done =>
                  cases hexec
                  exact dirsMade_partlyReady done
              | torn | tuned | respond | complete => cases hexec

/-- Any call leaves all but its destination and sidecar alone. -/
theorem frame_of_execAny {c : AnyChoice} {a : o.Ans}
    (h : o.execAny sys dest c t = some (u, a)) : Framed dest t u := by
  cases c with
  | reply answer =>
      rw [execAny_reply] at h
      split at h
      · cases h
        exact frame_refl
      · cases h
  | disk c =>
      rw [execAny_disk] at h
      split at h
      · cases h
      · exact execAt_frame (execAt_of_onDisk h)

end Calls

/-! ## Whole runs -/

section Changes

variable {base : FsPath} {before t u : LocalTree}

theorem ChangedInside.eq_above (h : ChangedInside base before t) {p : FsPath}
    (hp : p <+: base) (hthere : before p ≠ .absent) : t p = before p := by
  by_contra hne
  rcases h p hne with hin | ⟨habsent, -⟩
  · exact not_inFolder_above hp hin
  · exact hthere habsent

/-- A directory that is made where nothing was. -/
theorem ChangedInside.made (h : ChangedInside base before t) {p : FsPath} (habsent : t p = .absent)
    (hdir : u p = .dir) (hp : p <+: base ∨ InFolder base p) :
    InFolder base p ∨ (before p = .absent ∧ u p = .dir ∧ p <+: base) := by
  rcases hp with hp | hin
  · by_cases hbefore : before p = .absent
    · exact .inr ⟨hbefore, hdir, hp⟩
    · exact absurd ((h.eq_above hp hbefore).symm.trans habsent) hbefore
  · exact .inl hin

theorem ChangedInside.frame (h : ChangedInside base before t) {dest : FsPath}
    (hdest : InFolder base dest) (hframe : Framed dest t u) : ChangedInside base before u := by
  intro p hp
  by_cases hpd : p = dest
  · rw [hpd]
    exact .inl hdest
  · by_cases hpr : p = resumePath dest
    · rw [hpr]
      exact .inl hdest.resumePath
    · rcases hframe p hpd hpr with heq | ⟨habsent, hdir, hpre, -⟩
      · rw [heq] at hp ⊢
        exact h p hp
      · exact h.made habsent hdir (hdest.above hpre)

theorem ChangedInside.dirsMade (h : ChangedInside base before t) (hmade : DirsMade base t u) :
    ChangedInside base before u := by
  intro p hp
  rcases hmade p with heq | ⟨habsent, hdir, hpre, -⟩
  · rw [heq] at hp ⊢
    exact h p hp
  · exact h.made habsent hdir (.inl hpre)

/-- What can be opened now could have been before. -/
theorem Openable.earlier (h : Openable t base) (hchanged : ChangedInside base before t) :
    Openable before base := by
  refine ⟨h.named, ?_, ?_⟩
  · intro hdir
    apply h.notDir
    rw [hchanged.eq_above (List.prefix_refl base), hdir]
    rw [hdir]
    exact LocalEntry.noConfusion
  · intro parent hparent p hp
    obtain ⟨hpre, -⟩ := prefix_of_mem_ancestors hparent hp
    by_cases habsent : before p = .absent
    · rw [habsent]
      rfl
    · rw [← hchanged.eq_above hpre habsent]
      exact h.way parent hparent p hp

end Changes

section Runs

variable {client : FolderClient} {files : List FolderFile} {before : LocalTree}

/-- How a download stands: it may have opened its destination only if its path names a
file. -/
def StandsInside (files : List FolderFile) (i : Nat) (f : FolderFile)
    (p : NativeProg (Except ClientError Nat)) : Prop :=
  files[i]? = some f ∧ OpensFirst p (decide (NamesFile f.path)) ∧
    (validateRelative f.path = .ok () ∨ ∃ r, p = .done r)

theorem standsInside_downloadEntry {i : Nat} {f : FolderFile} (hf : files[i]? = some f) :
    StandsInside files i f (client.downloadEntry f) := by
  unfold FolderClient.downloadEntry
  cases hvalid : validateRelative f.path with
  | error e => exact ⟨hf, trivial, .inr ⟨_, rfl⟩⟩
  | ok u => exact ⟨hf, opensFirst_downloadFile _ _, .inl hvalid⟩

/-- One call of a download that stands so: before its file is opened it makes directories at
most, and it does not open what names no file. -/
theorem standsInside_step {i : Nat} {f : FolderFile} {o : NativeOp} {c : AnyChoice}
    {k : o.Ans → NativeProg (Except ClientError Nat)} {t u : LocalTree} {a : o.Ans}
    (hsafe : NamesFile f.path ∨ ¬ Openable before client.base)
    (hstands : StandsInside files i f (.call o k)) (ht : ChangedInside client.base before t)
    (hexec : (client.anyServer files).exec i o c t = some (u, a)) :
    ChangedInside client.base before u ∧ StandsInside files i f (k a) ∧
      (o.touches a = true → InFolder client.base (client.localPath f)) := by
  obtain ⟨hf, ⟨hfirst, hrest⟩, hvalid | ⟨r, hdone⟩⟩ := hstands
  · have hcall : o.execAny client.sys (client.localPath f) c t = some (u, a) := by
      simp only [FolderClient.anyServer, hf] at hexec
      exact hexec
    by_cases hnames : NamesFile f.path
    · have hin : InFolder client.base (client.localPath f) :=
        inFolder_joinVirtual client.base hvalid hnames
      refine ⟨ht.frame hin (frame_of_execAny hcall), ⟨hf, ?_, .inl hvalid⟩, fun _ => hin⟩
      rw [decide_eq_true hnames]
      exact opensFirst_opened _
    · have hbase : client.localPath f = client.base :=
        joinVirtual_of_not_namesFile client.base hvalid hnames
      rw [hbase] at hcall
      rw [decide_eq_false hnames] at hfirst hrest
      have hclosed : mayBeOpen false o a = false := by
        by_contra hopen
        cases o with
        | openDest =>
            cases a with
            | ok r =>
                have hopenable := openable_of_openDest hcall
                exact hsafe.elim hnames fun hnot => hnot (hopenable.earlier ht)
            | error e => exact hopen rfl
        | _ => exact hopen rfl
      refine ⟨ht.dirsMade (dirsMade_of_execAny hcall hfirst hclosed), ⟨hf, ?_, .inl hvalid⟩, ?_⟩
      · have hnext := hrest a
        rw [hclosed] at hnext
        rw [decide_eq_false hnames]
        exact hnext
      · intro htouches
        cases o with
        | openDest =>
            cases a with
            | ok r => cases hclosed
            | error e => cases htouches
        | write | saveResume | setLen | flush => exact absurd hfirst Bool.false_ne_true
        | prepareTransfer | fetchMeta | loadResume | localLen | liveParams | rangeRequest |
            nextRange => cases htouches
  · cases hdone

/-- **In every run of a folder whose paths name files, or whose destination cannot be made
one, nothing outside is touched.** -/
theorem staysInside_of_reaches
    (hsafe : ∀ f ∈ files, NamesFile f.path ∨ ¬ Openable before client.base) {s : FolderState}
    (hrun : (client.anyServer files).Reaches (BufferedAny client files) (notStarted before) s) :
    StaysInside client files before s := by
  obtain ⟨hchanged, hkeeping⟩ : ChangedInside client.base before s.shared ∧
      System.Keeping (StandsInside files) s := by
    apply System.Reaches.keeping _ (fun _ _ _ h => h) (fun _ _ h => h) _ _ (fun _ => rfl) _ hrun
    · intro u i f hok
      exact standsInside_downloadEntry hok.1
    · intro i c f o k t u a hstands ht hexec
      have hmem : f ∈ files := List.mem_of_getElem? hstands.1
      obtain ⟨hu, hnext, -⟩ := standsInside_step (hsafe f hmem) hstands ht hexec
      exact ⟨hu, hnext⟩
    · intro u e
      cases e
    · intro p hp
      exact absurd rfl hp
  refine ⟨?_, hchanged⟩
  intro i f o k c u a hwait hexec htouches
  have hstands := hkeeping i f o k hwait
  have hmem : f ∈ files := List.mem_of_getElem? hstands.1
  obtain ⟨-, -, hin⟩ := standsInside_step (hsafe f hmem) hstands hchanged hexec
  have hdest := hin htouches
  exact ⟨hdest, hdest.resumePath⟩

/-! ## A path that names no file -/

/-- One more call of the download that has just moved. -/
theorem reaches_call {s : FolderState} {i : Nat} {f : FolderFile} {o : NativeOp}
    {k : o.Ans → NativeProg (Except ClientError Nat)} {t u : LocalTree} {a : o.Ans}
    {c : AnyChoice}
    (hrun : (client.anyServer files).Reaches (BufferedAny client files) (notStarted before)
      ((client.anyServer files).put s t i f (.call o k)))
    (hexec : (client.anyServer files).exec i o c t = some (u, a)) :
    (client.anyServer files).Reaches (BufferedAny client files) (notStarted before)
      ((client.anyServer files).put s u i f (k a)) := by
  have hnext : (client.anyServer files).next
      ((client.anyServer files).put s t i f (.call o k)) (.step i c) =
        some ((client.anyServer files).put s u i f (k a)) := by
    have hput : ∀ p, (client.anyServer files).put (s.set t i (.waiting f o k)) u i f p =
        (client.anyServer files).put s u i f p := by
      intro p
      cases p <;>
      · simp only [System.put, State.set, State.mk.injEq]
        refine ⟨trivial, ?_⟩
        funext j
        by_cases hj : j = i
        · simp only [hj, if_true]
        · simp only [hj, if_false]
    simp only [System.put, System.next, State.set_task_self, State.set_shared, hexec]
    exact congrArg some (hput (k a))
  exact hrun.tail (a := .step i c) trivial hnext

/-- A download starts when none is waiting. -/
theorem reaches_start {s : FolderState} {n : Nat} {f : FolderFile}
    (hrun : (client.anyServer files).Reaches (BufferedAny client files) (notStarted before) s)
    (hshared : s.shared = before) (hwaiting : ∀ j, isWaiting s j = false)
    (hbusy : ∀ j < n, isIdle s j = false) (hidle : s.task n = .idle) (hf : files[n]? = some f) :
    (client.anyServer files).Reaches (BufferedAny client files) (notStarted before)
      ((client.anyServer files).put s before n f (client.downloadEntry f)) := by
  have hnone : (List.range files.length).countP (isWaiting s) = 0 := by
    rw [List.countP_eq_zero]
    intro j _
    rw [hwaiting j]
    exact Bool.false_ne_true
  apply hrun.tail (a := .start n f)
  · exact ⟨hf, hbusy, by omega⟩
  · simp only [System.next, hidle, hshared]
    rfl

/-- A server that lets a download begin, or not, says how long its file is, and sends some
body for it. -/
def answering (begins : Except ClientError Unit) (size : Nat)
    (body : Except ClientError RangeBody) : (o : NativeOp) → o.Ans
  | .prepareTransfer => begins
  | .fetchMeta => .ok ([], size)
  | .loadResume => (none : Option ResumeState)
  | .localLen => (0 : Nat)
  | .openDest => .ok ()
  | .liveParams => ((1 : Nat), (1 : Nat))
  | .rangeRequest _ _ => body
  | .nextRange _ => ((0 : Nat), .error .cancelled)
  | .write _ _ => .ok ()
  | .saveResume _ _ => ()
  | .setLen _ => .ok ()
  | .flush => .ok ()

/-- The downloads of a folder before some file may all have failed at once. -/
theorem reaches_failed (client : FolderClient) (before : LocalTree) {n : Nat}
    (hn : n ≤ files.length) : ∃ s : FolderState,
    (client.anyServer files).Reaches (BufferedAny client files) (notStarted before) s ∧
      s.shared = before ∧ (∀ j, isWaiting s j = false) ∧ (∀ j < n, isIdle s j = false) ∧
      ∀ j, n ≤ j → s.task j = .idle := by
  induction n with
  | zero =>
      refine ⟨notStarted before, .refl, rfl, fun _ => rfl, ?_, fun _ _ => rfl⟩
      intro j hj
      exact absurd hj (Nat.not_lt_zero j)
  | succ n ih =>
      obtain ⟨s, hrun, hshared, hwaiting, hbusy, hidle⟩ := ih (by omega)
      have hf : files[n]? = some files[n] := List.getElem?_eq_getElem (by omega)
      have hstart := reaches_start hrun hshared hwaiting hbusy (hidle n le_rfl) hf
      have hfails : ∃ e, (client.anyServer files).Reaches (BufferedAny client files)
          (notStarted before) ((client.anyServer files).put s before n files[n]
            (.done (.error e))) := by
        unfold FolderClient.downloadEntry at hstart
        cases hvalid : validateRelative files[n].path with
        | error e =>
            rw [hvalid] at hstart
            exact ⟨e, hstart⟩
        | ok u =>
            rw [hvalid] at hstart
            let answer := answering (.error .cancelled) 0 (.error .cancelled)
            have hrefused := reaches_call (c := .reply answer) hstart
              (by simp only [FolderClient.anyServer, hf]; rfl)
            exact ⟨_, hrefused⟩
      obtain ⟨e, hended⟩ := hfails
      refine ⟨_, hended, rfl, ?_, ?_, ?_⟩
      · intro j
        by_cases hj : j = n
        · simp only [isWaiting, System.put, hj, State.set_task_self]
        · simp only [isWaiting, System.put_task_ne _ _ _ _ hj]
          exact hwaiting j
      · intro j hlt
        by_cases hj : j = n
        · simp only [isIdle, System.put, hj, State.set_task_self]
        · simp only [isIdle, System.put_task_ne _ _ _ _ hj]
          exact hbusy j (by omega)
      · intro j hle
        rw [System.put_task_ne _ _ _ _ (by omega)]
        exact hidle j (by omega)

theorem Openable.opens {base : FsPath} (h : Openable before base) (sys : LocalSystem) :
    ∃ u, NativeOp.openDest.execAny sys base (.disk .go) before = some (u, .ok ()) := by
  have hready : ∃ t, before.ready base = some t := by
    unfold LocalTree.ready
    cases hparent : base.parent with
    | none => exact ⟨before, rfl⟩
    | some parent =>
        have hway : ((ancestors parent).any fun p => (before p).isFile) = false := by
          simpa using h.way parent hparent
        exact ⟨_, if_neg (by rw [hway]; exact Bool.false_ne_true)⟩
  obtain ⟨t, ht⟩ := hready
  have hopened : ∃ u, t.opened base = some u := by
    have hmade := dirsMade_ready ht
    have hbase := hmade.eq_of_not_prefix (.inl rfl)
    unfold LocalTree.opened
    cases hentry : t base with
    | absent => exact ⟨_, rfl⟩
    | file content => exact ⟨_, rfl⟩
    | dir => exact absurd (hbase.symm.trans hentry) h.notDir
  obtain ⟨u, hu⟩ := hopened
  refine ⟨u, ?_⟩
  have hcall : (if base.fileName = none then none
      else NativeOp.openDest.execAt sys ⟨[], 0⟩ ⟨[], []⟩ base .go before) = some (u, .ok ()) := by
    rw [if_neg h.named]
    simp [NativeOp.execAt, ht, hu]
  exact hcall

/-- **A file whose path keeps no segment is downloaded to the destination itself.** -/
theorem reaches_openDest {i : Nat} {f : FolderFile} (hf : files[i]? = some f)
    (hvalid : validateRelative f.path = .ok ()) (hnames : ¬ NamesFile f.path)
    (hopenable : Openable before client.base) : ∃ s : FolderState,
    (client.anyServer files).Reaches (BufferedAny client files) (notStarted before) s ∧
      ∃ k u, s.task i = .waiting f .openDest k ∧
        (client.anyServer files).exec i .openDest (.disk .go) s.shared = some (u, .ok ()) := by
  have hbase : client.localPath f = client.base :=
    joinVirtual_of_not_namesFile client.base hvalid hnames
  have hexec : ∀ o c t, (client.anyServer files).exec i o c t =
      o.execAny client.sys client.base c t := by
    intro o c t
    simp only [FolderClient.anyServer, hf, hbase]
  obtain ⟨hlt, -⟩ := List.getElem?_eq_some_iff.1 hf
  obtain ⟨s, hrun, hshared, hwaiting, hbusy, hidle⟩ :=
    reaches_failed client before (Nat.le_of_lt hlt)
  have hstart := reaches_start hrun hshared hwaiting hbusy (hidle i le_rfl) hf
  have hentry : client.downloadEntry f = downloadFile (client.config f) := by
    unfold FolderClient.downloadEntry
    rw [hvalid]
  rw [hentry] at hstart
  -- The server offers one byte more than the destination is said to hold.
  let answer := answering (.ok ()) (before.lenAt client.sys client.base + 1) (.error .cancelled)
  have hbegun := reaches_call (c := .reply answer) hstart (hexec _ _ _)
  have hmeta := reaches_call (c := .reply answer) hbegun (hexec _ _ _)
  have hsaved := reaches_call (c := .disk .go) hmeta (hexec _ _ _)
  have hlen := reaches_call (c := .disk .go) hsaved (hexec _ _ _)
  have hstart_ne : resumeStart false [] (before.lenAt client.sys client.base + 1)
      (before.resumeAt client.sys client.base) (before.lenAt client.sys client.base) ≠
        before.lenAt client.sys client.base + 1 := by
    unfold resumeStart
    split
    · split
      · next hwithin =>
          intro heq
          omega
      · exact (Nat.succ_ne_zero _).symm
    · exact (Nat.succ_ne_zero _).symm
  dsimp only at hlen
  rw [if_neg hstart_ne] at hlen
  obtain ⟨u, hu⟩ := hopenable.opens client.sys
  refine ⟨_, hlen, _, u, State.set_task_self _ _ _ _, ?_⟩
  rw [hexec]
  exact hu

/-- A folder that stays inside in every run names files, or cannot make its destination one. -/
theorem names_of_staysInside {i : Nat} {f : FolderFile} (hf : files[i]? = some f)
    (hvalid : validateRelative f.path = .ok ())
    (h : ∀ s, (client.anyServer files).Reaches (BufferedAny client files) (notStarted before) s →
      StaysInside client files before s) : NamesFile f.path ∨ ¬ Openable before client.base := by
  by_contra hnot
  obtain ⟨hnames, hopenable⟩ := not_or.1 hnot
  obtain ⟨s, hrun, k, u, hwait, hexec⟩ :=
    reaches_openDest hf hvalid hnames (not_not.1 hopenable)
  obtain ⟨hin, -⟩ := (h s hrun).touched i f _ k _ u _ hwait hexec rfl
  rw [FolderClient.localPath, joinVirtual_of_not_namesFile client.base hvalid hnames] at hin
  exact not_inFolder_above (List.prefix_refl _) hin

end Runs

/-! ## What a server lists -/

/-- The walk over the listings comes to its end. -/
structure Collectable (list : Listings) (dir : Text) : Prop where
  finite : {d | Reach (takenListing validateRelative list) dir d}.Finite
  sound : Sound (takenListing validateRelative list) dir

/-- The file is listed in a directory that is reached. -/
def Listed (list : Listings) (dir : Text) (f : FolderFile) : Prop :=
  ∃ d, Reach (takenListing validateRelative list) dir d ∧ f ∈ filesListed list d

theorem collectRemoteFiles_eq (list : Listings) (fuel : Nat) (dir : Text) :
    collectRemoteFiles list fuel dir =
      (walk (takenListing validateRelative list) fuel [dir] []).map (·.map sortByPath) := by
  rw [collectRemoteFiles, collectFrom_eq, walkListings_eq]

/-- **What is collected is what is listed.** -/
theorem mem_collected {list : Listings} {fuel : Nat} {dir : Text} {files : List FolderFile}
    (h : collectRemoteFiles list fuel dir = some (.ok files)) :
    Collectable list dir ∧ ∀ f, f ∈ files ↔ Listed list dir f := by
  rw [collectRemoteFiles_eq] at h
  obtain ⟨r, hr, hfiles⟩ := Option.map_eq_some_iff.1 h
  cases r with
  | error e => cases hfiles
  | ok found =>
      cases hfiles
      obtain ⟨hfinite, hsound⟩ := succeeds_iff.1 ⟨fuel, found, hr⟩
      refine ⟨⟨hfinite, hsound⟩, ?_⟩
      intro f
      obtain ⟨seen, hseen, rfl⟩ := visits_of_walk hr
      rw [mem_sortByPath, List.nil_append, List.mem_flatMap]
      constructor
      · intro hf
        obtain ⟨d, hd, hheld⟩ := hf
        have hreach : Reach (takenListing validateRelative list) dir d := by
          simpa using hseen.mem_iff.1 hd
        rw [held_takenListing (hsound d hreach).1] at hheld
        exact ⟨d, hreach, hheld⟩
      · intro hf
        obtain ⟨d, hreach, hlisted⟩ := hf
        rw [← held_takenListing (hsound d hreach).1] at hlisted
        exact ⟨d, hseen.mem_iff.2 ⟨dir, List.mem_cons_self, hreach⟩, hlisted⟩

/-- Every path that is taken has been let through. -/
theorem takeListed_checked {check : Text → Except ClientError Unit} {entries : List RemoteEntry}
    {stack : List Text} {out : List FolderFile} {r : List Text × List FolderFile}
    (h : takeListed check entries stack out = .ok r) :
    ∀ e ∈ entries, check e.path = .ok () := by
  induction entries generalizing stack out with
  | nil => simp
  | cons entry rest ih =>
      rw [takeListed] at h
      cases hcheck : check entry.path with
      | error e => simp [hcheck] at h
      | ok u =>
          have hrest : ∀ e ∈ rest, check e.path = .ok () := by
            cases hfile : entry.file with
            | none =>
                simp only [hcheck, hfile] at h
                exact ih h
            | some remote =>
                simp only [hcheck, hfile] at h
                exact ih h
          intro e he
          rcases List.mem_cons.1 he with rfl | he
          · exact hcheck
          · exact hrest e he

theorem Listed.valid {list : Listings} {dir : Text} {f : FolderFile} (h : Listed list dir f)
    (hcollect : Collectable list dir) : validateRelative f.path = .ok () := by
  obtain ⟨d, hreach, hf⟩ := h
  have hopen := expand_of_not_stuck (hcollect.sound d hreach).1
  unfold takenListing at hopen
  unfold filesListed at hf
  cases hlist : list d with
  | error e => simp [hlist] at hf
  | ok entries =>
      simp only [hlist] at hopen hf
      obtain ⟨e, he, hfile⟩ := List.mem_filterMap.1 hf
      obtain ⟨remote, -, rfl⟩ := Option.map_eq_some_iff.1 hfile
      cases htake : takeListed validateRelative entries [] [] with
      | error e => simp [htake] at hopen
      | ok r => exact takeListed_checked htake e he

/-- **A folder download stays below its destination, whatever the server lists and answers,
exactly when every listed path keeps a segment, or the destination cannot be opened as a
file.** -/
theorem folder_stays_inside_iff (client : FolderClient) (list : Listings) (dir : Text)
    (before : LocalTree) :
    (∀ fuel files s, collectRemoteFiles list fuel dir = some (.ok files) →
      (client.anyServer files).Reaches (BufferedAny client files) (notStarted before) s →
      StaysInside client files before s) ↔
    (Collectable list dir → ∀ f, Listed list dir f →
      NamesFile f.path ∨ ¬ Openable before client.base) := by
  constructor
  · intro hall hcollect f hf
    have hends : ∃ fuel files, collectRemoteFiles list fuel dir = some (.ok files) := by
      obtain ⟨fuel, found, hwalk⟩ := succeeds_iff.2 ⟨hcollect.finite, hcollect.sound⟩
      refine ⟨fuel, sortByPath found, ?_⟩
      rw [collectRemoteFiles_eq, hwalk]
      rfl
    obtain ⟨fuel, files, hfiles⟩ := hends
    obtain ⟨i, hi⟩ := List.mem_iff_getElem?.1 (((mem_collected hfiles).2 f).2 hf)
    exact names_of_staysInside hi (hf.valid hcollect) fun s hrun => hall fuel files s hfiles hrun
  · intro hsafe fuel files s hfiles hrun
    obtain ⟨hcollect, hmem⟩ := mem_collected hfiles
    apply staysInside_of_reaches _ hrun
    intro f hf
    exact hsafe hcollect f ((hmem f).1 hf)

/-! ### A path that is empty -/

/-- A server whose one file has the empty path. -/
def unnamedFile : FolderFile := ⟨[], ⟨"v1".toList, [0x61]⟩⟩

def unnamedListings : Listings := fun _ => .ok [⟨unnamedFile.path, some unnamedFile.remote⟩]

/-- The destination is not there yet. -/
def noFolderTree : LocalTree := fun p => if p = [.rootDir] then .dir else .absent

/-- The download of that file goes well. -/
def unnamedDownload : List (Act FolderFile AnyChoice Empty) :=
  let reply := AnyChoice.reply (answering (.ok ()) 1 (.ok ⟨[.ok [0x61]], .ok []⟩))
  .start 0 unnamedFile :: ([reply, reply, .disk .go, .disk .go, .disk .go, reply, .disk .go,
    .disk .go, .disk .go, .disk .go].map (.step 0))

def unnamedRun : Option FolderState :=
  (sampleClient.anyServer [unnamedFile]).runIf
    (fun s a => BufferedAny sampleClient [unnamedFile] s a) (notStarted noFolderTree)
    unnamedDownload

/-- The file beside the destination. -/
def outsideSidecar : FsPath := [.rootDir, .normal "out.libfw-resume.json".toList]

/-- **A file with an empty path leaves a sidecar beside the destination.** -/
theorem empty_path_leaves_folder :
    collectRemoteFiles unnamedListings 2 [] = some (.ok [unnamedFile]) ∧ ∃ s,
      (sampleClient.anyServer [unnamedFile]).Reaches (BufferedAny sampleClient [unnamedFile])
        (notStarted noFolderTree) s ∧
      noFolderTree outsideSidecar = .absent ∧ (s.shared outsideSidecar).isFile = true ∧
      ¬ InFolder sampleClient.base outsideSidecar ∧
      ¬ StaysInside sampleClient [unnamedFile] noFolderTree s := by
  have hrun : (unnamedRun.any fun s => (s.shared outsideSidecar).isFile) = true := by
    decide +kernel
  obtain ⟨s, hs, hfile⟩ := (Option.any_eq_true _ _).1 hrun
  have hreach : (sampleClient.anyServer [unnamedFile]).Reaches
      (BufferedAny sampleClient [unnamedFile]) (notStarted noFolderTree) s :=
    System.reaches_of_runIf (fun _ _ htest => of_decide_eq_true htest) hs
  have hout : ¬ InFolder sampleClient.base outsideSidecar := by
    intro hin
    obtain ⟨segs, hne, -, heq⟩ := hin
    have hlen := congrArg List.length heq
    rw [List.length_append, List.length_map] at hlen
    have hpos := List.length_pos_iff.2 hne
    have hbase : sampleClient.base.length = outsideSidecar.length := rfl
    omega
  have habsent : noFolderTree outsideSidecar = .absent := rfl
  refine ⟨by decide +kernel, s, hreach, habsent, hfile, hout, ?_⟩
  intro hinside
  have hchanged : s.shared outsideSidecar ≠ noFolderTree outsideSidecar := by
    intro heq
    rw [heq, habsent] at hfile
    cases hfile
  rcases hinside.changed outsideSidecar hchanged with hin | ⟨-, hdir, -⟩
  · exact hout hin
  · rw [hdir] at hfile
    cases hfile

end Libfw

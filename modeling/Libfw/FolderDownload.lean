import Libfw.LocalFolders
import Libfw.NativeResume
import Libfw.PrivateViews

/-!
# Folder downloads of the native client

`download_folder` of `libfw-client/src/native/mod.rs`: it lists the tree, and downloads its
files beside each other, each with a resume sidecar next to it.  A sidecar's name is that of
the file with a suffix, and so may be the name of another file of the tree.

* `prepared_folder_reproduces` — where no file is the sidecar of one that has bytes, and each
  download starts well, a download that succeeds leaves the tree, in every order of steps.
* `sidecar_overwrites_file` — otherwise a sidecar may be left in the place of a file.
-/

namespace Libfw

open PosixStore SteppedPrograms SoloPrograms PrivateViews SegmentPaths

deriving instance DecidableEq for Remote, FolderFile, RemoteEntry

/-! ## The code -/

/-- A client that downloads to a folder. -/
structure FolderClient where
  maxRetries : Nat
  concurrency : Nat
  sys : LocalSystem
  base : FsPath

namespace FolderClient

variable (client : FolderClient)

/-- Where a file goes. -/
def localPath (f : FolderFile) : FsPath := joinVirtual client.base f.path

def config (f : FolderFile) : NativeConfig := ⟨f.path, client.maxRetries⟩

/-- `download_file`, with its check of the path. -/
def downloadEntry (f : FolderFile) : NativeProg (Except ClientError Nat) :=
  match validateRelative f.path with
  | .error e => .done (.error e)
  | .ok _ => downloadFile (client.config f)

/-- The downloads of `download_folder`, over the local tree. -/
def folderSystem (files : List FolderFile) :
    System NativeOp NativeOp.Ans FolderFile (Except ClientError Nat) NativeChoice Empty
      LocalTree where
  code := client.downloadEntry
  exec := fun i o c t =>
    match files[i]? with
    | some f => o.execAt client.sys (client.config f) f.remote (client.localPath f) c t
    | none => none
  enter := fun _ _ t => t
  leave := fun _ t => t
  disturb := fun e _ => nomatch e

end FolderClient

abbrev FolderState := State NativeOp NativeOp.Ans FolderFile (Except ClientError Nat) LocalTree

abbrev FolderAct := Act FolderFile NativeChoice Empty

/-- No download has started. -/
def notStarted (t : LocalTree) : FolderState := ⟨t, fun _ => .idle⟩

def isIdle (s : FolderState) (i : Nat) : Bool :=
  match s.task i with
  | .idle => true
  | _ => false

def isWaiting (s : FolderState) (i : Nat) : Bool :=
  match s.task i with
  | .waiting _ _ _ => true
  | _ => false

/-- `buffer_unordered`: files start in order, so many at a time. -/
def Buffered (client : FolderClient) (files : List FolderFile) (s : FolderState) :
    FolderAct → Prop
  | .start i f => files[i]? = some f ∧ (∀ j < i, isIdle s j = false) ∧
      ((List.range files.length).countP (isWaiting s)) < max client.concurrency 1
  | .step _ _ => True
  | .drop _ => False
  | .env _ => False

instance (client : FolderClient) (files : List FolderFile) (s : FolderState) (a : FolderAct) :
    Decidable (Buffered client files s a) := by
  cases a <;> unfold Buffered <;> infer_instance

/-- The results of the first downloads, once they have ended. -/
def outcomes (s : FolderState) : Nat → Option (List (Except ClientError Nat))
  | 0 => some []
  | n + 1 =>
      match outcomes s n, s.task n with
      | some results, .finished _ r => some (results ++ [r])
      | _, _ => none

/-- `u64::saturating_add`. -/
def saturatingAdd (a b : Nat) : Nat := min (a + b) (2 ^ 64 - 1)

/-- The loop of `download_folder` over the results. -/
def addUp : List (Except ClientError Nat) → Nat → Except ClientError Nat
  | [], done => .ok done
  | .error e :: _, _ => .error e
  | .ok n :: rest, done => addUp rest (saturatingAdd done n)

/-- What `download_folder` returns: results come in the order in which downloads end. -/
def Returns (files : List FolderFile) (s : FolderState) (r : Except ClientError Nat) : Prop :=
  ∃ results order, outcomes s files.length = some results ∧ order.Perm results ∧
    addUp order 0 = r

/-- A reader of the local copy: holes are zeros. -/
def FolderClient.copyOf (client : FolderClient) (t : LocalTree) (f : FolderFile) :
    Option (List UInt8) :=
  (t.cellsAt client.sys (client.localPath f)).map fun cells => cells.map (·.getD 0)

/-- `download_folder` reproduces every tree, from the local trees that are `ok` for the files
of the folder: where it succeeds, the local copy of each file has its bytes. -/
def ReproducesTree (client : FolderClient) (ok : List FolderFile → LocalTree → Prop) : Prop :=
  ∀ (tree : RemoteTree) fails fuel dir files (t : LocalTree) (s : FolderState) done,
    collectRemoteFiles (tree.listDir fails) fuel dir = some (.ok files) → ok files t →
    (client.folderSystem files).Reaches (Buffered client files) (notStarted t) s →
    Returns files s (.ok done) →
    ∀ f ∈ tree.below dir, client.copyOf s.shared f = some f.remote.content

/-! ## What a folder has to look like -/

/-- The destination of a file in the tree; what has happened to it before is not known. -/
def FolderClient.seen (client : FolderClient) (t : LocalTree) (f : FolderFile) : DestFiles where
  dest := t.cellsAt client.sys (client.localPath f)
  sidecar := t.resumeAt client.sys (client.localPath f)
  touched := true

/-- No file is the sidecar of a file that has bytes; and at each file's place there is no
directory, nor anything that would make the download start wrong.  The local tree has no links:
a path is a directory, a file or nothing. -/
structure Prepared (client : FolderClient) (files : List FolderFile) (t : LocalTree) : Prop where
  apart : ∀ f ∈ files, ∀ g ∈ files, f.remote.content ≠ [] →
    client.localPath g ≠ resumePath (client.localPath f)
  noDirs : ∀ f ∈ files, t (client.localPath f) ≠ .dir
  startsWell : ∀ f ∈ files,
    (client.seen t f).StartsWell (fun _ => f.remote.content) f.remote.etag false

/-! ## Views of the local tree -/

section Downloads

variable {client : FolderClient} {files : List FolderFile}

/-- What the download of a file sees: its destination, and its sidecar if it has bytes. -/
structure SeesFile (client : FolderClient) (f : FolderFile) (t : LocalTree) (s : DestFiles) :
    Prop where
  cells : s.dest = t.cellsAt client.sys (client.localPath f)
  sidecar : f.remote.content ≠ [] → s.sidecar = t.resumeAt client.sys (client.localPath f)
  notDir : t (client.localPath f) ≠ .dir

/-- The download of a file by itself; where the file is empty, the sidecar may be anything. -/
def ownExec (client : FolderClient) (f : FolderFile) :
    Exec NativeOp NativeOp.Ans (NativeChoice × Option ResumeState) DestFiles :=
  fun o c s => o.exec (client.config f) f.remote c.1
    (if f.remote.content = [] then { s with sidecar := c.2 } else s)

/-- An empty file is only looked at. -/
def AskedFor (f : FolderFile) (o : NativeOp) : Prop := f.remote.content = [] → o.looks = true

variable (client files) in
/-- What the downloads of a folder see. -/
def folderViews :
    Views (client.folderSystem files) (NativeChoice × Option ResumeState) DestFiles where
  plan := fun i => files[i]?
  exec := ownExec client
  asks := AskedFor
  sees := SeesFile client
  post := fun f r s => ∀ moved, r = .ok moved → s.bytes = some f.remote.content

/-! ## Downloads do not meet -/

variable {tree : RemoteTree} {f g : FolderFile} {t u : LocalTree} {s : DestFiles}

/-- The paths of a tree's file. -/
theorem localPath_facts (hf : f ∈ tree.files) :
    Canonical f.path ∧ f.path ≠ [] := tree.canonical (RemoteTree.mem_files.1 hf)

theorem sidecarred_localPath (client : FolderClient) (hf : f ∈ tree.files) :
    Sidecarred (client.localPath f) := by
  obtain ⟨hcanon, hne⟩ := localPath_facts hf
  obtain ⟨dir, name, hpath⟩ := joinVirtual_eq_append client.base hcanon hne
  unfold Sidecarred FolderClient.localPath
  rw [hpath]
  exact resumePath_not_prefix dir name

/-- Distinct files of a tree have distinct copies, none of which is above another. -/
theorem localPath_not_prefix (client : FolderClient) (hf : f ∈ tree.files) (hg : g ∈ tree.files)
    (hne : g ≠ f) : ¬ client.localPath g <+: client.localPath f := by
  obtain ⟨hcanon, hpath⟩ := localPath_facts hf
  obtain ⟨hcanon', hpath'⟩ := localPath_facts hg
  intro h
  unfold FolderClient.localPath at h
  rw [joinVirtual_canonical _ hcanon hpath, joinVirtual_canonical _ hcanon' hpath',
    List.prefix_append_right_inj] at h
  have hsegs : segments g.path <+: segments f.path := by
    apply (List.prefix_map_iff_of_injective ?_).1 h
    intro a b hab
    cases hab
    rfl
  by_cases heq : segments f.path = segments g.path
  · apply hne
    apply RemoteTree.file_eq_of_path_eq hg hf
    rw [← joinSegments_segments g.path, ← heq, joinSegments_segments]
  · exact RemoteTree.not_under_file hg hf ⟨hsegs, heq⟩

/-- Distinct files of a tree have distinct sidecars. -/
theorem resumePath_localPath_ne (client : FolderClient) (hf : f ∈ tree.files)
    (hg : g ∈ tree.files) (hne : g ≠ f) :
    resumePath (client.localPath g) ≠ resumePath (client.localPath f) := by
  obtain ⟨hcanon, hpath⟩ := localPath_facts hf
  obtain ⟨hcanon', hpath'⟩ := localPath_facts hg
  obtain ⟨dir, name, heq⟩ := joinVirtual_eq_append client.base hcanon hpath
  obtain ⟨dir', name', heq'⟩ := joinVirtual_eq_append client.base hcanon' hpath'
  intro h
  unfold FolderClient.localPath at h
  rw [heq, heq'] at h
  apply localPath_not_prefix client hf hg hne
  unfold FolderClient.localPath
  rw [heq, heq', resumePath_injective h]

/-- Where a call leaves a path alone, its bytes are the same; a directory has none. -/
theorem Framed.of_frame {dest p : FsPath} (h : Framed dest t u) (hp : p ≠ dest)
    (hp' : p ≠ resumePath dest) (hpre : ¬ p <+: dest) : u p = t p := by
  rcases h p hp hp' with heq | ⟨-, -, hprefix, -⟩
  · exact heq
  · exact absurd hprefix hpre

theorem resumeAt_of_frame {sys : LocalSystem} {dest p : FsPath} (h : Framed dest t u)
    (hp : resumePath p ≠ dest) (hp' : resumePath p ≠ resumePath dest) :
    u.resumeAt sys p = t.resumeAt sys p := by
  unfold LocalTree.resumeAt
  rcases h _ hp hp' with heq | ⟨habsent, hdir, -⟩
  · rw [heq]
  · rw [habsent, hdir]

/-- **A call of one download changes nothing that another one sees.** -/
theorem seesFile_other {o : NativeOp} {c : NativeChoice} {a : o.Ans} (hf : f ∈ tree.files)
    (hg : g ∈ tree.files) (hne : g ≠ f)
    (hapart : f.remote.content ≠ [] → client.localPath g ≠ resumePath (client.localPath f))
    (hapart' : g.remote.content ≠ [] → client.localPath f ≠ resumePath (client.localPath g))
    (hask : AskedFor f o) (hs : SeesFile client g t s)
    (hexec : o.execAt client.sys (client.config f) f.remote (client.localPath f) c t =
      some (u, a)) : SeesFile client g u s := by
  by_cases hempty : f.remote.content = []
  · rw [execAt_looks (hask hempty) hexec]
    exact hs
  · have hframe := execAt_frame hexec
    have hpre := localPath_not_prefix client hf hg hne
    have hsame : u (client.localPath g) = t (client.localPath g) := by
      apply hframe.of_frame _ (hapart hempty) hpre
      intro heq
      apply hpre
      rw [heq]
    constructor
    · rw [hs.cells]
      unfold LocalTree.cellsAt
      rw [hsame]
    · intro hbytes
      rw [hs.sidecar hbytes]
      symm
      exact resumeAt_of_frame hframe (hapart' hbytes).symm
        (resumePath_localPath_ne client hf hg hne)
    · rw [hsame]
      exact hs.notDir

/-- A call of a download is one of its program by itself. -/
theorem seesFile_own {o : NativeOp} {c : NativeChoice} {a : o.Ans} (hf : f ∈ tree.files)
    (hask : AskedFor f o) (hs : SeesFile client f t s)
    (hexec : o.execAt client.sys (client.config f) f.remote (client.localPath f) c t =
      some (u, a)) :
    ∃ c' s', ownExec client f o c' s = some (s', a) ∧ SeesFile client f u s' := by
  have hside := sidecarred_localPath client hf
  by_cases hempty : f.remote.content = []
  · have hsame := execAt_looks (hask hempty) hexec
    have hsees : Sees client.sys (client.localPath f) t
        { s with sidecar := t.resumeAt client.sys (client.localPath f) } := by
      constructor
      · exact hs.cells
      · rfl
      · exact hs.notDir
    obtain ⟨c', s', hown, hs'⟩ := execAt_sees hside hsees hexec
    refine ⟨(c', t.resumeAt client.sys (client.localPath f)), s', ?_, ?_⟩
    · unfold ownExec
      rw [if_pos hempty]
      exact hown
    · exact ⟨hs'.cells, fun _ => hs'.sidecar, hs'.notDir⟩
  · have hsees : Sees client.sys (client.localPath f) t s :=
      ⟨hs.cells, hs.sidecar hempty, hs.notDir⟩
    obtain ⟨c', s', hown, hs'⟩ := execAt_sees hside hsees hexec
    refine ⟨(c', none), s', ?_, hs'.cells, fun _ => hs'.sidecar, hs'.notDir⟩
    unfold ownExec
    rw [if_neg hempty]
    exact hown

/-- The downloads of a folder that is prepared do not meet. -/
theorem folderViews_apart (hnodup : files.Nodup) (hfiles : files ⊆ tree.files)
    (hapart : ∀ f ∈ files, ∀ g ∈ files, f.remote.content ≠ [] →
      client.localPath g ≠ resumePath (client.localPath f)) :
    (folderViews client files).Apart := by
  have hmem : ∀ {i : Nat} {f : FolderFile}, files[i]? = some f → f ∈ files :=
    fun h => List.mem_of_getElem? h
  constructor
  · intro i j f hi hj
    have hi' : files[i]? = some f := hi
    have hj' : files[j]? = some f := hj
    have hlt : i < files.length := (List.getElem?_eq_some_iff.1 hi').1
    exact (List.getElem?_inj hlt hnodup).1 (hi'.trans hj'.symm)
  · intro i req r sh s h
    exact h
  · intro i r sh s h
    exact h
  · intro i f o c t u a s hplan hask hs hexec
    have hf : files[i]? = some f := hplan
    simp only [FolderClient.folderSystem, hf] at hexec
    exact seesFile_own (hfiles (hmem hf)) hask hs hexec
  · intro i j f g o c t u a s hplan hplan' hij hask hs hexec
    have hf : files[i]? = some f := hplan
    have hg : files[j]? = some g := hplan'
    have hne : g ≠ f := by
      rintro rfl
      have hlt : i < files.length := (List.getElem?_eq_some_iff.1 hf).1
      exact hij ((List.getElem?_inj hlt hnodup).1 (hf.trans hg.symm))
    simp only [FolderClient.folderSystem, hf] at hexec
    exact seesFile_other (hfiles (hmem hf)) (hfiles (hmem hg)) hne
      (hapart f (hmem hf) g (hmem hg)) (hapart g (hmem hg) f (hmem hf)) hask hs hexec

/-! ## Each download by itself -/

/-- A pass never starts beyond the end. -/
theorem resumeStart_le (forceRestart : Bool) (etag : Text) (size : Nat)
    (saved : Option ResumeState) (localLen : Nat) :
    resumeStart forceRestart etag size saved localLen ≤ size := by
  unfold resumeStart
  split
  · split
    · next h => exact h.1
    · exact Nat.zero_le _
  · exact Nat.zero_le _

/-- A pass over an empty file looks, and changes nothing. -/
theorem asking_downloadOnce_empty (client : FolderClient) (hempty : f.remote.content = [])
    (forceRestart : Bool) :
    Asking (ownExec client f) (AskedFor f) (downloadOnce (client.config f) forceRestart)
      (fun _ u => u.dest = s.dest) s := by
  have hown : ∀ (o : NativeOp) c (v : DestFiles), ownExec client f o c v =
      o.exec (client.config f) f.remote c.1 { v with sidecar := c.2 } := by
    intro o c v
    unfold ownExec
    rw [if_pos hempty]
  refine ⟨fun _ => rfl, ?_⟩
  intro c u found hexec
  rw [hown] at hexec
  obtain ⟨c, seen⟩ := c
  cases c with
  | torn | tuned | respond | complete => cases hexec
  | fail e done =>
      cases hexec
      rfl
  | go =>
      cases hexec
      refine ⟨fun _ => rfl, ?_⟩
      intro c v saved hexec
      rw [hown] at hexec
      obtain ⟨c, seen'⟩ := c
      cases c with
      | fail | torn | tuned | respond | complete => cases hexec
      | go =>
          cases hexec
          refine ⟨fun _ => rfl, ?_⟩
          intro c w len hexec
          rw [hown] at hexec
          obtain ⟨c, seen''⟩ := c
          cases c with
          | fail | torn | tuned | respond | complete => cases hexec
          | go =>
              cases hexec
              have hsize : f.remote.content.length = 0 := by
                rw [hempty]
                rfl
              have hdone : ∀ saved len, resumeStart forceRestart f.remote.etag
                  f.remote.content.length saved len = f.remote.content.length := by
                intro saved len
                have hle := resumeStart_le forceRestart f.remote.etag f.remote.content.length
                  saved len
                omega
              dsimp only
              rw [if_pos (hdone _ _)]
              rfl

/-- The download of an empty file changes nothing. -/
theorem asking_downloadFile_empty (client : FolderClient) (hempty : f.remote.content = []) :
    Asking (ownExec client f) (AskedFor f) (downloadFile (client.config f))
      (fun _ u => u.dest = s.dest) s := by
  have hprepare : Asking (ownExec client f) (AskedFor f) NativeProg.prepareTransfer
      (fun _ u => u.dest = s.dest) s := by
    refine ⟨fun _ => rfl, ?_⟩
    intro c u a hexec
    unfold ownExec at hexec
    rw [if_pos hempty] at hexec
    obtain ⟨c, seen⟩ := c
    cases c with
    | go | fail =>
        cases hexec
        rfl
    | torn | tuned | respond | complete => cases hexec
  apply asking_bind hprepare
  intro r u hu
  cases r with
  | error e => exact hu
  | ok _ =>
      apply asking_bind (asking_downloadOnce_empty (s := u) client hempty false)
      intro r v hv
      cases r with
      | ok moved => exact hv.trans hu
      | error e =>
          dsimp only
          split
          · apply asking_mono (asking_downloadOnce_empty (s := v) client hempty true)
            intro _ w hw
            exact hw.trans (hv.trans hu)
          · exact hv.trans hu

/-- **A download that starts well leaves the bytes of its file.** -/
theorem verified_downloadEntry (hdir : t (client.localPath f) ≠ .dir)
    (hstart : (client.seen t f).StartsWell (fun _ => f.remote.content) f.remote.etag false) :
    (folderViews client files).Verified f t (client.downloadEntry f) := by
  refine ⟨client.seen t f, ⟨rfl, fun _ => rfl, hdir⟩, ?_⟩
  unfold FolderClient.downloadEntry
  cases validateRelative f.path with
  | error e =>
      intro moved hmoved
      cases hmoved
  | ok _ =>
      by_cases hempty : f.remote.content = []
      · apply asking_mono (asking_downloadFile_empty client hempty)
        intro r u hu moved _
        have hbytes : (client.seen t f).bytes = some f.remote.content := by
          apply hstart.2
          have hle := resumeStart_le false f.remote.etag f.remote.content.length
            (client.seen t f).sidecar (client.seen t f).len
          rw [hempty] at hle ⊢
          exact Nat.le_zero.1 hle
        unfold DestFiles.bytes at hbytes ⊢
        rw [hu]
        exact hbytes
      · have hhonest : (client.seen t f).Honest fun _ => f.remote.content := by
          intro htouched
          cases htouched
        have hexec : ∀ o c s u a, ownExec client f o c s = some (u, a) →
            ∃ c', NativeOp.exec (client.config f)
              (Versions.at (fun _ => f.remote.content) f.remote.etag) o c' s = some (u, a) := by
          intro o c s u a h
          unfold ownExec at h
          rw [if_neg hempty] at h
          exact ⟨c.1, h⟩
        apply asking_mono (asking_of_wp hexec (fun o h => absurd h hempty)
          (verified_downloadFile (client.config f) hhonest hstart))
        intro r u hr moved hmoved
        rw [hmoved] at hr
        exact hr.2

/-- Without a sidecar the download of a file that has bytes starts well. -/
theorem startsWell_of_no_sidecar (hbytes : f.remote.content ≠ [])
    (hnone : t.resumeAt client.sys (client.localPath f) = none) :
    (client.seen t f).StartsWell (fun _ => f.remote.content) f.remote.etag false := by
  have hzero : resumeStart false f.remote.etag f.remote.content.length
      (client.seen t f).sidecar (client.seen t f).len = 0 := by
    unfold FolderClient.seen
    rw [hnone]
    rfl
  unfold DestFiles.StartsWell
  rw [hzero]
  refine ⟨HoldsPrefix.zero, ?_⟩
  intro hnil
  exact absurd (List.eq_nil_of_length_eq_zero hnil.symm) hbytes

/-! ## Whole folders -/

theorem mem_outcomes {s : FolderState} {n : Nat} {results : List (Except ClientError Nat)}
    (h : outcomes s n = some results) {i : Nat} (hi : i < n) :
    ∃ f, ∃ r ∈ results, s.task i = .finished f r := by
  induction n generalizing results with
  | zero => exact absurd hi (Nat.not_lt_zero i)
  | succ n ih =>
      rw [outcomes] at h
      split at h
      · next before f r hbefore hlast =>
          cases h
          by_cases hin : i = n
          · rw [hin]
            exact ⟨f, r, List.mem_append_right _ List.mem_cons_self, hlast⟩
          · obtain ⟨g, r', hr', hdone⟩ := ih hbefore (by omega)
            exact ⟨g, r', List.mem_append_left _ hr', hdone⟩
      · cases h

theorem ok_of_addUp {order : List (Except ClientError Nat)} {n done : Nat}
    (h : addUp order n = .ok done) {r : Except ClientError Nat} (hr : r ∈ order) :
    ∃ moved, r = .ok moved := by
  induction order generalizing n with
  | nil => cases hr
  | cons first rest ih =>
      cases first with
      | error e => cases h
      | ok moved =>
          rcases List.mem_cons.1 hr with rfl | hr
          · exact ⟨moved, rfl⟩
          · exact ih h hr

/-- Where the call succeeds, every download has. -/
theorem finished_of_returns {s : FolderState} {done : Nat} (h : Returns files s (.ok done))
    {i : Nat} (hi : i < files.length) : ∃ f moved, s.task i = .finished f (.ok moved) := by
  obtain ⟨results, order, hresults, hperm, hsum⟩ := h
  obtain ⟨f, r, hr, hdone⟩ := mem_outcomes hresults hi
  obtain ⟨moved, rfl⟩ := ok_of_addUp hsum (hperm.mem_iff.2 hr)
  exact ⟨f, moved, hdone⟩

/-- **From a folder that is prepared, `download_folder` reproduces the tree.** -/
theorem prepared_folder_reproduces (client : FolderClient) :
    ReproducesTree client (Prepared client) := by
  intro tree fails fuel dir files t s done hfiles hprepared hrun hreturns f hf
  obtain ⟨hall, hnodup, hsub⟩ := RemoteTree.collectRemoteFiles_spec hfiles
  have hapart := folderViews_apart hnodup hsub hprepared.apart
  have hstart : (folderViews client files).AllStand (notStarted t) := by
    constructor
    · intro i g hg
      have hmem : g ∈ files := List.mem_of_getElem? hg
      exact verified_downloadEntry (hprepared.noDirs g hmem) (hprepared.startsWell g hmem)
    · intro i _
      rfl
  have hstand := Views.allStand_of_reaches hapart (fun u a ha => by
    cases a with
    | start i g => exact ha.1
    | step i c => trivial
    | drop i => exact absurd ha id
    | env e => exact ha) hstart hrun
  obtain ⟨i, hi⟩ := List.mem_iff_getElem?.1 (hall f hf)
  obtain ⟨g, moved, hdone⟩ :=
    finished_of_returns hreturns (List.getElem?_eq_some_iff.1 hi).1
  obtain ⟨v, hsees, hpost⟩ := Views.post_of_finished hstand hi hdone
  have hbytes := hpost moved rfl
  unfold DestFiles.bytes at hbytes
  unfold FolderClient.copyOf
  rw [← hsees.cells]
  exact hbytes

end Downloads

/-! ### Folders with two files -/

/-- The JSON text of a resume state. -/
def resumeText (state : ResumeState) : Text :=
  "\x7b\"etag\":\"".toList ++ state.etag ++ "\",\"offset\":".toList ++ decimal state.offset ++
    "\x7d".toList

/-- A client with the default concurrency; it reads no sidecar but its own. -/
def sampleClient : FolderClient where
  maxRetries := 3
  concurrency := 4
  sys := ⟨⟨fun state => utf8 (resumeText state), fun _ => none, rfl⟩, 4096⟩
  base := [.rootDir, .normal "out".toList]

/-- The folder is there, and empty. -/
def emptyLocalTree : LocalTree := fun p =>
  if (ancestors sampleClient.base).contains p then .dir else .absent

/-- Two files in the root of a tree. -/
def twoFiles (first second : Text) : List RemoteEntry :=
  [⟨first, some ⟨"v1".toList, [1, 2]⟩⟩, ⟨second, some ⟨"v2".toList, [9]⟩⟩]

/-- A tree with a file and one that is named like the file's sidecar. -/
def sidecarTree : RemoteTree where
  entries := twoFiles "a".toList "a.libfw-resume.json".toList
  canonical := fun {e} he => (by decide +kernel : ∀ e ∈ twoFiles "a".toList
    "a.libfw-resume.json".toList, Canonical e.path ∧ e.path ≠ []) e he
  distinct := by decide +kernel
  placed := fun {e} he => (by decide +kernel : ∀ e ∈ twoFiles "a".toList
    "a.libfw-resume.json".toList, parentPath e.path = [] ∨ ⟨parentPath e.path, none⟩ ∈
      twoFiles "a".toList "a.libfw-resume.json".toList) e he

/-- A tree with two files. -/
def plainTree : RemoteTree where
  entries := twoFiles "a".toList "b".toList
  canonical := fun {e} he => (by decide +kernel : ∀ e ∈ twoFiles "a".toList "b".toList,
    Canonical e.path ∧ e.path ≠ []) e he
  distinct := by decide +kernel
  placed := fun {e} he => (by decide +kernel : ∀ e ∈ twoFiles "a".toList "b".toList,
    parentPath e.path = [] ∨ ⟨parentPath e.path, none⟩ ∈ twoFiles "a".toList "b".toList) e he

/-- A download of a small file that goes well. -/
def smallDownload (f : FolderFile) : List NativeChoice :=
  arrives f.remote.content ++ [.go, .go, .go]

/-- Both downloads start; the second ends before the first goes on. -/
def overlapping (files : List FolderFile) : List FolderAct :=
  match files with
  | [first, second] =>
      .start 0 first :: .start 1 second ::
        ((smallDownload second).map (.step 1) ++ (smallDownload first).map (.step 0))
  | _ => []

/-- The end of that run. -/
def overlappingRun (files : List FolderFile) : Option FolderState :=
  (sampleClient.folderSystem files).runIf
    (fun s a => Buffered sampleClient files s a) (notStarted emptyLocalTree) (overlapping files)

theorem reaches_of_overlappingRun {files : List FolderFile} {s : FolderState}
    (h : overlappingRun files = some s) :
    (sampleClient.folderSystem files).Reaches (Buffered sampleClient files)
      (notStarted emptyLocalTree) s :=
  System.reaches_of_runIf (fun _ _ htest => of_decide_eq_true htest) h

theorem plainTree_prepared : Prepared sampleClient plainTree.files emptyLocalTree := by
  constructor
  · decide +kernel
  · have hall : ∀ f ∈ plainTree.files,
        ¬ (ancestors sampleClient.base).contains (sampleClient.localPath f) = true := by
      decide +kernel
    intro f hf hdir
    unfold emptyLocalTree at hdir
    rw [if_neg (hall f hf)] at hdir
    cases hdir
  · have hbytes : ∀ f ∈ plainTree.files, f.remote.content ≠ [] := by
      decide +kernel
    have hnone : ∀ f ∈ plainTree.files,
        ¬ (ancestors sampleClient.base).contains (resumePath (sampleClient.localPath f)) =
          true := by
      decide +kernel
    intro f hf
    apply startsWell_of_no_sidecar (hbytes f hf)
    unfold LocalTree.resumeAt emptyLocalTree
    rw [if_neg (hnone f hf)]

/-- The two files of a plain tree are downloaded. -/
theorem plain_folder_reproduced : ∃ s, (sampleClient.folderSystem plainTree.files).Reaches
      (Buffered sampleClient plainTree.files) (notStarted emptyLocalTree) s ∧
    ∀ f ∈ plainTree.below [], sampleClient.copyOf s.shared f = some f.remote.content := by
  have hfiles : collectRemoteFiles (plainTree.listDir fun _ => none) 2 [] =
      some (.ok plainTree.files) := by
    decide +kernel
  have hrun : ((overlappingRun plainTree.files).any fun s =>
      outcomes s 2 = some [.ok 2, .ok 1]) = true := by
    decide +kernel
  obtain ⟨s, hs, hend⟩ := (Option.any_eq_true _ _).1 hrun
  have hreturns : Returns plainTree.files s (.ok 3) :=
    ⟨_, _, of_decide_eq_true hend, List.Perm.refl _, by decide⟩
  have hreach := reaches_of_overlappingRun hs
  exact ⟨s, hreach, prepared_folder_reproduces sampleClient plainTree (fun _ => none) 2 []
    plainTree.files emptyLocalTree s 3 hfiles plainTree_prepared hreach hreturns⟩

/-- **A resume sidecar is left in the place of a file.** -/
theorem sidecar_overwrites_file :
    ¬ ReproducesTree sampleClient fun _ t => t = emptyLocalTree := by
  intro hall
  have hfiles : collectRemoteFiles (sidecarTree.listDir fun _ => none) 2 [] =
      some (.ok sidecarTree.files) := by
    decide +kernel
  have hrun : ((overlappingRun sidecarTree.files).any fun s =>
      outcomes s 2 = some [.ok 2, .ok 1] ∧ ∃ f ∈ sidecarTree.below [],
        sampleClient.copyOf s.shared f ≠ some f.remote.content) = true := by
    decide +kernel
  obtain ⟨s, hs, hend⟩ := (Option.any_eq_true _ _).1 hrun
  obtain ⟨houtcomes, f, hf, hlost⟩ := of_decide_eq_true hend
  have hreturns : Returns sidecarTree.files s (.ok 3) :=
    ⟨_, _, houtcomes, List.Perm.refl _, by decide⟩
  exact hlost (hall sidecarTree (fun _ => none) 2 [] sidecarTree.files emptyLocalTree s 3 hfiles rfl
    (reaches_of_overlappingRun hs) hreturns f hf)

end Libfw

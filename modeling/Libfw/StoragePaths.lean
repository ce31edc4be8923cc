import Libfw.VirtualPaths

/-!
# Paths of the filesystem backend

`libfw-server/src/storage.rs`: how `FsStorage` gets from a virtual path to the
filesystem paths it works on.  The target is the root followed by the segments
of the virtual path.  Temporaries are siblings of the target, made with
`with_file_name`; the `.blocks` sidecar of a session and its `.tmp` are made by
appending to the temporary's name.

Two groups of facts: all these paths lie strictly inside the root when the
virtual path has a segment (`strictlyInside_target` and what follows it), and
the paths of one session are four different ones (`sessionNames_distinct`).
-/

namespace Libfw

open SegmentPaths

/-- `std::path::Component`. -/
inductive Component where
  | rootDir
  | curDir
  | parentDir
  | normal (name : Text)
  deriving DecidableEq

/-- A `PathBuf`, as its components. -/
abbrev FsPath := List Component

namespace FsPath

/-- `Path::file_name`. -/
def fileName (p : FsPath) : Option Text :=
  match p.getLast? with
  | some (.normal name) => some name
  | _ => none

/-- `Path::with_file_name`, for a name without slashes. -/
def withFileName (p : FsPath) (name : Text) : FsPath :=
  match p.fileName with
  | some _ => p.dropLast ++ [.normal name]
  | none => p ++ [.normal name]

/-- `Path::parent`. -/
def parent (p : FsPath) : Option FsPath :=
  match p.getLast? with
  | some .rootDir => none
  | some _ => some p.dropLast
  | none => none

/-- `OsString::push` on a path that ends in a file name. -/
def pushExtension (p : FsPath) (ext : Text) : FsPath :=
  match p.getLast? with
  | some (.normal name) => p.dropLast ++ [.normal (name ++ ext)]
  | _ => p ++ [.normal ext]

theorem fileName_append_normal (p : FsPath) (name : Text) :
    fileName (p ++ [.normal name]) = some name := by
  unfold fileName
  rw [List.getLast?_concat]

@[simp] theorem fileName_withFileName (p : FsPath) (name : Text) :
    (p.withFileName name).fileName = some name := by
  unfold withFileName
  cases p.fileName with
  | none => exact fileName_append_normal _ _
  | some m => exact fileName_append_normal _ _

theorem pushExtension_append_normal (p : FsPath) (name ext : Text) :
    pushExtension (p ++ [.normal name]) ext = p ++ [.normal (name ++ ext)] := by
  unfold pushExtension
  rw [List.getLast?_concat, List.dropLast_concat]

/-- A path with a file name is its parent followed by it. -/
theorem eq_append_of_fileName {p : FsPath} {name : Text} (h : p.fileName = some name) :
    p = p.dropLast ++ [.normal name] := by
  have hlast : p.getLast? = some (.normal name) := by
    unfold fileName at h
    split at h
    · next n hn =>
        cases h
        exact hn
    · cases h
  obtain ⟨init, rfl⟩ := List.getLast?_eq_some_iff.1 hlast
  rw [List.dropLast_concat]

theorem fileName_pushExtension {p : FsPath} {name ext : Text}
    (h : p.fileName = some name) : (p.pushExtension ext).fileName = some (name ++ ext) := by
  rw [eq_append_of_fileName h, pushExtension_append_normal]
  exact fileName_append_normal _ _

theorem length_le_withFileName (p : FsPath) (name : Text) :
    p.length ≤ (p.withFileName name).length := by
  unfold withFileName
  cases p.fileName with
  | none => simp only [List.length_append, List.length_singleton, Nat.le_add_right]
  | some own =>
      simp only [List.length_append, List.length_dropLast, List.length_singleton]
      omega

theorem length_le_pushExtension (p : FsPath) (ext : Text) :
    p.length ≤ (p.pushExtension ext).length := by
  unfold pushExtension
  split
  · simp only [List.length_append, List.length_dropLast, List.length_singleton]
    omega
  · simp only [List.length_append, List.length_singleton, Nat.le_add_right]

end FsPath

/-- `Path::new(path).components()`: empty segments and all but a leading `.`
disappear. -/
def pathComponents (path : Text) : FsPath :=
  let segs := (path.splitOn '/').filter (· ≠ [])
  let component : Text → Component := fun seg =>
    if seg = ['.', '.'] then .parentDir else .normal seg
  let rest := (segs.filter (· ≠ ['.'])).map component
  if path.head? = some '/' then .rootDir :: rest
  else if segs.head? = some ['.'] then .curDir :: rest
  else rest

/-- The messages of `FsStorage::resolve`. -/
def absolutePathMessage : Text := "absolute paths are not allowed".toList
def specialComponentMessage : Text :=
  "path must not contain '..' or special components".toList

/-- The component loop of `FsStorage::resolve`. -/
def pushComponents : FsPath → FsPath → Except Text FsPath
  | joined, [] => .ok joined
  | joined, .normal seg :: rest => pushComponents (joined ++ [.normal seg]) rest
  | joined, .curDir :: rest => pushComponents joined rest
  | _, _ :: _ => .error specialComponentMessage

/-- `FsStorage::resolve`; an error is the message of `Unsupported`. -/
def resolve (root : FsPath) (path : Text) : Except Text FsPath :=
  if path.head? = some '/' then .error absolutePathMessage
  else pushComponents root (pathComponents path)

theorem pushComponents_normal (joined : FsPath) (segs : List Text) :
    pushComponents joined (segs.map .normal) = .ok (joined ++ segs.map .normal) := by
  induction segs generalizing joined with
  | nil => simp [pushComponents]
  | cons seg rest ih =>
      rw [List.map_cons, pushComponents, ih, List.append_assoc]
      rfl

theorem pathComponents_joinSegments {segs : List Text}
    (h : ∀ s ∈ segs, PlainSegment s) :
    pathComponents (joinSegments segs) = segs.map .normal := by
  by_cases hne : segs = []
  · subst hne
    rfl
  have hseg := isSegment_of_plain h
  have hkeep : segs.filter (· ≠ []) = segs :=
    List.filter_eq_self.2 fun s hs => by simpa using (h s hs).nonempty
  have hdot : segs.filter (· ≠ ['.']) = segs :=
    List.filter_eq_self.2 fun s hs => by simpa using (h s hs).notDot
  have hmap : segs.map (fun seg => if seg = ['.', '.'] then Component.parentDir
      else .normal seg) = segs.map .normal :=
    List.map_congr_left fun s hs => if_neg (h s hs).notDotDot
  unfold pathComponents
  rw [if_neg (head?_joinSegments_ne_slash hseg), splitOn_join '/' hseg hne, hkeep]
  simp only [hdot, hmap]
  refine if_neg ?_
  intro hhead
  exact (h _ (List.mem_of_head? hhead)).notDot rfl

/-- **A canonical path resolves to the root followed by its segments.** -/
theorem resolve_canonical (root : FsPath) {path : Text} (h : Canonical path) :
    resolve root path = .ok (root ++ (segments path).map .normal) := by
  obtain ⟨segs, hsegs, rfl⟩ := canonical_iff.1 h
  unfold resolve
  rw [if_neg (head?_joinSegments_ne_slash (isSegment_of_plain hsegs)),
    pathComponents_joinSegments hsegs, pushComponents_normal,
    segments_joinSegments (isSegment_of_plain hsegs)]

/-! ## Temporaries -/

/-- Decimal digits, as `format!` writes a number. -/
def decimal (n : Nat) : Text := Nat.toDigits 10 n

/-- The target's own name, as temporaries carry it. -/
def baseName (target : FsPath) : Text := target.fileName.getD "upload".toList

def TMP_PREFIX : Text := ".libfw-tmp-".toList
def SESSION_PREFIX : Text := ".libfw-sess-".toList
def BLOCKS_SUFFIX : Text := ".blocks".toList
def PERSIST_SUFFIX : Text := ".tmp".toList

/-- `temp_path_for`, with the time and the counter value it draws. -/
def tempPathFor (target : FsPath) (nanos counter : Nat) : FsPath :=
  target.withFileName
    (TMP_PREFIX ++ baseName target ++ '-' :: decimal nanos ++ '-' :: decimal counter)

/-- The `sanitize` closure of `write_stream_session`. -/
def sanitize (s : Text) : Text :=
  s.map fun c => if c.isAlphanum || c = '-' || c = '_' then c else '_'

/-- The shared temporary of a session. -/
def sessionTempFor (target : FsPath) (session owner : Text) : FsPath :=
  target.withFileName
    (SESSION_PREFIX ++ sanitize (owner.take 16) ++ '-' :: sanitize session
      ++ '-' :: baseName target)

/-- `blocks_path_for`. -/
def blocksPathFor (tmp : FsPath) : FsPath := tmp.pushExtension BLOCKS_SUFFIX

/-- The `.tmp` sibling `persist_ranges` writes before it renames. -/
def persistPathFor (blocks : FsPath) : FsPath := blocks.pushExtension PERSIST_SUFFIX

theorem decimal_injective {n m : Nat} (h : decimal n = decimal m) : n = m := by
  have hn : Nat.ofDigitChars 10 (decimal n) 0 = n := Nat.ofDigitChars_ten_toDigits
  rw [h] at hn
  exact hn.symm.trans Nat.ofDigitChars_ten_toDigits

theorem dash_not_mem_decimal (n : Nat) : '-' ∉ decimal n := by
  intro h
  exact absurd (Nat.isDigit_of_mem_toDigits (by decide) (by decide) h) (by decide)

/-- A temporary tells the counter value it was drawn with. -/
theorem tempPathFor_counter {target : FsPath} {nanos counter nanos' counter' : Nat}
    (h : tempPathFor target nanos counter = tempPathFor target nanos' counter') :
    counter = counter' := by
  have hname := congrArg FsPath.fileName h
  rw [tempPathFor, tempPathFor, FsPath.fileName_withFileName, FsPath.fileName_withFileName] at hname
  -- the counter is what stands behind the last dash
  have hlast := congrArg (fun t : Text => t.reverse.takeWhile (· ≠ '-')) (Option.some.inj hname)
  have htail : ∀ (s : Text) (n : Nat),
      (s ++ '-' :: decimal n).reverse.takeWhile (· ≠ '-') = (decimal n).reverse := by
    intro s n
    have hdigits : ∀ c ∈ (decimal n).reverse, (decide (c ≠ '-')) = true := by
      intro c hc
      apply decide_eq_true
      rintro rfl
      exact dash_not_mem_decimal n (List.mem_reverse.1 hc)
    rw [List.reverse_append, List.reverse_cons, List.append_assoc,
      List.takeWhile_append_of_pos hdigits]
    simp
  simp only [htail] at hlast
  exact decimal_injective (List.reverse_injective hlast)

theorem tempPathFor_ne_target (target : FsPath) (nanos counter : Nat) :
    tempPathFor target nanos counter ≠ target := by
  intro h
  have hname := FsPath.fileName_withFileName target
    (TMP_PREFIX ++ baseName target ++ '-' :: decimal nanos ++ '-' :: decimal counter)
  rw [← tempPathFor, h] at hname
  have hlen := congrArg List.length (congrArg (fun o => Option.getD o "upload".toList) hname)
  rw [← baseName] at hlen
  simp only [Option.getD_some, List.length_append, List.length_cons] at hlen
  omega

/-! ## Confinement -/

/-- The path is the root followed by one or more file names. -/
def StrictlyInside (root p : FsPath) : Prop :=
  ∃ names : List Text, names ≠ [] ∧ p = root ++ names.map .normal

theorem strictlyInside_append_normal {root : FsPath} (names : List Text) (name : Text) :
    StrictlyInside root (root ++ names.map .normal ++ [.normal name]) :=
  ⟨names ++ [name], by simp, by simp⟩

theorem not_strictlyInside_self (root : FsPath) : ¬ StrictlyInside root root := by
  rintro ⟨names, hne, hroot⟩
  have hlen := congrArg List.length hroot
  rw [List.length_append, List.length_map] at hlen
  exact hne (List.eq_nil_of_length_eq_zero (by omega))

/-- The last file name of a path inside, and the rest. -/
theorem StrictlyInside.exists_append {root p : FsPath} (h : StrictlyInside root p) :
    ∃ (names : List Text) (name : Text), p = root ++ names.map .normal ++ [.normal name] := by
  obtain ⟨names, hne, rfl⟩ := h
  refine ⟨names.dropLast, names.getLast hne, ?_⟩
  rw [List.append_assoc, ← List.map_singleton, ← List.map_append,
    List.dropLast_append_getLast hne]

theorem strictlyInside_target {root : FsPath} {path : Text} {full : FsPath}
    (hcanon : Canonical path) (hne : path ≠ []) (hfull : resolve root path = .ok full) :
    StrictlyInside root full := by
  rw [resolve_canonical root hcanon] at hfull
  cases hfull
  refine ⟨segments path, ?_, rfl⟩
  intro hnil
  apply hne
  rw [← joinSegments_segments path, hnil]
  rfl

theorem StrictlyInside.withFileName {root p : FsPath} (h : StrictlyInside root p)
    (name : Text) : StrictlyInside root (p.withFileName name) := by
  obtain ⟨names, last, rfl⟩ := h.exists_append
  unfold FsPath.withFileName
  rw [FsPath.fileName_append_normal]
  simp only [List.dropLast_concat]
  exact strictlyInside_append_normal names name

theorem StrictlyInside.pushExtension {root p : FsPath} (h : StrictlyInside root p)
    (ext : Text) : StrictlyInside root (p.pushExtension ext) := by
  obtain ⟨names, last, rfl⟩ := h.exists_append
  rw [FsPath.pushExtension_append_normal]
  exact strictlyInside_append_normal names (last ++ ext)

/-- The directory of a path inside is the root or lies inside. -/
theorem StrictlyInside.parent {root p d : FsPath} (h : StrictlyInside root p)
    (hd : p.parent = some d) : d = root ∨ StrictlyInside root d := by
  obtain ⟨names, last, rfl⟩ := h.exists_append
  unfold FsPath.parent at hd
  rw [List.getLast?_concat] at hd
  simp only [List.dropLast_concat, Option.some.injEq] at hd
  subst hd
  by_cases hnone : names = []
  · rw [hnone]
    exact Or.inl (List.append_nil root)
  · exact Or.inr ⟨names, hnone, rfl⟩

/-! ## The paths of one session -/

/-- The file name of a session's temporary is longer than the target's. -/
theorem fileName_sessionTemp (target : FsPath) (session owner : Text) :
    ∃ name, (sessionTempFor target session owner).fileName = some name ∧
      ∀ own, target.fileName = some own → own.length < name.length := by
  refine ⟨_, FsPath.fileName_withFileName _ _, ?_⟩
  intro own hown
  have hbase : baseName target = own := by
    unfold baseName
    rw [hown]
    rfl
  simp only [hbase, List.length_append, List.length_cons]
  omega

/-- Target, temporary, sidecar and the sidecar's temporary are four paths. -/
structure SessionNames (target tmp blocks persist : FsPath) : Prop where
  tmp_ne_target : tmp ≠ target
  blocks_ne_target : blocks ≠ target
  persist_ne_target : persist ≠ target
  blocks_ne_tmp : blocks ≠ tmp
  persist_ne_tmp : persist ≠ tmp
  persist_ne_blocks : persist ≠ blocks

theorem sessionNames_distinct (target : FsPath) (session owner : Text) :
    SessionNames target (sessionTempFor target session owner)
      (blocksPathFor (sessionTempFor target session owner))
      (persistPathFor (blocksPathFor (sessionTempFor target session owner))) := by
  obtain ⟨name, hname, hlonger⟩ := fileName_sessionTemp target session owner
  generalize sessionTempFor target session owner = tmp at hname
  have hblocks : (blocksPathFor tmp).fileName = some (name ++ BLOCKS_SUFFIX) :=
    FsPath.fileName_pushExtension hname
  have hpersist : (persistPathFor (blocksPathFor tmp)).fileName =
      some (name ++ BLOCKS_SUFFIX ++ PERSIST_SUFFIX) :=
    FsPath.fileName_pushExtension hblocks
  have hb : (name ++ BLOCKS_SUFFIX).length = name.length + 7 := by
    rw [List.length_append, show BLOCKS_SUFFIX.length = 7 by decide]
  have hp : (name ++ BLOCKS_SUFFIX ++ PERSIST_SUFFIX).length = name.length + 11 := by
    rw [List.length_append, hb, show PERSIST_SUFFIX.length = 4 by decide]
  -- two paths are told apart by the lengths of their file names
  have apart : ∀ {p q : FsPath} {n : Text}, p.fileName = some n →
      (∀ m, q.fileName = some m → m.length < n.length) → p ≠ q := by
    intro p q n hpn hlt heq
    rw [heq] at hpn
    exact Nat.lt_irrefl _ (hlt n hpn)
  refine ⟨apart hname hlonger, apart hblocks ?_, apart hpersist ?_, apart hblocks ?_,
    apart hpersist ?_, apart hpersist ?_⟩
  · intro m hm
    have := hlonger m hm
    omega
  · intro m hm
    have := hlonger m hm
    omega
  · intro m hm
    rw [hname] at hm
    cases hm
    omega
  · intro m hm
    rw [hname] at hm
    cases hm
    omega
  · intro m hm
    rw [hblocks] at hm
    cases hm
    omega

/-! ## The sessions of one target -/

theorem count_dot_sanitize (s : Text) : (sanitize s).count '.' = 0 := by
  refine List.count_eq_zero.2 ?_
  intro hmem
  obtain ⟨c, -, hc⟩ := List.mem_map.1 hmem
  split at hc
  · next hsafe =>
      subst hc
      exact absurd hsafe (by decide)
  · exact absurd hc (by decide)

/-- All temporaries of a target's sessions have equally many dots. -/
theorem count_dot_sessionTemp (target : FsPath) (session owner : Text) :
    ∃ name, (sessionTempFor target session owner).fileName = some name ∧
      name.count '.' = SESSION_PREFIX.count '.' + (baseName target).count '.' := by
  refine ⟨_, FsPath.fileName_withFileName _ _, ?_⟩
  simp only [List.count_append, List.count_cons, count_dot_sanitize]
  simp only [Nat.add_zero, show ('-' == '.') = false by decide, Bool.false_eq_true, if_false]

/-- The temporary of a session. -/
def SessionTemp (target p : FsPath) : Prop :=
  ∃ session owner, p = sessionTempFor target session owner

theorem SessionTemp.names {target p : FsPath} (h : SessionTemp target p) :
    SessionNames target p (blocksPathFor p) (persistPathFor (blocksPathFor p)) := by
  obtain ⟨session, owner, rfl⟩ := h
  exact sessionNames_distinct target session owner

/-- No session has the sibling of another one's sidecar as its temporary. -/
theorem SessionTemp.not_persist {target p : FsPath} (h : SessionTemp target p) :
    ¬ SessionTemp target (persistPathFor (blocksPathFor p)) := by
  intro hpersist
  obtain ⟨session, owner, rfl⟩ := h
  obtain ⟨session', owner', heq⟩ := hpersist
  obtain ⟨name, hname, hcount⟩ := count_dot_sessionTemp target session owner
  obtain ⟨name', hname', hcount'⟩ := count_dot_sessionTemp target session' owner'
  rw [← heq] at hname'
  have hfull : (persistPathFor (blocksPathFor (sessionTempFor target session owner))).fileName =
      some (name ++ BLOCKS_SUFFIX ++ PERSIST_SUFFIX) :=
    FsPath.fileName_pushExtension (FsPath.fileName_pushExtension hname)
  rw [hname'] at hfull
  have hdots := congrArg (List.count '.') (Option.some.inj hfull)
  rw [List.count_append, List.count_append, hcount, hcount',
    show BLOCKS_SUFFIX.count '.' = 1 by decide] at hdots
  omega

end Libfw

import Libfw.StoragePaths

/-!
# Which uploads share session files

The temporary, sidecar and sidecar sibling of a session upload, as
`write_stream_session`, `blocks_path_for` and `persist_ranges` of
`libfw-server/src/storage.rs` name them.  Session ids are sanitised, the parts are
joined with `-`, and suffixes are appended; none of the three can be undone.

* `separate_iff` — exactly which uploads share a file, and which targets are one.
* `dotted_sessions_share` — two session ids that only sanitising makes equal.
-/

namespace Libfw

/-! ## Names that are joined -/

/-- Two pairs of texts that read the same once joined with a dash. -/
def JoinedAlike (s n t m : Text) : Prop :=
  (s = t ∧ n = m) ∨ (∃ w, t = s ++ '-' :: w ∧ n = w ++ '-' :: m) ∨
    ∃ w, s = t ++ '-' :: w ∧ m = w ++ '-' :: n

theorem joined_eq_iff {s n t m : Text} :
    s ++ '-' :: n = t ++ '-' :: m ↔ JoinedAlike s n t m := by
  constructor
  · intro h
    rcases List.append_eq_append_iff.1 h with ⟨a, ht, hn⟩ | ⟨a, hs, hm⟩
    · cases a with
      | nil =>
          cases hn
          exact Or.inl ⟨by rw [ht, List.append_nil], rfl⟩
      | cons c a =>
          cases hn
          exact Or.inr (Or.inl ⟨a, ht, rfl⟩)
    · cases a with
      | nil =>
          cases hm
          exact Or.inl ⟨by rw [hs, List.append_nil], rfl⟩
      | cons c a =>
          cases hm
          exact Or.inr (Or.inr ⟨a, hs, rfl⟩)
  · intro h
    rcases h with ⟨hs, hn⟩ | ⟨w, ht, hn⟩ | ⟨w, hs, hm⟩
    · rw [hs, hn]
    · rw [ht, hn, List.append_assoc, List.cons_append]
    · rw [hs, hm, List.append_assoc, List.cons_append]

/-- What is appended to the temporary's name. -/
def sessionSuffixes : List Text := [[], BLOCKS_SUFFIX, BLOCKS_SUFFIX ++ PERSIST_SUFFIX]

/-- Two names with suffixes are equal only where one of them is the other with a
suffix. -/
theorem suffixed_eq_iff {a b : Text} :
    (∃ e ∈ sessionSuffixes, ∃ f ∈ sessionSuffixes, a ++ e = b ++ f) ↔
      (∃ e ∈ sessionSuffixes, a = b ++ e) ∨ ∃ e ∈ sessionSuffixes, b = a ++ e := by
  have hlast : BLOCKS_SUFFIX.getLast? = some 's' ∧ PERSIST_SUFFIX.getLast? = some 'p' := by decide
  -- a sidecar and a sidecar's sibling end differently
  have hdiffer : ∀ x y : Text, x ++ BLOCKS_SUFFIX ≠ y ++ (BLOCKS_SUFFIX ++ PERSIST_SUFFIX) := by
    intro x y h
    have hend := congrArg List.getLast? h
    rw [← List.append_assoc, List.getLast?_append, List.getLast?_append, hlast.1, hlast.2] at hend
    exact absurd (Option.some.inj hend) (by decide)
  constructor
  · intro h
    obtain ⟨e, he, f, hf, heq⟩ := h
    by_cases hsame : e = f
    · rw [hsame] at heq
      exact Or.inl ⟨[], by simp [sessionSuffixes], by simpa using heq⟩
    · simp only [sessionSuffixes, List.mem_cons, List.not_mem_nil, or_false] at he hf
      rcases he with he | he | he <;> rcases hf with hf | hf | hf
      · exact absurd (he.trans hf.symm) hsame
      · exact Or.inl ⟨f, by simp [sessionSuffixes, hf], by simpa [he] using heq⟩
      · exact Or.inl ⟨f, by simp [sessionSuffixes, hf], by simpa [he] using heq⟩
      · exact Or.inr ⟨e, by simp [sessionSuffixes, he], by simpa [hf] using heq.symm⟩
      · exact absurd (he.trans hf.symm) hsame
      · rw [he, hf] at heq
        exact absurd heq (hdiffer a b)
      · exact Or.inr ⟨e, by simp [sessionSuffixes, he], by simpa [hf] using heq.symm⟩
      · rw [he, hf] at heq
        exact absurd heq.symm (hdiffer b a)
      · exact absurd (he.trans hf.symm) hsame
  · intro h
    rcases h with ⟨e, he, heq⟩ | ⟨e, he, heq⟩
    · exact ⟨[], by simp [sessionSuffixes], e, he, by simpa using heq⟩
    · exact ⟨e, he, [], by simp [sessionSuffixes], by simpa using heq.symm⟩

/-! ## Session uploads -/

/-- A session upload a server with this root accepts. -/
structure SessionUpload (root : FsPath) where
  path : Text
  session : Text
  owner : Text
  target : FsPath
  canonical : Canonical path
  resolved : resolve root path = .ok target

/-- The directory of a target's temporaries. -/
def sessionDir (target : FsPath) : FsPath :=
  match target.fileName with
  | some _ => target.dropLast
  | none => target

/-- The name of a session's temporary. -/
def sessionName (session owner own : Text) : Text :=
  SESSION_PREFIX ++ sanitize (owner.take 16) ++ '-' :: sanitize session ++ '-' :: own

namespace SessionUpload

variable {root : FsPath}

def tmp (u : SessionUpload root) : FsPath := sessionTempFor u.target u.session u.owner

def blocks (u : SessionUpload root) : FsPath := blocksPathFor u.tmp

/-- The temporary, the sidecar and the sidecar's sibling. -/
def files (u : SessionUpload root) : List FsPath := [u.tmp, u.blocks, persistPathFor u.blocks]

theorem sessionTempFor_eq (target : FsPath) (session owner : Text) :
    sessionTempFor target session owner =
      sessionDir target ++ [.normal (sessionName session owner (baseName target))] := by
  unfold sessionTempFor sessionDir FsPath.withFileName sessionName
  cases target.fileName <;> rfl

/-- The files of a session, by name. -/
theorem mem_files {u : SessionUpload root} {p : FsPath} :
    p ∈ u.files ↔ ∃ e ∈ sessionSuffixes,
      p = sessionDir u.target ++
        [.normal (sessionName u.session u.owner (baseName u.target) ++ e)] := by
  unfold files blocks tmp blocksPathFor persistPathFor
  rw [sessionTempFor_eq, FsPath.pushExtension_append_normal, FsPath.pushExtension_append_normal]
  simp [sessionSuffixes]

/-! ## When files are shared -/

/-- One of `u`'s files is `v`'s temporary, sidecar or sidecar sibling, since their names
join alike. -/
def Clash (u v : SessionUpload root) : Prop :=
  sessionDir u.target = sessionDir v.target ∧ ∃ e ∈ sessionSuffixes,
    JoinedAlike (sanitize u.session) (baseName u.target) (sanitize v.session)
      (baseName v.target ++ e)

/-- `w` uploads to a path beside `u`'s target that is spelled like one of `u`'s files. -/
def Aims (w u : SessionUpload root) : Prop :=
  w.target.dropLast = sessionDir u.target ∧ ∃ e ∈ sessionSuffixes,
    w.target.fileName = some (sessionName u.session u.owner (baseName u.target) ++ e)

/-- No file is shared, and none is the target of a session. -/
structure Separate (u v w : SessionUpload root) : Prop where
  disjoint : ∀ p ∈ u.files, p ∉ v.files
  first : w.target ∉ u.files
  second : w.target ∉ v.files

theorem target_mem_files_iff {w u : SessionUpload root} : w.target ∈ u.files ↔ Aims w u := by
  rw [mem_files]
  constructor
  · intro h
    obtain ⟨e, he, heq⟩ := h
    rw [Aims, heq, List.dropLast_concat]
    exact ⟨rfl, e, he, FsPath.fileName_append_normal _ _⟩
  · intro h
    obtain ⟨hdir, e, he, hname⟩ := h
    refine ⟨e, he, ?_⟩
    rw [← hdir]
    exact FsPath.eq_append_of_fileName hname

/-- One owner's uploads share a file exactly when their names join alike. -/
theorem shares_iff {u v : SessionUpload root} (howner : u.owner = v.owner) :
    (∃ p ∈ u.files, p ∈ v.files) ↔ Clash u v ∨ Clash v u := by
  have hcancel : ∀ (x y : SessionUpload root), x.owner = y.owner → ∀ e : Text,
      sessionName x.session x.owner (baseName x.target) =
        sessionName y.session y.owner (baseName y.target) ++ e ↔
      JoinedAlike (sanitize x.session) (baseName x.target) (sanitize y.session)
        (baseName y.target ++ e) := by
    intro x y hxy e
    rw [← joined_eq_iff]
    unfold sessionName
    rw [hxy]
    simp
  have hclash : ∀ (x y : SessionUpload root), x.owner = y.owner →
      (Clash x y ↔ sessionDir x.target = sessionDir y.target ∧ ∃ e ∈ sessionSuffixes,
        sessionName x.session x.owner (baseName x.target) =
          sessionName y.session y.owner (baseName y.target) ++ e) := by
    intro x y hxy
    unfold Clash
    simp only [hcancel x y hxy]
  rw [hclash u v howner, hclash v u howner.symm]
  constructor
  · intro h
    obtain ⟨p, hu, hv⟩ := h
    obtain ⟨e, he, hpe⟩ := mem_files.1 hu
    obtain ⟨f, hf, hpf⟩ := mem_files.1 hv
    obtain ⟨hdir, hname⟩ := List.append_inj' (hpe.symm.trans hpf) rfl
    have hnames : sessionName u.session u.owner (baseName u.target) ++ e =
        sessionName v.session v.owner (baseName v.target) ++ f := by
      simpa using hname
    rcases suffixed_eq_iff.1 ⟨e, he, f, hf, hnames⟩ with hleft | hright
    · exact Or.inl ⟨hdir, hleft⟩
    · exact Or.inr ⟨hdir.symm, hright⟩
  · intro h
    have hnames : sessionDir u.target = sessionDir v.target ∧
        ∃ e ∈ sessionSuffixes, ∃ f ∈ sessionSuffixes,
          sessionName u.session u.owner (baseName u.target) ++ e =
            sessionName v.session v.owner (baseName v.target) ++ f := by
      rcases h with ⟨hdir, hleft⟩ | ⟨hdir, hright⟩
      · exact ⟨hdir, suffixed_eq_iff.2 (Or.inl hleft)⟩
      · exact ⟨hdir.symm, suffixed_eq_iff.2 (Or.inr hright)⟩
    obtain ⟨hdir, e, he, f, hf, heq⟩ := hnames
    refine ⟨_, mem_files.2 ⟨e, he, rfl⟩, mem_files.2 ⟨f, hf, ?_⟩⟩
    rw [hdir, heq]

/-- **Exactly when two uploads of one owner have their files to themselves.** -/
theorem separate_iff {u v w : SessionUpload root} (howner : u.owner = v.owner) :
    Separate u v w ↔ ¬ Clash u v ∧ ¬ Clash v u ∧ ¬ Aims w u ∧ ¬ Aims w v := by
  have hdisjoint : (∀ p ∈ u.files, p ∉ v.files) ↔ ¬ (Clash u v ∨ Clash v u) := by
    rw [← shares_iff howner]
    simp only [not_exists, not_and]
  constructor
  · intro h
    obtain ⟨hd, hfirst, hsecond⟩ := h
    obtain ⟨hleft, hright⟩ := not_or.1 (hdisjoint.1 hd)
    exact ⟨hleft, hright, fun ha => hfirst (target_mem_files_iff.2 ha),
      fun ha => hsecond (target_mem_files_iff.2 ha)⟩
  · intro h
    obtain ⟨hleft, hright, hu, hv⟩ := h
    exact ⟨hdisjoint.2 (not_or.2 ⟨hleft, hright⟩), fun hm => hu (target_mem_files_iff.1 hm),
      fun hm => hv (target_mem_files_iff.1 hm)⟩

end SessionUpload

/-! ### Uploads of one file -/

/-- Where a server keeps its files. -/
def exampleRoot : FsPath := [.rootDir, .normal "srv".toList]

/-- An upload to `f.txt` under a session id. -/
def uploadOf (session : Text) : SessionUpload exampleRoot where
  path := "f.txt".toList
  session := session
  owner := "0123456789abcdef".toList
  target := exampleRoot ++ [.normal "f.txt".toList]
  canonical := by decide
  resolved := by decide

theorem plain_sessions_separate :
    (uploadOf "a".toList).Separate (uploadOf "b".toList) (uploadOf "a".toList) := by
  have howner : (uploadOf "a".toList).owner = (uploadOf "b".toList).owner := rfl
  apply (SessionUpload.separate_iff howner).2
  have hclash : ∀ c d : Char, sanitize [c] = [c] → sanitize [d] = [d] → c ≠ d →
      ¬ (uploadOf [c]).Clash (uploadOf [d]) := by
    intro c d hc hd hne h
    obtain ⟨-, e, -, hjoined⟩ := h
    have heq := joined_eq_iff.2 hjoined
    have hsessions : (uploadOf [c]).session = [c] ∧ (uploadOf [d]).session = [d] := ⟨rfl, rfl⟩
    rw [hsessions.1, hsessions.2, hc, hd] at heq
    exact hne (Option.some.inj (congrArg List.head? heq))
  have haims : ∀ s t : Text, ¬ (uploadOf s).Aims (uploadOf t) := by
    intro s t h
    obtain ⟨-, e, -, hname⟩ := h
    have hhead : some 'f' = some '.' := congrArg List.head? (Option.some.inj hname)
    exact absurd (Option.some.inj hhead) (by decide)
  exact ⟨hclash 'a' 'b' (by decide) (by decide) (by decide),
    hclash 'b' 'a' (by decide) (by decide) (by decide), haims _ _, haims _ _⟩

/-- Two session ids of one file that sanitising makes equal share all their files. -/
theorem dotted_sessions_share :
    ((uploadOf "a.b".toList).path, (uploadOf "a.b".toList).session) ≠
        ((uploadOf "a_b".toList).path, (uploadOf "a_b".toList).session) ∧
      (uploadOf "a.b".toList).owner = (uploadOf "a_b".toList).owner ∧
      ¬ (uploadOf "a.b".toList).Separate (uploadOf "a_b".toList) (uploadOf "a.b".toList) := by
  refine ⟨by decide, rfl, ?_⟩
  intro h
  have hshared : (uploadOf "a.b".toList).tmp ∈ (uploadOf "a_b".toList).files := by decide
  exact h.disjoint _ List.mem_cons_self hshared

example : (uploadOf "a.b".toList).files = (uploadOf "a_b".toList).files := by decide

end Libfw

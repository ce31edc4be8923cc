import Libfw.SegmentPaths

/-!
# Virtual paths

Text, and the paths clients and storage exchange: segments between slashes.
`validateRelPath` is the server's check of a path taken from a URL
(`libfw-server/src/lib.rs`); its fixed points are the *canonical* paths, the
form in which path codecs and storage backends receive every path.

The main fact is `validateRelPath_eq_ok_iff`: an accepted path is the join of
its ordinary segments, and the canonical paths are exactly the joins of plain
segments (`canonical_iff`).
-/

/-- A string, as the list of its characters. -/
abbrev Text := List Char

namespace Text

/-- `str::len`: the length of the UTF-8 encoding. -/
def len (t : Text) : Nat := (t.map Char.utf8Size).sum

/-- `str::starts_with`. -/
def startsWith (t p : Text) : Bool := p.isPrefixOf t

@[simp] theorem startsWith_iff {t p : Text} : t.startsWith p = true ↔ p <+: t := by
  simp [startsWith]

/-- `str::split_once`: what stands before and after the first `c`. -/
def splitOnce (c : Char) : Text → Option (Text × Text)
  | [] => none
  | x :: rest =>
      if x = c then some ([], rest)
      else (splitOnce c rest).map fun parts => (x :: parts.1, parts.2)

theorem splitOnce_append {c : Char} {a : Text} (b : Text) (h : c ∉ a) :
    splitOnce c (a ++ c :: b) = some (a, b) := by
  induction a with
  | nil => simp [splitOnce]
  | cons x xs ih =>
      have hx : x ≠ c := fun he => h (he ▸ List.mem_cons_self)
      have hxs : c ∉ xs := fun hc => h (List.mem_cons_of_mem _ hc)
      rw [List.cons_append, splitOnce, if_neg hx, ih hxs]
      rfl

theorem eq_of_splitOnce {c : Char} {t a b : Text} (h : splitOnce c t = some (a, b)) :
    t = a ++ c :: b ∧ c ∉ a := by
  induction t generalizing a with
  | nil => cases h
  | cons x xs ih =>
      rw [splitOnce] at h
      by_cases hx : x = c
      · rw [if_pos hx] at h
        cases h
        exact ⟨by rw [hx]; rfl, List.not_mem_nil⟩
      · rw [if_neg hx, Option.map_eq_some_iff] at h
        obtain ⟨⟨a', b'⟩, hrest, hparts⟩ := h
        cases hparts
        obtain ⟨hxs, hnot⟩ := ih hrest
        constructor
        · rw [hxs]
          rfl
        · simp only [List.mem_cons, not_or]
          exact ⟨fun he => hx he.symm, hnot⟩

theorem len_append (a b : Text) : len (a ++ b) = len a + len b := by
  simp [len]

theorem len_pos {t : Text} (h : t ≠ []) : 0 < len t := by
  cases t with
  | nil => exact absurd rfl h
  | cons c cs =>
      have hc := Char.utf8Size_pos c
      simp only [len, List.map_cons, List.sum_cons]
      omega

/-- A proper prefix is shorter in bytes too. -/
theorem len_le_iff_of_prefix {a b t : Text} (ha : a <+: t) (hb : b <+: t) :
    len a ≤ len b ↔ a.length ≤ b.length := by
  constructor
  · intro h
    by_contra hlt
    obtain ⟨r, rfl⟩ := List.prefix_of_prefix_length_le hb ha (by omega)
    have hr : r ≠ [] := by rintro rfl; simp at hlt
    have := len_pos hr
    rw [len_append] at h
    omega
  · intro h
    obtain ⟨r, rfl⟩ := List.prefix_of_prefix_length_le ha hb h
    rw [len_append]
    omega

end Text

namespace Libfw

open SegmentPaths

/-- `char::is_whitespace`: Unicode's White_Space property. -/
def isWhitespace (c : Char) : Bool :=
  let n := c.toNat
  (9 ≤ n && n ≤ 13) || n = 0x20 || n = 0x85 || n = 0xA0 || n = 0x1680 ||
    (0x2000 ≤ n && n ≤ 0x200A) || n = 0x2028 || n = 0x2029 || n = 0x202F || n = 0x205F ||
    n = 0x3000

/-! ## Text as bytes -/

/-- `as_bytes`. -/
def utf8 (t : Text) : List UInt8 := t.flatMap String.utf8EncodeChar

/-- `String::from_utf8`. -/
def fromUtf8 (bytes : List UInt8) : Option Text :=
  (ByteArray.mk bytes.toArray).utf8Decode?.map Array.toList

theorem mk_utf8 (t : Text) : ByteArray.mk (utf8 t).toArray = t.utf8Encode := by
  apply ByteArray.ext
  unfold List.utf8Encode
  rw [List.data_toByteArray]
  rfl

theorem fromUtf8_utf8 (t : Text) : fromUtf8 (utf8 t) = some t := by
  unfold fromUtf8
  rw [mk_utf8, List.utf8Decode?_utf8Encode, Option.map_some]

/-- Only the bytes of a text are read. -/
theorem utf8_of_fromUtf8 {bytes : List UInt8} {t : Text} (h : fromUtf8 bytes = some t) :
    utf8 t = bytes := by
  unfold fromUtf8 at h
  rw [Option.map_eq_some_iff] at h
  obtain ⟨chars, hchars, hlist⟩ := h
  have hvalid : (ByteArray.mk bytes.toArray).IsValidUTF8 := by
    rw [← ByteArray.isSome_utf8Decode?_iff, hchars]
    rfl
  obtain ⟨u, hu⟩ := hvalid
  rw [hu, List.utf8Decode?_utf8Encode, Option.some.injEq] at hchars
  have hut : u = t := by
    rw [← hlist, ← hchars]
  rw [← mk_utf8, hut] at hu
  have harray : bytes.toArray = (utf8 t).toArray := congrArg ByteArray.data hu
  exact (List.toArray_inj harray).symm

/-! ## Checking a path -/

/-- The `out.push('/')` / `out.push_str(seg)` step of the normalising loops. -/
def pushSegment (out seg : Text) : Text :=
  if out = [] then seg else out ++ '/' :: seg

/-- The loop of `validate_rel_path` over `path.split('/')`. -/
def collectSegments : List Text → Text → Except Text Text
  | [], out => .ok out
  | seg :: rest, out =>
      if seg = [] ∨ seg = ['.'] then collectSegments rest out
      else if seg = ['.', '.'] then .error "path escapes the mount root".toList
      else collectSegments rest (pushSegment out seg)

/-- `validate_rel_path`: normalise and validate a virtual path from the URL. -/
def validateRelPath (path : Text) : Except Text Text :=
  if Char.ofNat 0 ∈ path then .error "path contains NUL byte".toList
  else if path.head? = some '/' then .error "path must be relative".toList
  else collectSegments (path.splitOn '/') []

/-- What `validate_rel_path` leaves unchanged: the form codecs and storage
backends are handed. -/
def Canonical (path : Text) : Prop := validateRelPath path = .ok path

instance (path : Text) : Decidable (Canonical path) :=
  inferInstanceAs (Decidable (validateRelPath path = .ok path))

/-- An ordinary path segment: not empty, no slash or NUL inside, and neither
`.` nor `..`. -/
structure PlainSegment (seg : Text) : Prop where
  nonempty : seg ≠ []
  noSlash : '/' ∉ seg
  noNul : Char.ofNat 0 ∉ seg
  notDot : seg ≠ ['.']
  notDotDot : seg ≠ ['.', '.']

theorem PlainSegment.isSegment {seg : Text} (h : PlainSegment seg) :
    IsSegment '/' seg := ⟨h.nonempty, h.noSlash⟩

theorem isSegment_of_plain {segs : List Text} (h : ∀ s ∈ segs, PlainSegment s) :
    ∀ s ∈ segs, IsSegment '/' s := fun s hs => (h s hs).isSegment

/-- The segments of a virtual path. -/
abbrev segments (path : Text) : List Text := split '/' path

/-- The path with the given segments. -/
abbrev joinSegments (segs : List Text) : Text := join '/' segs

@[simp] theorem joinSegments_segments (path : Text) :
    joinSegments (segments path) = path := join_split '/' path

theorem segments_joinSegments {segs : List Text}
    (h : ∀ s ∈ segs, IsSegment '/' s) : segments (joinSegments segs) = segs :=
  split_join '/' h

theorem pushSegment_join {segs : List Text} (h : ∀ s ∈ segs, IsSegment '/' s)
    (seg : Text) :
    pushSegment (joinSegments segs) seg = joinSegments (segs ++ [seg]) := by
  by_cases hs : segs = []
  · simp [hs, pushSegment]
  · have hne : joinSegments segs ≠ [] :=
      fun he => hs ((join_eq_nil_iff '/' h).1 he)
    rw [pushSegment, if_neg hne, joinSegments, joinSegments,
      join_append '/' hs (by simp)]
    rfl

/-- A segment the normalising loop keeps. -/
def Kept (seg : Text) : Bool := !(seg = [] || seg = ['.'])

/-- The loop succeeds exactly when no segment is `..`, and then it has
appended the kept segments. -/
theorem collectSegments_eq_ok_iff {segs acc : List Text} {p : Text}
    (hacc : ∀ s ∈ acc, IsSegment '/' s)
    (hsegs : ∀ s ∈ segs, '/' ∉ s) :
    collectSegments segs (joinSegments acc) = .ok p ↔
      ['.', '.'] ∉ segs ∧ p = joinSegments (acc ++ segs.filter Kept) := by
  induction segs generalizing acc with
  | nil => simp [collectSegments, eq_comm]
  | cons seg rest ih =>
      have hrest : ∀ s ∈ rest, '/' ∉ s :=
        fun s hs => hsegs s (List.mem_cons_of_mem _ hs)
      by_cases hskip : seg = [] ∨ seg = ['.']
      · have hkept : Kept seg = false := by
          rcases hskip with h | h <;> simp [Kept, h]
        have hdots : ['.', '.'] ≠ seg := by
          rcases hskip with h | h <;> simp [h]
        rw [collectSegments, if_pos hskip, ih hacc hrest]
        simp [hkept, hdots]
      · rw [collectSegments, if_neg hskip]
        by_cases hdd : seg = ['.', '.']
        · rw [if_pos hdd]
          simp [hdd]
        · have hkept : Kept seg = true := by
            simpa [Kept, not_or] using hskip
          have hseg : IsSegment '/' seg :=
            ⟨fun h => hskip (Or.inl h), hsegs seg List.mem_cons_self⟩
          rw [if_neg hdd, pushSegment_join hacc, ih ?_ hrest]
          · have hne : ['.', '.'] ≠ seg := fun h => hdd h.symm
            simp only [List.mem_cons, hne, false_or, List.filter_cons, hkept,
              if_true, List.append_assoc, List.singleton_append]
          · intro s hs
            rcases List.mem_append.1 hs with hs | hs
            · exact hacc s hs
            · rw [List.mem_singleton.1 hs]
              exact hseg

/-- **What the check accepts.** -/
theorem validateRelPath_eq_ok_iff {path p : Text} :
    validateRelPath path = .ok p ↔
      Char.ofNat 0 ∉ path ∧ path.head? ≠ some '/' ∧
      ['.', '.'] ∉ path.splitOn '/' ∧
      p = joinSegments ((path.splitOn '/').filter Kept) := by
  unfold validateRelPath
  by_cases hnul : Char.ofNat 0 ∈ path
  · simp [hnul]
  · by_cases habs : path.head? = some '/'
    · simp [hnul, habs]
    · rw [if_neg hnul, if_neg habs]
      have hloop : collectSegments (path.splitOn '/') (joinSegments []) = .ok p ↔
          ['.', '.'] ∉ path.splitOn '/' ∧
            p = joinSegments ([] ++ (path.splitOn '/').filter Kept) :=
        collectSegments_eq_ok_iff (by simp)
          (fun s hs => sep_not_mem_splitOn '/' hs)
      simpa [hnul, habs] using hloop

/-- The kept segments of an accepted path are plain. -/
theorem plainSegment_of_accepted {path seg : Text}
    (hnul : Char.ofNat 0 ∉ path) (hdd : ['.', '.'] ∉ path.splitOn '/')
    (hseg : seg ∈ (path.splitOn '/').filter Kept) : PlainSegment seg := by
  obtain ⟨hmem, hkept⟩ := List.mem_filter.1 hseg
  have hk : seg ≠ [] ∧ seg ≠ ['.'] := by simpa [Kept, not_or] using hkept
  exact {
    nonempty := hk.1
    noSlash := sep_not_mem_splitOn '/' hmem
    noNul := fun h => hnul (mem_of_mem_splitOn '/' hmem h)
    notDot := hk.2
    notDotDot := fun h => hdd (h ▸ hmem) }

/-- An accepted path is the join of plain segments. -/
theorem exists_plain_of_validateRelPath {path p : Text}
    (h : validateRelPath path = .ok p) :
    ∃ segs, (∀ s ∈ segs, PlainSegment s) ∧ p = joinSegments segs := by
  obtain ⟨hnul, -, hdd, rfl⟩ := validateRelPath_eq_ok_iff.1 h
  exact ⟨_, fun s hs => plainSegment_of_accepted hnul hdd hs, rfl⟩

/-- Letters of a joined path other than the separator are letters of its
segments. -/
theorem mem_joinSegments {segs : List Text} {c : Char}
    (h : c ∈ joinSegments segs) : c = '/' ∨ ∃ s ∈ segs, c ∈ s := by
  induction segs with
  | nil => simp at h
  | cons s rest ih =>
      by_cases hrest : rest = []
      · subst hrest
        exact Or.inr ⟨s, List.mem_cons_self, by simpa using h⟩
      · rw [joinSegments, join_cons '/' s hrest] at h
        rcases List.mem_append.1 h with h | h
        · exact Or.inr ⟨s, List.mem_cons_self, h⟩
        · rcases List.mem_cons.1 h with h | h
          · exact Or.inl h
          · rcases ih h with h | ⟨t, ht, hc⟩
            · exact Or.inl h
            · exact Or.inr ⟨t, List.mem_cons_of_mem _ ht, hc⟩

theorem head?_joinSegments_ne_slash {segs : List Text}
    (h : ∀ s ∈ segs, IsSegment '/' s) :
    (joinSegments segs).head? ≠ some '/' := by
  cases segs with
  | nil => simp
  | cons s rest =>
      obtain ⟨hne, hs⟩ := h s List.mem_cons_self
      obtain ⟨c, cs, rfl⟩ := List.exists_cons_of_ne_nil hne
      have hc : c ≠ '/' := fun he => hs (he ▸ List.mem_cons_self)
      cases rest <;> simp [join, hc]

/-- **Canonical paths are the joins of plain segments.** -/
theorem canonical_joinSegments {segs : List Text}
    (h : ∀ s ∈ segs, PlainSegment s) : Canonical (joinSegments segs) := by
  by_cases hne : segs = []
  · subst hne
    rfl
  · have hseg := isSegment_of_plain h
    have hsplit := splitOn_join '/' hseg hne
    refine validateRelPath_eq_ok_iff.2 ⟨?_, ?_, ?_, ?_⟩
    · intro hnul
      rcases mem_joinSegments hnul with hc | ⟨s, hs, hc⟩
      · exact absurd hc (by decide)
      · exact (h s hs).noNul hc
    · exact head?_joinSegments_ne_slash hseg
    · rw [hsplit]
      exact fun hdd => (h _ hdd).notDotDot rfl
    · rw [hsplit, List.filter_eq_self.2]
      intro s hs
      simp [Kept, (h s hs).nonempty, (h s hs).notDot]

theorem canonical_iff {path : Text} :
    Canonical path ↔ ∃ segs, (∀ s ∈ segs, PlainSegment s) ∧ path = joinSegments segs := by
  constructor
  · exact exists_plain_of_validateRelPath
  · rintro ⟨segs, hsegs, rfl⟩
    exact canonical_joinSegments hsegs

/-- What the check returns is canonical: checking twice is checking once. -/
theorem canonical_of_validateRelPath {path p : Text}
    (h : validateRelPath path = .ok p) : Canonical p :=
  canonical_iff.2 (exists_plain_of_validateRelPath h)

/-- The segments of a canonical path are plain, and spell it. -/
theorem Canonical.plainSegments {path : Text} (h : Canonical path) :
    ∀ s ∈ segments path, PlainSegment s := by
  obtain ⟨segs, hsegs, rfl⟩ := canonical_iff.1 h
  rwa [segments, split_join '/' (isSegment_of_plain hsegs)]

example : validateRelPath "a//./b/".toList = .ok "a/b".toList := by decide

end Libfw

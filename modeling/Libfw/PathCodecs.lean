import Libfw.PrefixTables
import Libfw.VirtualPaths

/-!
# Path codecs

`libfw-core/src/pathmap.rs`: the translation between real storage paths and
the shadow paths clients see.  `PathCodec` is the trait; `IdentityPathCodec`
and `MountPathCodec` are the two codecs without cryptography.

`MountPathCodec` translates outbound paths by their longest *real* prefix and
inbound paths by their longest *shadow* prefix.  The two choices need not
agree.  `mount_never_aliases_iff` says exactly when they do; the entries of
the repository's own test for nested mounts are an example where they do not
(`nested_mounts_alias`).
-/

namespace Libfw

open SegmentPaths PrefixTables

/-- Error decoding a client-supplied shadow path back to a real path. -/
inductive PathCodecError where
  | unknownVersion (version : Text)
  | invalidShadow (reason : Text)
  | unmapped (shadow : Text)
  | rngUnavailable (reason : Text)
  deriving DecidableEq

/-- The `Display` text of a codec error. -/
def PathCodecError.message : PathCodecError → Text
  | .unknownVersion v => "unknown shadow path version `".toList ++ v ++ "`".toList
  | .invalidShadow r => "invalid shadow path: ".toList ++ r
  | .unmapped s =>
      "shadow path does not match any configured mapping: `".toList ++ s
        ++ "`".toList
  | .rngUnavailable r => "path encryption unavailable: ".toList ++ r

/-- Converts between real storage paths and client-visible shadow paths.  An
encrypting codec draws a nonce in `encode`; a value of this type is such a
codec with its nonces drawn. -/
structure PathCodec where
  encode : Text → Text
  decode : Text → Except PathCodecError Text

/-- The default codec: shadow paths are real paths. -/
def identityPathCodec : PathCodec where
  encode := fun real => real
  decode := fun shadow => .ok shadow

/-- The loop of `normalize_prefix`: like the server's, but `..` is dropped. -/
def collectPrefix : List Text → Text → Text
  | [], out => out
  | seg :: rest, out =>
      if seg = [] ∨ seg = ['.'] then collectPrefix rest out
      else if seg = ['.', '.'] then collectPrefix rest out
      else collectPrefix rest (pushSegment out seg)

def normalizePrefix (p : Text) : Text := collectPrefix (p.splitOn '/') []

/-- Does `pre` match `path` on a segment boundary?  The empty prefix matches
everything. -/
def segmentPrefix (path pre : Text) : Bool :=
  pre = [] || path = pre ||
    (path.startsWith pre && (path.drop pre.length).head? = some '/')

def joinPrefix (root rest : Text) : Text :=
  if root = [] then rest
  else if rest = [] then root
  else root ++ '/' :: rest

/-- One `(shadow_prefix, real_prefix)` pair. -/
abbrev Mount := Text × Text

/-- Prefix-mapping codec: readable shadow namespaces backed by real
subtrees. -/
structure MountPathCodec where
  entries : List Mount

namespace MountPathCodec

/-- Build a codec from `(shadow_prefix, real_prefix)` pairs. -/
def new (entries : List Mount) : MountPathCodec where
  entries := entries.filterMap fun (shadow, real) =>
    let s := normalizePrefix shadow
    let r := normalizePrefix real
    if s = [] ∧ r = [] then none else some (s, r)

/-- The search both directions share: the entry with the longest `key` among
those whose `key` matches, as its `value` and the remainder of the path. -/
def longestMatch (key value : Mount → Text) (entries : List Mount)
    (path : Text) : Option (Text × Text) :=
  (lastMaxBy (fun e => (key e).len)
      (entries.filter fun e => segmentPrefix path (key e))).map
    fun e => (value e, (path.drop (key e).length).dropWhile (· = '/'))

/-- Longest entry whose **real** prefix matches. -/
def encodeMatch (codec : MountPathCodec) (real : Text) : Option (Text × Text) :=
  longestMatch Prod.snd Prod.fst codec.entries real

/-- Longest entry whose **shadow** prefix matches. -/
def decodeMatch (codec : MountPathCodec) (shadow : Text) : Option (Text × Text) :=
  longestMatch Prod.fst Prod.snd codec.entries shadow

def encode (codec : MountPathCodec) (real : Text) : Text :=
  match codec.encodeMatch real with
  | some (shadowRoot, rest) => joinPrefix shadowRoot rest
  | none => real

def decode (codec : MountPathCodec) (shadow : Text) : Except PathCodecError Text :=
  match codec.decodeMatch shadow with
  | some (realRoot, rest) => .ok (joinPrefix realRoot rest)
  | none => .error (.unmapped shadow)

/-- The codec as the trait object the server holds. -/
def toPathCodec (codec : MountPathCodec) : PathCodec where
  encode := codec.encode
  decode := codec.decode

end MountPathCodec

/-! ### The codec's functions on segments -/

/-- The segments `normalize_prefix` keeps. -/
def KeptPrefix (seg : Text) : Bool := Kept seg && !(seg = ['.', '.'])

theorem collectPrefix_join {segs acc : List Text}
    (hacc : ∀ s ∈ acc, IsSegment '/' s) (hsegs : ∀ s ∈ segs, '/' ∉ s) :
    collectPrefix segs (joinSegments acc)
      = joinSegments (acc ++ segs.filter KeptPrefix) := by
  induction segs generalizing acc with
  | nil => simp [collectPrefix]
  | cons seg rest ih =>
      have hrest : ∀ s ∈ rest, '/' ∉ s :=
        fun s hs => hsegs s (List.mem_cons_of_mem _ hs)
      by_cases hkept : KeptPrefix seg = true
      · have hk : (seg ≠ [] ∧ seg ≠ ['.']) ∧ seg ≠ ['.', '.'] := by
          simpa [KeptPrefix, Kept, not_or] using hkept
        have hseg : IsSegment '/' seg := ⟨hk.1.1, hsegs seg List.mem_cons_self⟩
        rw [collectPrefix, if_neg (not_or.2 hk.1), if_neg hk.2,
          pushSegment_join hacc, ih ?_ hrest]
        · simp [hkept]
        · intro s hs
          rcases List.mem_append.1 hs with hs | hs
          · exact hacc s hs
          · rw [List.mem_singleton.1 hs]
            exact hseg
      · have hdrop : collectPrefix (seg :: rest) (joinSegments acc)
            = collectPrefix rest (joinSegments acc) := by
          have hk : (seg = [] ∨ seg = ['.']) ∨ seg = ['.', '.'] := by
            simp only [KeptPrefix, Kept] at hkept
            grind
          rw [collectPrefix]
          rcases hk with hk | hk
          · rw [if_pos hk]
          · rw [if_pos hk, ite_self]
        rw [hdrop, ih hacc hrest]
        simp [hkept]

/-- A normalised prefix spells genuine segments. -/
theorem isSegment_normalizePrefix (p : Text) :
    ∀ s ∈ segments (normalizePrefix p), IsSegment '/' s := by
  have hseg : ∀ s ∈ (p.splitOn '/').filter KeptPrefix, IsSegment '/' s := by
    intro s hs
    obtain ⟨hmem, hkept⟩ := List.mem_filter.1 hs
    have hk : (s ≠ [] ∧ s ≠ ['.']) ∧ s ≠ ['.', '.'] := by
      simpa [KeptPrefix, Kept, not_or] using hkept
    exact ⟨hk.1.1, sep_not_mem_splitOn '/' hmem⟩
  have hloop : collectPrefix (p.splitOn '/') (joinSegments [])
      = joinSegments ([] ++ (p.splitOn '/').filter KeptPrefix) :=
    collectPrefix_join (by simp) (fun s hs => sep_not_mem_splitOn '/' hs)
  have hnorm : normalizePrefix p
      = joinSegments ((p.splitOn '/').filter KeptPrefix) := hloop
  rw [hnorm, segments, split_join '/' hseg]
  exact hseg

/-- `segment_prefix` is the library's boundary prefix. -/
theorem segmentPrefix_iff {path pre : Text} :
    segmentPrefix path pre = true ↔ Covers '/' pre path := by
  have hstep : (pre <+: path ∧ (path.drop pre.length).head? = some '/')
      ↔ pre ++ ['/'] <+: path := by
    constructor
    · intro h
      obtain ⟨⟨rest, rfl⟩, hhead⟩ := h
      rw [List.drop_left] at hhead
      obtain ⟨tail, rfl⟩ : ∃ tail, rest = '/' :: tail := by
        cases rest with
        | nil => simp at hhead
        | cons c tail => exact ⟨tail, by simpa using hhead⟩
      exact ⟨tail, by simp⟩
    · intro h
      obtain ⟨tail, rfl⟩ := h
      exact ⟨⟨'/' :: tail, by simp⟩, by simp⟩
  simp only [segmentPrefix, Bool.or_eq_true, Bool.and_eq_true, decide_eq_true_eq,
    Text.startsWith_iff, hstep, Covers, or_assoc]

/-- On spelled paths, `segment_prefix` is prefix of segments. -/
theorem segmentPrefix_joinSegments {us vs : List Text}
    (hu : ∀ s ∈ us, IsSegment '/' s) (hv : ∀ s ∈ vs, IsSegment '/' s) :
    segmentPrefix (joinSegments vs) (joinSegments us) = true ↔ us <+: vs := by
  rw [segmentPrefix_iff, covers_join_iff '/' hu hv]

/-- `join_prefix` concatenates segments. -/
theorem joinPrefix_joinSegments {us vs : List Text}
    (hu : ∀ s ∈ us, IsSegment '/' s) (hv : ∀ s ∈ vs, IsSegment '/' s) :
    joinPrefix (joinSegments us) (joinSegments vs) = joinSegments (us ++ vs) := by
  unfold joinPrefix
  split
  · next h => simp [(join_eq_nil_iff '/' hu).1 h]
  · next h =>
      split
      · next h' => simp [(join_eq_nil_iff '/' hv).1 h']
      · next h' =>
          have hus : us ≠ [] := fun he => h ((join_eq_nil_iff '/' hu).2 he)
          have hvs : vs ≠ [] := fun he => h' ((join_eq_nil_iff '/' hv).2 he)
          exact (join_append '/' hus hvs).symm

namespace MountPathCodec

/-- Both prefixes of every entry spell genuine segments. -/
def Spelled (entries : List Mount) : Prop :=
  ∀ e ∈ entries, (∀ s ∈ segments e.1, IsSegment '/' s) ∧
    ∀ s ∈ segments e.2, IsSegment '/' s

theorem spelled_new (raw : List Mount) : Spelled (new raw).entries := by
  intro e he
  simp only [new, List.mem_filterMap] at he
  obtain ⟨⟨shadow, real⟩, -, heq⟩ := he
  by_cases hnil : normalizePrefix shadow = [] ∧ normalizePrefix real = []
  · simp [hnil] at heq
  · have hpair : (normalizePrefix shadow, normalizePrefix real) = e := by
      simpa [hnil] using heq
    rw [← hpair]
    exact ⟨isSegment_normalizePrefix shadow, isSegment_normalizePrefix real⟩

section Matching

variable {key value : Mount → Text} {entries : List Mount} {ps : List Text}

/-- `e` is the entry with the longest matching prefix. -/
def Deepest (key : Mount → Text) (entries : List Mount) (path : Text)
    (e : Mount) : Prop :=
  e ∈ entries ∧ segmentPrefix path (key e) = true ∧
    ∀ e' ∈ entries, segmentPrefix path (key e') = true →
      (key e').length ≤ (key e).length

instance (key : Mount → Text) (entries : List Mount) (path : Text) (e : Mount) :
    Decidable (Deepest key entries path e) :=
  inferInstanceAs (Decidable (e ∈ entries ∧ segmentPrefix path (key e) = true ∧
    ∀ e' ∈ entries, segmentPrefix path (key e') = true →
      (key e').length ≤ (key e).length))

/-- The longest match of texts is the longest match of segments. -/
theorem deepest_iff_longest
    (hkey : ∀ e ∈ entries, ∀ s ∈ segments (key e), IsSegment '/' s)
    (hps : ∀ s ∈ ps, IsSegment '/' s) {e : Mount} :
    Deepest key entries (joinSegments ps) e ↔
      Longest (fun e => segments (key e)) entries ps e := by
  have hpre : ∀ e' ∈ entries,
      segmentPrefix (joinSegments ps) (key e') = true ↔ segments (key e') <+: ps := by
    intro e' he'
    rw [← segmentPrefix_joinSegments (hkey e' he') hps, joinSegments_segments]
  have hlen : ∀ {a b : Mount}, segments (key a) <+: ps → segments (key b) <+: ps →
      ((key b).length ≤ (key a).length ↔
        (segments (key b)).length ≤ (segments (key a)).length) := by
    intro a b ha hb
    have h := join_length_le_iff '/' hps ha hb
    rwa [join_split, join_split] at h
  constructor
  · intro h
    obtain ⟨hin, hcov, hmax⟩ := h
    have he := (hpre e hin).1 hcov
    refine ⟨hin, he, ?_⟩
    intro e' he' hle
    exact (hlen he hle).1 (hmax e' he' ((hpre e' he').2 hle))
  · intro h
    obtain ⟨hin, he, hmax⟩ := h
    refine ⟨hin, (hpre e hin).2 he, ?_⟩
    intro e' he' hcov
    have hle := (hpre e' he').1 hcov
    exact (hlen he hle).2 (hmax e' he' hle)

/-- Where keys tell entries apart, the deepest entry is unique. -/
theorem Deepest.unique {path : Text}
    (hkey : ∀ e ∈ entries, ∀ s ∈ segments (key e), IsSegment '/' s)
    (hpath : ∀ s ∈ segments path, IsSegment '/' s)
    (hinj : ∀ a ∈ entries, ∀ b ∈ entries, key a = key b → a = b) {e e' : Mount}
    (he : Deepest key entries path e) (he' : Deepest key entries path e') :
    e = e' := by
  rw [← joinSegments_segments path] at he he'
  have hlong := (deepest_iff_longest hkey hpath).1 he
  have hlong' := (deepest_iff_longest hkey hpath).1 he'
  apply hinj e he.1 e' he'.1
  have hsegs : segments (key e) = segments (key e') := hlong.src_eq hlong'
  rw [← joinSegments_segments (key e), hsegs, joinSegments_segments]

/-- A search result comes from the deepest entry. -/
theorem longestMatch_eq_some {path v rest : Text}
    (h : longestMatch key value entries path = some (v, rest)) :
    ∃ e, Deepest key entries path e ∧ v = value e ∧
      rest = (path.drop (key e).length).dropWhile (· = '/') := by
  unfold longestMatch at h
  obtain ⟨e, hmax, hpair⟩ := Option.map_eq_some_iff.1 h
  obtain ⟨hmem, hle⟩ := lastMaxBy_spec hmax
  obtain ⟨hin, hcov⟩ := List.mem_filter.1 hmem
  refine ⟨e, ⟨hin, hcov, ?_⟩, (congrArg Prod.fst hpair).symm,
    (congrArg Prod.snd hpair).symm⟩
  intro e' he' hcov'
  have hbytes := hle e' (List.mem_filter.2 ⟨he', hcov'⟩)
  exact (Text.len_le_iff_of_prefix (Covers.isPrefix '/' (segmentPrefix_iff.1 hcov'))
    (Covers.isPrefix '/' (segmentPrefix_iff.1 hcov))).1 hbytes

/-- The search finds nothing exactly when no entry's prefix covers the path. -/
theorem longestMatch_eq_none_iff {path : Text} :
    longestMatch key value entries path = none ↔
      ∀ e ∈ entries, segmentPrefix path (key e) = false := by
  unfold longestMatch
  rw [Option.map_eq_none_iff, lastMaxBy_eq_none_iff, List.filter_eq_nil_iff]
  simp

/-- Removing a covering prefix and the slashes after it leaves the remaining
segments. -/
theorem rest_eq_joinSegments {e : Mount} {tail : List Text}
    (htail : ∀ s ∈ tail, IsSegment '/' s)
    (hps : ps = segments (key e) ++ tail) :
    ((joinSegments ps).drop (key e).length).dropWhile (· = '/')
      = joinSegments tail := by
  have hk : (key e).length = (joinSegments (segments (key e))).length := by
    rw [joinSegments_segments]
  rw [hk, hps]
  exact join_drop_of_prefix '/' htail

/-- Replacing a covering prefix replaces its segments. -/
theorem joinPrefix_rest {e : Mount} {tail : List Text}
    (hvalue : ∀ s ∈ segments (value e), IsSegment '/' s)
    (htail : ∀ s ∈ tail, IsSegment '/' s)
    (hps : ps = segments (key e) ++ tail) :
    joinPrefix (value e)
        (((joinSegments ps).drop (key e).length).dropWhile (· = '/'))
      = joinSegments (segments (value e) ++ tail) := by
  have hjoin := joinPrefix_joinSegments hvalue htail
  rw [joinSegments_segments] at hjoin
  rw [rest_eq_joinSegments htail hps, hjoin]

end Matching

/-! ### Aliasing -/

variable {raw : List Mount} {p : Text}

/-- What a listing owes its reader: the shadow of a real path under some mount
leads back to it, and the shadow of any other real path leads back to it or
nowhere. -/
def NeverAliases (codec : MountPathCodec) (p : Text) : Prop :=
  ((∃ e ∈ codec.entries, segmentPrefix p e.2 = true) →
    codec.decode (codec.encode p) = .ok p) ∧
  ((∀ e ∈ codec.entries, segmentPrefix p e.2 = false) →
    codec.decode (codec.encode p) = .ok p ∨
      ∃ s, codec.decode (codec.encode p) = .error (.unmapped s))

/-- The shadow path under which mount `e` shows the real path `p`. -/
def aliasUnder (e : Mount) (p : Text) : Text :=
  joinPrefix e.1 ((p.drop e.2.length).dropWhile (· = '/'))

/-- No shadow prefix captures an alias it should not: the mount with the
deepest real prefix of `p` is also the one with the deepest shadow prefix of
the alias it gives `p`; and if `p` is under no real prefix, it is under no
shadow prefix either. -/
def NoCapture (codec : MountPathCodec) (p : Text) : Prop :=
  (∀ e, Deepest Prod.snd codec.entries p e →
    Deepest Prod.fst codec.entries (aliasUnder e p) e) ∧
  ((∀ e ∈ codec.entries, segmentPrefix p e.2 = false) →
    ∀ e ∈ codec.entries, segmentPrefix p e.1 = false)

theorem segments_injective {a b : Text} (h : segments a = segments b) : a = b := by
  rw [← joinSegments_segments a, h, joinSegments_segments]

/-- Entries whose normalised keys differ are told apart by their keys. -/
theorem entry_eq_of_key_eq {side : Mount → Text}
    (hside : ∀ m : Mount, side (normalizePrefix m.1, normalizePrefix m.2)
      = normalizePrefix (side m))
    (hnodup : (raw.map fun m => normalizePrefix (side m)).Nodup) :
    ∀ a ∈ (new raw).entries, ∀ b ∈ (new raw).entries, side a = side b → a = b := by
  have horigin : ∀ e ∈ (new raw).entries,
      ∃ m ∈ raw, (normalizePrefix m.1, normalizePrefix m.2) = e := by
    intro e he
    simp only [new, List.mem_filterMap] at he
    obtain ⟨m, hm, heq⟩ := he
    refine ⟨m, hm, ?_⟩
    split at heq
    · cases heq
    · exact Option.some.inj heq
  intro a ha b hb hab
  obtain ⟨m, hm, rfl⟩ := horigin a ha
  obtain ⟨n, hn, rfl⟩ := horigin b hb
  rw [hside, hside] at hab
  rw [List.inj_on_of_nodup_map hnodup hm hn hab]

/-- The round trip of a path under some real prefix. -/
theorem decode_encode_iff {codec : MountPathCodec} (hspell : Spelled codec.entries)
    (hinj : ∀ a ∈ codec.entries, ∀ b ∈ codec.entries, a.1 = b.1 → a = b)
    (hp : ∀ s ∈ segments p, IsSegment '/' s) {e : Mount}
    (he : Deepest Prod.snd codec.entries p e) (henc : codec.encode p = aliasUnder e p) :
    codec.decode (codec.encode p) = .ok p ↔
      Deepest Prod.fst codec.entries (aliasUnder e p) e := by
  have hreal : ∀ a ∈ codec.entries, ∀ s ∈ segments a.2, IsSegment '/' s :=
    fun a ha => (hspell a ha).2
  have hshadow : ∀ a ∈ codec.entries, ∀ s ∈ segments a.1, IsSegment '/' s :=
    fun a ha => (hspell a ha).1
  have hlong : Longest (fun a => segments a.2) codec.entries (segments p) e := by
    rw [← deepest_iff_longest hreal hp, joinSegments_segments]
    exact he
  obtain ⟨tail, htail⟩ := hlong.2.1
  have htailSeg : ∀ s ∈ tail, IsSegment '/' s :=
    fun s hs => hp s (htail ▸ List.mem_append_right _ hs)
  have halias : aliasUnder e p = joinSegments (segments e.1 ++ tail) := by
    have h := joinPrefix_rest (hshadow e he.1) htailSeg htail.symm
    rwa [joinSegments_segments] at h
  have hqSeg : ∀ s ∈ segments e.1 ++ tail, IsSegment '/' s := by
    intro s hs
    rcases List.mem_append.1 hs with hs | hs
    · exact hshadow e he.1 s hs
    · exact htailSeg s hs
  rw [henc]
  cases hmatch : codec.decodeMatch (aliasUnder e p) with
  | none =>
      have hcov : segmentPrefix (aliasUnder e p) e.1 = true := by
        have h := (segmentPrefix_joinSegments (hshadow e he.1) hqSeg).2
          (List.prefix_append _ _)
        rwa [← halias, joinSegments_segments] at h
      have hnone := longestMatch_eq_none_iff.1 hmatch e he.1
      exact absurd hcov (by simp [hnone])
  | some found =>
      obtain ⟨v, rest⟩ := found
      obtain ⟨e', he', hv, hrest⟩ := longestMatch_eq_some hmatch
      have hlong' : Longest (fun a => segments a.1) codec.entries
          (segments e.1 ++ tail) e' := by
        rw [← deepest_iff_longest hshadow hqSeg, ← halias]
        exact he'
      obtain ⟨tail', htail'⟩ := hlong'.2.1
      have htailSeg' : ∀ s ∈ tail', IsSegment '/' s :=
        fun s hs => hqSeg s (htail' ▸ List.mem_append_right _ hs)
      have hdecode : codec.decode (aliasUnder e p)
          = .ok (joinSegments (segments e'.2 ++ tail')) := by
        have h := joinPrefix_rest (hreal e' he'.1) htailSeg' htail'.symm
        rw [decode, hmatch]
        simp only [hv, hrest, halias, h]
      have hsame : (Except.ok (joinSegments (segments e'.2 ++ tail'))
            : Except PathCodecError Text) = .ok p
          ↔ segments e'.2 ++ tail' = segments e.2 ++ tail := by
        have hleft : ∀ s ∈ segments e'.2 ++ tail', IsSegment '/' s := by
          intro s hs
          rcases List.mem_append.1 hs with hs | hs
          · exact hreal e' he'.1 s hs
          · exact htailSeg' s hs
        rw [htail, Except.ok.injEq]
        constructor
        · intro h
          rw [← h, segments_joinSegments hleft]
        · intro h
          rw [h, joinSegments_segments]
      have hback : segments e'.2 ++ tail' = segments e.2 ++ tail ↔
          segments e'.1 = segments e.1 :=
        there_and_back_iff (htail ▸ hlong) hlong' htail'
          (fun a ha b hb hab => hinj a ha b hb (segments_injective hab))
      rw [hdecode, hsame, hback]
      constructor
      · intro h
        have hee : e' = e := hinj e' he'.1 e he.1 (segments_injective h)
        exact hee ▸ he'
      · intro h
        rw [halias, deepest_iff_longest hshadow hqSeg] at h
        exact hlong'.src_eq h

/-- A shadow is refused exactly when no shadow prefix covers it. -/
theorem decode_eq_unmapped_iff {codec : MountPathCodec} {shadow : Text} :
    (∃ s, codec.decode shadow = .error (.unmapped s)) ↔
      ∀ e ∈ codec.entries, segmentPrefix shadow e.1 = false := by
  have hnone : codec.decodeMatch shadow = none ↔
      ∀ e ∈ codec.entries, segmentPrefix shadow e.1 = false :=
    longestMatch_eq_none_iff
  rw [← hnone]
  unfold decode
  cases codec.decodeMatch shadow <;> simp

/-- A path under no real prefix is never what a shadow decodes to. -/
theorem decode_ne_uncovered {codec : MountPathCodec} (hspell : Spelled codec.entries)
    (hp : ∀ s ∈ segments p, IsSegment '/' s)
    (hreal : ∀ e ∈ codec.entries, segmentPrefix p e.2 = false) :
    codec.decode p ≠ .ok p := by
  intro hok
  cases hmatch : codec.decodeMatch p with
  | none => simp [decode, hmatch] at hok
  | some found =>
      obtain ⟨v, rest⟩ := found
      obtain ⟨e, he, hv, hrest⟩ := longestMatch_eq_some hmatch
      have hshadow : ∀ a ∈ codec.entries, ∀ s ∈ segments a.1, IsSegment '/' s :=
        fun a ha => (hspell a ha).1
      have hlong : Longest (fun a => segments a.1) codec.entries (segments p) e := by
        rw [← deepest_iff_longest hshadow hp, joinSegments_segments]
        exact he
      obtain ⟨tail, htail⟩ := hlong.2.1
      have htailSeg : ∀ s ∈ tail, IsSegment '/' s :=
        fun s hs => hp s (htail ▸ List.mem_append_right _ hs)
      have hresult : joinPrefix v rest = joinSegments (segments e.2 ++ tail) := by
        have h := joinPrefix_rest (hspell e he.1).2 htailSeg htail.symm
        rw [hv, hrest, ← h, joinSegments_segments]
      have hpEq : joinSegments (segments e.2 ++ tail) = p := by
        rw [decode, hmatch] at hok
        rw [← hresult]
        exact Except.ok.inj hok
      have hleft : ∀ s ∈ segments e.2 ++ tail, IsSegment '/' s := by
        intro s hs
        rcases List.mem_append.1 hs with hs | hs
        · exact (hspell e he.1).2 s hs
        · exact htailSeg s hs
      have hcov := (segmentPrefix_joinSegments (hspell e he.1).2 hleft).2
        (List.prefix_append _ _)
      rw [joinSegments_segments, hpEq, hreal e he.1] at hcov
      cases hcov

/-- **When mounts do not alias.**  Over tables whose normalised prefixes are
distinct on either side (whether or not some are empty), a canonical real path
is treated properly exactly when no shadow prefix captures it. -/
theorem mount_never_aliases_iff {raw : List Mount} {p : Text}
    (hshadows : (raw.map fun m => normalizePrefix m.1).Nodup)
    (hreals : (raw.map fun m => normalizePrefix m.2).Nodup)
    (hp : Canonical p) :
    NeverAliases (new raw) p ↔ NoCapture (new raw) p := by
  have hspell := spelled_new raw
  have hinj : ∀ a ∈ (new raw).entries, ∀ b ∈ (new raw).entries, a.1 = b.1 → a = b :=
    entry_eq_of_key_eq (fun m => rfl) hshadows
  have hinjReal : ∀ a ∈ (new raw).entries, ∀ b ∈ (new raw).entries, a.2 = b.2 → a = b :=
    entry_eq_of_key_eq (fun m => rfl) hreals
  have hseg : ∀ s ∈ segments p, IsSegment '/' s :=
    isSegment_of_plain hp.plainSegments
  cases hmatch : (new raw).encodeMatch p with
  | some found =>
      obtain ⟨v, rest⟩ := found
      obtain ⟨e, he, hv, hrest⟩ := longestMatch_eq_some hmatch
      have henc : (new raw).encode p = aliasUnder e p := by
        rw [encode, hmatch]
        simp only [hv, hrest, aliasUnder]
      have hround := decode_encode_iff hspell hinj hseg he henc
      have hcovered : ¬ ∀ a ∈ (new raw).entries, segmentPrefix p a.2 = false :=
        fun h => by simpa [h e he.1] using he.2.1
      constructor
      · intro h
        refine ⟨?_, fun hnone => absurd hnone hcovered⟩
        intro e' he'
        have hsame : e' = e :=
          he'.unique (fun a ha => (hspell a ha).2) hseg hinjReal he
        rw [hsame]
        exact hround.1 (h.1 ⟨e, he.1, he.2.1⟩)
      · intro h
        exact ⟨fun _ => hround.2 (h.1 e he), fun hnone => absurd hnone hcovered⟩
  | none =>
      have hnone := longestMatch_eq_none_iff.1 hmatch
      have henc : (new raw).encode p = p := by
        rw [encode, hmatch]
      have hmoves := decode_ne_uncovered hspell hseg hnone
      have huncovered : ¬ ∃ e ∈ (new raw).entries, segmentPrefix p e.2 = true := by
        intro h
        obtain ⟨e, he, hcov⟩ := h
        simp [hnone e he] at hcov
      rw [NeverAliases, NoCapture, henc]
      constructor
      · intro h
        refine ⟨?_, ?_⟩
        · intro e he
          exact absurd ⟨e, he.1, he.2.1⟩ huncovered
        · intro _
          rcases h.2 hnone with hok | ⟨s, herr⟩
          · exact absurd hok hmoves
          · exact decode_eq_unmapped_iff.1 ⟨s, herr⟩
      · intro h
        refine ⟨fun hcov => absurd hcov huncovered, ?_⟩
        intro _
        exact Or.inr (decode_eq_unmapped_iff.2 (h.2 hnone))

/-- The documentation's own mount never aliases the file it is shown with. -/
theorem documented_mount_never_aliases :
    NeverAliases (new [("home/alice".toList, "data/vol-3/alice".toList)])
      "data/vol-3/alice/report.pdf".toList := by
  apply (mount_never_aliases_iff (by decide) (by decide) (by decide)).2
  constructor
  · intro e he
    have hmem : e = ("home/alice".toList, "data/vol-3/alice".toList) :=
      List.mem_singleton.1 he.1
    rw [hmem]
    decide
  · decide

/-- The nested mounts of the repository's own test: `t` shows `top` and
`t/sub` shows `top/deep`.  The real file `top/sub/x` is listed as `t/sub/x`,
and a request for that shadow reaches `top/deep/x`. -/
theorem nested_mounts_alias :
    let raw : List Mount := [("t".toList, "top".toList),
      ("t/sub".toList, "top/deep".toList)]
    let p : Text := "top/sub/x".toList
    ((∀ m ∈ raw, normalizePrefix m.1 ≠ [] ∧ normalizePrefix m.2 ≠ []) ∧
      (raw.map fun m => normalizePrefix m.1).Nodup ∧
      (raw.map fun m => normalizePrefix m.2).Nodup ∧ Canonical p) ∧
    (new raw).encode p = "t/sub/x".toList ∧
    (new raw).decode "t/sub/x".toList = .ok "top/deep/x".toList ∧
    ¬ NeverAliases (new raw) p := by
  refine ⟨⟨by decide, by decide, by decide, by decide⟩, by decide, by decide, ?_⟩
  intro h
  have hround := h.1 ⟨("t".toList, "top".toList), by decide, by decide⟩
  exact absurd hround (by decide)

end MountPathCodec

end Libfw

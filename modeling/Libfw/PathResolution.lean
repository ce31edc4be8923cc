import Libfw.ServerErrors

/-!
# Which path a request is about, and whether its token covers it

`ServerState::resolve_client_path` and `decode_compound` of `libfw-server/src/lib.rs`,
and the default validator of `libfw-core/src/auth.rs`, which tests string prefixes.

* `compound_longest_prefix` — a shadow with a literal rest is decoded by its longest prefix.
* `prefix_of_covers` — what passes the string test of an allowed path lies under its
  segments.
* `resolve_confined` — a path that is resolved is canonical and lies in a subtree
  the token allows.
-/

namespace Libfw

open SegmentPaths

/-! ## Tokens -/

inductive Permission where
  | read
  | write
  deriving DecidableEq

def Action.requiredPermission : Action → Permission
  | .read => .read
  | .write => .write

structure TokenClaims where
  sub : Text
  exp : Option Int
  permissions : List Permission
  allowedPaths : List Text
  deriving DecidableEq

namespace TokenClaims

def isExpired (claims : TokenClaims) (now : Int) : Bool := claims.exp.any fun exp => exp ≤ now

def hasPermission (claims : TokenClaims) (perm : Permission) : Bool := perm ∈ claims.permissions

end TokenClaims

/-- The trait `Validator`. -/
abbrev Validator := TokenClaims → Text → Action → Except AuthError Unit

/-! ## The default validator -/

/-- `trim_start_matches('/')`. -/
def trimStartSlashes (t : Text) : Text := t.dropWhile (· = '/')

/-- `trim_matches('/')`. -/
def trimSlashes (t : Text) : Text := ((trimStartSlashes t).reverse.dropWhile (· = '/')).reverse

/-- `path_matches_any`. -/
def pathMatchesAny (path : Text) (prefixes : List Text) : Bool :=
  let p := trimStartSlashes path
  prefixes.any fun allowed =>
    let q := trimSlashes allowed
    if q = [] then true
    else if p = q then true
    else p.startsWith q && (p.drop q.length).head? = some '/'

structure PathValidator where
  rawPrefixMatch : Bool
  deriving DecidableEq

namespace PathValidator

/-- `PathValidator::new`: matching on segment boundaries. -/
def new : PathValidator := ⟨false⟩

/-- `validate`; `now` is `now_epoch_seconds()`. -/
def validate (v : PathValidator) (now : Int) : Validator := fun claims path action =>
  if claims.isExpired now then .error .expired
  else if !claims.hasPermission action.requiredPermission then .error (.forbidden path action)
  else
    let allowed :=
      if v.rawPrefixMatch then claims.allowedPaths.any fun allowed => path.startsWith allowed
      else pathMatchesAny path claims.allowedPaths
    if !allowed then .error (.forbidden path action) else .ok ()

end PathValidator

/-! ## Resolving a client path -/

/-- The loop of `decode_compound`: scan backwards from `stop` for slashes, and try
the prefix before each. -/
def decodeCompoundFrom (codec : PathCodec) (shadow : Text) : Nat → Option Text
  | 0 => none
  | slash + 1 =>
      if shadow[slash]? = some '/' then
        match codec.decode (shadow.take slash) with
        | .ok real =>
            let rest := shadow.drop (slash + 1)
            some (if real = [] then rest else real ++ '/' :: rest)
        | .error _ => decodeCompoundFrom codec shadow slash
      else decodeCompoundFrom codec shadow slash

/-- `decode_compound`. -/
def decodeCompound (codec : PathCodec) (shadow : Text) : Option Text :=
  decodeCompoundFrom codec shadow shadow.length

/-- A canonical shadow as a real path: what the codec makes of it, else what it makes
of the longest prefix.  The root is no shadow. -/
def decodeShadow (codec : PathCodec) (shadow : Text) : Except PathResolveError Text :=
  if shadow = [] then .ok shadow
  else
    match codec.decode shadow with
    | .ok real => .ok real
    | .error e =>
        match decodeCompound codec shadow with
        | some real => .ok real
        | none => .error (.codec e)

/-- The shadow path of a request as a real path, before authorization. -/
def decodeClientPath (codec : PathCodec) (shadow : Text) : Except PathResolveError Text := do
  let shadow ← (validateRelPath shadow).mapError .invalid
  let real ← decodeShadow codec shadow
  (validateRelPath real).mapError .invalid

/-- `resolve_client_path`. -/
def resolveClientPath (codec : PathCodec) (validate : Validator) (claims : TokenClaims)
    (shadow : Text) (action : Action) : Except PathResolveError Text := do
  let real ← decodeClientPath codec shadow
  (validate claims real action).mapError .auth
  .ok real

/-- What is resolved has been decoded and authorized. -/
theorem resolveClientPath_eq_ok_iff {codec : PathCodec} {validate : Validator}
    {claims : TokenClaims} {shadow real : Text} {action : Action} :
    resolveClientPath codec validate claims shadow action = .ok real ↔
      decodeClientPath codec shadow = .ok real ∧ validate claims real action = .ok () := by
  unfold resolveClientPath
  cases hreal : decodeClientPath codec shadow with
  | error e => simp [bind, Except.bind]
  | ok r =>
      cases hvalid : validate claims r action with
      | error e =>
          simp only [bind, Except.bind, hvalid, Except.mapError, reduceCtorEq, false_iff,
            Except.ok.injEq, not_and]
          intro heq
          rw [← heq, hvalid]
          exact fun h => by cases h
      | ok =>
          simp only [bind, Except.bind, hvalid, Except.mapError, Except.ok.injEq]
          constructor
          · intro heq
            rw [← heq]
            exact ⟨rfl, hvalid⟩
          · exact And.left

/-- Whatever a codec decodes to, only canonical paths go on. -/
theorem canonical_of_decodeClientPath {codec : PathCodec} {shadow real : Text}
    (h : decodeClientPath codec shadow = .ok real) : Canonical real := by
  unfold decodeClientPath at h
  cases hshadow : validateRelPath shadow with
  | error e =>
      rw [hshadow] at h
      cases h
  | ok s =>
      rw [hshadow] at h
      have hdecoded : (decodeShadow codec s >>= fun r =>
          (validateRelPath r).mapError PathResolveError.invalid) = .ok real := h
      cases hreal : decodeShadow codec s with
      | error e =>
          rw [hreal] at hdecoded
          cases hdecoded
      | ok r =>
          rw [hreal] at hdecoded
          have hcheck : (validateRelPath r).mapError PathResolveError.invalid = .ok real := hdecoded
          cases hvalid : validateRelPath r with
          | error e =>
              rw [hvalid] at hcheck
              cases hcheck
          | ok p =>
              rw [hvalid] at hcheck
              cases hcheck
              exact canonical_of_validateRelPath hvalid

/-! ## Composition with a literal rest -/

/-- No prefix decodes, so nothing is composed. -/
theorem decodeCompoundFrom_eq_none {codec : PathCodec} {shadow : Text} {stop : Nat}
    (h : ∀ slash < stop, shadow[slash]? = some '/' →
      ∀ real, codec.decode (shadow.take slash) ≠ .ok real) :
    decodeCompoundFrom codec shadow stop = none := by
  induction stop with
  | zero => rfl
  | succ slash ih =>
      have hrest := ih fun k hk => h k (Nat.lt_succ_of_lt hk)
      unfold decodeCompoundFrom
      split
      · next hslash =>
          cases hdecoded : codec.decode (shadow.take slash) with
          | ok real => exact absurd hdecoded (h slash (Nat.lt_succ_self _) hslash real)
          | error e => exact hrest
      · exact hrest

/-- The longest prefix that decodes is the one composed with the rest. -/
theorem decodeCompoundFrom_eq_some {codec : PathCodec} {shadow real : Text} {slash stop : Nat}
    (hlt : slash < stop) (hslash : shadow[slash]? = some '/')
    (hreal : codec.decode (shadow.take slash) = .ok real)
    (hlongest : ∀ k, slash < k → shadow[k]? = some '/' →
      ∀ r, codec.decode (shadow.take k) ≠ .ok r) :
    decodeCompoundFrom codec shadow stop =
      some (if real = [] then shadow.drop (slash + 1)
        else real ++ '/' :: shadow.drop (slash + 1)) := by
  induction stop with
  | zero => omega
  | succ k ih =>
      unfold decodeCompoundFrom
      by_cases hk : slash = k
      · rw [← hk, if_pos hslash, hreal]
      · have hbelow := ih (by omega)
        split
        · next hsep =>
            cases hdecoded : codec.decode (shadow.take k) with
            | ok r => exact absurd hdecoded (hlongest k (by omega) hsep r)
            | error e => exact hbelow
        · exact hbelow

/-- The shadow, cut at a slash: the prefix before it decodes to `real`, and no longer one
before a slash decodes. -/
structure LongestShadow (codec : PathCodec) (shadow : Text) (slash : Nat) (real : Text) : Prop where
  boundary : shadow[slash]? = some '/'
  decoded : codec.decode (shadow.take slash) = .ok real
  longest : ∀ k, slash < k → shadow[k]? = some '/' → ∀ r, codec.decode (shadow.take k) ≠ .ok r

/-- Where some prefix decodes, there is a longest one. -/
theorem exists_longestShadow {codec : PathCodec} {shadow real : Text} {slash : Nat}
    (hslash : shadow[slash]? = some '/') (hreal : codec.decode (shadow.take slash) = .ok real) :
    ∃ k r, LongestShadow codec shadow k r := by
  -- by induction on how much of the shadow is left behind the slash
  induction hrest : shadow.length - slash using Nat.strong_induction_on generalizing slash real with
  | h n ih =>
      by_cases hlonger : ∃ k, slash < k ∧ shadow[k]? = some '/' ∧
          ∃ r, codec.decode (shadow.take k) = .ok r
      · obtain ⟨k, hlt, hk, r, hr⟩ := hlonger
        have hbound : k < shadow.length := (List.getElem?_eq_some_iff.1 hk).1
        exact ih (shadow.length - k) (by omega) hk hr rfl
      · exact ⟨slash, real, hslash, hreal, fun k hlt hk r hr => hlonger ⟨k, hlt, hk, r, hr⟩⟩

theorem LongestShadow.unique {codec : PathCodec} {shadow real r : Text} {slash k : Nat}
    (h : LongestShadow codec shadow slash real) (h' : LongestShadow codec shadow k r) :
    slash = k ∧ real = r := by
  have hslash : slash = k := by
    rcases Nat.lt_trichotomy slash k with hlt | heq | hlt
    · exact absurd h'.decoded (h.longest k hlt h'.boundary r)
    · exact heq
    · exact absurd h.decoded (h'.longest slash hlt h.boundary real)
  subst hslash
  exact ⟨rfl, Except.ok.inj (h.decoded.symm.trans h'.decoded)⟩

/-- The decoded prefix and the literal rest. -/
def composed (real rest : Text) : Text := if real = [] then rest else real ++ '/' :: rest

/-- The search finds the longest prefix, whatever the codec. -/
theorem decodeCompound_eq_some_iff {codec : PathCodec} {shadow found : Text} :
    decodeCompound codec shadow = some found ↔ ∃ slash real,
      LongestShadow codec shadow slash real ∧ found = composed real (shadow.drop (slash + 1)) := by
  have hcomposed : ∀ slash real, LongestShadow codec shadow slash real →
      decodeCompound codec shadow = some (composed real (shadow.drop (slash + 1))) :=
    fun slash real h => decodeCompoundFrom_eq_some (List.getElem?_eq_some_iff.1 h.boundary).1
      h.boundary h.decoded h.longest
  constructor
  · intro h
    by_cases hsome : ∃ slash real, shadow[slash]? = some '/' ∧
        codec.decode (shadow.take slash) = .ok real
    · obtain ⟨k, r, hk, hr⟩ := hsome
      obtain ⟨slash, real, hlongest⟩ := exists_longestShadow hk hr
      rw [hcomposed slash real hlongest] at h
      exact ⟨slash, real, hlongest, (Option.some.inj h).symm⟩
    · have hnone : decodeCompound codec shadow = none :=
        decodeCompoundFrom_eq_none fun slash _ hslash real hreal =>
          hsome ⟨slash, real, hslash, hreal⟩
      rw [hnone] at h
      cases h
  · intro h
    obtain ⟨slash, real, hlongest, rfl⟩ := h
    exact hcomposed slash real hlongest

/-- A mount that covers a prefix before a slash covers the whole shadow. -/
theorem segmentPrefix_of_take {shadow pre : Text} {slash : Nat} (hslash : shadow[slash]? = some '/')
    (h : segmentPrefix (shadow.take slash) pre = true) : segmentPrefix shadow pre = true := by
  obtain ⟨hlt, hget⟩ := List.getElem?_eq_some_iff.1 hslash
  have hcut : Covers '/' (shadow.take slash) shadow := by
    refine Or.inr (Or.inr ⟨shadow.drop (slash + 1), ?_⟩)
    rw [List.append_assoc, List.singleton_append, ← hget, List.getElem_cons_drop hlt,
      List.take_append_drop]
  exact segmentPrefix_iff.2 ((segmentPrefix_iff.1 h).trans '/' hcut)

/-- **Composition decodes the longest prefix, and accepts no shadow that a mount table
refuses.** -/
theorem compound_longest_prefix :
    (∀ (codec : PathCodec) (shadow : Text),
      ((∃ found, decodeCompound codec shadow = some found) ↔ ∃ slash real,
        shadow[slash]? = some '/' ∧ codec.decode (shadow.take slash) = .ok real) ∧
      ∀ found, decodeCompound codec shadow = some found ↔ ∃ slash real,
        LongestShadow codec shadow slash real ∧
          found = composed real (shadow.drop (slash + 1))) ∧
    ∀ (mounts : MountPathCodec) (shadow : Text), (∀ real, mounts.decode shadow ≠ .ok real) →
      decodeCompound mounts.toPathCodec shadow = none := by
  constructor
  · intro codec shadow
    constructor
    · constructor
      · intro h
        obtain ⟨found, hfound⟩ := h
        obtain ⟨slash, real, hlongest, -⟩ := decodeCompound_eq_some_iff.1 hfound
        exact ⟨slash, real, hlongest.boundary, hlongest.decoded⟩
      · intro h
        obtain ⟨k, r, hk, hr⟩ := h
        obtain ⟨slash, real, hlongest⟩ := exists_longestShadow hk hr
        exact ⟨_, decodeCompound_eq_some_iff.2 ⟨slash, real, hlongest, rfl⟩⟩
    · exact fun found => decodeCompound_eq_some_iff
  · intro mounts shadow hrefused
    apply decodeCompoundFrom_eq_none
    intro slash _ hslash real hreal
    -- the mount that decodes the prefix covers the whole shadow
    cases hmatch : mounts.decodeMatch shadow with
    | some found =>
        obtain ⟨root, rest⟩ := found
        apply hrefused (joinPrefix root rest)
        unfold MountPathCodec.decode
        rw [hmatch]
    | none =>
        have huncovered := MountPathCodec.longestMatch_eq_none_iff.1 hmatch
        have hdecoded : mounts.decode (shadow.take slash) = .ok real := hreal
        cases hcut : mounts.decodeMatch (shadow.take slash) with
        | none =>
            unfold MountPathCodec.decode at hdecoded
            rw [hcut] at hdecoded
            cases hdecoded
        | some found =>
            obtain ⟨e, he, -⟩ := MountPathCodec.longestMatch_eq_some hcut
            have hcovered := segmentPrefix_of_take hslash he.2.1
            rw [huncovered e he.1] at hcovered
            cases hcovered

/-- A shadow outside the only mount is not composed either. -/
theorem unmapped_shadow_not_composed :
    decodeCompound (MountPathCodec.new [("home/alice".toList,
      "data/vol-3/alice".toList)]).toPathCodec "other/dir/thing.txt".toList = none := by
  apply compound_longest_prefix.2
  intro real hreal
  have hrefused : (MountPathCodec.new [("home/alice".toList, "data/vol-3/alice".toList)]).decode
      "other/dir/thing.txt".toList = .error (.unmapped "other/dir/thing.txt".toList) := by
    decide +kernel
  rw [hrefused] at hreal
  cases hreal

/-! ## The string test is a test of segments -/

/-- The segments an allowed path names, once trimmed. -/
def allowedSegments (allowed : Text) : List Text :=
  ((trimSlashes allowed).splitOn '/').filter (· ≠ [])

/-- One allowed path covers the path, on segment boundaries. -/
theorem pathMatchesAny_iff {path : Text} {prefixes : List Text} :
    pathMatchesAny path prefixes = true ↔
      ∃ allowed ∈ prefixes, Covers '/' (trimSlashes allowed) (trimStartSlashes path) := by
  unfold pathMatchesAny
  rw [List.any_eq_true]
  have htest : ∀ allowed, (if trimSlashes allowed = [] then true
      else if trimStartSlashes path = trimSlashes allowed then true
      else (trimStartSlashes path).startsWith (trimSlashes allowed) &&
        ((trimStartSlashes path).drop (trimSlashes allowed).length).head? = some '/') =
      segmentPrefix (trimStartSlashes path) (trimSlashes allowed) := by
    intro allowed
    unfold segmentPrefix
    by_cases hroot : trimSlashes allowed = []
    · simp [hroot]
    · by_cases hsame : trimStartSlashes path = trimSlashes allowed
      · simp [hsame]
      · simp [hroot, hsame]
  constructor
  · intro h
    obtain ⟨allowed, hmem, hcovers⟩ := h
    exact ⟨allowed, hmem, segmentPrefix_iff.1 ((htest allowed).symm.trans hcovers)⟩
  · intro h
    obtain ⟨allowed, hmem, hcovers⟩ := h
    exact ⟨allowed, hmem, (htest allowed).trans (segmentPrefix_iff.2 hcovers)⟩

/-- A canonical path starts with no slash. -/
theorem trimStartSlashes_canonical {path : Text} (h : Canonical path) :
    trimStartSlashes path = path := by
  have hhead : path.head? ≠ some '/' := by
    rw [← joinSegments_segments path]
    exact head?_joinSegments_ne_slash (isSegment_of_plain h.plainSegments)
  unfold trimStartSlashes
  cases path with
  | nil => rfl
  | cons c rest =>
      have hc : c ≠ '/' := fun hc => hhead (by rw [hc]; rfl)
      rw [List.dropWhile_cons_of_neg (by simpa using hc)]

/-- What covers a canonical path spells a prefix of its segments, none of them
empty. -/
theorem prefix_of_covers {q path : Text} (hpath : Canonical path) (h : Covers '/' q path) :
    (q.splitOn '/').filter (· ≠ []) <+: segments path := by
  have hsegs := isSegment_of_plain hpath.plainSegments
  have hkeep : ∀ us : List Text, us <+: segments path → us.filter (· ≠ []) = us := by
    intro us hus
    apply List.filter_eq_self.2
    intro s hs
    have hne : s ≠ [] := (hsegs s (hus.subset hs)).1
    simpa using hne
  have hsplit : path ≠ [] → segments path = path.splitOn '/' := fun hne => if_neg hne
  rcases h with hroot | hsame | ⟨rest, hrest⟩
  · rw [hroot]
    simp
  · rw [← hsame]
    by_cases hne : path = []
    · rw [hne]
      simp
    · rw [← hsplit hne, hkeep _ (List.prefix_refl _)]
  · have hne : path ≠ [] := by
      rw [← hrest]
      simp
    have hall : segments path = q.splitOn '/' ++ rest.splitOn '/' := by
      rw [hsplit hne, ← hrest, List.append_assoc, List.singleton_append,
        List.splitOn_append_cons_self]
    have hpre : q.splitOn '/' <+: segments path := ⟨_, hall.symm⟩
    rw [hkeep _ hpre]
    exact hpre

/-! ## Confinement -/

/-- An allowed path is the root, or names a prefix of the path's segments. -/
def Allowed (claims : TokenClaims) (path : Text) : Prop :=
  (∃ allowed ∈ claims.allowedPaths, trimSlashes allowed = []) ∨
    ∃ allowed ∈ claims.allowedPaths, allowedSegments allowed <+: segments path

/-- What the segment validator accepts. -/
theorem validate_new_eq_ok_iff {now : Int} {claims : TokenClaims} {path : Text}
    {action : Action} :
    PathValidator.new.validate now claims path action = .ok () ↔
      claims.isExpired now = false ∧ claims.hasPermission action.requiredPermission = true ∧
        pathMatchesAny path claims.allowedPaths = true := by
  unfold PathValidator.validate PathValidator.new
  cases claims.isExpired now <;> cases claims.hasPermission action.requiredPermission <;>
    cases pathMatchesAny path claims.allowedPaths <;> simp

/-- **Whatever the codec, a resolved path is canonical and lies in a subtree the
token allows; and with a path its whole subtree is allowed.** -/
theorem resolve_confined (codec : PathCodec) (now : Int) (claims : TokenClaims)
    (action : Action) :
    (∀ shadow real,
      resolveClientPath codec (PathValidator.new.validate now) claims shadow action = .ok real →
        Canonical real ∧ Allowed claims real) ∧
    ∀ path below, Canonical path → Canonical below → segments path <+: segments below →
      PathValidator.new.validate now claims path action = .ok () →
        PathValidator.new.validate now claims below action = .ok () := by
  constructor
  · intro shadow real h
    obtain ⟨hdecoded, hvalid⟩ := resolveClientPath_eq_ok_iff.1 h
    have hcanon := canonical_of_decodeClientPath hdecoded
    obtain ⟨-, -, hmatch⟩ := validate_new_eq_ok_iff.1 hvalid
    obtain ⟨allowed, hmem, hcovers⟩ := pathMatchesAny_iff.1 hmatch
    rw [trimStartSlashes_canonical hcanon] at hcovers
    exact ⟨hcanon, Or.inr ⟨allowed, hmem, prefix_of_covers hcanon hcovers⟩⟩
  · intro path below hpath hbelow hsub hvalid
    obtain ⟨halive, hpermitted, hmatch⟩ := validate_new_eq_ok_iff.1 hvalid
    obtain ⟨allowed, hmem, hcovers⟩ := pathMatchesAny_iff.1 hmatch
    rw [trimStartSlashes_canonical hpath] at hcovers
    refine validate_new_eq_ok_iff.2 ⟨halive, hpermitted, pathMatchesAny_iff.2 ⟨allowed, hmem, ?_⟩⟩
    rw [trimStartSlashes_canonical hbelow]
    have hinto : Covers '/' path below := by
      rw [← joinSegments_segments path, ← joinSegments_segments below]
      exact covers_of_prefix '/' hsub
    exact Covers.trans '/' hcovers hinto

/-! ### A token for one directory -/

def docsClaims : TokenClaims := ⟨"tester".toList, none, [.read], ["/docs/".toList]⟩

theorem docs_resolution_confined :
    (Canonical "docs/a.txt".toList ∧ Allowed docsClaims "docs/a.txt".toList) ∧
      PathValidator.new.validate 0 docsClaims "docs/a.txt/b".toList .read = .ok () :=
  ⟨(resolve_confined identityPathCodec 0 docsClaims .read).1 "docs/./a.txt".toList _ (by decide),
    (resolve_confined identityPathCodec 0 docsClaims .read).2 "docs/a.txt".toList _ (by decide)
      (by decide) (by decide) (by decide)⟩

example : resolveClientPath identityPathCodec (PathValidator.new.validate 0) docsClaims
    "docshop/x".toList .read = .error (.auth (.forbidden "docshop/x".toList .read)) := by decide

end Libfw

import Libfw.RangeNegotiation

/-!
# The grammar of a `Range` header

What `parse_range_header` accepts, against the grammar of RFC 7233: `1*DIGIT "-" *DIGIT` or
`"-" 1*DIGIT`.  The numbers are read by `u64::from_str`, which also takes a sign, so a spec is
read as the same spec without the signs in front of its numbers (`parseRangeHeader_spec`).

* `parser_follows_grammar_iff` — the parser follows the grammar on a header unless a spec
  with such a sign is well formed without it.
-/

namespace Libfw

/-! ## The grammar -/

/-- `1*DIGIT`. -/
def Digits (t : Text) : Prop := t ≠ [] ∧ t.all Char.isDigit = true

/-- The number that digits denote. -/
def number (t : Text) : Nat := Nat.ofDigitChars 10 t 0

/-- A spec of the grammar and the range it denotes; an open range ends at `u64::MAX`. -/
inductive RangeSyntax : Text → ParsedRange → Prop where
  | closed {first last : Text} : Digits first → Digits last → number last ≤ 2 ^ 64 - 2 →
      number first ≤ number last →
        RangeSyntax (first ++ '-' :: last) (.bytes ⟨number first, number last + 1⟩)
  | rest {first : Text} : Digits first → number first ≤ 2 ^ 64 - 2 →
      RangeSyntax (first ++ ['-']) (.bytes ⟨number first, U64_MAX⟩)
  | suffix {digits : Text} : Digits digits → number digits ≤ 2 ^ 64 - 1 →
      RangeSyntax ('-' :: digits) (.suffix (number digits))

/-- The header asks for one byte range, in these words. -/
def OneByteRange (header spec : Text) : Prop :=
  ∃ unit rest, (trim header).splitOnce '=' = some (unit, rest) ∧
    eqIgnoreAsciiCase (trim unit) "bytes".toList = true ∧ trim rest = spec ∧ ',' ∉ spec

/-- **What the parser is to do with a header.** -/
structure FollowsGrammar (header : Text) : Prop where
  accepted : ∀ spec, OneByteRange header spec →
    ∀ r, parseRangeHeader header = some (some r) ↔ RangeSyntax spec r
  malformed : ∀ spec, OneByteRange header spec → (∀ r, ¬ RangeSyntax spec r) →
    parseRangeHeader header = none
  ignored : (∀ spec, ¬ OneByteRange header spec) → parseRangeHeader header = some none

/-! ## Signs -/

/-- A number without the sign that `from_str` takes. -/
def dropPlus : Text → Text
  | '+' :: c :: rest => c :: rest
  | t => t

/-- A spec without the signs in front of its numbers. -/
def signless (spec : Text) : Text :=
  match spec.splitOnce '-' with
  | some (first, last) => dropPlus first ++ '-' :: dropPlus last
  | none => spec

/-- **The condition**: no spec is well formed only once its signs are dropped. -/
def NoSigns (header : Text) : Prop :=
  ∀ spec, OneByteRange header spec → signless spec = spec ∨ ∀ r, ¬ RangeSyntax (signless spec) r

section Numbers

variable {t : Text} {n : Nat}

/-- A number is read where digits stand, after a sign perhaps. -/
theorem parseU64_eq_some_iff :
    parseU64 t = some n ↔ Digits (dropPlus t) ∧ number (dropPlus t) = n ∧ n < 2 ^ 64 := by
  have hparse : parseU64 t = if dropPlus t = [] then none
      else if (dropPlus t).all Char.isDigit then
        if number (dropPlus t) < 2 ^ 64 then some (number (dropPlus t)) else none
      else none := by
    cases t with
    | nil => rfl
    | cons c rest =>
        by_cases hc : c = '+'
        · subst hc
          cases rest with
          | nil => rfl
          | cons d more => rfl
        · have hdrop : dropPlus (c :: rest) = c :: rest := by
            unfold dropPlus
            split
            · next heq =>
                cases heq
                exact absurd rfl hc
            · rfl
          rw [hdrop]
          unfold parseU64 number
          dsimp only
          split
          · next heq =>
              cases heq
              exact absurd rfl hc
          · rfl
  rw [hparse]
  unfold Digits
  split
  · next hempty => simp [hempty]
  · next hne =>
      split
      · next hdigits =>
          split
          · next hlt =>
              rw [Option.some_inj]
              constructor
              · intro heq
                exact ⟨⟨hne, hdigits⟩, heq, heq ▸ hlt⟩
              · intro h
                exact h.2.1
          · next hge =>
              constructor
              · intro h
                cases h
              · intro h
                exact absurd (h.2.1 ▸ h.2.2) hge
      · next hno =>
          constructor
          · intro h
            cases h
          · intro h
            exact absurd h.1.2 hno

theorem Digits.not_mem (h : Digits t) {c : Char} (hc : c.isDigit = false) : c ∉ t := by
  intro hmem
  rw [List.all_eq_true.1 h.2 c hmem] at hc
  cases hc

theorem Digits.dropPlus (h : Digits t) : dropPlus t = t := by
  have hplus := h.not_mem (show '+'.isDigit = false by decide)
  unfold Libfw.dropPlus
  split
  · next c rest => exact absurd List.mem_cons_self hplus
  · rfl

theorem dropPlus_eq_nil_iff : dropPlus t = [] ↔ t = [] := by
  unfold dropPlus
  split
  · next c rest => simp
  · exact Iff.rfl

end Numbers

section Specs

variable {a b : Text} {r : ParsedRange}

/-- The specs of the grammar, by what stands before and after the first dash. -/
theorem rangeSyntax_iff (ha : '-' ∉ a) : RangeSyntax (a ++ '-' :: b) r ↔
    (a = [] ∧ Digits b ∧ number b ≤ 2 ^ 64 - 1 ∧ r = .suffix (number b)) ∨
    (Digits a ∧ b = [] ∧ number a ≤ 2 ^ 64 - 2 ∧ r = .bytes ⟨number a, U64_MAX⟩) ∨
    (Digits a ∧ Digits b ∧ number b ≤ 2 ^ 64 - 2 ∧ number a ≤ number b ∧
      r = .bytes ⟨number a, number b + 1⟩) := by
  have hdash : '-'.isDigit = false := by decide
  constructor
  · intro h
    generalize hspec : a ++ '-' :: b = spec at h
    have hsplit : spec.splitOnce '-' = some (a, b) := by
      rw [← hspec]
      exact Text.splitOnce_append b ha
    cases h with
    | @closed first last hfirst hlast hfits hle =>
        rw [Text.splitOnce_append last (hfirst.not_mem hdash)] at hsplit
        cases hsplit
        exact Or.inr (Or.inr ⟨hfirst, hlast, hfits, hle, rfl⟩)
    | @rest first hfirst hfits =>
        rw [Text.splitOnce_append [] (hfirst.not_mem hdash)] at hsplit
        cases hsplit
        exact Or.inr (Or.inl ⟨hfirst, rfl, hfits, rfl⟩)
    | @suffix digits hdigits hfits =>
        have hnone := Text.splitOnce_append digits (List.not_mem_nil (a := '-'))
        rw [List.nil_append] at hnone
        rw [hnone] at hsplit
        cases hsplit
        exact Or.inl ⟨rfl, hdigits, hfits, rfl⟩
  · intro h
    rcases h with ⟨rfl, hb, hfits, rfl⟩ | ⟨ha, rfl, hfits, rfl⟩ | ⟨ha, hb, hfits, hle, rfl⟩
    · exact .suffix hb hfits
    · exact .rest ha hfits
    · exact .closed ha hb hfits hle

/-- Every spec of the grammar has a dash. -/
theorem not_rangeSyntax_of_no_dash {spec : Text} (h : '-' ∉ spec) : ¬ RangeSyntax spec r := by
  intro hsyntax
  cases hsyntax with
  | closed | rest => exact h (List.mem_append_right _ List.mem_cons_self)
  | suffix => exact h List.mem_cons_self

/-- A well formed spec has no signs. -/
theorem signless_of_rangeSyntax {spec : Text} (h : RangeSyntax spec r) : signless spec = spec := by
  have hdash : '-'.isDigit = false := by decide
  cases h with
  | @closed first last hfirst hlast _ _ =>
      unfold signless
      rw [Text.splitOnce_append last (hfirst.not_mem hdash)]
      dsimp only
      rw [hfirst.dropPlus, hlast.dropPlus]
  | @rest first hfirst _ =>
      unfold signless
      rw [Text.splitOnce_append [] (hfirst.not_mem hdash)]
      dsimp only
      rw [hfirst.dropPlus]
      rfl
  | @suffix digits hdigits _ =>
      have hnone := Text.splitOnce_append digits (List.not_mem_nil (a := '-'))
      rw [List.nil_append] at hnone
      unfold signless
      rw [hnone]
      dsimp only
      rw [hdigits.dropPlus]
      rfl

end Specs

/-! ## The parser -/

section Parser

variable {header spec a b : Text} {r : ParsedRange}

theorem splitOnce_eq_none {c : Char} {t : Text} (h : c ∉ t) : t.splitOnce c = none := by
  cases hsplit : t.splitOnce c with
  | none => rfl
  | some parts =>
      obtain ⟨heq, -⟩ := Text.eq_of_splitOnce hsplit
      rw [heq] at h
      exact absurd (List.mem_append_right _ List.mem_cons_self) h

/-- What the parser makes of the numbers around the first dash. -/
def numbersRange (first last : Text) : Option ParsedRange :=
  if first = [] then (parseU64 last).map .suffix
  else do
    let start ← parseU64 first
    let stop ← parseRangeStop last
    if stop ≤ start then none else some (.bytes ⟨start, stop⟩)

/-- One byte range without a dash is malformed. -/
theorem parseRangeHeader_no_dash (h : OneByteRange header spec) (hdash : '-' ∉ spec) :
    parseRangeHeader header = none := by
  obtain ⟨unit, rest, hsplit, hunit, rfl, hcomma⟩ := h
  have hne : trim header ≠ [] := by
    intro hempty
    rw [hempty] at hsplit
    cases hsplit
  have hminus : stripPrefix ['-'] (trim rest) = none := by
    apply if_neg
    rw [Text.startsWith_iff]
    intro hpre
    exact hdash (hpre.subset List.mem_cons_self)
  unfold parseRangeHeader
  simp only [if_neg hne, hsplit, hunit, Bool.not_true, Bool.false_eq_true, if_false,
    if_neg hcomma, hminus, splitOnce_eq_none hdash]

/-- Otherwise the numbers around its first dash decide. -/
theorem parseRangeHeader_numbers (h : OneByteRange header (a ++ '-' :: b)) (ha : '-' ∉ a) :
    parseRangeHeader header = (numbersRange a b).map some := by
  obtain ⟨unit, rest, hsplit, hunit, hspec, hcomma⟩ := h
  have hne : trim header ≠ [] := by
    intro hempty
    rw [hempty] at hsplit
    cases hsplit
  unfold parseRangeHeader numbersRange
  simp only [if_neg hne, hsplit, hunit, Bool.not_true, Bool.false_eq_true, if_false, hspec,
    if_neg hcomma]
  by_cases hempty : a = []
  · subst hempty
    have hminus : stripPrefix ['-'] ([] ++ '-' :: b) = some b := by
      apply if_pos
      rw [Text.startsWith_iff]
      exact ⟨b, rfl⟩
    rw [hminus, if_pos rfl, Option.map_map]
    rfl
  · have hminus : stripPrefix ['-'] (a ++ '-' :: b) = none := by
      apply if_neg
      rw [Text.startsWith_iff]
      intro hpre
      obtain ⟨x, xs, rfl⟩ := List.exists_cons_of_ne_nil hempty
      obtain ⟨hx, -⟩ := List.cons_prefix_cons.1 hpre
      exact ha (hx ▸ List.mem_cons_self)
    rw [hminus, if_neg hempty]
    dsimp only
    rw [Text.splitOnce_append b ha]
    dsimp only
    cases parseU64 a with
    | none => rfl
    | some start =>
        cases parseRangeStop b with
        | none => rfl
        | some stop =>
            show (if stop ≤ start then none else some (some (ParsedRange.bytes ⟨start, stop⟩))) =
              (if stop ≤ start then none else some (ParsedRange.bytes ⟨start, stop⟩)).map some
            split
            · rfl
            · rfl

theorem parseRangeStop_eq_some_iff {stop : Nat} : parseRangeStop b = some stop ↔
    (b = [] ∧ stop = U64_MAX) ∨
      (Digits (dropPlus b) ∧ number (dropPlus b) ≤ 2 ^ 64 - 2 ∧ stop = number (dropPlus b) + 1) := by
  unfold parseRangeStop
  split
  · next hempty =>
      subst hempty
      constructor
      · intro h
        cases h
        exact Or.inl ⟨rfl, rfl⟩
      · intro h
        rcases h with ⟨-, rfl⟩ | ⟨hdigits, -⟩
        · rfl
        · exact absurd rfl hdigits.1
  · next hne =>
      rw [Option.bind_eq_bind, Option.bind_eq_some_iff]
      constructor
      · intro h
        obtain ⟨last, hlast, hstop⟩ := h
        obtain ⟨hdigits, hnumber, hlt⟩ := parseU64_eq_some_iff.1 hlast
        split at hstop
        · cases hstop
        · next hmax =>
            cases hstop
            unfold U64_MAX at hmax
            exact Or.inr ⟨hdigits, by omega, by omega⟩
      · intro h
        rcases h with ⟨hempty, -⟩ | ⟨hdigits, hfits, rfl⟩
        · exact absurd hempty hne
        · refine ⟨number (dropPlus b), parseU64_eq_some_iff.2 ⟨hdigits, rfl, by omega⟩, ?_⟩
          rw [if_neg]
          unfold U64_MAX
          omega

theorem dash_not_mem_dropPlus (ha : '-' ∉ a) : '-' ∉ dropPlus a := by
  unfold dropPlus
  split
  · exact fun h => ha (List.mem_cons_of_mem _ h)
  · exact ha

/-- **The numbers are read as the grammar has them, once their signs are dropped.** -/
theorem numbersRange_eq_some_iff (ha : '-' ∉ a) :
    numbersRange a b = some r ↔ RangeSyntax (dropPlus a ++ '-' :: dropPlus b) r := by
  rw [rangeSyntax_iff (dash_not_mem_dropPlus ha)]
  unfold numbersRange
  split
  · next hempty =>
      subst hempty
      rw [Option.map_eq_some_iff]
      constructor
      · intro h
        obtain ⟨n, hn, rfl⟩ := h
        obtain ⟨hdigits, rfl, hlt⟩ := parseU64_eq_some_iff.1 hn
        exact Or.inl ⟨rfl, hdigits, by omega, rfl⟩
      · intro h
        rcases h with ⟨-, hdigits, hfits, rfl⟩ | ⟨hdigits, -⟩ | ⟨hdigits, -⟩
        · exact ⟨_, parseU64_eq_some_iff.2 ⟨hdigits, rfl, by omega⟩, rfl⟩
        · exact absurd rfl hdigits.1
        · exact absurd rfl hdigits.1
  · next hne =>
      simp only [Option.bind_eq_bind, Option.bind_eq_some_iff]
      constructor
      · intro h
        obtain ⟨start, hstart, stop, hstop, hrange⟩ := h
        obtain ⟨hdigits, rfl, hlt⟩ := parseU64_eq_some_iff.1 hstart
        split at hrange
        · cases hrange
        · next hlt' =>
            cases hrange
            rcases parseRangeStop_eq_some_iff.1 hstop with ⟨rfl, rfl⟩ | ⟨hlast, hfits, rfl⟩
            · unfold U64_MAX at hlt'
              exact Or.inr (Or.inl ⟨hdigits, rfl, by omega, rfl⟩)
            · exact Or.inr (Or.inr ⟨hdigits, hlast, hfits, by omega, rfl⟩)
      · intro h
        rcases h with ⟨hempty, -⟩ | ⟨hdigits, hempty, hfits, rfl⟩ |
          ⟨hdigits, hlast, hfits, hle, rfl⟩
        · exact absurd (dropPlus_eq_nil_iff.1 hempty) hne
        · refine ⟨_, parseU64_eq_some_iff.2 ⟨hdigits, rfl, by omega⟩, U64_MAX,
            parseRangeStop_eq_some_iff.2 (Or.inl ⟨dropPlus_eq_nil_iff.1 hempty, rfl⟩), ?_⟩
          rw [if_neg]
          unfold U64_MAX
          omega
        · refine ⟨_, parseU64_eq_some_iff.2 ⟨hdigits, rfl, by omega⟩, _,
            parseRangeStop_eq_some_iff.2 (Or.inr ⟨hlast, hfits, rfl⟩), ?_⟩
          rw [if_neg]
          omega

/-- One byte range is read as the spec without its signs, or malformed. -/
theorem parseRangeHeader_spec (h : OneByteRange header spec) :
    (∀ r, parseRangeHeader header = some (some r) ↔ RangeSyntax (signless spec) r) ∧
      parseRangeHeader header ≠ some none := by
  by_cases hdash : '-' ∈ spec
  · obtain ⟨a, b, hspec, ha⟩ : ∃ a b, spec = a ++ '-' :: b ∧ '-' ∉ a :=
      List.eq_append_cons_of_mem hdash
    subst hspec
    have hsignless : signless (a ++ '-' :: b) = dropPlus a ++ '-' :: dropPlus b := by
      unfold signless
      rw [Text.splitOnce_append b ha]
    rw [parseRangeHeader_numbers h ha, hsignless]
    constructor
    · intro r
      rw [← numbersRange_eq_some_iff ha]
      simp
    · simp
  · have hsignless : signless spec = spec := by
      unfold signless
      rw [splitOnce_eq_none hdash]
    rw [parseRangeHeader_no_dash h hdash, hsignless]
    constructor
    · intro r
      constructor
      · intro hr
        cases hr
      · intro hr
        exact absurd hr (not_rangeSyntax_of_no_dash hdash)
    · intro hr
      cases hr

/-- Any other header is passed over. -/
theorem parseRangeHeader_other (h : ∀ spec, ¬ OneByteRange header spec) :
    parseRangeHeader header = some none := by
  unfold parseRangeHeader
  dsimp only
  split
  · rfl
  · split
    · rfl
    · next unit rest hsplit =>
        split
        · rfl
        · next hunit =>
            split
            · rfl
            · next hcomma =>
                have hbytes : eqIgnoreAsciiCase (trim unit) "bytes".toList = true := by
                  simpa using hunit
                exact absurd ⟨unit, rest, hsplit, hbytes, rfl, hcomma⟩ (h (trim rest))

end Parser

/-- **The parser follows the grammar on a header exactly when no spec is well formed only
without the signs of its numbers.** -/
theorem parser_follows_grammar_iff (header : Text) :
    FollowsGrammar header ↔ NoSigns header := by
  constructor
  · intro h spec hspec
    by_cases hsigns : ∃ r, RangeSyntax (signless spec) r
    · obtain ⟨r, hr⟩ := hsigns
      have hplain : RangeSyntax spec r :=
        (h.accepted spec hspec r).1 (((parseRangeHeader_spec hspec).1 r).2 hr)
      exact Or.inl (signless_of_rangeSyntax hplain)
    · exact Or.inr fun r hr => hsigns ⟨r, hr⟩
  · intro h
    have hiff : ∀ spec, OneByteRange header spec →
        ∀ r, parseRangeHeader header = some (some r) ↔ RangeSyntax spec r := by
      intro spec hspec r
      rw [(parseRangeHeader_spec hspec).1 r]
      rcases h spec hspec with hsame | hnone
      · rw [hsame]
      · constructor
        · intro hr
          exact absurd hr (hnone r)
        · intro hr
          rw [signless_of_rangeSyntax hr]
          exact hr
    constructor
    · exact hiff
    · intro spec hspec hno
      cases hparse : parseRangeHeader header with
      | none => rfl
      | some found =>
          cases found with
          | none => exact absurd hparse (parseRangeHeader_spec hspec).2
          | some r => exact absurd ((hiff spec hspec r).1 hparse) (hno r)
    · exact parseRangeHeader_other

/-- **A number with a sign is read, though the grammar has none.** -/
theorem signed_range_accepted : ¬ ∀ header : Text, FollowsGrammar header := by
  intro hall
  have hspec : OneByteRange "bytes=+0-5".toList "+0-5".toList :=
    ⟨"bytes".toList, "+0-5".toList, by decide +kernel, by decide +kernel, by decide +kernel,
      by decide +kernel⟩
  have hparse : parseRangeHeader "bytes=+0-5".toList = some (some (.bytes ⟨0, 6⟩)) := by
    decide +kernel
  have hsyntax := ((hall "bytes=+0-5".toList).accepted _ hspec _).1 hparse
  have hsame := signless_of_rangeSyntax hsyntax
  revert hsame
  decide +kernel

end Libfw

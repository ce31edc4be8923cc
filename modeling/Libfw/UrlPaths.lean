import Libfw.PercentEncoding
import Libfw.ZipWriter

/-!
# The URLs of the two clients

`encode_path`, `file_url` and `dir_url` of `libfw-client/src/native/mod.rs` and of
`libfw-client/src/http.rs`.  The native client goes through the bytes of the path; the browser
engine hands every segment to `encodeURIComponent`, which works on UTF-16 code units.

* `Http.encodePath_eq`: the browser engine, too, is an encoder of bytes, and keeps more of them.
* `same_urls_iff`: the clients build the same URLs exactly for the paths without `!*'()`.
-/

namespace Libfw

open SegmentPaths PercentEncoding

/-- `trim_end_matches('/')`. -/
def trimEndSlashes (t : Text) : Text := (t.reverse.dropWhile (· = '/')).reverse

/-! ## The native client -/

namespace Native

/-- The bytes that are pushed as they are. -/
def isUnreserved (b : UInt8) : Bool :=
  (0x41 ≤ b && b ≤ 0x5a) || (0x61 ≤ b && b ≤ 0x7a) || (0x30 ≤ b && b ≤ 0x39) ||
    b = 0x2d || b = 0x2e || b = 0x5f || b = 0x7e || b = 0x2f

/-- `encode_path` -/
def encodePath (path : Text) : Text := encode isUnreserved (utf8 path)

/-- `file_url` -/
def fileUrl (base path : Text) : Text := trimEndSlashes base ++ "/file/".toList ++ encodePath path

/-- `dir_url` -/
def dirUrl (base path : Text) : Text :=
  if path = [] then trimEndSlashes base ++ "/dir".toList
  else trimEndSlashes base ++ "/dir/".toList ++ encodePath path

end Native

/-! ## `encodeURIComponent` -/

/-- The code units of a character. -/
def charUnits (c : Char) : JsString :=
  if c.toNat < 0x10000 then [UInt16.ofNat c.toNat]
  else
    [UInt16.ofNat (0xd800 + (c.toNat - 0x10000) / 0x400),
      UInt16.ofNat (0xdc00 + (c.toNat - 0x10000) % 0x400)]

/-- A Rust string as JavaScript gets it. -/
def utf16 (t : Text) : JsString := t.flatMap charUnits

/-- `as_string` of a JavaScript string. -/
def asString (s : JsString) : Option Text := some (scalarValues s)

/-- The ASCII word characters and `-.!~*'()`. -/
def URI_UNESCAPED : JsString :=
  js "ABCDEFGHIJKLMNOPQRSTUVWXYZabcdefghijklmnopqrstuvwxyz0123456789_-.!~*'()".toList

/-- The characters that only `encodeURIComponent` keeps. -/
def URI_MARKS : Text := "!*'()".toList

/-- What is appended for a code point that is not kept. -/
def percentOctets (c : Char) : JsString := js ((String.utf8EncodeChar c).flatMap percent)

/-- What is appended for a code unit that is not half of a pair; `none` where a `URIError` is
thrown. -/
def encodeUnit (u : UInt16) : Option JsString :=
  if u ∈ URI_UNESCAPED then some [u]
  else if isHighSurrogate u || isLowSurrogate u then none
  else some (percentOctets (Char.ofNat u.toNat))

/-- `encodeURIComponent` -/
def encodeURIComponent : JsString → Option JsString
  | [] => some []
  | [u] => encodeUnit u
  | u :: v :: rest =>
      if isHighSurrogate u && isLowSurrogate v then
        let c := Char.ofNat (0x10000 + (u.toNat - 0xd800) * 0x400 + (v.toNat - 0xdc00))
        (encodeURIComponent rest).map (percentOctets c ++ ·)
      else do
        let first ← encodeUnit u
        (encodeURIComponent (v :: rest)).map (first ++ ·)

/-! ## The browser engine -/

namespace Http

/-- `encode_path`; `none` where `encodeURIComponent` throws. -/
def encodePath (path : Text) : Option Text :=
  ((path.splitOn '/').mapM fun seg =>
    (encodeURIComponent (utf16 seg)).map fun r => (asString r).getD seg).map (join '/')

/-- `file_url` -/
def fileUrl (base path : Text) : Option Text :=
  (encodePath path).map fun path => trimEndSlashes base ++ "/file/".toList ++ path

/-- `dir_url` -/
def dirUrl (base path : Text) : Option Text :=
  if path = [] then some (trimEndSlashes base ++ "/dir".toList)
  else (encodePath path).map fun path => trimEndSlashes base ++ "/dir/".toList ++ path

end Http

/-! ## Bytes of a text -/

/-- An ASCII character is one byte. -/
theorem utf8EncodeChar_ascii {c : Char} (h : c.toNat < 128) :
    String.utf8EncodeChar c = [UInt8.ofNat c.toNat] := by
  have hle : c.val.toNat ≤ 0x7f := Nat.le_of_lt_succ h
  unfold String.utf8EncodeChar
  rw [if_pos hle]
  rfl

/-- The bytes of any other character are not ASCII. -/
theorem utf8EncodeChar_high {c : Char} (h : 128 ≤ c.toNat) {b : UInt8}
    (hb : b ∈ String.utf8EncodeChar c) : 128 ≤ b.toNat := by
  have hlt : ¬ c.val.toNat ≤ 0x7f := fun hle => absurd h (by
    have : c.toNat = c.val.toNat := rfl
    omega)
  unfold String.utf8EncodeChar at hb
  rw [if_neg hlt] at hb
  split at hb <;> try split at hb
  all_goals
    simp only [List.mem_cons, List.not_mem_nil, or_false] at hb
    rcases hb with rfl | rfl | rfl | rfl <;> rw [UInt8.toNat_ofNat'] <;> omega

/-- The ASCII bytes of a text are its ASCII characters. -/
theorem mem_utf8_ascii {b : UInt8} (h : b.toNat < 128) {t : Text} :
    b ∈ utf8 t ↔ Char.ofNat b.toNat ∈ t := by
  unfold utf8
  rw [List.mem_flatMap]
  constructor
  · intro hmem
    obtain ⟨c, hc, hb⟩ := hmem
    by_cases hascii : c.toNat < 128
    · rw [utf8EncodeChar_ascii hascii, List.mem_singleton] at hb
      have hnat : b.toNat = c.toNat := by
        rw [hb, UInt8.toNat_ofNat']
        omega
      rwa [hnat, Char.ofNat_toNat]
    · have := utf8EncodeChar_high (Nat.le_of_not_lt hascii) hb
      omega
  · intro hmem
    have hnat := toNat_ofNat_byte b
    refine ⟨_, hmem, ?_⟩
    rw [utf8EncodeChar_ascii (by omega), hnat, UInt8.ofNat_toNat]
    exact List.mem_singleton_self b

theorem utf8_splitOn (t : Text) : (utf8 t).splitOn 0x2f = (t.splitOn '/').map utf8 := by
  apply splitOn_flatMap
  · decide
  · intro c hc hmem
    apply hc
    have hslash := (mem_utf8_ascii (b := 0x2f) (t := [c]) (by decide)).1
      (by simpa [utf8] using hmem)
    exact (List.mem_singleton.1 hslash).symm

theorem utf8_ascii {t : Text} (h : ∀ c ∈ t, c.toNat < 128) : utf8 t = t.map asciiByte := by
  unfold utf8
  induction t with
  | nil => rfl
  | cons c t ih =>
      rw [List.flatMap_cons, utf8EncodeChar_ascii (h c List.mem_cons_self),
        ih fun d hd => h d (List.mem_cons_of_mem c hd)]
      rfl

/-! ## `encodeURIComponent` is an encoder of bytes -/

/-- The bytes that `encodeURIComponent` keeps. -/
def isUriUnescaped (b : UInt8) : Bool := decide (UInt16.ofNat b.toNat ∈ URI_UNESCAPED)

theorem URI_UNESCAPED_eq : URI_UNESCAPED = js
    ['A', 'B', 'C', 'D', 'E', 'F', 'G', 'H', 'I', 'J', 'K', 'L', 'M', 'N', 'O', 'P', 'Q', 'R',
    'S', 'T', 'U', 'V', 'W', 'X', 'Y', 'Z', 'a', 'b', 'c', 'd', 'e', 'f', 'g', 'h', 'i', 'j', 'k',
    'l', 'm', 'n', 'o', 'p', 'q', 'r', 's', 't', 'u', 'v', 'w', 'x', 'y', 'z', '0', '1', '2', '3',
    '4', '5', '6', '7', '8', '9', '_', '-', '.', '!', '~', '*', Char.ofNat 0x27, '(', ')'] :=
  congrArg js String.toList_ofList

theorem URI_MARKS_eq : URI_MARKS = ['!', '*', Char.ofNat 0x27, '(', ')'] := String.toList_ofList

theorem lt_of_mem_URI_UNESCAPED {u : UInt16} (h : u ∈ URI_UNESCAPED) : u.toNat < 128 := by
  have hall : (URI_UNESCAPED.all fun v => v.toNat < 128) = true := by
    rw [URI_UNESCAPED_eq]
    decide +kernel
  exact of_decide_eq_true (List.all_eq_true.1 hall u h)

/-- Beside the letters, digits and marks that the native client keeps, not the slash, there are
five more. -/
def isUriByte (n : Nat) : Bool :=
  Native.isUnreserved (UInt8.ofNat n) && n ≠ 0x2f || decide (Char.ofNat n ∈ URI_MARKS)

theorem isUriUnescaped_eq (b : UInt8) : isUriUnescaped b = isUriByte b.toNat := by
  have hkept : (URI_UNESCAPED.all fun u => isUriByte u.toNat) = true := by
    simp only [isUriByte, URI_UNESCAPED_eq, URI_MARKS_eq]
    decide +kernel
  have hlist : ((List.range 256).all fun n =>
      !isUriByte n || decide (UInt16.ofNat n ∈ URI_UNESCAPED)) = true := by
    simp only [isUriByte, URI_UNESCAPED_eq, URI_MARKS_eq]
    decide +kernel
  apply Bool.eq_iff_iff.2
  constructor
  · intro h
    have hu := List.all_eq_true.1 hkept _ (of_decide_eq_true h)
    have hnat : (UInt16.ofNat b.toNat).toNat = b.toNat := by
      have hlt : b.toNat < 256 := b.toNat_lt
      rw [UInt16.toNat_ofNat']
      omega
    rwa [hnat] at hu
  · intro h
    have hn := List.all_eq_true.1 hlist b.toNat (List.mem_range.2 b.toNat_lt)
    rw [h, Bool.not_true, Bool.false_or] at hn
    exact hn

theorem plain_isUriUnescaped : Plain isUriUnescaped := by
  constructor
  · rw [isUriUnescaped_eq]
    decide
  · intro b hb
    have hlt := lt_of_mem_URI_UNESCAPED (of_decide_eq_true hb)
    have hbyte : b.toNat < 256 := b.toNat_lt
    rw [UInt16.toNat_ofNat'] at hlt
    omega

theorem js_append (s t : Text) : js (s ++ t) = js s ++ js t := List.map_append

/-- A character of the basic plane is one unit, and that is no surrogate. -/
theorem unit_basic {c : Char} (h : c.toNat < 0x10000) :
    (UInt16.ofNat c.toNat).toNat = c.toNat ∧ isHighSurrogate (UInt16.ofNat c.toNat) = false ∧
      isLowSurrogate (UInt16.ofNat c.toNat) = false := by
  have hunit : (UInt16.ofNat c.toNat).toNat = c.toNat := by
    rw [UInt16.toNat_ofNat']
    omega
  have hvalid : c.toNat < 0xd800 ∨ 0xdfff < c.toNat ∧ c.toNat < 0x110000 := c.valid
  unfold isHighSurrogate isLowSurrogate
  simp only [Bool.and_eq_false_iff, decide_eq_false_iff_not, UInt16.le_iff_toNat_le,
    UInt16.lt_iff_toNat_lt, hunit]
  simp
  omega

/-- No byte of a character beyond ASCII is kept. -/
theorem encode_high {c : Char} (h : 128 ≤ c.toNat) :
    encode isUriUnescaped (String.utf8EncodeChar c) =
      (String.utf8EncodeChar c).flatMap percent := by
  apply List.flatMap_congr
  intro b hb
  have hhigh := utf8EncodeChar_high h hb
  unfold encodeByte
  rw [if_neg]
  intro hkeep
  have := plain_isUriUnescaped.ascii b hkeep
  omega

/-- A unit that is not half of a pair. -/
theorem encodeURIComponent_unit {u : UInt16} (h : isHighSurrogate u = false) (s : JsString) :
    encodeURIComponent (u :: s) =
      (encodeUnit u).bind fun first => (encodeURIComponent s).map (first ++ ·) := by
  cases s with
  | nil => simp [encodeURIComponent]
  | cons v s =>
      rw [encodeURIComponent, h]
      rfl

/-- What is appended for a character of the basic plane. -/
theorem encodeUnit_basic {c : Char} (h : c.toNat < 0x10000) :
    encodeUnit (UInt16.ofNat c.toNat) =
      some (js (encode isUriUnescaped (String.utf8EncodeChar c))) := by
  obtain ⟨hunit, hhigh, hlow⟩ := unit_basic h
  unfold encodeUnit
  rw [hhigh, hlow, Bool.or_false, if_neg Bool.false_ne_true, hunit, Char.ofNat_toNat]
  by_cases hascii : c.toNat < 128
  · have hbyte : (UInt8.ofNat c.toNat).toNat = c.toNat := by
      rw [UInt8.toNat_ofNat']
      omega
    have hencode : encode isUriUnescaped (String.utf8EncodeChar c) =
        encodeByte isUriUnescaped (UInt8.ofNat c.toNat) := by
      rw [utf8EncodeChar_ascii hascii, encode_cons, encode_nil, List.append_nil]
    rw [hencode]
    unfold encodeByte isUriUnescaped
    rw [hbyte]
    by_cases hkeep : UInt16.ofNat c.toNat ∈ URI_UNESCAPED
    · rw [if_pos hkeep, if_pos (decide_eq_true hkeep), Char.ofNat_toNat]
      rfl
    · rw [if_neg hkeep, if_neg (fun hd => hkeep (of_decide_eq_true hd))]
      unfold percentOctets
      rw [utf8EncodeChar_ascii hascii, List.flatMap_singleton]
  · have hkeep : UInt16.ofNat c.toNat ∉ URI_UNESCAPED := by
      intro hmem
      have := lt_of_mem_URI_UNESCAPED hmem
      omega
    rw [if_neg hkeep, encode_high (Nat.le_of_not_lt hascii)]
    rfl

/-- A character takes one turn of the loop. -/
theorem encodeURIComponent_char (c : Char) (s : JsString) :
    encodeURIComponent (charUnits c ++ s) =
      (encodeURIComponent s).map
        (js (encode isUriUnescaped (String.utf8EncodeChar c)) ++ ·) := by
  unfold charUnits
  split
  · next h =>
      obtain ⟨-, hhigh, -⟩ := unit_basic h
      rw [List.singleton_append, encodeURIComponent_unit hhigh, encodeUnit_basic h,
        Option.bind_some]
  · next h =>
      have hvalid : c.toNat < 0xd800 ∨ 0xdfff < c.toNat ∧ c.toNat < 0x110000 := c.valid
      have hu : (UInt16.ofNat (0xd800 + (c.toNat - 0x10000) / 0x400)).toNat =
          0xd800 + (c.toNat - 0x10000) / 0x400 := by
        rw [UInt16.toNat_ofNat']
        omega
      have hv : (UInt16.ofNat (0xdc00 + (c.toNat - 0x10000) % 0x400)).toNat =
          0xdc00 + (c.toNat - 0x10000) % 0x400 := by
        rw [UInt16.toNat_ofNat']
        omega
      have hpair : (isHighSurrogate (UInt16.ofNat (0xd800 + (c.toNat - 0x10000) / 0x400)) &&
          isLowSurrogate (UInt16.ofNat (0xdc00 + (c.toNat - 0x10000) % 0x400))) = true := by
        unfold isHighSurrogate isLowSurrogate
        simp only [Bool.and_eq_true, decide_eq_true_eq, UInt16.le_iff_toNat_le,
          UInt16.lt_iff_toNat_lt, hu, hv]
        simp
        omega
      have hchar : 0x10000 + (0xd800 + (c.toNat - 0x10000) / 0x400 - 0xd800) * 0x400 +
          (0xdc00 + (c.toNat - 0x10000) % 0x400 - 0xdc00) = c.toNat := by omega
      rw [List.cons_append, List.singleton_append, encodeURIComponent, if_pos hpair, hu, hv,
        hchar, Char.ofNat_toNat, encode_high (by omega)]
      rfl

/-- **`encodeURIComponent` encodes the bytes of a text.** -/
theorem encodeURIComponent_utf16 (t : Text) :
    encodeURIComponent (utf16 t) = some (js (encode isUriUnescaped (utf8 t))) := by
  induction t with
  | nil => rfl
  | cons c t ih =>
      have hunits : utf16 (c :: t) = charUnits c ++ utf16 t := rfl
      have hbytes : encode isUriUnescaped (utf8 (c :: t)) =
          encode isUriUnescaped (String.utf8EncodeChar c) ++ encode isUriUnescaped (utf8 t) :=
        List.flatMap_append
      rw [hunits, encodeURIComponent_char, ih, hbytes, js_append]
      rfl

/-- A string of ASCII characters is read back. -/
theorem asString_js {t : Text} (h : ∀ c ∈ t, c.toNat < 128) : asString (js t) = some t := by
  have hunit : ∀ {c : Char}, c.toNat < 128 → isHighSurrogate (UInt16.ofNat c.toNat) = false ∧
      loneUnit (UInt16.ofNat c.toNat) = c := by
    intro c hc
    obtain ⟨hnat, hhigh, hlow⟩ := unit_basic (c := c) (by omega)
    refine ⟨hhigh, ?_⟩
    unfold loneUnit
    rw [hhigh, hlow, Bool.or_false, if_neg Bool.false_ne_true, hnat, Char.ofNat_toNat]
  unfold asString
  congr 1
  induction t with
  | nil => rfl
  | cons c t ih =>
      obtain ⟨hhigh, hlone⟩ := hunit (h c List.mem_cons_self)
      have hrest := ih fun d hd => h d (List.mem_cons_of_mem c hd)
      cases t with
      | nil => exact congrArg (fun d => [d]) hlone
      | cons d t =>
          have hcut : js (c :: d :: t) =
              UInt16.ofNat c.toNat :: UInt16.ofNat d.toNat :: js t := rfl
          rw [hcut, scalarValues, hhigh, Bool.false_and, if_neg Bool.false_ne_true, hlone]
          exact congrArg (c :: ·) hrest

/-! ## The two clients -/

/-- The bytes that the browser engine keeps. -/
def Http.isKept (b : UInt8) : Bool := isUriUnescaped b || b = 0x2f

theorem Http.plain_isKept : Plain Http.isKept := by
  constructor
  · rw [Http.isKept, plain_isUriUnescaped.percent]
    rfl
  · intro b hb
    unfold Http.isKept at hb
    rcases Bool.or_eq_true_iff.1 hb with hb | hb
    · exact plain_isUriUnescaped.ascii b hb
    · rw [of_decide_eq_true hb]
      decide

theorem Native.plain_isUnreserved : Plain Native.isUnreserved := by
  constructor
  · decide
  · intro b hb
    simp only [Native.isUnreserved, Bool.or_eq_true, Bool.and_eq_true, decide_eq_true_eq,
      UInt8.le_iff_toNat_le, ← UInt8.toNat_inj, UInt8.reduceToNat] at hb
    omega

/-- A client that keeps `/` encodes segment by segment. -/
theorem encode_segments {keep : UInt8 → Bool} (h : Plain keep) (hslash : keep 0x2f = true)
    (path : Text) :
    (encode keep (utf8 path)).splitOn '/' =
      (path.splitOn '/').map fun seg => encode keep (utf8 seg) := by
  have hdigit : ∀ n < 16, hexDigit n ≠ Char.ofNat (0x2f : UInt8).toNat := by
    intro n hn
    exact (by decide : ∀ n : Fin 16, hexDigit n ≠ Char.ofNat (0x2f : UInt8).toNat) ⟨n, hn⟩
  have hsplit := splitOn_encode h hslash hdigit (utf8 path)
  rw [utf8_splitOn, List.map_map] at hsplit
  exact hsplit

/-- What is written of a text, read back. -/
theorem decode_encoded {keep : UInt8 → Bool} (h : Plain keep) (t : Text) :
    decode (utf8 (encode keep (utf8 t))) = utf8 t := by
  rw [utf8_ascii (ascii_encode h), decode_encode h]

theorem mapM_eq_some {α β : Type} {f : α → Option β} {g : α → β} {l : List α}
    (h : ∀ a ∈ l, f a = some (g a)) : l.mapM f = some (l.map g) := by
  induction l with
  | nil => rfl
  | cons a l ih =>
      rw [List.mapM_cons, h a List.mem_cons_self, ih fun b hb => h b (List.mem_cons_of_mem a hb)]
      rfl

/-- **The browser engine encodes the bytes of the path.** -/
theorem Http.encodePath_eq (path : Text) :
    Http.encodePath path = some (encode Http.isKept (utf8 path)) := by
  have hseg : ∀ seg ∈ path.splitOn '/',
      ((encodeURIComponent (utf16 seg)).map fun r => (asString r).getD seg) =
        some (encode Http.isKept (utf8 seg)) := by
    intro seg hseg
    have hslash : ∀ b ∈ utf8 seg, isUriUnescaped b = Http.isKept b := by
      intro b hb
      have hne : b ≠ 0x2f := by
        intro heq
        subst heq
        exact sep_not_mem_splitOn '/' hseg ((mem_utf8_ascii (by decide)).1 hb)
      unfold Http.isKept
      rw [decide_eq_false hne, Bool.or_false]
    rw [encodeURIComponent_utf16, Option.map_some, asString_js (ascii_encode plain_isUriUnescaped),
      Option.getD_some, encode_congr hslash]
  unfold Http.encodePath
  rw [mapM_eq_some hseg, Option.map_some, ← encode_segments Http.plain_isKept (Bool.or_true _) path,
    join_eq_intercalate, List.intercalate_splitOn]

/-- What the browser engine keeps, the native client keeps too, but for the marks. -/
theorem Http.isKept_eq (b : UInt8) : Http.isKept b =
    (Native.isUnreserved b || decide (Char.ofNat b.toNat ∈ URI_MARKS)) := by
  unfold Http.isKept
  rw [isUriUnescaped_eq]
  unfold isUriByte
  by_cases hslash : b = 0x2f
  · subst hslash
    decide
  · have hne : b.toNat ≠ 0x2f := fun h => hslash (UInt8.toNat_inj.1 h)
    simp [hslash, hne]

theorem not_isUnreserved_of_mark {b : UInt8} (h : Char.ofNat b.toNat ∈ URI_MARKS) :
    Native.isUnreserved b = false := by
  have hall : (URI_MARKS.all fun c => Native.isUnreserved (UInt8.ofNat c.toNat) = false) =
      true := by
    decide
  have hnot := of_decide_eq_true (List.all_eq_true.1 hall _ h)
  rwa [toNat_ofNat_byte, UInt8.ofNat_toNat] at hnot

/-- The clients differ on these bytes only. -/
theorem isKept_eq_iff (b : UInt8) :
    Native.isUnreserved b = Http.isKept b ↔ Char.ofNat b.toNat ∉ URI_MARKS := by
  rw [Http.isKept_eq]
  by_cases hmark : Char.ofNat b.toNat ∈ URI_MARKS
  · simp [hmark, not_isUnreserved_of_mark hmark]
  · simp [hmark]

/-- The clients build the same URLs for a path, and the path can be read back from them. -/
structure SameUrls (path : Text) : Prop where
  decodes : decode (utf8 (Native.encodePath path)) = utf8 path
  boundaries : ((Native.encodePath path).splitOn '/').map (fun seg => decode (utf8 seg)) =
    (path.splitOn '/').map utf8
  encodings : Http.encodePath path = some (Native.encodePath path)
  fileUrls : ∀ base, Http.fileUrl base path = some (Native.fileUrl base path)
  dirUrls : ∀ base, Http.dirUrl base path = some (Native.dirUrl base path)

/-- The native encoding can be read back, as a whole and segment by segment. -/
theorem Native.encodePath_decodes (path : Text) :
    decode (utf8 (Native.encodePath path)) = utf8 path ∧
      ((Native.encodePath path).splitOn '/').map (fun seg => decode (utf8 seg)) =
        (path.splitOn '/').map utf8 := by
  refine ⟨decode_encoded Native.plain_isUnreserved path, ?_⟩
  unfold Native.encodePath
  rw [encode_segments Native.plain_isUnreserved (by decide), List.map_map]
  apply List.map_congr_left
  intro seg _
  exact decode_encoded Native.plain_isUnreserved seg

theorem encodings_eq_iff (path : Text) :
    Http.encodePath path = some (Native.encodePath path) ↔ ∀ c ∈ path, c ∉ URI_MARKS := by
  have hall : (URI_MARKS.all fun c => c.toNat < 128) = true := by decide
  have hmarks : ∀ c ∈ URI_MARKS, c.toNat < 128 := by
    intro c hc
    exact of_decide_eq_true (List.all_eq_true.1 hall c hc)
  rw [Http.encodePath_eq, Native.encodePath, Option.some_inj, eq_comm,
    encode_eq_iff Native.plain_isUnreserved Http.plain_isKept]
  simp only [isKept_eq_iff]
  constructor
  · intro h c hc hmark
    have hbyte : (UInt8.ofNat c.toNat).toNat = c.toNat := by
      have := hmarks c hmark
      rw [UInt8.toNat_ofNat']
      omega
    apply h (UInt8.ofNat c.toNat)
    · have hlt : (UInt8.ofNat c.toNat).toNat < 128 := by
        rw [hbyte]
        exact hmarks c hmark
      rw [mem_utf8_ascii hlt, hbyte, Char.ofNat_toNat]
      exact hc
    · rw [hbyte, Char.ofNat_toNat]
      exact hmark
  · intro h b hb hmark
    have hlt := hmarks _ hmark
    rw [toNat_ofNat_byte] at hlt
    exact h _ ((mem_utf8_ascii hlt).1 hb) hmark

/-- **The clients build the same URLs exactly for the paths without a mark that only
`encodeURIComponent` keeps.** -/
theorem same_urls_iff (path : Text) : SameUrls path ↔ ∀ c ∈ path, c ∉ URI_MARKS := by
  rw [← encodings_eq_iff]
  refine ⟨SameUrls.encodings, ?_⟩
  intro h
  obtain ⟨hdecodes, hboundaries⟩ := Native.encodePath_decodes path
  refine ⟨hdecodes, hboundaries, h, ?_, ?_⟩
  · intro base
    unfold Http.fileUrl Native.fileUrl
    rw [h, Option.map_some]
  · intro base
    unfold Http.dirUrl Native.dirUrl
    split
    · rfl
    · rw [h, Option.map_some]

/-- A file name with parentheses. -/
theorem parentheses_part_clients : ¬ ∀ path : Text, SameUrls path := by
  intro hall
  have hsame := (hall "a (1).txt".toList).encodings
  have hdiffer : Http.encodePath "a (1).txt".toList ≠
      some (Native.encodePath "a (1).txt".toList) := by
    decide +kernel
  exact hdiffer hsame

end Libfw

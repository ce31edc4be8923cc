import Libfw.NativeUpload
import Libfw.RequestRouting
import Libfw.SubjectIsolation

/-!
# The requests of an upload

What the clients put on the wire: `NativeClient::headers` of `libfw-client/src/native/mod.rs` and
`auth_headers` of `libfw-client/src/http.rs`, the requests of `probe_session`, `post_block` and
`commit` of `libfw-client/src/native/upload.rs` and of `probe_session` and `post_chunk` of
`libfw-client/src/upload.rs`, and the session id that both take from the ETag of
`libfw-core/src/metadata.rs`.

A request is what arrives of it at a server whose router is mounted at the base URL.

* `receive_posted` — a request with a good token and a path that needs no cleaning gets to `upload`.
* `uploadJob_told` — which reads from the headers what the client has written.
-/

namespace Libfw

open PercentEncoding SegmentPaths

/-! ## URLs -/

/-- What the URL standard takes for a dot segment. -/
def SINGLE_DOTS : List Text := [".".toList, "%2e".toList, "%2E".toList]

def DOUBLE_DOTS : List Text :=
  ["..".toList, ".%2e".toList, ".%2E".toList, "%2e.".toList, "%2E.".toList, "%2e%2e".toList,
    "%2e%2E".toList, "%2E%2e".toList, "%2E%2E".toList]

/-- The path state of the URL parser; the segments kept come last first. -/
def dropDots : List Text → List Text → List Text
  | kept, [] => kept.reverse
  | kept, seg :: rest =>
      if DOUBLE_DOTS.contains seg then
        dropDots (if rest = [] then [] :: kept.tail else kept.tail) rest
      else if SINGLE_DOTS.contains seg then dropDots (if rest = [] then [] :: kept else kept) rest
      else dropDots (seg :: kept) rest

/-- The path a URL parser sends for what comes after the base URL. -/
def pathBelow (base url : Text) : Text :=
  match stripPrefix (trimEndSlashes base) url with
  | some ('/' :: rest) => '/' :: joinSegments (dropDots [] (rest.splitOn '/'))
  | _ => url

/-! ## Headers -/

/-- A character a header value may hold. -/
def isVisibleAscii (c : Char) : Bool := 0x20 ≤ c.toNat && c.toNat < 0x7F

/-- A text that arrives as it is sent: HTTP takes blanks off the ends of a header value. -/
def Sendable (t : Text) : Prop := (∀ c ∈ t, isVisibleAscii c = true) ∧ trim t = t

/-- A client, with `HeaderValue::from_str`, which suits the server's `to_str`. -/
structure HttpClient (V : Type) (toStr : V → Option Text) where
  baseUrl : Text
  token : Text
  fromStr : Text → Option V
  arrives : ∀ t, Sendable t → ∃ v, fromStr t = some v ∧ toStr v = some t

namespace HttpClient

variable {V : Type} {toStr : V → Option Text} (c : HttpClient V toStr)

def bearer : Text := "Bearer ".toList ++ c.token

/-- A `POST` with these headers, as it arrives with this body; none where a value is refused. -/
def post (url : Text) (headers : List (Text × Text)) (arrived : List (Except Text (List UInt8))) :
    Option (HttpRequest V) :=
  (headers.mapM fun h => (c.fromStr h.2).map fun v => (h.1, v)).map fun values =>
    { method := .post
      path := pathBelow c.baseUrl url
      header := fun name => values.lookup name
      body := arrived }

end HttpClient

/-! ## Metadata -/

/-- `hex`. -/
def hex (bytes : List UInt8) : Text :=
  bytes.flatMap fun b => [HEX.getD (b.toNat / 16) '0', HEX.getD (b.toNat % 16) '0']

/-- `u64::to_le_bytes`. -/
def le64 (n : Nat) : List UInt8 := (List.range 8).map fun k => UInt8.ofNat (n / 256 ^ k)

/-- `etag_from_size_mtime`. -/
def etagFromSizeMtime (sha256 : Sha256) (size mtime : Nat) : Text :=
  '"' :: hex ((sha256.digest (le64 size ++ le64 mtime)).take 8) ++ ['"']

/-- `FileMeta::new`. -/
def FileMeta.new (sha256 : Sha256) (path : Text) (size mtime : Nat) : FileMeta :=
  ⟨path, size, mtime, etagFromSizeMtime sha256 size mtime⟩

/-- `session_id_for`. -/
def sessionIdFor (file : FileMeta) : Text := trimQuotes file.etag

/-! ## The native client -/

namespace Native

variable {V : Type} {toStr : V → Option Text} (c : HttpClient V toStr) (json : MetaJson)
  (file : FileMeta)

/-- `headers`: a token that makes no header value is left out. -/
def headers (acceptZrip : Bool) (level : Option Int) : List (Text × Text) :=
  (if (c.fromStr c.bearer).isSome then [(AUTHORIZATION, c.bearer)] else []) ++
    (HEADER_PROTOCOL, protocolHeaderValue) ::
      if acceptZrip then
        (ACCEPT_ENCODING, "zrip".toList) ::
          (level.map fun l => (HEADER_COMPRESS_LEVEL, (toString l).toList)).toList
      else []

/-- The request of `probe_session`. -/
def probeRequest : Option (HttpRequest V) :=
  c.post (fileUrl c.baseUrl file.path)
    (headers c false none ++
      [(HEADER_OFFSET, "0".toList), (HEADER_FILE_META, encodeFileMetaHeader json file),
        (HEADER_SESSION, sessionIdFor file), (HEADER_SESSION_STATUS, "1".toList)]) []

/-- The request of `post_block`. -/
def blockRequest (compress : Bool) (start : Nat) (arrived : List (Except Text (List UInt8))) :
    Option (HttpRequest V) :=
  c.post (fileUrl c.baseUrl file.path)
    (headers c false none ++
      [(HEADER_OFFSET, decimal start), (HEADER_FILE_META, encodeFileMetaHeader json file),
        (HEADER_SESSION, sessionIdFor file)] ++
      if compress then [(HEADER_COMPRESS, "zrip".toList)] else []) arrived

/-- The request of `commit`. -/
def commitRequest : Option (HttpRequest V) :=
  c.post (fileUrl c.baseUrl file.path)
    (headers c false none ++
      [(HEADER_OFFSET, decimal file.size), (HEADER_FILE_META, encodeFileMetaHeader json file),
        (HEADER_SESSION, sessionIdFor file), (HEADER_FINAL, "1".toList)]) []

end Native

/-! ## The browser -/

namespace Http

variable {V : Type} {toStr : V → Option Text} (c : HttpClient V toStr) (json : MetaJson)
  (file : FileMeta)

/-- `auth_headers`. -/
def authHeaders (acceptZrip : Bool) (level : Option Int) : List (Text × Text) :=
  (AUTHORIZATION, c.bearer) :: (HEADER_PROTOCOL, protocolHeaderValue) ::
    if acceptZrip then
      (ACCEPT_ENCODING, "zrip".toList) ::
        (level.map fun l => (HEADER_COMPRESS_LEVEL, (toString l).toList)).toList
    else []

/-- The request of `probe_session`. -/
def probeRequest : Option (HttpRequest V) :=
  (fileUrl c.baseUrl file.path).bind fun url =>
    c.post url
      (authHeaders c false none ++
        [(HEADER_OFFSET, "0".toList), (HEADER_FILE_META, encodeFileMetaHeader json file),
          (HEADER_SESSION, sessionIdFor file), (HEADER_SESSION_STATUS, "1".toList)]) []

/-- The request of `post_chunk`, for a payload of which this arrives. -/
def chunkRequest (compress : Bool) (offset : Nat) (payload : List UInt8) (finalChunk : Bool)
    (session : Text) (arrived : List (Except Text (List UInt8))) : Option (HttpRequest V) :=
  (fileUrl c.baseUrl file.path).bind fun url =>
    c.post url
      (authHeaders c false none ++
        [(HEADER_OFFSET, decimal offset), (HEADER_FILE_META, encodeFileMetaHeader json file)] ++
        (if session = [] then [] else [(HEADER_SESSION, session)]) ++
        (if compress = true ∧ payload ≠ [] then [(HEADER_COMPRESS, "zrip".toList)] else []) ++
        if finalChunk then [(HEADER_FINAL, "1".toList)] else []) arrived

/-- The request of `commit_upload`. -/
def commitRequest : Option (HttpRequest V) :=
  chunkRequest c json file false file.size [] true (sessionIdFor file) []

end Http

/-! ## Values that arrive -/

/-- A visible character that is no blank. -/
def IsGraphic (c : Char) : Prop := 0x21 ≤ c.toNat ∧ c.toNat < 0x7F

instance (c : Char) : Decidable (IsGraphic c) :=
  inferInstanceAs (Decidable (0x21 ≤ c.toNat ∧ c.toNat < 0x7F))

theorem IsGraphic.visible {c : Char} (h : IsGraphic c) : isVisibleAscii c = true := by
  obtain ⟨hlow, hhigh⟩ := h
  unfold isVisibleAscii
  rw [Bool.and_eq_true_iff]
  exact ⟨decide_eq_true (by omega), decide_eq_true hhigh⟩

theorem IsGraphic.not_isWhitespace {c : Char} (h : IsGraphic c) : isWhitespace c = false := by
  obtain ⟨hlow, hhigh⟩ := h
  unfold isWhitespace
  simp only [Bool.or_eq_false_iff, Bool.and_eq_false_iff, decide_eq_false_iff_not]
  omega

/-- A text with no blank at its ends. -/
theorem trim_of_ends {a b : Char} {front back : Text} (ha : isWhitespace a = false)
    (hb : isWhitespace b = false) (h : a :: back = front ++ [b]) :
    trim (front ++ [b]) = front ++ [b] := by
  have hfirst : (front ++ [b]).dropWhile isWhitespace = front ++ [b] := by
    rw [← h, List.dropWhile_cons, ha]
    rfl
  unfold trim
  rw [hfirst, List.reverse_append, List.reverse_singleton, List.singleton_append,
    List.dropWhile_cons, hb, if_neg Bool.false_ne_true, List.reverse_cons, List.reverse_reverse]

theorem sendable_of_graphic {t : Text} (h : ∀ c ∈ t, IsGraphic c) : Sendable t := by
  refine ⟨fun c hc => (h c hc).visible, ?_⟩
  cases t with
  | nil => rfl
  | cons a back =>
      have hlast := List.dropLast_concat_getLast (List.cons_ne_nil a back)
      rw [← hlast]
      apply trim_of_ends (h a List.mem_cons_self).not_isWhitespace _ hlast.symm
      exact (h _ (List.getLast_mem _)).not_isWhitespace

theorem graphic_decimal (n : Nat) : ∀ c ∈ decimal n, IsGraphic c := by
  intro c hc
  have hdigit : c.isDigit = true := Nat.isDigit_of_mem_toDigits (by decide) (by decide) hc
  simp only [Char.isDigit, Bool.and_eq_true, decide_eq_true_eq, UInt32.le_iff_toNat_le] at hdigit
  have hlow : 48 ≤ c.toNat := hdigit.1
  have hhigh : c.toNat ≤ 57 := hdigit.2
  exact ⟨by omega, by omega⟩

theorem mem_hex {bytes : List UInt8} {c : Char} (h : c ∈ hex bytes) : c ∈ HEX := by
  have hdigit : ∀ n, HEX.getD n '0' ∈ HEX := by
    intro n
    rw [List.getD_eq_getElem?_getD]
    cases hget : HEX[n]? with
    | none => decide
    | some d => exact List.mem_of_getElem? hget
  obtain ⟨b, -, hb⟩ := List.mem_flatMap.1 h
  simp only [List.mem_cons, List.not_mem_nil, or_false] at hb
  rcases hb with rfl | rfl
  · exact hdigit _
  · exact hdigit _

theorem length_hex (bytes : List UInt8) : (hex bytes).length = 2 * bytes.length := by
  induction bytes with
  | nil => rfl
  | cons b rest ih =>
      have hcons : hex (b :: rest) =
          HEX.getD (b.toNat / 16) '0' :: HEX.getD (b.toNat % 16) '0' :: hex rest := rfl
      rw [hcons, List.length_cons, List.length_cons, ih, List.length_cons]
      omega

theorem graphic_base64Encode (bytes : List UInt8) : ∀ c ∈ base64Encode bytes, IsGraphic c := by
  have hletter : ∀ n, IsGraphic (b64Letter n) := by
    have hall : (B64_ALPHABET.all fun c => IsGraphic c) = true := by decide +kernel
    intro n
    apply of_decide_eq_true (List.all_eq_true.1 hall _ _)
    unfold b64Letter
    rw [List.getD_eq_getElem?_getD]
    cases hget : B64_ALPHABET[n.toNat % 64]? with
    | none => decide
    | some d => exact List.mem_of_getElem? hget
  have hchunk : ∀ b0 b1 b2 len, ∀ c ∈ base64Chunk b0 b1 b2 len, IsGraphic c := by
    intro b0 b1 b2 len c hc
    unfold base64Chunk at hc
    simp only [List.mem_cons, List.not_mem_nil, or_false] at hc
    rcases hc with rfl | rfl | rfl | rfl
    · exact hletter _
    · exact hletter _
    · split
      · exact hletter _
      · decide
    · split
      · exact hletter _
      · decide
  fun_induction base64Encode bytes with
  | case1 => exact fun c hc => absurd hc List.not_mem_nil
  | case2 => exact hchunk _ _ _ _
  | case3 => exact hchunk _ _ _ _
  | case4 b0 b1 b2 rest ih =>
      intro c hc
      rcases List.mem_append.1 hc with hfirst | hrest
      · exact hchunk _ _ _ _ c hfirst
      · exact ih c hrest

/-! ### The session id -/

/-- **The session id is the digest**: sixteen digits, which no quote is among. -/
theorem sessionIdFor_new (sha256 : Sha256) (path : Text) (size mtime : Nat) :
    sessionIdFor (FileMeta.new sha256 path size mtime) =
      hex ((sha256.digest (le64 size ++ le64 mtime)).take 8) := by
  have hquote : ∀ c ∈ hex ((sha256.digest (le64 size ++ le64 mtime)).take 8), c ≠ '"' := by
    intro c hc heq
    rw [heq] at hc
    exact absurd (mem_hex hc) (by decide)
  have hstop : ∀ t : Text, (∀ c ∈ t, c ≠ '"') → t.dropWhile (· = '"') = t := by
    intro t ht
    cases t with
    | nil => rfl
    | cons c rest => exact List.dropWhile_cons_of_neg (by simpa using ht c List.mem_cons_self)
  unfold sessionIdFor FileMeta.new etagFromSizeMtime
  generalize hex ((sha256.digest (le64 size ++ le64 mtime)).take 8) = id at hquote ⊢
  dsimp only
  unfold trimQuotes trimEndQuotes
  have hfront : ('"' :: id ++ ['"']).dropWhile (· = '"') = (id ++ ['"']).dropWhile (· = '"') :=
    List.dropWhile_cons_of_pos (by decide)
  rw [hfront]
  cases id with
  | nil => rfl
  | cons a rest =>
      have hhead : ((a :: rest) ++ ['"']).dropWhile (· = '"') = (a :: rest) ++ ['"'] :=
        List.dropWhile_cons_of_neg (by simpa using hquote a List.mem_cons_self)
      have hback : ('"' :: (a :: rest).reverse).dropWhile (· = '"') =
          (a :: rest).reverse.dropWhile (· = '"') := List.dropWhile_cons_of_pos (by decide)
      rw [hhead, List.reverse_append, List.reverse_singleton, List.singleton_append, hback,
        hstop _ fun c hc => hquote c (List.mem_reverse.1 hc), List.reverse_reverse]

theorem graphic_sessionIdFor (sha256 : Sha256) (path : Text) (size mtime : Nat) :
    ∀ c ∈ sessionIdFor (FileMeta.new sha256 path size mtime), IsGraphic c := by
  intro c hc
  rw [sessionIdFor_new] at hc
  have hall : (HEX.all fun c => IsGraphic c) = true := by decide
  exact of_decide_eq_true (List.all_eq_true.1 hall _ (mem_hex hc))

theorem sessionIdFor_ne_nil (sha256 : Sha256) (path : Text) (size mtime : Nat) :
    sessionIdFor (FileMeta.new sha256 path size mtime) ≠ [] := by
  intro hempty
  have hlen := congrArg List.length hempty
  rw [sessionIdFor_new, length_hex, List.length_take, sha256.length_digest] at hlen
  cases hlen

/-! ## URLs that name a path -/

/-- The URL, sent to the base URL, names the path. -/
def UrlNames (base url path : Text) : Prop :=
  ∃ encoded, pathBelow base url = "/file/".toList ++ encoded ∧ encoded ≠ [] ∧
    pathParam encoded = some path

section Urls

variable {keep : UInt8 → Bool} {path : Text}

theorem pathParam_encode (h : Plain keep) (path : Text) :
    pathParam (encode keep (utf8 path)) = some path := by
  unfold pathParam
  rw [decode_encoded h, fromUtf8_utf8]

theorem urlEncode_ne_nil (h : Plain keep) (hpath : path ≠ []) : encode keep (utf8 path) ≠ [] := by
  intro hempty
  have hback := pathParam_encode h path
  rw [hempty] at hback
  have hnone : pathParam [] = some [] := by decide
  rw [hnone] at hback
  exact hpath (Option.some.inj hback).symm

/-- A segment that is no dot segment does not become one. -/
theorem not_dots_encode (h : Plain keep) {seg : Text} (hseg : PlainSegment seg) :
    encode keep (utf8 seg) ∉ SINGLE_DOTS ∧ encode keep (utf8 seg) ∉ DOUBLE_DOTS := by
  have hback := pathParam_encode h seg
  constructor
  · intro hdot
    have hall : (SINGLE_DOTS.all fun dots => pathParam dots = some ['.']) = true := by
      decide +kernel
    have hone := of_decide_eq_true (List.all_eq_true.1 hall _ hdot)
    rw [hback] at hone
    exact hseg.notDot (Option.some.inj hone)
  · intro hdots
    have hall : (DOUBLE_DOTS.all fun dots => pathParam dots = some ['.', '.']) = true := by
      decide +kernel
    have htwo := of_decide_eq_true (List.all_eq_true.1 hall _ hdots)
    rw [hback] at htwo
    exact hseg.notDotDot (Option.some.inj htwo)

theorem dropDots_eq {segs kept : List Text}
    (h : ∀ seg ∈ segs, seg ∉ SINGLE_DOTS ∧ seg ∉ DOUBLE_DOTS) :
    dropDots kept segs = kept.reverse ++ segs := by
  induction segs generalizing kept with
  | nil => exact (List.append_nil _).symm
  | cons seg rest ih =>
      obtain ⟨hsingle, hdouble⟩ := h seg List.mem_cons_self
      have hlater : ∀ s ∈ rest, s ∉ SINGLE_DOTS ∧ s ∉ DOUBLE_DOTS :=
        fun s hs => h s (List.mem_cons_of_mem _ hs)
      unfold dropDots
      rw [if_neg fun hc => hdouble (List.contains_iff_mem.1 hc),
        if_neg fun hc => hsingle (List.contains_iff_mem.1 hc), ih hlater, List.reverse_cons,
        List.append_assoc]
      rfl

/-- **A canonical path is named by its encoding**, under whatever base URL. -/
theorem urlNames_encode (h : Plain keep) (hslash : keep 0x2f = true) (hcanon : Canonical path)
    (hpath : path ≠ []) (base : Text) :
    UrlNames base (trimEndSlashes base ++ "/file/".toList ++ encode keep (utf8 path)) path := by
  refine ⟨_, ?_, urlEncode_ne_nil h hpath, pathParam_encode h path⟩
  obtain ⟨segs, hsegs, rfl⟩ := canonical_iff.1 hcanon
  have hne : segs ≠ [] := by
    rintro rfl
    exact hpath rfl
  have hsplit := encode_segments h hslash (joinSegments segs)
  rw [splitOn_join '/' (isSegment_of_plain hsegs) hne] at hsplit
  generalize encode keep (utf8 (joinSegments segs)) = encoded at hsplit ⊢
  have hjoined : encoded = joinSegments (segs.map fun seg => encode keep (utf8 seg)) := by
    rw [← hsplit, joinSegments, join_eq_intercalate, List.intercalate_splitOn]
  have hmapped : segs.map (fun seg => encode keep (utf8 seg)) ≠ [] :=
    fun hnil => hne (List.map_eq_nil_iff.1 hnil)
  have hrest : "file/".toList ++ encoded =
      joinSegments ("file".toList :: segs.map fun seg => encode keep (utf8 seg)) := by
    rw [joinSegments, join_cons '/' _ hmapped, hjoined]
    rfl
  have hsegments : ∀ seg ∈ "file".toList :: segs.map (fun seg => encode keep (utf8 seg)),
      IsSegment '/' seg ∧ seg ∉ SINGLE_DOTS ∧ seg ∉ DOUBLE_DOTS := by
    intro seg hseg
    rcases List.mem_cons.1 hseg with rfl | hencoded
    · exact ⟨⟨by decide, by decide⟩, by decide, by decide⟩
    · have hnoslash : '/' ∉ seg := sep_not_mem_splitOn '/' (hsplit ▸ hencoded)
      obtain ⟨plain, hplain, rfl⟩ := List.mem_map.1 hencoded
      exact ⟨⟨urlEncode_ne_nil h (hsegs plain hplain).nonempty, hnoslash⟩,
        not_dots_encode h (hsegs plain hplain)⟩
  have hclean : dropDots [] (("file/".toList ++ encoded).splitOn '/') =
      "file".toList :: segs.map fun seg => encode keep (utf8 seg) := by
    rw [hrest, splitOn_join '/' (fun seg hseg => (hsegments seg hseg).1) (List.cons_ne_nil _ _),
      dropDots_eq fun seg hseg => (hsegments seg hseg).2]
    rfl
  have hstripped : stripPrefix (trimEndSlashes base)
      (trimEndSlashes base ++ "/file/".toList ++ encoded) =
        some ('/' :: ("file/".toList ++ encoded)) := by
    rw [List.append_assoc]
    unfold stripPrefix
    rw [if_pos (Text.startsWith_iff.2 (List.prefix_append _ _)), List.drop_left]
    rfl
  unfold pathBelow
  rw [hstripped]
  exact congrArg (fun segs => '/' :: joinSegments segs) hclean |>.trans (by rw [← hrest]; rfl)

end Urls

/-! ## What the server reads -/

section Reading

variable {V : Type} {srv : HttpServer V} {c : HttpClient V srv.files.downloads.toStr}
  {req : HttpRequest V} {headers : List (Text × Text)}

/-- The server reads these headers, and no others. -/
def HttpServer.Reads (srv : HttpServer V) (req : HttpRequest V) (headers : List (Text × Text)) :
    Prop :=
  ∀ name, srv.headerText req name = headers.lookup name

/-- **What can be sent is read.** -/
theorem reads_post (hsend : ∀ h ∈ headers, Sendable h.2) (url : Text)
    (arrived : List (Except Text (List UInt8))) :
    ∃ req, c.post url headers arrived = some req ∧ req.method = .post ∧
      req.path = pathBelow c.baseUrl url ∧ req.body = arrived ∧ srv.Reads req headers := by
  have hvalues : ∃ values,
      (headers.mapM fun h => (c.fromStr h.2).map fun v => (h.1, v)) = some values ∧
        ∀ name, (values.lookup name).bind srv.files.downloads.toStr = headers.lookup name := by
    induction headers with
    | nil => exact ⟨[], rfl, fun _ => rfl⟩
    | cons h rest ih =>
        obtain ⟨name, t⟩ := h
        obtain ⟨v, hfrom, hto⟩ := c.arrives t (hsend _ List.mem_cons_self)
        obtain ⟨values, hvalues, hlookup⟩ := ih fun h hh => hsend h (List.mem_cons_of_mem _ hh)
        refine ⟨(name, v) :: values, ?_, ?_⟩
        · rw [List.mapM_cons, hvalues, hfrom]
          rfl
        · intro asked
          rw [List.lookup_cons, List.lookup_cons]
          cases asked == name with
          | true => exact hto
          | false => exact hlookup asked
  obtain ⟨values, hmap, hlookup⟩ := hvalues
  refine ⟨⟨.post, pathBelow c.baseUrl url, fun name => values.lookup name, arrived⟩, ?_, rfl, rfl,
    rfl, hlookup⟩
  unfold HttpClient.post
  rw [hmap]
  rfl

theorem routeOf_file {encoded : Text} (h : encoded ≠ []) :
    routeOf ("/file/".toList ++ encoded) = some (.file encoded) := by
  have hdir : "/file/".toList ++ encoded ≠ "/dir".toList := fun heq => by cases heq
  have hcaps : "/file/".toList ++ encoded ≠ "/capabilities".toList := fun heq => by cases heq
  have hfile : stripPrefix "/file/".toList ("/file/".toList ++ encoded) = some encoded := by
    unfold stripPrefix
    rw [if_pos (Text.startsWith_iff.2 (List.prefix_append _ _)), List.drop_left]
  unfold routeOf
  rw [if_neg hdir, if_neg hcaps, hfile]
  cases encoded with
  | nil => exact absurd rfl h
  | cons a rest => rfl

/-- **A posted request gets to `upload`**, for the path that its URL names. -/
theorem receive_posted {claims : TokenClaims} {path token : Text} (hreads : srv.Reads req headers)
    (hmethod : req.method = .post) {base url : Text} (hurl : UrlNames base url path)
    (hpath : req.path = pathBelow base url)
    (hprotocol : headers.lookup HEADER_PROTOCOL = some protocolHeaderValue)
    (hbearer : headers.lookup AUTHORIZATION = some ("Bearer ".toList ++ token))
    (hverify : srv.verify (trim token) = .ok claims) :
    srv.receive req =
      .ok (some (.upload claims path (HttpServer.uploadHeaders req) (srv.uploadBody req))) := by
  obtain ⟨encoded, hbelow, hne, hparam⟩ := hurl
  have hcompatible : (srv.headerText req HEADER_PROTOCOL).filter (fun v => !protocolCompatible v) =
      none := by
    rw [hreads, hprotocol]
    decide
  have hclaims : srv.bearerClaims req = .ok claims := by
    have hstrip : stripPrefix "Bearer ".toList ("Bearer ".toList ++ token) = some token := by
      unfold stripPrefix
      rw [if_pos (Text.startsWith_iff.2 (List.prefix_append _ _)), List.drop_left]
    unfold HttpServer.bearerClaims
    rw [hreads, hbearer]
    simp only [hstrip, hverify]
    rfl
  unfold HttpServer.receive
  rw [hcompatible, hpath, hbelow]
  simp only [routeOf_file hne, HttpServer.dispatch, hmethod, HttpServer.onPath, hparam, hclaims]
  rfl

/-- The session the headers name. -/
def keyOf (owner : Text) (headers : List (Text × Text)) : Option SessionKey :=
  (((headers.lookup HEADER_SESSION).map trim).filter (· ≠ [])).map fun id =>
    ⟨id, owner, (headers.lookup HEADER_SESSION_STATUS).any fun v =>
      FileServer.isSet v || eqIgnoreAsciiCase (trim v) "probe".toList⟩

theorem decode_encodeFileMetaHeader {json : MetaJson} {file : FileMeta}
    (h : json.fromText (json.toText file) = .ok file) :
    decodeFileMetaHeader json (encodeFileMetaHeader json file) = .ok file := by
  have hbytes : base64Decode (base64Encode (utf8 (json.toText file))) =
      .ok (utf8 (json.toText file)) := base64From_encode 0 _
  unfold decodeFileMetaHeader encodeFileMetaHeader fromUtf8Lossy
  rw [hbytes]
  simp only [bind, Except.bind, Except.mapError, fromUtf8_utf8, h]

/-- **`upload` reads what has been written.** -/
theorem uploadJob_told {claims : TokenClaims} {real : Text} {file : FileMeta} {body : Body}
    (hreads : srv.Reads req headers)
    (hmeta : headers.lookup HEADER_FILE_META = some (encodeFileMetaHeader srv.files.json file))
    (hjson : srv.files.json.fromText (srv.files.json.toText file) = .ok file)
    (hsize : file.size ≤ srv.files.storage.maxUploadSize) :
    srv.files.uploadJob claims real (HttpServer.uploadHeaders req) body =
      .ok ⟨real, file, (headers.lookup HEADER_FINAL).any FileServer.isSet,
        headers.lookup HEADER_OFFSET, keyOf (ownerTag srv.files.sha256 claims.sub) headers,
        body⟩ := by
  have hread : ∀ name, (req.header name).bind srv.files.downloads.toStr = headers.lookup name :=
    hreads
  unfold FileServer.uploadJob FileServer.sessionKey keyOf HttpServer.uploadHeaders
  simp only [hread, hmeta, decode_encodeFileMetaHeader hjson, bind, Except.bind, Except.mapError,
    if_neg (Nat.not_lt.2 hsize)]

end Reading

/-! ## The requests of an admitted upload -/

section Admitted

variable {V : Type}

/-- The server lets the client store the file at `real`. -/
structure Admits (srv : HttpServer V) (c : HttpClient V srv.files.downloads.toStr)
    (claims : TokenClaims) (file : FileMeta) (real : Text) : Prop where
  graphic : ∀ ch ∈ c.token, IsGraphic ch
  token : c.token ≠ []
  verified : srv.verify c.token = .ok claims
  canonical : Canonical file.path
  named : file.path ≠ []
  resolved : resolveClientPath srv.files.storage.codec srv.files.validate claims file.path .write =
    .ok real
  fits : file.size ≤ srv.files.storage.maxUploadSize
  tagged : file.etag = etagFromSizeMtime srv.files.sha256 file.size file.mtime
  json : srv.files.json.fromText (srv.files.json.toText file) = .ok file

/-- The session that the clients give the file. -/
def HttpServer.sessionFor (srv : HttpServer V) (claims : TokenClaims) (file : FileMeta)
    (real : Text) : Session :=
  srv.files.sessionOf claims.sub real (sessionIdFor file)

variable {srv : HttpServer V} {c : HttpClient V srv.files.downloads.toStr} {claims : TokenClaims}
  {file : FileMeta} {real : Text}

namespace Admits

variable (h : Admits srv c claims file real)

include h

theorem trim_token : trim c.token = c.token := (sendable_of_graphic h.graphic).2

theorem sendable_bearer : Sendable c.bearer := by
  constructor
  · intro ch hch
    rcases List.mem_append.1 hch with hscheme | htoken
    · have hall : ("Bearer ".toList.all isVisibleAscii) = true := by decide
      exact List.all_eq_true.1 hall ch hscheme
    · exact (h.graphic ch htoken).visible
  · have hlast := List.dropLast_concat_getLast h.token
    have hvalue : c.bearer =
        ("Bearer ".toList ++ c.token.dropLast) ++ [c.token.getLast h.token] := by
      rw [List.append_assoc, hlast]
      rfl
    have hfirst : 'B' :: ("earer ".toList ++ c.token) =
        ("Bearer ".toList ++ c.token.dropLast) ++ [c.token.getLast h.token] := hvalue
    rw [hvalue]
    exact trim_of_ends (by decide) (h.graphic _ (List.getLast_mem _)).not_isWhitespace hfirst

theorem file_eq : FileMeta.new srv.files.sha256 file.path file.size file.mtime = file := by
  unfold FileMeta.new
  rw [← h.tagged]

theorem graphic_session : ∀ ch ∈ sessionIdFor file, IsGraphic ch := by
  rw [← h.file_eq]
  exact graphic_sessionIdFor _ _ _ _

theorem session_ne_nil : sessionIdFor file ≠ [] := by
  rw [← h.file_eq]
  exact sessionIdFor_ne_nil _ _ _ _

/-- A token that makes a header value is not left out. -/
theorem native_headers : Native.headers c false none =
    [(AUTHORIZATION, c.bearer), (HEADER_PROTOCOL, protocolHeaderValue)] := by
  obtain ⟨v, hfrom, -⟩ := c.arrives _ h.sendable_bearer
  unfold Native.headers
  rw [hfrom]
  rfl

theorem native_url :
    UrlNames c.baseUrl (Native.fileUrl c.baseUrl file.path) file.path :=
  urlNames_encode Native.plain_isUnreserved (by decide) h.canonical h.named c.baseUrl

theorem http_url : ∃ url, Http.fileUrl c.baseUrl file.path = some url ∧
    UrlNames c.baseUrl url file.path := by
  refine ⟨_, ?_, urlNames_encode Http.plain_isKept (by decide) h.canonical h.named c.baseUrl⟩
  unfold Http.fileUrl
  rw [Http.encodePath_eq]
  rfl

end Admits

/-- The request is an upload, and this is its job. -/
structure HttpServer.Brings (srv : HttpServer V) (req : HttpRequest V) (job : UploadJob) :
    Prop where
  post : req.method = .post
  upload : ∃ claims shadow hdrs body,
    srv.receive req = .ok (some (.upload claims shadow hdrs body)) ∧
    srv.files.resolvePath (.upload claims shadow hdrs body) = .ok job.path ∧
    srv.files.uploadJob claims job.path hdrs body = .ok job

/-- **What the client writes is what the server does.** -/
theorem Admits.told (h : Admits srv c claims file real) {more : List (Text × Text)} {url : Text}
    (hmore : ∀ header ∈ more, Sendable header.2) (hurl : UrlNames c.baseUrl url file.path)
    (hmeta : more.lookup HEADER_FILE_META = some (encodeFileMetaHeader srv.files.json file))
    (arrived : List (Except Text (List UInt8))) :
    ∃ req, c.post url
        ((AUTHORIZATION, c.bearer) :: (HEADER_PROTOCOL, protocolHeaderValue) :: more) arrived =
          some req ∧
      srv.Brings req ⟨real, file, (more.lookup HEADER_FINAL).any FileServer.isSet,
        more.lookup HEADER_OFFSET, keyOf (ownerTag srv.files.sha256 claims.sub) more,
        decompressBody srv.decodeFrame arrived
          (((more.lookup HEADER_COMPRESS).bind CompressionFormat.parseHeader).getD .none)⟩ := by
  have hsend : ∀ header ∈ (AUTHORIZATION, c.bearer) :: (HEADER_PROTOCOL, protocolHeaderValue) ::
      more, Sendable header.2 := by
    intro header hmem
    rcases List.mem_cons.1 hmem with rfl | hrest
    · exact h.sendable_bearer
    · rcases List.mem_cons.1 hrest with rfl | hrest
      · have hall : (protocolHeaderValue.all fun ch => IsGraphic ch) = true := by decide
        exact sendable_of_graphic fun ch hch => of_decide_eq_true (List.all_eq_true.1 hall ch hch)
      · exact hmore header hrest
  obtain ⟨req, hpost, hmethod, hpath, hbody, hreads⟩ := @reads_post V srv c _ hsend url arrived
  refine ⟨req, hpost, hmethod, ?_⟩
  have hverified : srv.verify (trim c.token) = .ok claims := by
    rw [h.trim_token]
    exact h.verified
  have hreceived := receive_posted hreads hmethod hurl hpath rfl rfl hverified
  refine ⟨claims, file.path, HttpServer.uploadHeaders req, srv.uploadBody req, hreceived, ?_, ?_⟩
  · unfold FileServer.resolvePath ClientRequest.action ClientRequest.claims ClientRequest.path
    dsimp only
    rw [h.resolved]
    rfl
  · rw [uploadJob_told hreads hmeta h.json h.fits]
    unfold HttpServer.uploadBody
    rw [hreads, hbody]
    rfl

/-! ### Their headers -/

section Told

/-- One header more. -/
theorem extra_graphic (name : Text) {value : Text}
    (hvalue : (value.all fun ch => IsGraphic ch) = true) :
    ∀ header ∈ [(name, value)], ∀ ch ∈ header.2, IsGraphic ch := by
  intro header hmem ch hch
  rw [List.mem_singleton.1 hmem] at hch
  exact of_decide_eq_true (List.all_eq_true.1 hvalue ch hch)

theorem all_one : ("1".toList.all fun ch => IsGraphic ch) = true := by decide

theorem all_zrip : ("zrip".toList.all fun ch => IsGraphic ch) = true := by decide

variable (h : Admits srv c claims file real)

include h

theorem Admits.keyOf_eq {more : List (Text × Text)} {owner : Text}
    (hsession : more.lookup HEADER_SESSION = some (sessionIdFor file)) :
    keyOf owner more = some ⟨sessionIdFor file, owner,
      (more.lookup HEADER_SESSION_STATUS).any fun v =>
        FileServer.isSet v || eqIgnoreAsciiCase (trim v) "probe".toList⟩ := by
  have htrim : trim (sessionIdFor file) = sessionIdFor file :=
    (sendable_of_graphic h.graphic_session).2
  have hkept : (some (sessionIdFor file)).filter (fun id => decide (id ≠ [])) =
      some (sessionIdFor file) := by
    rw [Option.filter_some, if_pos (decide_eq_true h.session_ne_nil)]
  unfold keyOf
  rw [hsession, Option.map_some, htrim, hkept, Option.map_some]

/-- The headers that every request of an upload has. -/
theorem Admits.sendable_common {offset : Text} (hoffset : ∀ ch ∈ offset, IsGraphic ch) :
    ∀ header ∈ [(HEADER_OFFSET, offset),
        (HEADER_FILE_META, encodeFileMetaHeader srv.files.json file),
        (HEADER_SESSION, sessionIdFor file)], Sendable header.2 := by
  intro header hmem
  simp only [List.mem_cons, List.not_mem_nil, or_false] at hmem
  rcases hmem with rfl | rfl | rfl
  · exact sendable_of_graphic hoffset
  · exact sendable_of_graphic (graphic_base64Encode _)
  · exact sendable_of_graphic h.graphic_session

/-- An upload request that is told: with these headers, and `extra` ones. -/
theorem Admits.uploads {url offset : Text} (hurl : UrlNames c.baseUrl url file.path)
    (hoffset : ∀ ch ∈ offset, IsGraphic ch) {extra : List (Text × Text)}
    (hextra : ∀ header ∈ extra, ∀ ch ∈ header.2, IsGraphic ch)
    (arrived : List (Except Text (List UInt8))) :
    ∃ req, c.post url
        ([(AUTHORIZATION, c.bearer), (HEADER_PROTOCOL, protocolHeaderValue)] ++
          [(HEADER_OFFSET, offset), (HEADER_FILE_META, encodeFileMetaHeader srv.files.json file),
            (HEADER_SESSION, sessionIdFor file)] ++ extra) arrived = some req ∧
      srv.Brings req
        { path := real
          fileMeta := file
          finalChunk := (extra.lookup HEADER_FINAL).any FileServer.isSet
          offsetHdr := some offset
          session := some ⟨sessionIdFor file, ownerTag srv.files.sha256 claims.sub,
            (extra.lookup HEADER_SESSION_STATUS).any fun v =>
              FileServer.isSet v || eqIgnoreAsciiCase (trim v) "probe".toList⟩
          body := decompressBody srv.decodeFrame arrived
            (((extra.lookup HEADER_COMPRESS).bind CompressionFormat.parseHeader).getD .none) } := by
  have hsend : ∀ header ∈ [(HEADER_OFFSET, offset),
      (HEADER_FILE_META, encodeFileMetaHeader srv.files.json file),
      (HEADER_SESSION, sessionIdFor file)] ++ extra, Sendable header.2 := by
    intro header hmem
    rcases List.mem_append.1 hmem with hcommon | hlater
    · exact h.sendable_common hoffset header hcommon
    · exact sendable_of_graphic (hextra header hlater)
  obtain ⟨req, hpost, hbrings⟩ := h.told hsend hurl rfl arrived
  rw [h.keyOf_eq rfl] at hbrings
  exact ⟨req, hpost, hbrings⟩

/-! ### The native client's requests -/

theorem Admits.native_probe : ∃ req, Native.probeRequest c srv.files.json file = some req ∧
    srv.Brings req ((srv.sessionFor claims file real).probeJob file) := by
  obtain ⟨req, hpost, hbrings⟩ := h.uploads h.native_url (graphic_decimal 0)
    (extra_graphic HEADER_SESSION_STATUS all_one) []
  refine ⟨req, ?_, hbrings⟩
  unfold Native.probeRequest
  rw [h.native_headers]
  exact hpost

/-- A block, plain or compressed. -/
theorem Admits.native_block (compress : Bool) (start : Nat)
    (arrived : List (Except Text (List UInt8))) :
    ∃ req, Native.blockRequest c srv.files.json file compress start arrived = some req ∧
      srv.Brings req ((srv.sessionFor claims file real).blockJob file start
        (decompressBody srv.decodeFrame arrived (if compress then .zrip else .none))) := by
  unfold Native.blockRequest
  rw [h.native_headers]
  cases compress with
  | true =>
      exact h.uploads h.native_url (graphic_decimal start)
        (extra_graphic HEADER_COMPRESS all_zrip) arrived
  | false =>
      exact h.uploads h.native_url (graphic_decimal start)
        (fun _ hnone => absurd hnone List.not_mem_nil) arrived

theorem Admits.native_commit : ∃ req, Native.commitRequest c srv.files.json file = some req ∧
    srv.Brings req ((srv.sessionFor claims file real).commitJob file) := by
  obtain ⟨req, hpost, hbrings⟩ := h.uploads h.native_url (graphic_decimal file.size)
    (extra_graphic HEADER_FINAL all_one) []
  refine ⟨req, ?_, hbrings⟩
  unfold Native.commitRequest
  rw [h.native_headers]
  exact hpost

/-! ### The browser's requests -/

theorem Admits.http_probe : ∃ req, Http.probeRequest c srv.files.json file = some req ∧
    srv.Brings req ((srv.sessionFor claims file real).probeJob file) := by
  obtain ⟨url, hurl, hnames⟩ := h.http_url
  obtain ⟨req, hpost, hbrings⟩ := h.uploads hnames (graphic_decimal 0)
    (extra_graphic HEADER_SESSION_STATUS all_one) []
  refine ⟨req, ?_, hbrings⟩
  unfold Http.probeRequest
  rw [hurl]
  exact hpost

/-- A chunk, whose payload is compressed unless it is empty. -/
theorem Admits.http_chunk (compress : Bool) (start : Nat) (payload : List UInt8)
    (arrived : List (Except Text (List UInt8))) :
    ∃ req, Http.chunkRequest c srv.files.json file compress start payload false (sessionIdFor file)
        arrived = some req ∧
      srv.Brings req ((srv.sessionFor claims file real).blockJob file start
        (decompressBody srv.decodeFrame arrived
          (if compress = true ∧ payload ≠ [] then .zrip else .none))) := by
  obtain ⟨url, hurl, hnames⟩ := h.http_url
  unfold Http.chunkRequest
  rw [hurl, if_neg h.session_ne_nil]
  by_cases hzrip : compress = true ∧ payload ≠ []
  · rw [if_pos hzrip, if_pos hzrip]
    exact h.uploads hnames (graphic_decimal start)
      (extra_graphic HEADER_COMPRESS all_zrip) arrived
  · rw [if_neg hzrip, if_neg hzrip]
    exact h.uploads hnames (graphic_decimal start)
      (fun _ hnone => absurd hnone List.not_mem_nil) arrived

theorem Admits.http_commit : ∃ req, Http.commitRequest c srv.files.json file = some req ∧
    srv.Brings req ((srv.sessionFor claims file real).commitJob file) := by
  obtain ⟨url, hurl, hnames⟩ := h.http_url
  obtain ⟨req, hpost, hbrings⟩ := h.uploads hnames (graphic_decimal file.size)
    (extra_graphic HEADER_FINAL all_one) []
  refine ⟨req, ?_, hbrings⟩
  unfold Http.commitRequest Http.chunkRequest
  rw [hurl, if_neg h.session_ne_nil]
  exact hpost

end Told

end Admitted

end Libfw

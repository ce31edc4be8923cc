import Libfw.TuneParams
import Libfw.UploadHandlers

/-!
# Range negotiation of a download

`plan_download` of `libfw-server/src/handlers.rs`, the header parsing of
`libfw-server/src/http.rs`, `RangeSpec` of `libfw-core/src/range.rs` and
`FsStorage::read_stream`.  The file does not change during the request, so storage is a
function.  Header values are whatever `HeaderValue` holds; `to_str` is a parameter.

* `resolveRange_eq_ok_iff` — a range that selects a byte becomes the span of the bytes
  it selects, any other is refused.
* `negotiated_iff` — the answer is the one the range in force asks for, unless the
  request carries an `If-Range` that is no text.
-/

namespace Libfw

/-! ## Ranges -/

/-- `RangeSpec`: the bytes `[start, stop)`. -/
structure RangeSpec where
  start : Nat
  stop : Nat
  deriving DecidableEq

namespace RangeSpec

def full (len : Nat) : RangeSpec := ⟨0, len⟩

/-- `len`: a saturating subtraction. -/
def len (r : RangeSpec) : Nat := r.stop - r.start

def clamp (r : RangeSpec) (fileSize : Nat) : Option RangeSpec :=
  if fileSize ≤ r.start then none else some ⟨r.start, min r.stop fileSize⟩

end RangeSpec

/-- A parsed, still-unresolved range request. -/
inductive ParsedRange where
  | bytes (r : RangeSpec)
  | suffix (n : Nat)
  deriving DecidableEq

/-- The bytes of a file of the given size that a range asks for. -/
def ParsedRange.Selects : ParsedRange → Nat → Nat → Prop
  | .bytes r, size, i => r.start ≤ i ∧ i < r.stop ∧ i < size
  | .suffix n, size, i => size ≤ i + n ∧ i < size

/-! ## Header values -/

/-- `eq_ignore_ascii_case`. -/
def eqIgnoreAsciiCase (a b : Text) : Bool := a.map Char.toLower = b.map Char.toLower

/-- `str::strip_prefix`. -/
def stripPrefix (p t : Text) : Option Text :=
  if t.startsWith p then some (t.drop p.length) else none

/-- `trim_end_matches('"')`. -/
def trimEndQuotes (t : Text) : Text := (t.reverse.dropWhile (· = '"')).reverse

/-- `trim_matches('"')`. -/
def trimQuotes (t : Text) : Text := trimEndQuotes (t.dropWhile (· = '"'))

def U64_MAX : Nat := 2 ^ 64 - 1

/-- The end of a range as it is written, inclusive, as an exclusive end. -/
def parseRangeStop (digits : Text) : Option Nat :=
  if digits = [] then some U64_MAX
  else do
    let last ← parseU64 digits
    if last = U64_MAX then none else some (last + 1)

/-- `parse_range_header`; `none` is `Err(Malformed)`. -/
def parseRangeHeader (header : Text) : Option (Option ParsedRange) :=
  let header := trim header
  if header = [] then some none
  else
    match header.splitOnce '=' with
    | none => some none
    | some (unit, spec) =>
        if !eqIgnoreAsciiCase (trim unit) "bytes".toList then some none
        else
          let spec := trim spec
          if ',' ∈ spec then some none
          else
            match stripPrefix ['-'] spec with
            | some suffix => (parseU64 suffix).map fun n => some (.suffix n)
            | none =>
                match spec.splitOnce '-' with
                | none => none
                | some (first, last) => do
                    let start ← parseU64 first
                    let stop ← parseRangeStop last
                    if stop ≤ start then none else some (some (.bytes ⟨start, stop⟩))

/-- `content_range_value`: `none` where the subtraction underflows. -/
def contentRangeValue (spec : RangeSpec) (total : Nat) : Option Text :=
  if spec.stop = 0 then none
  else some ("bytes ".toList ++ decimal spec.start ++ '-' :: decimal (spec.stop - 1)
    ++ '/' :: decimal total)

/-- `etag_matches_if_none_match`. -/
def etagMatchesIfNoneMatch (ifNoneMatch etag : Text) : Bool :=
  let strongEtag := (stripPrefix "W/".toList etag).getD etag
  (ifNoneMatch.splitOn ',').any fun tag =>
    let tag := (stripPrefix "W/".toList (trim tag)).getD (trim tag)
    tag = "*".toList || tag = strongEtag

/-- `if_range_matches`: the strong form only. -/
def ifRangeMatches (ifRange etag : Text) : Bool :=
  match trim ifRange with
  | '"' :: tag => trimEndQuotes tag = trimQuotes etag
  | _ => false

/-! ## The server -/

/-- A stored file; its size is a `u64`. -/
structure StoredFile where
  bytes : List UInt8
  mtime : Nat
  fits : bytes.length < 2 ^ 64

/-- The headers `plan_download` looks at. -/
structure DownloadHeaders (V : Type) where
  ifNoneMatch : Option V
  range : Option V
  ifRange : Option V
  acceptEncoding : Option V
  compressLevel : Option V

/-- What a download uses of the server's state, and of code outside it: `to_str` of a
header value, whether a q-value parses as a float that is not positive, the compressor. -/
structure DownloadServer (V : Type) where
  toStr : V → Option Text
  files : Text → Except StorageError (Option StoredFile)
  etag : Nat → Nat → Text
  compression : CompressionFormat
  zripLevels : Option ZripLevels
  qvalueZero : Text → Bool
  compress : Int → List UInt8 → List UInt8

structure DownloadPlan where
  status : Nat
  headers : List (Text × Text)
  format : CompressionFormat
  level : Int
  reader : Option (List UInt8)
  deriving DecidableEq

/-- A request that is not answered by a plan: an arithmetic overflow, or an error. -/
inductive Stopped where
  | overflowed
  | failed (e : ApiError)
  deriving DecidableEq

def ZRIP_DEFAULT_LEVEL : Int := 1

/-- `negotiate_level`. -/
def negotiateLevel (req : Option Int) (levels : ZripLevels) : Int :=
  if levels.max < levels.min then levels.default
  else
    match req with
    | none => levels.default
    | some l => max levels.min (min l levels.max)

/-- `str::parse::<i32>`. -/
def parseI32 (t : Text) : Option Int :=
  let signed := match t with
    | '-' :: digits => (parseU64 ('+' :: digits)).map fun n => -(n : Int)
    | t => (parseU64 t).map fun n => (n : Int)
  signed.filter fun n => -2 ^ 31 ≤ n ∧ n < 2 ^ 31

/-- `CompressionFormat::as_str`. -/
def CompressionFormat.asStr : CompressionFormat → Text
  | .none => "identity".toList
  | .zrip => "zrip".toList

def ACCEPT_RANGES : Text := "accept-ranges".toList
def CONTENT_TYPE : Text := "content-type".toList
def ETAG : Text := "etag".toList
def CONTENT_RANGE : Text := "content-range".toList
def CONTENT_LENGTH : Text := "content-length".toList
def HEADER_COMPRESS : Text := "x-libfw-compress".toList
def HEADER_COMPRESS_LEVEL : Text := "x-libfw-compress-level".toList

namespace DownloadServer

variable {V : Type} (srv : DownloadServer V)

/-- `file_meta` -/
def fileMeta (path : Text) : Except StorageError (Option FileMeta) :=
  (srv.files path).map fun found =>
    found.map fun file => FsSink.fileMetaAt srv.etag path ⟨false, file.bytes.length, file.mtime⟩

/-- `read_stream`: seek to the start, then take the length. -/
def readStream (path : Text) (range : RangeSpec) : Except StorageError (List UInt8) := do
  match ← srv.files path with
  | none => .error (.other IoError.noEntry.message)
  | some file =>
      let rest := if 0 < range.start then file.bytes.drop range.start else file.bytes
      .ok (rest.take range.len)

/-- One element of `Accept-Encoding` asks for zrip, and does not weigh it zero. -/
def asksZrip (element : Text) : Bool :=
  match (trim element).splitOn ';' with
  | [] => false
  | coding :: params =>
      eqIgnoreAsciiCase (trim coding) "zrip".toList &&
        !params.any fun p =>
          let p := trim p
          2 < p.length && eqIgnoreAsciiCase (p.take 2) "q=".toList &&
            srv.qvalueZero (trim (p.drop 2))

/-- `negotiate_download_format`. -/
def negotiateDownloadFormat (hdrs : DownloadHeaders V) : CompressionFormat :=
  let wantsZrip := (hdrs.acceptEncoding.bind srv.toStr).any fun v =>
    (v.splitOn ',').any srv.asksZrip
  if wantsZrip && srv.compression = .zrip then .zrip else .none

/-- `negotiate_download_level`: the level, and whether it is echoed. -/
def negotiateDownloadLevel (format : CompressionFormat) (hdrs : DownloadHeaders V) :
    Int × Bool :=
  match srv.zripLevels with
  | none => (ZRIP_DEFAULT_LEVEL, false)
  | some levels =>
      if format ≠ .zrip then (ZRIP_DEFAULT_LEVEL, false)
      else
        let requested := (hdrs.compressLevel.bind srv.toStr).bind fun v => parseI32 (trim v)
        (negotiateLevel requested levels, true)

/-- The `If-None-Match` test. -/
def notModified (hdrs : DownloadHeaders V) (etag : Text) : Bool :=
  (hdrs.ifNoneMatch.bind srv.toStr).any fun v => etagMatchesIfNoneMatch v etag

/-- The `Range` header, parsed; `none` where it is malformed. -/
def requestedRange (hdrs : DownloadHeaders V) : Option (Option ParsedRange) :=
  match hdrs.range.bind srv.toStr with
  | none => some none
  | some raw => parseRangeHeader raw

/-- The `If-Range` test drops the range. -/
def honoured (hdrs : DownloadHeaders V) (etag : Text) (range : Option ParsedRange) :
    Option ParsedRange :=
  match hdrs.ifRange.bind srv.toStr with
  | none => range
  | some ifRange => if !ifRangeMatches ifRange etag then none else range

/-- The bytes a range is answered with. -/
def resolveRange (size : Nat) : Option ParsedRange → Except ApiError RangeSpec
  | some (.bytes r) =>
      match r.clamp size with
      | none => .error (.rangeUnsatisfiable size)
      | some spec => .ok spec
  | some (.suffix n) =>
      if n = 0 ∨ size = 0 then .error (.rangeUnsatisfiable size)
      else .ok ⟨size - n, size⟩
  | none => .ok (.full size)

/-- The headers every plan has. -/
def commonHeaders (etag : Text) (format : CompressionFormat) (level : Int)
    (echoLevel : Bool) : List (Text × Text) :=
  [(ACCEPT_RANGES, "bytes".toList), (CONTENT_TYPE, "application/octet-stream".toList),
    (ETAG, etag), (HEADER_COMPRESS, format.asStr)] ++
  if echoLevel then [(HEADER_COMPRESS_LEVEL, (toString level).toList)] else []

/-- The response for a span of the file. -/
def planSpan (path : Text) (fileMeta : FileMeta) (hdrs : DownloadHeaders V)
    (withReader isPartial : Bool) (spec : RangeSpec) : Except Stopped DownloadPlan := do
  let format := srv.negotiateDownloadFormat hdrs
  let level := srv.negotiateDownloadLevel format hdrs
  let reader ←
    if withReader then
      ((srv.readStream path spec).map some).mapError fun e => Stopped.failed (.storage e)
    else .ok none
  let headers := commonHeaders fileMeta.etag format level.1 level.2
  let headers ←
    if isPartial then
      match contentRangeValue spec fileMeta.size with
      | none => .error .overflowed
      | some value => .ok (headers ++ [(CONTENT_RANGE, value)])
    else .ok headers
  let headers :=
    if format = .none then headers ++ [(CONTENT_LENGTH, decimal spec.len)] else headers
  .ok ⟨if isPartial then 206 else 200, headers, format, level.1, reader⟩

/-- `plan_download`. -/
def planDownload (path : Text) (hdrs : DownloadHeaders V) (withReader : Bool) :
    Except Stopped DownloadPlan := do
  let path ← (validateRelPath path).mapError fun m => Stopped.failed (.badRequest m)
  let found ← (srv.fileMeta path).mapError fun e => Stopped.failed (.storage e)
  match found with
  | none => .error (.failed (.notFound path))
  | some fileMeta =>
      if srv.notModified hdrs fileMeta.etag then .error (.failed .notModified)
      else
        match srv.requestedRange hdrs with
        | none => .error (.failed .rangeMalformed)
        | some asked => do
            let range := srv.honoured hdrs fileMeta.etag asked
            let spec ← (resolveRange fileMeta.size range).mapError Stopped.failed
            srv.planSpan path fileMeta hdrs withReader range.isSome spec

/-- `body_stream`: what the client is sent of the bytes read. -/
def bodyStream (reader : List UInt8) (format : CompressionFormat) (level : Int) :
    List UInt8 :=
  match format with
  | .none => reader
  | .zrip => srv.compress level reader

end DownloadServer

/-! ## What a parsed range promises -/

/-- A written end stays a `u64` when it is made exclusive. -/
theorem lt_of_parseRangeStop {digits : Text} {stop : Nat} (h : parseRangeStop digits = some stop) :
    stop < 2 ^ 64 := by
  unfold parseRangeStop at h
  split at h
  · cases h
    decide
  · rw [Option.bind_eq_bind, Option.bind_eq_some_iff] at h
    obtain ⟨last, hlast, hstop⟩ := h
    have hlt := lt_of_parseU64 hlast
    split at hstop
    · cases hstop
    · next hmax =>
        cases hstop
        unfold U64_MAX at hmax
        omega

/-- **A parsed range is not empty, and its end is a `u64`.** -/
theorem bounded_of_parseRangeHeader {header : Text} {r : RangeSpec}
    (h : parseRangeHeader header = some (some (.bytes r))) :
    r.start < r.stop ∧ r.stop < 2 ^ 64 := by
  unfold parseRangeHeader at h
  dsimp only at h
  split at h
  · cases h
  · split at h
    · cases h
    · next unit spec hunit =>
        split at h
        · cases h
        · split at h
          · cases h
          · split at h
            · next suffix hsuffix =>
                obtain ⟨n, hn, hr⟩ := Option.map_eq_some_iff.1 h
                cases hr
            · split at h
              · cases h
              · next first last hdash =>
                  simp only [Option.bind_eq_bind, Option.bind_eq_some_iff] at h
                  obtain ⟨start, hstart, stop, hstop, hr⟩ := h
                  have hlt := lt_of_parseRangeStop hstop
                  split at hr
                  · cases hr
                  · next hne =>
                      cases hr
                      exact ⟨Nat.lt_of_not_le hne, hlt⟩

/-! ## From a range to a span -/

/-- **A range that selects a byte is resolved to the bytes it selects.** -/
theorem resolveRange_selects {size : Nat} {r : ParsedRange} {i : Nat} (h : r.Selects size i) :
    ∃ spec, DownloadServer.resolveRange size (some r) = .ok spec ∧ spec.start < spec.stop ∧
      spec.stop ≤ size ∧ (∀ k, spec.start ≤ k ∧ k < spec.stop ↔ r.Selects size k) ∧
      ∀ n, r = .suffix n → spec = ⟨size - min n size, size⟩ := by
  cases r with
  | bytes r =>
      obtain ⟨hstart, hstop, hsize⟩ := h
      refine ⟨⟨r.start, min r.stop size⟩, ?_, ?_, ?_, ?_, ?_⟩
      · simp only [DownloadServer.resolveRange, RangeSpec.clamp]
        rw [if_neg (by omega)]
      · dsimp only
        omega
      · exact Nat.min_le_right _ _
      · intro k
        simp only [ParsedRange.Selects]
        omega
      · intro n hn
        cases hn
  | suffix n =>
      obtain ⟨hreach, hsize⟩ := h
      refine ⟨⟨size - n, size⟩, ?_, ?_, Nat.le_refl _, ?_, ?_⟩
      · simp only [DownloadServer.resolveRange]
        rw [if_neg (by omega)]
      · dsimp only
        omega
      · intro k
        simp only [ParsedRange.Selects]
        omega
      · intro m hm
        cases hm
        have hclamped : size - n = size - min n size := by omega
        rw [hclamped]

/-- **A range that selects no byte is refused.** -/
theorem resolveRange_selects_none {size : Nat} {r : ParsedRange}
    (hbounded : ∀ spec, r = .bytes spec → spec.start < spec.stop)
    (h : ∀ i, ¬ r.Selects size i) :
    DownloadServer.resolveRange size (some r) = .error (.rangeUnsatisfiable size) := by
  cases r with
  | bytes r =>
      have hlt := hbounded r rfl
      have hbeyond : size ≤ r.start := by
        by_contra hin
        exact h r.start ⟨Nat.le_refl _, hlt, by omega⟩
      simp only [DownloadServer.resolveRange, RangeSpec.clamp]
      rw [if_pos hbeyond]
  | suffix n =>
      have hempty : n = 0 ∨ size = 0 := by
        by_contra hsome
        exact h (size - 1) ⟨by omega, by omega⟩
      simp only [DownloadServer.resolveRange]
      rw [if_pos hempty]

/-! ## The negotiation -/

/-- The common headers tell neither range nor length. -/
theorem lookup_commonHeaders (etag : Text) (format : CompressionFormat) (level : Int)
    (echoLevel : Bool) :
    (DownloadServer.commonHeaders etag format level echoLevel).lookup CONTENT_RANGE = none ∧
      (DownloadServer.commonHeaders etag format level echoLevel).lookup CONTENT_LENGTH = none := by
  have hnames : ∀ name ∈ [ACCEPT_RANGES, CONTENT_TYPE, ETAG, HEADER_COMPRESS,
      HEADER_COMPRESS_LEVEL], CONTENT_RANGE ≠ name ∧ CONTENT_LENGTH ≠ name := by decide
  have hkeys : ∀ h ∈ DownloadServer.commonHeaders etag format level echoLevel,
      h.1 ∈ [ACCEPT_RANGES, CONTENT_TYPE, ETAG, HEADER_COMPRESS, HEADER_COMPRESS_LEVEL] := by
    intro h hh
    cases echoLevel <;>
      simp only [DownloadServer.commonHeaders, List.cons_append, List.nil_append, List.mem_cons,
        Bool.false_eq_true, if_false, if_true, List.not_mem_nil, or_false] at hh ⊢ <;>
      grind
  rw [List.lookup_eq_none_iff, List.lookup_eq_none_iff]
  constructor
  · intro h hh
    exact bne_iff_ne.2 (hnames _ (hkeys h hh)).1
  · intro h hh
    exact bne_iff_ne.2 (hnames _ (hkeys h hh)).2

/-- The value of a response header. -/
def DownloadPlan.header (plan : DownloadPlan) (name : Text) : Option Text :=
  plan.headers.lookup name

/-- The status a request is answered with. -/
def answerStatus : Except Stopped DownloadPlan → Option Nat
  | .ok plan => some plan.status
  | .error (.failed e) => some e.response.1
  | .error .overflowed => none

namespace DownloadServer

variable {V : Type} (srv : DownloadServer V)

/-- The range in force: `Range` parses to a single range, and `If-Range` is absent or
accepted. -/
def inForce (hdrs : DownloadHeaders V) (etag : Text) : Option ParsedRange :=
  match srv.requestedRange hdrs with
  | some (some r) =>
      match hdrs.ifRange with
      | none => some r
      | some v => if (srv.toStr v).any fun t => ifRangeMatches t etag then some r else none
  | _ => none

/-- The plan sends the bytes `[s, e)` of the file, and tells their number where it sends
them as they are. -/
def Sends (file : StoredFile) (withReader : Bool) (plan : DownloadPlan) (s e : Nat) : Prop :=
  let slice := if withReader then some ((file.bytes.drop s).take (e - s)) else none
  plan.reader = slice ∧
    (plan.format = .none →
      plan.header CONTENT_LENGTH = some (decimal (e - s)) ∧
        plan.reader.map (fun bytes => srv.bodyStream bytes plan.format plan.level) = slice)

/-- `bytes start-end/total`, with the end inclusive. -/
def contentRangeText (s e size : Nat) : Text :=
  "bytes ".toList ++ decimal s ++ '-' :: decimal (e - 1) ++ '/' :: decimal size

theorem contentRangeValue_of_pos {spec : RangeSpec} (h : 0 < spec.stop) (size : Nat) :
    contentRangeValue spec size = some (contentRangeText spec.start spec.stop size) :=
  if_neg (Nat.ne_of_gt h)

/-- The answer to a request for a file is what its headers ask for. -/
structure Negotiated (file : StoredFile) (hdrs : DownloadHeaders V) (etag : Text)
    (withReader : Bool) (answer : Except Stopped DownloadPlan) : Prop where
  span : ∀ plan, answer = .ok plan → plan.status = 206 →
    ∃ s e, s < e ∧ e ≤ file.bytes.length ∧
      plan.header CONTENT_RANGE = some (contentRangeText s e file.bytes.length) ∧
      srv.Sends file withReader plan s e ∧
      ∀ r, srv.inForce hdrs etag = some r →
        ∀ i, s ≤ i ∧ i < e ↔ r.Selects file.bytes.length i
  suffix : ∀ n, srv.inForce hdrs etag = some (.suffix n) → 1 ≤ n → 0 < file.bytes.length →
    ∃ plan, answer = .ok plan ∧ plan.status = 206 ∧
      srv.Sends file withReader plan (file.bytes.length - min n file.bytes.length)
        file.bytes.length
  unsatisfiable : answerStatus answer = some 416 ↔
    ∃ r, srv.inForce hdrs etag = some r ∧ ∀ i, ¬ r.Selects file.bytes.length i
  satisfiable : answerStatus answer = some 206 ↔
    ∃ r, srv.inForce hdrs etag = some r ∧ ∃ i, r.Selects file.bytes.length i
  ordinary : answerStatus answer = some 200 ↔
    srv.requestedRange hdrs ≠ none ∧ srv.inForce hdrs etag = none
  whole : ∀ plan, answer = .ok plan → plan.status = 200 →
    srv.Sends file withReader plan 0 file.bytes.length
  inRange : answer ≠ .error .overflowed ∧
    ∀ r, srv.requestedRange hdrs = some (some (.bytes r)) → r.start < r.stop ∧ r.stop < 2 ^ 64

/-- An `If-Range` that is no text. -/
def IfRangeUnreadable (hdrs : DownloadHeaders V) : Prop :=
  ∃ v, hdrs.ifRange = some v ∧ srv.toStr v = none

section

variable {srv} {file : StoredFile} {hdrs : DownloadHeaders V} {path real : Text}
  (hfile : srv.files real = .ok (some file))

/-- What is told about the file. -/
def metaOf (file : StoredFile) (real : Text) : FileMeta :=
  FsSink.fileMetaAt srv.etag real ⟨false, file.bytes.length, file.mtime⟩

include hfile

theorem readStream_of_file (spec : RangeSpec) :
    srv.readStream real spec = .ok ((file.bytes.drop spec.start).take (spec.stop - spec.start)) := by
  unfold readStream
  rw [hfile]
  by_cases hstart : 0 < spec.start
  · simp only [bind, Except.bind, if_pos hstart, RangeSpec.len]
  · have hzero : spec.start = 0 := by omega
    simp only [bind, Except.bind, RangeSpec.len, hzero, List.drop_zero, ite_self]

/-- **The plan for a span of the file.** -/
theorem planSpan_ok (hdrs : DownloadHeaders V) (withReader isPartial : Bool) (spec : RangeSpec)
    (hspec : isPartial = true → 0 < spec.stop) :
    ∃ plan, srv.planSpan real (srv.metaOf file real) hdrs withReader isPartial spec = .ok plan ∧
      plan.status = (if isPartial then 206 else 200) ∧
      (isPartial = true → plan.header CONTENT_RANGE =
        some (contentRangeText spec.start spec.stop file.bytes.length)) ∧
      srv.Sends file withReader plan spec.start spec.stop := by
  have hread := readStream_of_file hfile spec
  have hsize : (srv.metaOf file real).size = file.bytes.length := rfl
  have hself : ∀ name value : Text, List.lookup name [(name, value)] = some value := by
    intro name value
    rw [List.lookup_cons_self]
  have hdiffer : ∀ (value : Text) (rest : List (Text × Text)),
      List.lookup CONTENT_LENGTH ((CONTENT_RANGE, value) :: rest) =
        List.lookup CONTENT_LENGTH rest := by
    intro value rest
    have hne : (CONTENT_LENGTH == CONTENT_RANGE) = false := by decide
    rw [List.lookup_cons, hne]
  unfold planSpan
  dsimp only
  generalize srv.negotiateDownloadFormat hdrs = format
  rw [hread, hsize]
  cases isPartial with
  | false =>
      cases format <;> cases withReader <;>
        simp [Sends, DownloadPlan.header, bind, Except.bind, Except.mapError, Except.map,
          bodyStream, List.lookup_append, lookup_commonHeaders, hself, RangeSpec.len]
  | true =>
      have hvalue := contentRangeValue_of_pos (hspec rfl) file.bytes.length
      cases format <;> cases withReader <;>
        simp [Sends, DownloadPlan.header, bind, Except.bind, Except.mapError, Except.map, hvalue,
          bodyStream, List.lookup_append, lookup_commonHeaders, hself, hdiffer, RangeSpec.len]

/-- **How a request for a file is answered.** -/
theorem planDownload_of_file (hvalid : validateRelPath path = .ok real)
    (hcondition : hdrs.ifNoneMatch = none) (withReader : Bool) :
    srv.planDownload path hdrs withReader =
      match srv.requestedRange hdrs with
      | none => .error (.failed .rangeMalformed)
      | some asked =>
          let range := srv.honoured hdrs (srv.metaOf file real).etag asked
          match resolveRange file.bytes.length range with
          | .error e => .error (.failed e)
          | .ok spec =>
              srv.planSpan real (srv.metaOf file real) hdrs withReader range.isSome spec := by
  have hfound : srv.fileMeta real = .ok (some (srv.metaOf file real)) := by
    unfold fileMeta metaOf
    rw [hfile]
    rfl
  have hmodified : srv.notModified hdrs (srv.metaOf file real).etag = false := by
    unfold notModified
    rw [hcondition]
    rfl
  have hsize : (srv.metaOf file real).size = file.bytes.length := rfl
  unfold planDownload
  rw [hvalid]
  simp only [Except.mapError, bind, Except.bind, hfound, hmodified, hsize]
  cases srv.requestedRange hdrs with
  | none => rfl
  | some asked =>
      cases hspec : resolveRange file.bytes.length
          (srv.honoured hdrs (srv.metaOf file real).etag asked) with
      | error e => simp [hspec]
      | ok spec => simp [hspec]

end

section

variable {srv} {file : StoredFile} {hdrs : DownloadHeaders V} {etag : Text} {withReader : Bool}

/-- A range that could be tested against `If-Range` is honoured when it is in force. -/
theorem honoured_eq_inForce {asked : Option ParsedRange}
    (hasked : srv.requestedRange hdrs = some asked)
    (hread : asked = none ∨ ¬ srv.IfRangeUnreadable hdrs) :
    srv.honoured hdrs etag asked = srv.inForce hdrs etag := by
  unfold honoured inForce
  rw [hasked]
  cases asked with
  | none =>
      cases hdrs.ifRange.bind srv.toStr with
      | none => rfl
      | some t => exact ite_self _
  | some r =>
      have hreadable := hread.resolve_left (by simp)
      cases hv : hdrs.ifRange with
      | none => rfl
      | some v =>
          cases ht : srv.toStr v with
          | none => exact absurd ⟨v, hv, ht⟩ hreadable
          | some t =>
              simp only [Option.bind_some, ht, Option.any_some]
              cases ifRangeMatches t etag <;> rfl

/-- What is honoured has been asked for. -/
theorem eq_of_honoured {asked : Option ParsedRange} {r : ParsedRange}
    (h : srv.honoured hdrs etag asked = some r) : asked = some r := by
  unfold honoured at h
  split at h
  · exact h
  · split at h
    · cases h
    · exact h

theorem bounded_of_requestedRange {r : RangeSpec}
    (h : srv.requestedRange hdrs = some (some (.bytes r))) :
    r.start < r.stop ∧ r.stop < 2 ^ 64 := by
  unfold requestedRange at h
  split at h
  · cases h
  · exact bounded_of_parseRangeHeader h

/-- No range is in force, and the whole file is sent. -/
theorem negotiated_whole {plan : DownloadPlan} (hasked : srv.requestedRange hdrs ≠ none)
    (hforce : srv.inForce hdrs etag = none) (hstatus : plan.status = 200)
    (hsends : srv.Sends file withReader plan 0 file.bytes.length) :
    srv.Negotiated file hdrs etag withReader (.ok plan) where
  span := by
    intro p hp h206
    cases hp
    rw [hstatus] at h206
    cases h206
  suffix := by
    intro n hn
    rw [hforce] at hn
    cases hn
  unsatisfiable := by
    simp [answerStatus, hstatus, hforce]
  satisfiable := by
    simp [answerStatus, hstatus, hforce]
  ordinary := by
    simp [answerStatus, hstatus, hforce, hasked]
  whole := by
    intro p hp _
    cases hp
    exact hsends
  inRange := by
    constructor
    · intro h
      cases h
    · intro r hr
      exact bounded_of_requestedRange hr

/-- The range in force selects a byte, and the bytes it selects are sent. -/
theorem negotiated_span {plan : DownloadPlan} {r : ParsedRange} {i : Nat} {spec : RangeSpec}
    (hforce : srv.inForce hdrs etag = some r) (hselects : r.Selects file.bytes.length i)
    (hlt : spec.start < spec.stop) (hle : spec.stop ≤ file.bytes.length)
    (hexact : ∀ k, spec.start ≤ k ∧ k < spec.stop ↔ r.Selects file.bytes.length k)
    (hsuffix : ∀ n, r = .suffix n →
      spec = ⟨file.bytes.length - min n file.bytes.length, file.bytes.length⟩)
    (hstatus : plan.status = 206)
    (hheader : plan.header CONTENT_RANGE =
      some (contentRangeText spec.start spec.stop file.bytes.length))
    (hsends : srv.Sends file withReader plan spec.start spec.stop) :
    srv.Negotiated file hdrs etag withReader (.ok plan) where
  span := by
    intro p hp _
    cases hp
    refine ⟨spec.start, spec.stop, hlt, hle, hheader, hsends, ?_⟩
    intro r' hr'
    rw [hforce] at hr'
    cases hr'
    exact hexact
  suffix := by
    intro n hn _ _
    rw [hforce] at hn
    cases hn
    have hspec := hsuffix n rfl
    rw [hspec] at hsends
    exact ⟨plan, rfl, hstatus, hsends⟩
  unsatisfiable := by
    simp only [answerStatus, hstatus, hforce, Option.some.injEq, exists_eq_left']
    constructor
    · intro h
      omega
    · intro h
      exact absurd hselects (h i)
  satisfiable := by
    simp only [answerStatus, hstatus, hforce, Option.some.injEq, exists_eq_left', true_iff]
    exact ⟨i, hselects⟩
  ordinary := by
    simp [answerStatus, hstatus, hforce]
  whole := by
    intro p hp h200
    cases hp
    rw [hstatus] at h200
    cases h200
  inRange := by
    constructor
    · intro h
      cases h
    · intro r hr
      exact bounded_of_requestedRange hr

/-- The range in force selects no byte, and is refused. -/
theorem negotiated_refused {r : ParsedRange} (hforce : srv.inForce hdrs etag = some r)
    (hnone : ∀ i, ¬ r.Selects file.bytes.length i) :
    srv.Negotiated file hdrs etag withReader
      (.error (.failed (.rangeUnsatisfiable file.bytes.length))) where
  span := by
    intro p hp
    cases hp
  suffix := by
    intro n hn hpos hsize
    rw [hforce] at hn
    cases hn
    exact absurd ⟨by omega, by omega⟩ (hnone (file.bytes.length - 1))
  unsatisfiable := by
    simp only [answerStatus, ApiError.response, hforce, Option.some.injEq, exists_eq_left',
      true_iff]
    exact hnone
  satisfiable := by
    simp only [answerStatus, ApiError.response, hforce, Option.some.injEq, exists_eq_left']
    constructor
    · intro h
      omega
    · intro h
      obtain ⟨i, hi⟩ := h
      exact absurd hi (hnone i)
  ordinary := by
    simp [answerStatus, ApiError.response, hforce]
  whole := by
    intro p hp
    cases hp
  inRange := by
    constructor
    · intro h
      cases h
    · intro r hr
      exact bounded_of_requestedRange hr

/-- A malformed `Range` is an error of its own. -/
theorem negotiated_malformed (hasked : srv.requestedRange hdrs = none) :
    srv.Negotiated file hdrs etag withReader (.error (.failed .rangeMalformed)) := by
  have hforce : srv.inForce hdrs etag = none := by
    unfold inForce
    rw [hasked]
  constructor
  · intro p hp
    cases hp
  · intro n hn
    rw [hforce] at hn
    cases hn
  · simp [answerStatus, ApiError.response, hforce]
  · simp [answerStatus, ApiError.response, hforce]
  · simp [answerStatus, ApiError.response, hasked]
  · intro p hp
    cases hp
  · constructor
    · intro h
      cases h
    · intro r hr
      exact bounded_of_requestedRange hr

end

section

variable {srv} {file : StoredFile} {hdrs : DownloadHeaders V} {path real : Text}
  (hfile : srv.files real = .ok (some file)) (hvalid : validateRelPath path = .ok real)
  (hcondition : hdrs.ifNoneMatch = none) (withReader : Bool)

include hfile hvalid hcondition

/-- **An honoured range is answered with the bytes it selects.** -/
theorem negotiated_of_honoured {asked : Option ParsedRange}
    (hasked : srv.requestedRange hdrs = some asked)
    (hforce : srv.honoured hdrs (srv.metaOf file real).etag asked =
      srv.inForce hdrs (srv.metaOf file real).etag) :
    srv.Negotiated file hdrs (srv.metaOf file real).etag withReader
      (srv.planDownload path hdrs withReader) := by
  rw [planDownload_of_file hfile hvalid hcondition withReader, hasked]
  dsimp only
  rw [hforce]
  cases hr : srv.inForce hdrs (srv.metaOf file real).etag with
  | none =>
      have hsome : srv.requestedRange hdrs ≠ none := by
        rw [hasked]
        exact Option.some_ne_none asked
      obtain ⟨plan, hplan, hstatus, -, hsends⟩ :=
        planSpan_ok hfile hdrs withReader false (.full file.bytes.length) (by simp)
      simp only [resolveRange, Option.isSome_none, hplan]
      exact negotiated_whole hsome hr hstatus hsends
  | some r =>
      by_cases hselects : ∃ i, r.Selects file.bytes.length i
      · obtain ⟨i, hi⟩ := hselects
        obtain ⟨spec, hspec, hlt, hle, hexact, hsuffix⟩ := resolveRange_selects hi
        obtain ⟨plan, hplan, hstatus, hheader, hsends⟩ :=
          planSpan_ok hfile hdrs withReader true spec fun _ => by omega
        simp only [hspec, Option.isSome_some, hplan]
        exact negotiated_span hr hi hlt hle hexact hsuffix hstatus (hheader rfl) hsends
      · have hnone : ∀ i, ¬ r.Selects file.bytes.length i := fun i hi => hselects ⟨i, hi⟩
        have hbounded : ∀ spec, r = .bytes spec → spec.start < spec.stop := by
          intro spec hspec
          have hask : asked = some r := eq_of_honoured (hforce.trans hr)
          rw [hask, hspec] at hasked
          exact (bounded_of_requestedRange hasked).1
        simp only [resolveRange_selects_none hbounded hnone]
        exact negotiated_refused hr hnone

/-- **A download is negotiated as its headers ask, unless it asks for a range with an
`If-Range` that is no text.** -/
theorem negotiated_iff :
    srv.Negotiated file hdrs (srv.metaOf file real).etag withReader
        (srv.planDownload path hdrs withReader) ↔
      ¬ ((∃ r, srv.requestedRange hdrs = some (some r)) ∧ srv.IfRangeUnreadable hdrs) := by
  constructor
  · intro hnegotiated hbad
    obtain ⟨⟨r, hasked⟩, v, hv, hunread⟩ := hbad
    have hforce : srv.inForce hdrs (srv.metaOf file real).etag = none := by
      unfold inForce
      simp [hasked, hv, hunread]
    have hhonoured : srv.honoured hdrs (srv.metaOf file real).etag (some r) = some r := by
      unfold honoured
      simp [hv, hunread]
    -- the answer would have to be 200, but the range is served or refused
    have hordinary := hnegotiated.ordinary.2 ⟨by rw [hasked]; simp, hforce⟩
    rw [planDownload_of_file hfile hvalid hcondition withReader, hasked] at hordinary
    dsimp only at hordinary
    rw [hhonoured] at hordinary
    by_cases hselects : ∃ i, r.Selects file.bytes.length i
    · obtain ⟨i, hi⟩ := hselects
      obtain ⟨spec, hspec, hlt, -⟩ := resolveRange_selects hi
      obtain ⟨plan, hplan, hstatus, -⟩ :=
        planSpan_ok hfile hdrs withReader true spec fun _ => by omega
      simp [hspec, hplan, answerStatus, hstatus] at hordinary
    · have hnone : ∀ i, ¬ r.Selects file.bytes.length i := fun i hi => hselects ⟨i, hi⟩
      have hbounded : ∀ spec, r = .bytes spec → spec.start < spec.stop := by
        intro spec hspec
        rw [hspec] at hasked
        exact (bounded_of_requestedRange hasked).1
      simp [resolveRange_selects_none hbounded hnone, answerStatus, ApiError.response]
        at hordinary
  · intro hgood
    cases hasked : srv.requestedRange hdrs with
    | none =>
        rw [planDownload_of_file hfile hvalid hcondition withReader, hasked]
        exact negotiated_malformed hasked
    | some asked =>
        apply negotiated_of_honoured hfile hvalid hcondition withReader hasked
        apply honoured_eq_inForce hasked
        by_cases hnone : asked = none
        · exact Or.inl hnone
        · right
          intro hunread
          obtain ⟨r, hr⟩ := Option.ne_none_iff_exists'.1 hnone
          rw [hr] at hasked
          exact hgood ⟨⟨r, hasked⟩, hunread⟩

end

end DownloadServer

/-! ### A file of five bytes -/

/-- `HeaderValue::to_str`: visible ASCII and tabs. -/
def visibleText (value : List UInt8) : Option Text :=
  if value.all fun b => (32 ≤ b && b < 127) || b = 9 then
    some (value.map fun b => Char.ofNat b.toNat)
  else none

def headerBytes (t : Text) : List UInt8 := t.map fun c => UInt8.ofNat c.toNat

def helloFile : StoredFile := ⟨[104, 101, 108, 108, 111], 0, by decide⟩

/-- A server of one file, without compression. -/
def helloServer : DownloadServer (List UInt8) where
  toStr := visibleText
  files := fun path => .ok (if path = "a".toList then some helloFile else none)
  etag := fun size _ => '"' :: decimal size ++ ['"']
  compression := .none
  zripLevels := none
  qvalueZero := fun t => t = "0".toList
  compress := fun _ bytes => bytes

/-- `Range: bytes=-2`. -/
def suffixRequest : DownloadHeaders (List UInt8) :=
  ⟨none, some (headerBytes "bytes=-2".toList), none, none, none⟩

/-- `Range: bytes=0-1` with another file's entity tag, of a byte that is no ASCII. -/
def unreadableRequest : DownloadHeaders (List UInt8) :=
  ⟨none, some (headerBytes "bytes=0-1".toList), some [34, 255, 34], none, none⟩

theorem suffixRequest_negotiated :
    helloServer.Negotiated helloFile suffixRequest (helloServer.metaOf helloFile "a".toList).etag
      true (helloServer.planDownload "a".toList suffixRequest true) := by
  apply (DownloadServer.negotiated_iff (by rfl) (by decide) rfl true).2
  intro h
  obtain ⟨-, v, hv, -⟩ := h
  cases hv

/-- A range with an `If-Range` that cannot match is honoured all the same. -/
theorem unreadableRequest_not_negotiated :
    ¬ helloServer.Negotiated helloFile unreadableRequest
      (helloServer.metaOf helloFile "a".toList).etag true
      (helloServer.planDownload "a".toList unreadableRequest true) := by
  intro h
  have hstatus : answerStatus (helloServer.planDownload "a".toList unreadableRequest true) =
      some 206 := by decide +kernel
  have hordinary := h.ordinary.2 (by decide +kernel)
  rw [hstatus] at hordinary
  cases hordinary

example : (helloServer.planDownload "a".toList suffixRequest true).toOption.bind
    DownloadPlan.reader = some [108, 111] := by decide +kernel

end Libfw

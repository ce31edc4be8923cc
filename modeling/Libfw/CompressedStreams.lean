import Libfw.UploadStore
import Libfw.ZstdFormat

/-!
# The compressed body stream

`CompressedStream` of `libfw-server/src/handlers.rs` over `ZripCompressor` of
`libfw-core/src/compress.rs`.  A frame comes out when the next chunk comes in, the last one at
the end.  The encoder of `zrip` is a parameter: it emits, on a reset or at the end, one frame of
what was written since the last reset (`EmitsFrames`).

* `compressed_stream_lossless` — polled to its end, the stream has yielded one frame for every
  chunk that holds bytes, in order, and every error of the inner stream.
-/

namespace Libfw

/-- `CompressError`. -/
inductive CompressError where
  | invalidLevel (level : Int)
  | io (e : IoError)
  | zrip (message : Text)
  deriving DecidableEq

/-- The text of an error. -/
def CompressError.message : CompressError → Text
  | .invalidLevel level => "invalid compression level: ".toList ++ (toString level).toList
  | .io e => "io error while compressing: ".toList ++ e.message
  | .zrip message => "zrip compression error: ".toList ++ message

/-- `io::Error::new(InvalidData, e)`. -/
def invalidData (e : CompressError) : IoError := ⟨false, e.message⟩

/-- `compressor already finished`. -/
def compressorFinished : CompressError := .io ⟨false, "compressor already finished".toList⟩

/-! ## The compressor -/

/-- `zrip::FrameEncoder<Vec<u8>>`, as far as it is used. -/
structure FrameEncoder (σ : Type) where
  new : Int → Except CompressError σ
  writeAll : σ → List UInt8 → σ × Except CompressError Unit
  /-- `reset(Vec::new())`: the bytes of the frame. -/
  reset : σ → σ × Except CompressError (List UInt8)
  finish : σ → Except CompressError (List UInt8)

structure ZripCompressor (σ : Type) where
  encoder : Option σ
  dirty : Bool

/-- `Compressor`; what a call appends to `out` comes after `out`. -/
structure Compressor (κ : Type) where
  compress : κ → List UInt8 → List UInt8 → κ × List UInt8 × Except CompressError Unit
  finish : κ → List UInt8 → κ × List UInt8 × Except CompressError Unit

namespace ZripCompressor

variable {σ : Type} (enc : FrameEncoder σ)

def new (level : Int) : Except CompressError (ZripCompressor σ) :=
  (enc.new level).map fun encoder => ⟨some encoder, false⟩

/-- `encoder.write_all(input)`, after the frame before it. -/
def writeInput (encoder : σ) (dirty : Bool) (input out : List UInt8) :
    ZripCompressor σ × List UInt8 × Except CompressError Unit :=
  match enc.writeAll encoder input with
  | (encoder, .error e) => (⟨some encoder, dirty⟩, out, .error e)
  | (encoder, .ok _) => (⟨some encoder, true⟩, out, .ok ())

def compress (k : ZripCompressor σ) (input out : List UInt8) :
    ZripCompressor σ × List UInt8 × Except CompressError Unit :=
  if input = [] then (k, out, .ok ())
  else
    match k.encoder with
    | none => (k, out, .error compressorFinished)
    | some encoder =>
        if k.dirty then
          match enc.reset encoder with
          | (encoder, .error e) => (⟨some encoder, k.dirty⟩, out, .error e)
          | (encoder, .ok finished) => writeInput enc encoder k.dirty input (out ++ finished)
        else writeInput enc encoder k.dirty input out

def finish (k : ZripCompressor σ) (out : List UInt8) :
    ZripCompressor σ × List UInt8 × Except CompressError Unit :=
  match k.encoder with
  | none => (k, out, .error compressorFinished)
  | some encoder =>
      match enc.finish encoder with
      | .error e => (⟨none, k.dirty⟩, out, .error e)
      | .ok tail => (⟨none, false⟩, out ++ tail, .ok ())

/-- `impl Compressor for ZripCompressor`. -/
def asCompressor : Compressor (ZripCompressor σ) := ⟨compress enc, finish enc⟩

end ZripCompressor

/-- A call of a compressor. -/
inductive CompressorCall where
  | compress (input : List UInt8)
  | finish
  deriving DecidableEq

/-- The same compressor, with a record of its calls that it does not read. -/
def Compressor.recorded {κ : Type} (c : Compressor κ) :
    Compressor (κ × List CompressorCall) where
  compress := fun k input out =>
    let (after, result) := c.compress k.1 input out
    ((after, k.2 ++ [.compress input]), result)
  finish := fun k out =>
    let (after, result) := c.finish k.1 out
    ((after, k.2 ++ [.finish]), result)

/-! ## The stream -/

/-- A result of polling the inner stream, before its end. -/
inductive Arrival where
  | pending
  | chunk (bytes : List UInt8)
  | error (e : IoError)
  deriving DecidableEq

/-- `Poll<Option<Result<Bytes, io::Error>>>`. -/
inductive Polled where
  | pending
  | ready (item : Option (Except IoError (List UInt8)))

/-- `CompressedStream`; `inner` is what polling the inner stream will give, the end of it for
ever after. -/
structure CompressedStream (κ : Type) where
  inner : List Arrival
  compressor : κ
  finished : Bool

namespace CompressedStream

variable {κ : Type} (c : Compressor κ)

/-- The loop of `poll_next`. -/
def pollFrom (k : κ) (finished : Bool) : List Arrival → Polled × CompressedStream κ
  | .pending :: rest => (.pending, ⟨rest, k, finished⟩)
  | .chunk bytes :: rest =>
      if bytes = [] then pollFrom k finished rest
      else
        match c.compress k bytes [] with
        | (k, out, .ok _) =>
            if out = [] then pollFrom k finished rest
            else (.ready (some (.ok out)), ⟨rest, k, finished⟩)
        | (k, _, .error e) => (.ready (some (.error (invalidData e))), ⟨rest, k, finished⟩)
  | .error e :: rest => (.ready (some (.error e)), ⟨rest, k, finished⟩)
  | [] =>
      if finished then (.ready none, ⟨[], k, finished⟩)
      else
        match c.finish k [] with
        | (k, tail, .ok _) =>
            if tail = [] then (.ready none, ⟨[], k, true⟩)
            else (.ready (some (.ok tail)), ⟨[], k, true⟩)
        | (k, _, .error e) => (.ready (some (.error (invalidData e))), ⟨[], k, true⟩)

/-- `poll_next`. -/
def pollNext (s : CompressedStream κ) : Polled × CompressedStream κ :=
  pollFrom c s.compressor s.finished s.inner

/-- A number of polls, one after the other. -/
def polls : Nat → CompressedStream κ → List Polled × CompressedStream κ
  | 0, s => ([], s)
  | n + 1, s =>
      let (first, s) := s.pollNext c
      let (rest, s) := polls n s
      (first :: rest, s)

end CompressedStream

/-- The bytes that polls yield. -/
def yieldedBytes : List Polled → List (List UInt8)
  | [] => []
  | .ready (some (.ok bytes)) :: rest => bytes :: yieldedBytes rest
  | _ :: rest => yieldedBytes rest

/-- The errors that polls yield. -/
def yieldedErrors : List Polled → List IoError
  | [] => []
  | .ready (some (.error e)) :: rest => e :: yieldedErrors rest
  | _ :: rest => yieldedErrors rest

/-- The chunks of an inner stream that hold bytes. -/
def chunksOf : List Arrival → List (List UInt8)
  | [] => []
  | .chunk bytes :: rest => if bytes = [] then chunksOf rest else bytes :: chunksOf rest
  | _ :: rest => chunksOf rest

/-- The errors of an inner stream. -/
def errorsOf : List Arrival → List IoError
  | [] => []
  | .error e :: rest => e :: errorsOf rest
  | _ :: rest => errorsOf rest

/-- What the frames of a stream hold: its chunks, or nothing where it has none. -/
def frameContents (arrivals : List Arrival) : List (List UInt8) :=
  if chunksOf arrivals = [] then [[]] else chunksOf arrivals

/-- **What is relied on of `zrip`**, for a relation between frames and what they hold: the bytes
written since the last reset are the encoder's, and a reset or the end emits a frame of them. -/
structure EmitsFrames {σ : Type} (enc : FrameEncoder σ) (IsFrame : List UInt8 → List UInt8 → Prop)
    (written : σ → List UInt8) : Prop where
  new : ∀ level s, enc.new level = .ok s → written s = []
  writeAll : ∀ s bytes, ∃ s', enc.writeAll s bytes = (s', .ok ()) ∧ written s' = written s ++ bytes
  reset : ∀ s, ∃ s' frame, enc.reset s = (s', .ok frame) ∧ IsFrame frame (written s) ∧
    written s' = []
  finish : ∀ s, ∃ frame, enc.finish s = .ok frame ∧ IsFrame frame (written s)

/-! ## What the compressor does -/

section Compressing

variable {σ : Type} {enc : FrameEncoder σ} {IsFrame : List UInt8 → List UInt8 → Prop}
  {written : σ → List UInt8} {s : σ} {bytes : List UInt8} {calls : List CompressorCall}

/-- The first chunk is held back. -/
theorem compress_clean (hzrip : EmitsFrames enc IsFrame written) (hs : written s = [])
    (hbytes : bytes ≠ []) : ∃ s', written s' = bytes ∧
    (ZripCompressor.asCompressor enc).recorded.compress (⟨some s, false⟩, calls) bytes [] =
      ((⟨some s', true⟩, calls ++ [.compress bytes]), [], .ok ()) := by
  obtain ⟨s', hwrite, hafter⟩ := hzrip.writeAll s bytes
  refine ⟨s', hafter.trans (by rw [hs, List.nil_append]), ?_⟩
  unfold Compressor.recorded ZripCompressor.asCompressor ZripCompressor.compress
  simp only [if_neg hbytes, Bool.false_eq_true, if_false, ZripCompressor.writeInput, hwrite]

/-- A later chunk lets go of the chunk before it. -/
theorem compress_dirty (hzrip : EmitsFrames enc IsFrame written) (hbytes : bytes ≠ []) :
    ∃ s' frame, written s' = bytes ∧ IsFrame frame (written s) ∧
      (ZripCompressor.asCompressor enc).recorded.compress (⟨some s, true⟩, calls) bytes [] =
        ((⟨some s', true⟩, calls ++ [.compress bytes]), frame, .ok ()) := by
  obtain ⟨clean, frame, hreset, hframe, hclean⟩ := hzrip.reset s
  obtain ⟨s', hwrite, hafter⟩ := hzrip.writeAll clean bytes
  refine ⟨s', frame, hafter.trans (by rw [hclean, List.nil_append]), hframe, ?_⟩
  unfold Compressor.recorded ZripCompressor.asCompressor ZripCompressor.compress
  simp only [if_neg hbytes, if_true, hreset, ZripCompressor.writeInput, hwrite, List.nil_append]

/-- The end lets go of the last chunk. -/
theorem finish_open (hzrip : EmitsFrames enc IsFrame written) (dirty : Bool) :
    ∃ frame, IsFrame frame (written s) ∧
      (ZripCompressor.asCompressor enc).recorded.finish (⟨some s, dirty⟩, calls) [] =
        ((⟨none, false⟩, calls ++ [.finish]), frame, .ok ()) := by
  obtain ⟨frame, hfinish, hframe⟩ := hzrip.finish s
  refine ⟨frame, hframe, ?_⟩
  unfold Compressor.recorded ZripCompressor.asCompressor ZripCompressor.finish
  simp only [hfinish, List.nil_append]

end Compressing

/-! ## What the stream yields -/

namespace CompressedStream

/-- Some poll passes the error on, and has met nothing that comes after it. -/
def PassesOn {κ : Type} (c : Compressor κ) (s : CompressedStream κ) (e : IoError)
    (after : List Arrival) : Prop :=
  ∃ n k, (s.polls c n).2.pollNext c = (.ready (some (.error e)), ⟨after, k, false⟩)

section Polls

variable {κ : Type} {c : Compressor κ} {s s' : CompressedStream κ} {e : IoError}
  {after : List Arrival}

/-- Two streams whose next poll is the same are polled the same. -/
theorem polls_congr (h : s.pollNext c = s'.pollNext c) (n : Nat) :
    s.polls c (n + 1) = s'.polls c (n + 1) := by
  unfold polls
  rw [h]

theorem polls_succ {first : Polled} {after : CompressedStream κ}
    (h : s.pollNext c = (first, after)) (n : Nat) :
    s.polls c (n + 1) = (first :: (after.polls c n).1, (after.polls c n).2) := by
  rw [polls, h]

theorem PassesOn.of_pollNext {first : Polled} (h : s.pollNext c = (first, s'))
    (hrest : s'.PassesOn c e after) : s.PassesOn c e after := by
  obtain ⟨n, k, hpoll⟩ := hrest
  refine ⟨n + 1, k, ?_⟩
  rw [polls_succ h]
  exact hpoll

theorem PassesOn.congr (h : s.pollNext c = s'.pollNext c) (hrest : s'.PassesOn c e after) :
    s.PassesOn c e after := by
  obtain ⟨n, k, hpoll⟩ := hrest
  refine ⟨n, k, ?_⟩
  cases n with
  | zero => exact h.trans hpoll
  | succ n =>
      rw [polls_congr h]
      exact hpoll

/-- A stream that has ended goes on ending. -/
theorem polls_ended {k : κ} (n : Nat) : polls c n ⟨[], k, true⟩ =
    (List.replicate n (.ready none), ⟨[], k, true⟩) := by
  induction n with
  | zero => rfl
  | succ n ih =>
      have hnext : pollNext c ⟨[], k, true⟩ = (.ready none, ⟨[], k, true⟩) := rfl
      rw [polls_succ hnext, ih]
      rfl

end Polls

section Record

variable {κ : Type} {c : Compressor κ}

end Record

section Drain

variable {σ : Type} {enc : FrameEncoder σ} {IsFrame : List UInt8 → List UInt8 → Prop}
  {written : σ → List UInt8}

/-- The stream, with its compressor open. -/
def opened (arrivals : List Arrival) (s : σ) (dirty : Bool) (calls : List CompressorCall) :
    CompressedStream (ZripCompressor σ × List CompressorCall) :=
  ⟨arrivals, (⟨some s, dirty⟩, calls), false⟩

/-- What the frames still to come hold: the chunk held back, and the chunks to come. -/
def contentsFrom (written : σ → List UInt8) (s : σ) (dirty : Bool) (arrivals : List Arrival) :
    List (List UInt8) :=
  if dirty then written s :: chunksOf arrivals else frameContents arrivals

/-- Polls have drained the stream: these are the bytes, the errors and the calls. -/
structure Drained (frames : List (List UInt8)) (arrivals : List Arrival)
    (calls : List CompressorCall)
    (out : List Polled × CompressedStream (ZripCompressor σ × List CompressorCall)) : Prop where
  bytes : (yieldedBytes out.1).flatten = frames.flatten
  errors : yieldedErrors out.1 = errorsOf arrivals
  after : out.2 =
    ⟨[], (⟨none, false⟩, calls ++ (chunksOf arrivals).map .compress ++ [.finish]), true⟩

theorem yieldedBytes_ended (n : Nat) : yieldedBytes (List.replicate n (.ready none)) = [] := by
  induction n with
  | zero => rfl
  | succ n ih => exact ih

theorem yieldedErrors_ended (n : Nat) : yieldedErrors (List.replicate n (.ready none)) = [] := by
  induction n with
  | zero => rfl
  | succ n ih => exact ih

/-- A chunk is held back, and lets go of the one before it. -/
theorem pollNext_chunk (hzrip : EmitsFrames enc IsFrame written) {s : σ} {dirty : Bool}
    (hclean : dirty = false → written s = []) {bytes : List UInt8} (hbytes : bytes ≠ [])
    (rest : List Arrival) (calls : List CompressorCall) :
    ∃ s' frames, written s' = bytes ∧
      List.Forall₂ IsFrame frames (if dirty then [written s] else []) ∧
      (opened (.chunk bytes :: rest) s dirty calls).pollNext
          (ZripCompressor.asCompressor enc).recorded =
        if frames.flatten = [] then
          (opened rest s' true (calls ++ [.compress bytes])).pollNext
            (ZripCompressor.asCompressor enc).recorded
        else (.ready (some (.ok frames.flatten)),
          opened rest s' true (calls ++ [.compress bytes])) := by
  cases dirty with
  | false =>
      obtain ⟨s', hwritten, hcompress⟩ : ∃ s', written s' = bytes ∧
          (ZripCompressor.asCompressor enc).recorded.compress (⟨some s, false⟩, calls) bytes [] =
            _ := compress_clean hzrip (hclean rfl) hbytes
      refine ⟨s', [], hwritten, List.Forall₂.nil, ?_⟩
      simp only [opened, pollNext, pollFrom, if_neg hbytes, hcompress, List.flatten_nil, if_true]
  | true =>
      obtain ⟨s', frame, hwritten, hframe, hcompress⟩ : ∃ s' frame, written s' = bytes ∧
          IsFrame frame (written s) ∧
          (ZripCompressor.asCompressor enc).recorded.compress (⟨some s, true⟩, calls) bytes [] =
            _ := compress_dirty hzrip hbytes
      refine ⟨s', [frame], hwritten, List.Forall₂.cons hframe List.Forall₂.nil, ?_⟩
      simp only [opened, pollNext, pollFrom, if_neg hbytes, hcompress, List.flatten_cons,
        List.flatten_nil, List.append_nil]

/-- The end of the inner stream. -/
theorem drained_nil (hzrip : EmitsFrames enc IsFrame written) {s : σ} {dirty : Bool}
    {calls : List CompressorCall} (hclean : dirty = false → written s = []) :
    ∃ frames, List.Forall₂ IsFrame frames (contentsFrom written s dirty []) ∧
      ∀ n, 0 < n → Drained frames [] calls
        ((opened [] s dirty calls).polls (ZripCompressor.asCompressor enc).recorded n) := by
  obtain ⟨frame, hframe, hfinish⟩ : ∃ frame, IsFrame frame (written s) ∧
      (ZripCompressor.asCompressor enc).recorded.finish (⟨some s, dirty⟩, calls) [] = _ :=
    finish_open hzrip dirty
  have hcontents : contentsFrom written s dirty [] = [written s] := by
    unfold contentsFrom
    cases dirty with
    | true => rfl
    | false =>
        rw [hclean rfl]
        rfl
  refine ⟨[frame], hcontents ▸ List.Forall₂.cons hframe List.Forall₂.nil, ?_⟩
  intro n hn
  obtain ⟨m, rfl⟩ : ∃ m, n = m + 1 := ⟨n - 1, by omega⟩
  by_cases hempty : frame = []
  · have hnext : (opened [] s dirty calls).pollNext (ZripCompressor.asCompressor enc).recorded =
        (.ready none, ⟨[], (⟨none, false⟩, calls ++ [.finish]), true⟩) := by
      simp only [opened, pollNext, pollFrom, hfinish, Bool.false_eq_true, if_false, if_pos hempty]
    rw [polls_succ hnext, polls_ended]
    refine ⟨?_, yieldedErrors_ended m, by simp [chunksOf]⟩
    rw [hempty]
    exact (congrArg List.flatten (yieldedBytes_ended m)).trans rfl
  · have hnext : (opened [] s dirty calls).pollNext (ZripCompressor.asCompressor enc).recorded =
        (.ready (some (.ok frame)), ⟨[], (⟨none, false⟩, calls ++ [.finish]), true⟩) := by
      simp only [opened, pollNext, pollFrom, hfinish, Bool.false_eq_true, if_false, if_neg hempty]
    rw [polls_succ hnext, polls_ended]
    refine ⟨?_, yieldedErrors_ended m, by simp [chunksOf]⟩
    exact congrArg (fun rest => (frame :: rest).flatten) (yieldedBytes_ended m)

/-- **From any open state**, the stream is drained by more polls than there are arrivals. -/
theorem drained_open (hzrip : EmitsFrames enc IsFrame written) {arrivals : List Arrival} :
    ∀ (s : σ) (dirty : Bool) (calls : List CompressorCall), (dirty = false → written s = []) →
    ∃ frames, List.Forall₂ IsFrame frames (contentsFrom written s dirty arrivals) ∧
      ∀ n, arrivals.length < n → Drained frames arrivals calls
        ((opened arrivals s dirty calls).polls (ZripCompressor.asCompressor enc).recorded n) := by
  induction arrivals with
  | nil =>
      intro s dirty calls hclean
      exact drained_nil hzrip hclean
  | cons first rest ih =>
      intro s dirty calls hclean
      cases first with
      | pending =>
          obtain ⟨frames, hframes, hdrained⟩ := ih s dirty calls hclean
          refine ⟨frames, hframes, ?_⟩
          intro n hn
          obtain ⟨m, rfl⟩ : ∃ m, n = m + 1 := ⟨n - 1, by omega⟩
          have hrest := hdrained m (Nat.lt_of_succ_lt_succ hn)
          have hnext : (opened (.pending :: rest) s dirty calls).pollNext
              (ZripCompressor.asCompressor enc).recorded =
                (.pending, opened rest s dirty calls) := rfl
          rw [polls_succ hnext]
          exact ⟨hrest.bytes, hrest.errors, hrest.after⟩
      | error e =>
          obtain ⟨frames, hframes, hdrained⟩ := ih s dirty calls hclean
          refine ⟨frames, hframes, ?_⟩
          intro n hn
          obtain ⟨m, rfl⟩ : ∃ m, n = m + 1 := ⟨n - 1, by omega⟩
          have hrest := hdrained m (Nat.lt_of_succ_lt_succ hn)
          have hnext : (opened (.error e :: rest) s dirty calls).pollNext
              (ZripCompressor.asCompressor enc).recorded =
                (.ready (some (.error e)), opened rest s dirty calls) := rfl
          rw [polls_succ hnext]
          exact ⟨hrest.bytes, congrArg (e :: ·) hrest.errors, hrest.after⟩
      | chunk bytes =>
          by_cases hbytes : bytes = []
          · subst hbytes
            obtain ⟨frames, hframes, hdrained⟩ := ih s dirty calls hclean
            refine ⟨frames, hframes, ?_⟩
            intro n hn
            obtain ⟨m, rfl⟩ : ∃ m, n = m + 1 := ⟨n - 1, by omega⟩
            have hrest := hdrained (m + 1) (Nat.lt_of_succ_lt hn)
            have hnext : (opened (.chunk [] :: rest) s dirty calls).pollNext
                (ZripCompressor.asCompressor enc).recorded =
                  (opened rest s dirty calls).pollNext
                    (ZripCompressor.asCompressor enc).recorded := rfl
            rw [polls_congr hnext]
            exact ⟨hrest.bytes, hrest.errors, hrest.after⟩
          · obtain ⟨s', frames, hwritten, hframes, hnext⟩ :=
              pollNext_chunk hzrip hclean hbytes rest calls
            obtain ⟨later, hlater, hdrained⟩ :=
              ih s' true (calls ++ [.compress bytes]) Bool.noConfusion
            refine ⟨frames ++ later, ?_, ?_⟩
            · have hcontents : contentsFrom written s dirty (.chunk bytes :: rest) =
                  (if dirty then [written s] else []) ++ contentsFrom written s' true rest := by
                cases dirty with
                | true => simp [contentsFrom, chunksOf, hbytes, hwritten]
                | false => simp [contentsFrom, frameContents, chunksOf, hbytes, hwritten]
              rw [hcontents]
              exact List.rel_append hframes hlater
            · intro n hn
              obtain ⟨m, rfl⟩ : ∃ m, n = m + 1 := ⟨n - 1, by omega⟩
              have hcalls : calls ++ [.compress bytes] ++ (chunksOf rest).map .compress ++ [.finish] =
                  calls ++ (chunksOf (.chunk bytes :: rest)).map .compress ++ [.finish] := by
                simp [chunksOf, hbytes]
              by_cases hempty : frames.flatten = []
              · have hrest := hdrained (m + 1) (Nat.lt_of_succ_lt hn)
                rw [polls_congr (hnext.trans (if_pos hempty))]
                refine ⟨?_, hrest.errors, hcalls ▸ hrest.after⟩
                rw [hrest.bytes, List.flatten_append, hempty, List.nil_append]
              · have hrest := hdrained m (Nat.lt_of_succ_lt_succ hn)
                rw [polls_succ (hnext.trans (if_neg hempty))]
                refine ⟨?_, hrest.errors, hcalls ▸ hrest.after⟩
                rw [List.flatten_append, ← hrest.bytes]
                rfl

/-- An error of the inner stream is passed on. -/
theorem passesOn_error (hzrip : EmitsFrames enc IsFrame written) {before : List Arrival} :
    ∀ (s : σ) (dirty : Bool) (calls : List CompressorCall), (dirty = false → written s = []) →
    ∀ (e : IoError) (after : List Arrival),
      (opened (before ++ .error e :: after) s dirty calls).PassesOn
        (ZripCompressor.asCompressor enc).recorded e after := by
  induction before with
  | nil =>
      intro s dirty calls hclean e after
      exact ⟨0, _, rfl⟩
  | cons first rest ih =>
      intro s dirty calls hclean e after
      have hrest := ih s dirty calls hclean e after
      cases first with
      | pending => exact PassesOn.of_pollNext rfl hrest
      | error e' => exact PassesOn.of_pollNext rfl hrest
      | chunk bytes =>
          by_cases hbytes : bytes = []
          · subst hbytes
            have hnext : (opened (.chunk [] :: rest ++ .error e :: after) s dirty calls).pollNext
                (ZripCompressor.asCompressor enc).recorded =
                  (opened (rest ++ .error e :: after) s dirty calls).pollNext
                    (ZripCompressor.asCompressor enc).recorded := rfl
            exact hrest.congr hnext
          · obtain ⟨s', frames, hwritten, hframes, hnext⟩ :=
              pollNext_chunk hzrip hclean hbytes (rest ++ .error e :: after) calls
            have hlater := ih s' true (calls ++ [.compress bytes]) Bool.noConfusion e after
            by_cases hempty : frames.flatten = []
            · exact hlater.congr (hnext.trans (if_pos hempty))
            · exact hlater.of_pollNext (hnext.trans (if_neg hempty))

end Drain

end CompressedStream

open CompressedStream in
/-- **The compressed body stream loses nothing.**  More polls than there are arrivals drain the
stream: what they yield is one frame for every chunk that holds bytes, in order, or one empty
frame, and the errors of the inner stream; the compressor has been given every chunk, and been
finished once; and every later poll is the end.  Every error is passed on by the poll that
meets it. -/
theorem compressed_stream_lossless {σ : Type} {enc : FrameEncoder σ}
    {IsFrame : List UInt8 → List UInt8 → Prop} {written : σ → List UInt8}
    (hzrip : EmitsFrames enc IsFrame written) {level : Int} {k : ZripCompressor σ}
    (hnew : ZripCompressor.new enc level = .ok k) (arrivals : List Arrival) :
    ∃ frames, List.Forall₂ IsFrame frames (frameContents arrivals) ∧
      (∀ n, arrivals.length < n →
        let out := polls (ZripCompressor.asCompressor enc).recorded n ⟨arrivals, (k, []), false⟩
        (yieldedBytes out.1).flatten = frames.flatten ∧ yieldedErrors out.1 = errorsOf arrivals ∧
          out.2.compressor.2 = (chunksOf arrivals).map .compress ++ [.finish] ∧
            out.2.pollNext (ZripCompressor.asCompressor enc).recorded = (.ready none, out.2)) ∧
      ∀ before e after, arrivals = before ++ .error e :: after →
        PassesOn (ZripCompressor.asCompressor enc).recorded ⟨arrivals, (k, []), false⟩ e after := by
  obtain ⟨s, hs, rfl⟩ : ∃ s, enc.new level = .ok s ∧ ⟨some s, false⟩ = k := by
    unfold ZripCompressor.new at hnew
    cases hs : enc.new level with
    | error e =>
        rw [hs] at hnew
        cases hnew
    | ok s =>
        rw [hs] at hnew
        cases hnew
        exact ⟨s, rfl, rfl⟩
  have hclean : false = false → written s = [] := fun _ => hzrip.new level s hs
  obtain ⟨frames, hframes, hdrained⟩ := drained_open hzrip s false [] hclean
  refine ⟨frames, hframes, ?_, ?_⟩
  · intro n hn
    have hout := hdrained n hn
    unfold opened at hout
    dsimp only
    refine ⟨hout.bytes, hout.errors, ?_, ?_⟩
    · rw [hout.after]
      rfl
    · rw [hout.after]
      rfl
  · intro before e after harrivals
    rw [harrivals]
    exact passesOn_error hzrip s false [] hclean e after

/-! ### Two chunks -/

/-- A single-segment frame of one raw block, for fewer than 256 bytes. -/
def storedFrame (bytes : List UInt8) : List UInt8 :=
  [0x28, 0xB5, 0x2F, 0xFD, 0x20, UInt8.ofNat bytes.length] ++
    Zstd.le3 (1 + 8 * bytes.length) ++ bytes

/-- An encoder that does not compress. -/
def storingEncoder : FrameEncoder (List UInt8) where
  new := fun level =>
    if -8 ≤ level ∧ level ≤ 4 then .ok [] else .error (.invalidLevel level)
  writeAll := fun held bytes => (held ++ bytes, .ok ())
  reset := fun held => ([], .ok (storedFrame held))
  finish := fun held => .ok (storedFrame held)

theorem storingEncoder_emitsFrames :
    EmitsFrames storingEncoder (fun frame bytes => frame = storedFrame bytes) id where
  new := by
    intro level s h
    unfold storingEncoder at h
    dsimp only at h
    split at h
    · cases h
      rfl
    · cases h
  writeAll := fun s bytes => ⟨_, rfl, rfl⟩
  reset := fun s => ⟨_, _, rfl, rfl, rfl⟩
  finish := fun s => ⟨_, rfl, rfl⟩

open CompressedStream in
theorem two_chunks_two_frames :
    ZripCompressor.new storingEncoder 1 = .ok ⟨some [], false⟩ ∧
      let out := polls (ZripCompressor.asCompressor storingEncoder).recorded 6
        ⟨[.chunk [0x61], .pending, .chunk [], .error .isDirectory, .chunk [0x62]],
          (⟨some [], false⟩, []), false⟩
      (yieldedBytes out.1).flatten = storedFrame [0x61] ++ storedFrame [0x62] ∧
        yieldedErrors out.1 = [.isDirectory] := by
  have hnew : ZripCompressor.new storingEncoder 1 = .ok ⟨some [], false⟩ := rfl
  obtain ⟨frames, hframes, hdrained, -⟩ := compressed_stream_lossless storingEncoder_emitsFrames
    hnew [.chunk [0x61], .pending, .chunk [], .error .isDirectory, .chunk [0x62]]
  obtain ⟨hbytes, herrors, -⟩ := hdrained 6 (by decide)
  refine ⟨hnew, ?_, herrors⟩
  rw [hbytes]
  obtain - | @⟨first, -, rest, -, hfirst, hrest⟩ := hframes
  obtain - | @⟨second, -, none, -, hsecond, hnone⟩ := hrest
  cases hnone
  rw [hfirst, hsecond]
  rfl

end Libfw

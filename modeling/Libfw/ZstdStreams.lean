import Libfw.FramedStreams
import Libfw.ReceivedRanges
import Libfw.TransferPlans
import Libfw.ZstdFrames

/-!
# The streaming zstd decompressor

`ZripDecompressor` of `libfw-core/src/compress.rs`: frames are reassembled across
chunk boundaries, decoded one by one and appended to the output, of which a call
may add so much and no more.  What a frame decodes to is up to `zrip`, here a
parameter `decodeFrame`.

* `frameBoundary_append` — a boundary that has been decided is not moved by what
  follows.
* `run_eq_whole` — as long as no limit is hit, the output and the outcome are
  those of the bytes in one piece.
* `decompression_ignores_splits` — so they do not depend on how the bytes arrive.
-/

namespace Libfw

open Zstd FramedStreams

def MAX_FRAME_OUTPUT : Nat := CHUNK_SIZE
def MAX_OUTPUT_PER_CALL : Nat := min (MAX_FRAME_OUTPUT * 8) (2 ^ 64 - 1)

/-! ## Decided boundaries -/

/-- A walk that ends goes forward. -/
theorem walkBlocks_lt {buf : List UInt8} {off stop : Nat} (h : walkBlocks buf off = .ok stop) :
    off < stop := by
  fun_induction walkBlocks buf off with
  | case1 => cases h
  | case2 => cases h
  | case3 =>
      cases h
      omega
  | case4 off b0 b1 b2 rest hdrop hdr isLast type size htype hcap hlast ih =>
      have := ih h
      omega
  | case5 => cases h

/-- A walk that does not run out of bytes is the same with more of them. -/
theorem walkBlocks_append {buf : List UInt8} {off : Nat} (more : List UInt8)
    (h : walkBlocks buf off ≠ .error .incomplete) :
    walkBlocks (buf ++ more) off = walkBlocks buf off := by
  induction hlen : buf.length - off using Nat.strongRecOn generalizing off with
  | _ left ih =>
      subst hlen
      by_cases hshort : buf.length < off + 3
      · exact absurd (walkBlocks_short hshort) h
      · obtain ⟨b0, b1, b2, rest, hdrop⟩ : ∃ b0 b1 b2 rest,
            buf.drop off = b0 :: b1 :: b2 :: rest := by
          have hlen : 3 ≤ (buf.drop off).length := by
            rw [List.length_drop]
            omega
          match buf.drop off, hlen with
          | b0 :: b1 :: b2 :: rest, _ => exact ⟨b0, b1, b2, rest, rfl⟩
        have hmore : (buf ++ more).drop off = b0 :: b1 :: b2 :: (rest ++ more) := by
          rw [List.drop_append_of_le_length (by omega), hdrop]
          rfl
        rw [walkBlocks_header hdrop] at h ⊢
        rw [walkBlocks_header hmore]
        split
        · rfl
        · next htype =>
            split
            · rfl
            · next hcap =>
                split
                · rfl
                · next hlast =>
                    rw [if_neg htype, if_neg hcap, if_neg hlast] at h
                    exact ih _ (by omega) h rfl

/-- Bytes that are there stay where they are. -/
theorem getD_append_of_lt {buf : List UInt8} (more : List UInt8) {k : Nat} {b : UInt8}
    (h : k < buf.length) : (buf ++ more).getD k b = buf.getD k b := by
  rw [List.getD_eq_getElem?_getD, List.getD_eq_getElem?_getD, List.getElem?_append_left h]

theorem take_drop_append_of_le {buf : List UInt8} (more : List UInt8) {k n : Nat}
    (h : k + n ≤ buf.length) : ((buf ++ more).drop k).take n = (buf.drop k).take n := by
  rw [List.drop_append_of_le_length (by omega),
    List.take_append_of_le_length (by rw [List.length_drop]; omega)]

theorem skippableFrameBoundary_append {buf : List UInt8} (more : List UInt8)
    (h : skippableFrameBoundary buf ≠ .incomplete) :
    skippableFrameBoundary (buf ++ more) = skippableFrameBoundary buf := by
  unfold skippableFrameBoundary at h ⊢
  by_cases hshort : buf.length < 8
  · exact absurd (if_pos hshort) h
  · have hlong : ¬ (buf ++ more).length < 8 := by
      rw [List.length_append]
      omega
    rw [if_neg hshort] at h ⊢
    rw [if_neg hlong, take_drop_append_of_le more (by omega)]
    dsimp only at h ⊢
    by_cases htotal : 8 + leValue ((buf.drop 4).take 4) ≤ buf.length
    · rw [if_pos htotal, if_pos (by rw [List.length_append]; omega)]
    · exact absurd (if_neg htotal) h

theorem five_le_hdrLen (descriptor : UInt8) : 5 + fcsSize descriptor ≤ hdrLen descriptor := by
  unfold hdrLen
  omega

theorem zstdFrameBoundary_append {buf : List UInt8} (more : List UInt8)
    (h : zstdFrameBoundary buf ≠ .incomplete) :
    zstdFrameBoundary (buf ++ more) = zstdFrameBoundary buf := by
  unfold zstdFrameBoundary at h ⊢
  by_cases h5 : buf.length < 5
  · exact absurd (if_pos h5) h
  have hlen : (buf ++ more).length = buf.length + more.length := List.length_append
  rw [if_neg h5] at h ⊢
  rw [if_neg (by omega), getD_append_of_lt more (by omega)]
  dsimp only at h ⊢
  by_cases hreserved : buf.getD 4 0 &&& 0x18 ≠ 0
  · rw [if_pos hreserved, if_pos hreserved]
  rw [if_neg hreserved] at h ⊢
  rw [if_neg hreserved]
  by_cases hhdr : buf.length < hdrLen (buf.getD 4 0)
  · exact absurd (if_pos hhdr) h
  have hfcs := five_le_hdrLen (buf.getD 4 0)
  rw [if_neg hhdr] at h ⊢
  rw [if_neg (by omega), take_drop_append_of_le more (by omega)]
  cases hwalk : walkBlocks buf (hdrLen (buf.getD 4 0)) with
  | error boundary =>
      have hdecided : walkBlocks buf (hdrLen (buf.getD 4 0)) ≠ .error .incomplete := by
        intro hincomplete
        rw [hincomplete] at h
        exact h rfl
      rw [walkBlocks_append more hdecided, hwalk]
  | ok blocksEnd =>
      have hdecided : walkBlocks buf (hdrLen (buf.getD 4 0)) ≠ .error .incomplete := by
        rw [hwalk]
        simp
      rw [walkBlocks_append more hdecided, hwalk]
      rw [hwalk] at h
      dsimp only at h ⊢
      generalize (if buf.getD 4 0 &&& 0x04 ≠ 0 then blocksEnd + 4 else blocksEnd) = off at h ⊢
      by_cases hoff : buf.length < off
      · exact absurd (if_pos hoff) h
      · rw [if_neg hoff, if_neg (by omega)]

/-- **A boundary that has been decided is not moved by what follows.** -/
theorem frameBoundary_append {buf : List UInt8} (more : List UInt8)
    (h : frameBoundary buf ≠ .incomplete) :
    frameBoundary (buf ++ more) = frameBoundary buf := by
  unfold frameBoundary at h ⊢
  by_cases h4 : buf.length < 4
  · exact absurd (if_pos h4) h
  have hlong : ¬ (buf ++ more).length < 4 := by
    rw [List.length_append]
    omega
  rw [if_neg h4] at h ⊢
  rw [if_neg hlong, List.take_append_of_le_length (by omega)]
  dsimp only at h ⊢
  split
  · next hmagic =>
      rw [if_pos hmagic] at h
      exact zstdFrameBoundary_append more h
  · next hmagic =>
      rw [if_neg hmagic] at h
      split
      · next hskip =>
          rw [if_pos hskip] at h
          exact skippableFrameBoundary_append more h
      · rfl

theorem skippableFrameBoundary_complete {buf : List UInt8} {len : Nat} {contentSize : Option Nat}
    (h : skippableFrameBoundary buf = .complete len contentSize) :
    0 < len ∧ len ≤ buf.length := by
  unfold skippableFrameBoundary at h
  grind

theorem zstdFrameBoundary_complete {buf : List UInt8} {len : Nat} {contentSize : Option Nat}
    (h : zstdFrameBoundary buf = .complete len contentSize) : 0 < len ∧ len ≤ buf.length := by
  unfold zstdFrameBoundary at h
  by_cases h5 : buf.length < 5
  · rw [if_pos h5] at h
    cases h
  rw [if_neg h5] at h
  dsimp only at h
  by_cases hreserved : buf.getD 4 0 &&& 0x18 ≠ 0
  · rw [if_pos hreserved] at h
    cases h
  rw [if_neg hreserved] at h
  by_cases hhdr : buf.length < hdrLen (buf.getD 4 0)
  · rw [if_pos hhdr] at h
    cases h
  rw [if_neg hhdr] at h
  cases hwalk : walkBlocks buf (hdrLen (buf.getD 4 0)) with
  | error boundary =>
      rw [hwalk] at h
      have hsame : boundary = .complete len contentSize := h
      rw [hsame] at hwalk
      exact absurd hwalk (walkBlocks_ne_complete _ _ _ _)
  | ok blocksEnd =>
      have hpos := walkBlocks_lt hwalk
      have hoff : blocksEnd ≤
          if buf.getD 4 0 &&& 0x04 ≠ 0 then blocksEnd + 4 else blocksEnd := by
        split <;> omega
      rw [hwalk] at h
      dsimp only at h
      generalize (if buf.getD 4 0 &&& 0x04 ≠ 0 then blocksEnd + 4 else blocksEnd) = off at h hoff
      by_cases hshort : buf.length < off
      · rw [if_pos hshort] at h
        cases h
      · rw [if_neg hshort] at h
        injection h with hlen
        omega

/-- A complete frame has bytes, and they are there. -/
theorem frameBoundary_complete {buf : List UInt8} {len : Nat} {contentSize : Option Nat}
    (h : frameBoundary buf = .complete len contentSize) : 0 < len ∧ len ≤ buf.length := by
  unfold frameBoundary at h
  split at h
  · cases h
  · dsimp only at h
    split at h
    · exact zstdFrameBoundary_complete h
    · split at h
      · exact skippableFrameBoundary_complete h
      · cases h

/-! ## The decompressor -/

/-- `DecompressError`, with the text of an inner I/O error. -/
inductive DecompressError where
  | io (message : Text)
  | truncated (message : Text)
  | tooLarge (limit : Nat)
  deriving DecidableEq

def notAFrame : Text := "invalid zstd frame data".toList

def alreadyFinished : DecompressError := .io "decompressor already finished".toList

/-- What is left over at the end of a stream. -/
def trailingBytes (count : Nat) : DecompressError :=
  .truncated (decimal count ++ " trailing compressed bytes".toList)

structure ZripDecompressor where
  pending : List UInt8
  finished : Bool
  maxOutputPerCall : Nat
  deriving DecidableEq

namespace ZripDecompressor

/-- `with_max_output`. -/
def withMaxOutput (maxOutputPerCall : Nat) : ZripDecompressor := ⟨[], false, maxOutputPerCall⟩

def new : ZripDecompressor := withMaxOutput MAX_OUTPUT_PER_CALL

variable (decodeFrame : List UInt8 → Except Text (List UInt8))

/-- The loop of `drain_frames`, from the cursor on; `added` counts the output of
this call.  The result is what stays pending, the output and the outcome. -/
def drainFrom (maxAdd : Nat) (pending : List UInt8) (consumed added : Nat) (out : List UInt8) :
    List UInt8 × List UInt8 × Except DecompressError Unit :=
  match _hboundary : frameBoundary (pending.drop consumed) with
  | .incomplete => (pending.drop consumed, out, .ok ())
  | .invalid => (pending, out, .error (.io notAFrame))
  | .complete len contentSize =>
      if contentSize.any (MAX_FRAME_OUTPUT < ·) then
        (pending, out, .error (.tooLarge MAX_FRAME_OUTPUT))
      else
        match decodeFrame ((pending.drop consumed).take len) with
        | .error e => (pending, out, .error (.io e))
        | .ok decoded =>
            if maxAdd < satAdd added decoded.length then (pending, out, .error (.tooLarge maxAdd))
            else
              drainFrom maxAdd pending (consumed + len) (satAdd added decoded.length)
                (out ++ decoded)
termination_by pending.length - consumed
decreasing_by
  have hlen := frameBoundary_complete _hboundary
  rw [List.length_drop] at hlen
  omega

/-- `drain_frames`. -/
def drainFrames (d : ZripDecompressor) (out : List UInt8) :
    ZripDecompressor × List UInt8 × Except DecompressError Unit :=
  let (pending, out, result) := drainFrom decodeFrame d.maxOutputPerCall d.pending 0 0 out
  ({ d with pending := pending }, out, result)

/-- `decompress`. -/
def decompress (d : ZripDecompressor) (input out : List UInt8) :
    ZripDecompressor × List UInt8 × Except DecompressError Unit :=
  if d.finished then (d, out, .error alreadyFinished)
  else
    let (d, out, result) := drainFrames decodeFrame { d with pending := d.pending ++ input } out
    match result with
    | .error e => (d, out, .error e)
    | .ok _ =>
        if MAX_PENDING_FRAME < d.pending.length then
          (d, out, .error (.tooLarge MAX_PENDING_FRAME))
        else (d, out, .ok ())

/-- `finish`. -/
def finish (d : ZripDecompressor) (out : List UInt8) :
    ZripDecompressor × List UInt8 × Except DecompressError Unit :=
  if d.finished then (d, out, .ok ())
  else
    let (d, out, result) := drainFrames decodeFrame { d with finished := true } out
    match result with
    | .error e => (d, out, .error e)
    | .ok _ =>
        if d.pending ≠ [] then (d, out, .error (trailingBytes d.pending.length))
        else (d, out, .ok ())

/-- A stream: the inputs one after the other, then `finish`, up to the first error.
The result is all the output, and the outcome. -/
def run (d : ZripDecompressor) (out : List UInt8) :
    List (List UInt8) → List UInt8 × Except DecompressError Unit
  | [] => (d.finish decodeFrame out).2
  | input :: rest =>
      match d.decompress decodeFrame input out with
      | (_, out, .error e) => (out, .error e)
      | (d, out, .ok _) => d.run out rest

/-! ### The same in one piece -/

/-- The frames of a byte string, without limits. -/
def frames : Reader UInt8 UInt8 Text where
  front := fun bs =>
    match frameBoundary bs with
    | .complete len _ => .frame len
    | .incomplete => .waits
    | .invalid => .bad
  decode := decodeFrame
  notFrame := notAFrame
  frame_pos := by
    intro bs n h
    split at h
    · next hboundary =>
        cases h
        exact (frameBoundary_complete hboundary).1
    · cases h
    · cases h
  frame_le := by
    intro bs n h
    split at h
    · next hboundary =>
        cases h
        exact (frameBoundary_complete hboundary).2
    · cases h
    · cases h
  stable := by
    intro bs more h
    have hdecided : frameBoundary bs ≠ .incomplete := by
      intro hincomplete
      rw [hincomplete] at h
      exact h rfl
    rw [frameBoundary_append more hdecided]

/-- How a stream ends whose frames have been read. -/
def outcome : Stop UInt8 Text → Except DecompressError Unit
  | .failed e => .error (.io e)
  | .needs [] => .ok ()
  | .needs rest => .error (trailingBytes rest.length)

/-- What a stream comes to, without limits. -/
def whole (bytes : List UInt8) : List UInt8 × Except DecompressError Unit :=
  (((frames decodeFrame).read bytes).1, outcome ((frames decodeFrame).read bytes).2)

/-- No call has reported a limit. -/
def Fits (result : Except DecompressError Unit) : Prop :=
  ∀ limit, result ≠ .error (.tooLarge limit)

variable {decodeFrame}

theorem read_of_incomplete {bs : List UInt8} (h : frameBoundary bs = .incomplete) :
    (frames decodeFrame).read bs = ([], .needs bs) := by
  apply Reader.read_of_waits
  unfold frames
  dsimp only
  rw [h]

theorem read_of_invalid {bs : List UInt8} (h : frameBoundary bs = .invalid) :
    (frames decodeFrame).read bs = ([], .failed notAFrame) := by
  apply Reader.read_of_bad
  unfold frames
  dsimp only
  rw [h]

theorem read_of_complete {bs : List UInt8} {len : Nat} {contentSize : Option Nat}
    (h : frameBoundary bs = .complete len contentSize) :
    (frames decodeFrame).read bs = match decodeFrame (bs.take len) with
      | .error e => ([], .failed e)
      | .ok out => (out ++ ((frames decodeFrame).read (bs.drop len)).1,
          ((frames decodeFrame).read (bs.drop len)).2) := by
  have hfront : (frames decodeFrame).front bs = .frame len := by
    unfold frames
    dsimp only
    rw [h]
  have hdecode : (frames decodeFrame).decode = decodeFrame := rfl
  rw [Reader.read_of_frame hfront, hdecode]
  cases decodeFrame (bs.take len) <;> rfl

/-- What draining does, where it hits no limit: it reads what is there. -/
def Drains (drained : List UInt8 × List UInt8 × Except DecompressError Unit) (out : List UInt8) :
    List UInt8 × Stop UInt8 Text → Prop
  | (more, .needs rest) => drained = (rest, out ++ more, .ok ())
  | (more, .failed e) => drained.2 = (out ++ more, .error (.io e))

theorem Drains.prepend {drained : List UInt8 × List UInt8 × Except DecompressError Unit}
    {out first more : List UInt8} {stop : Stop UInt8 Text}
    (h : Drains drained (out ++ first) (more, stop)) :
    Drains drained out (first ++ more, stop) := by
  cases stop with
  | needs rest =>
      simp only [Drains, List.append_assoc] at h ⊢
      exact h
  | failed e =>
      simp only [Drains, List.append_assoc] at h ⊢
      exact h

theorem drainFrom_drains {maxAdd : Nat} {pending : List UInt8} {consumed added : Nat}
    {out : List UInt8}
    (h : Fits (drainFrom decodeFrame maxAdd pending consumed added out).2.2) :
    Drains (drainFrom decodeFrame maxAdd pending consumed added out) out
      ((frames decodeFrame).read (pending.drop consumed)) := by
  fun_induction drainFrom decodeFrame maxAdd pending consumed added out with
  | case1 consumed added out hboundary =>
      rw [read_of_incomplete hboundary]
      simp only [Drains, List.append_nil]
  | case2 consumed added out hboundary =>
      rw [read_of_invalid hboundary]
      simp only [Drains, List.append_nil]
  | case3 => exact absurd rfl (h _)
  | case4 consumed added out len contentSize hboundary hsize e hdecode =>
      rw [read_of_complete hboundary, hdecode]
      simp only [Drains, List.append_nil]
  | case5 => exact absurd rfl (h _)
  | case6 consumed added out len contentSize hboundary hsize decoded hdecode hroom ih =>
      rw [read_of_complete hboundary, hdecode, List.drop_drop]
      exact (ih h).prepend

section Drain

variable {d : ZripDecompressor} {input out more : List UInt8}

/-- Draining up to a remainder that waits for more. -/
theorem drainFrames_of_needs {rest : List UInt8} (h : Fits (d.drainFrames decodeFrame out).2.2)
    (hread : (frames decodeFrame).read d.pending = (more, .needs rest)) :
    d.drainFrames decodeFrame out = ({ d with pending := rest }, out ++ more, .ok ()) := by
  have hdrains : Drains _ out ((frames decodeFrame).read (d.pending.drop 0)) := drainFrom_drains h
  rw [List.drop_zero, hread] at hdrains
  unfold drainFrames
  rw [hdrains]

/-- Draining up to an error. -/
theorem drainFrames_of_failed {e : Text} (h : Fits (d.drainFrames decodeFrame out).2.2)
    (hread : (frames decodeFrame).read d.pending = (more, .failed e)) :
    (d.drainFrames decodeFrame out).2 = (out ++ more, .error (.io e)) := by
  have hdrains : Drains _ out ((frames decodeFrame).read (d.pending.drop 0)) := drainFrom_drains h
  rw [List.drop_zero, hread] at hdrains
  exact hdrains

/-- A call that fits keeps the remainder for the next one. -/
theorem decompress_of_needs {rest : List UInt8} (hopen : d.finished = false)
    (h : Fits (d.decompress decodeFrame input out).2.2)
    (hread : (frames decodeFrame).read (d.pending ++ input) = (more, .needs rest)) :
    d.decompress decodeFrame input out = ({ d with pending := rest }, out ++ more, .ok ()) := by
  obtain ⟨pending, finished, maxOutput⟩ := d
  cases hopen
  unfold decompress at h ⊢
  simp only [Bool.false_eq_true, if_false] at h ⊢
  have hfits : Fits ((⟨pending ++ input, false, maxOutput⟩ : ZripDecompressor).drainFrames
      decodeFrame out).2.2 := by
    intro limit hlimit
    rw [hlimit] at h
    exact h limit rfl
  rw [drainFrames_of_needs hfits hread] at h ⊢
  dsimp only at h ⊢
  by_cases hlarge : MAX_PENDING_FRAME < rest.length
  · rw [if_pos hlarge] at h
    exact absurd rfl (h _)
  · rw [if_neg hlarge]

theorem decompress_of_failed {e : Text} (hopen : d.finished = false)
    (h : Fits (d.decompress decodeFrame input out).2.2)
    (hread : (frames decodeFrame).read (d.pending ++ input) = (more, .failed e)) :
    (d.decompress decodeFrame input out).2 = (out ++ more, .error (.io e)) := by
  obtain ⟨pending, finished, maxOutput⟩ := d
  cases hopen
  unfold decompress at h ⊢
  simp only [Bool.false_eq_true, if_false] at h ⊢
  have hfits : Fits ((⟨pending ++ input, false, maxOutput⟩ : ZripDecompressor).drainFrames
      decodeFrame out).2.2 := by
    intro limit hlimit
    rw [hlimit] at h
    exact h limit rfl
  have hdrained := drainFrames_of_failed hfits hread
  generalize (⟨pending ++ input, false, maxOutput⟩ : ZripDecompressor).drainFrames
    decodeFrame out = drained at hdrained ⊢
  obtain ⟨d', rest⟩ := drained
  cases hdrained
  rfl

theorem finish_eq_whole (hopen : d.finished = false) (h : Fits (d.finish decodeFrame out).2.2) :
    (d.finish decodeFrame out).2 =
      (out ++ (whole decodeFrame d.pending).1, (whole decodeFrame d.pending).2) := by
  obtain ⟨pending, finished, maxOutput⟩ := d
  cases hopen
  unfold finish at h ⊢
  simp only [Bool.false_eq_true, if_false] at h ⊢
  have hfits : Fits ((⟨pending, true, maxOutput⟩ : ZripDecompressor).drainFrames
      decodeFrame out).2.2 := by
    intro limit hlimit
    rw [hlimit] at h
    exact h limit rfl
  unfold whole
  cases hread : (frames decodeFrame).read pending with
  | mk more stop =>
      cases stop with
      | needs rest =>
          rw [drainFrames_of_needs hfits hread]
          cases rest with
          | nil => rfl
          | cons b rest => rfl
      | failed e =>
          have hdrained := drainFrames_of_failed hfits hread
          generalize (⟨pending, true, maxOutput⟩ : ZripDecompressor).drainFrames
            decodeFrame out = drained at hdrained ⊢
          obtain ⟨d', rest⟩ := drained
          cases hdrained
          rfl

end Drain

/-- **A stream that hits no limit comes to what its bytes come to in one piece.** -/
theorem run_eq_whole {d : ZripDecompressor} (hopen : d.finished = false) {out : List UInt8}
    {inputs : List (List UInt8)} (h : Fits (d.run decodeFrame out inputs).2) :
    d.run decodeFrame out inputs =
      (out ++ (whole decodeFrame (d.pending ++ inputs.flatten)).1,
        (whole decodeFrame (d.pending ++ inputs.flatten)).2) := by
  induction inputs generalizing d out with
  | nil =>
      rw [List.flatten_nil, List.append_nil]
      exact finish_eq_whole hopen h
  | cons input rest ih =>
      unfold run at h ⊢
      have hfits : Fits (d.decompress decodeFrame input out).2.2 := by
        intro limit hlimit
        generalize d.decompress decodeFrame input out = called at h hlimit
        obtain ⟨d', out', result⟩ := called
        cases hlimit
        exact h limit rfl
      have hall : (frames decodeFrame).read (d.pending ++ (input :: rest).flatten) =
          (frames decodeFrame).resume rest.flatten
            ((frames decodeFrame).read (d.pending ++ input)) := by
        rw [List.flatten_cons, ← List.append_assoc, Reader.read_append]
      unfold whole
      rw [hall]
      cases hread : (frames decodeFrame).read (d.pending ++ input) with
      | mk more stop =>
          cases stop with
          | needs left =>
              rw [decompress_of_needs hopen hfits hread] at h ⊢
              dsimp only at h ⊢
              have hnext : ({ d with pending := left } : ZripDecompressor).finished = false := hopen
              rw [ih hnext h]
              unfold whole Reader.resume
              dsimp only
              rw [List.append_assoc]
          | failed e =>
              have hcalled := decompress_of_failed hopen hfits hread
              generalize d.decompress decodeFrame input out = called at hcalled ⊢
              obtain ⟨d', rest'⟩ := called
              cases hcalled
              rfl

/-- **The output and the outcome do not depend on how the stream is cut up**, as
long as no call reports a limit. -/
theorem decompression_ignores_splits (decodeFrame : List UInt8 → Except Text (List UInt8))
    (limit limit' : Nat) {inputs inputs' : List (List UInt8)}
    (hsame : inputs.flatten = inputs'.flatten)
    (hfits : Fits ((withMaxOutput limit).run decodeFrame [] inputs).2)
    (hfits' : Fits ((withMaxOutput limit').run decodeFrame [] inputs').2) :
    (withMaxOutput limit).run decodeFrame [] inputs =
      (withMaxOutput limit').run decodeFrame [] inputs' := by
  rw [run_eq_whole rfl hfits, run_eq_whole rfl hfits', hsame]
  rfl

/-! ### A frame in two pieces -/

/-- A decoder that knows one frame. -/
def decodeRaw (frame : List UInt8) : Except Text (List UInt8) :=
  if frame = rawFrame.encode then .ok [0x61, 0x62, 0x63] else .error "unknown frame".toList

theorem frameBoundary_rawFrame {t : List UInt8} (hpre : t <+: rawFrame.encode ++ []) :
    frameBoundary t = if t.length < 12 then .incomplete else .complete 12 (some 3) :=
  frameBoundary_of_byBlockSize rawFrame (byBlockSize_of_rle_one rawFrame (by decide))
    (by decide) hpre

theorem drainFrom_of_incomplete {maxAdd consumed added : Nat} {pending out : List UInt8}
    (h : frameBoundary (pending.drop consumed) = .incomplete) :
    drainFrom decodeRaw maxAdd pending consumed added out =
      (pending.drop consumed, out, .ok ()) := by
  rw [drainFrom]
  split
  · rfl
  · next hother => rw [h] at hother; cases hother
  · next hother => rw [h] at hother; cases hother

/-- A part of the frame stays pending. -/
theorem decompress_part {part pending input out : List UInt8} (hpart : pending ++ input = part)
    (hpre : part <+: rawFrame.encode ++ []) (hshort : part.length < 12) :
    (⟨pending, false, MAX_OUTPUT_PER_CALL⟩ : ZripDecompressor).decompress decodeRaw input out =
      (⟨part, false, MAX_OUTPUT_PER_CALL⟩, out, .ok ()) := by
  have hboundary : frameBoundary (part.drop 0) = .incomplete := by
    rw [List.drop_zero, frameBoundary_rawFrame hpre, if_pos hshort]
  have hroom : ¬ MAX_PENDING_FRAME < part.length := by
    unfold MAX_PENDING_FRAME
    omega
  unfold decompress drainFrames
  simp only [hpart, drainFrom_of_incomplete hboundary, List.drop_zero, if_neg hroom,
    Bool.false_eq_true, if_false]

/-- The whole frame is decoded. -/
theorem decompress_rest {pending input out : List UInt8}
    (hwhole : pending ++ input = rawFrame.encode) :
    (⟨pending, false, MAX_OUTPUT_PER_CALL⟩ : ZripDecompressor).decompress decodeRaw input out =
      (⟨[], false, MAX_OUTPUT_PER_CALL⟩, out ++ [0x61, 0x62, 0x63], .ok ()) := by
  have hlen : rawFrame.encode.length = 12 := by decide
  have hboundary : frameBoundary (rawFrame.encode.drop 0) = .complete 12 (some 3) := by
    rw [List.drop_zero, frameBoundary_rawFrame (List.prefix_append _ _), hlen]
    rfl
  have hempty : frameBoundary (rawFrame.encode.drop 12) = .incomplete := by decide
  have hdecode : decodeRaw ((rawFrame.encode.drop 0).take 12) = .ok [0x61, 0x62, 0x63] := by
    decide
  have hdrain : drainFrom decodeRaw MAX_OUTPUT_PER_CALL rawFrame.encode 0 0 out =
      ([], out ++ [0x61, 0x62, 0x63], .ok ()) := by
    rw [drainFrom]
    split
    · next hother => rw [hboundary] at hother; cases hother
    · next hother => rw [hboundary] at hother; cases hother
    · next len size hother =>
        rw [hboundary] at hother
        cases hother
        rw [if_neg (by decide), hdecode]
        dsimp only
        rw [if_neg (by decide), drainFrom_of_incomplete hempty]
        rfl
  have hroom : ¬ MAX_PENDING_FRAME < ([] : List UInt8).length := by decide
  unfold decompress drainFrames
  simp only [hwhole, hdrain, if_neg hroom, Bool.false_eq_true, if_false]

theorem finish_empty {out : List UInt8} :
    (⟨[], false, MAX_OUTPUT_PER_CALL⟩ : ZripDecompressor).finish decodeRaw out =
      (⟨[], true, MAX_OUTPUT_PER_CALL⟩, out, .ok ()) := by
  have hempty : frameBoundary (([] : List UInt8).drop 0) = .incomplete := by decide
  unfold finish drainFrames
  simp only [drainFrom_of_incomplete hempty, Bool.false_eq_true, if_false, List.drop_zero, ne_eq,
    not_true_eq_false]

theorem fits_two_pieces {a b : List UInt8} (h : a ++ b = rawFrame.encode)
    (hshort : a.length < 12) :
    Fits ((withMaxOutput MAX_OUTPUT_PER_CALL).run decodeRaw [] [a, b]).2 := by
  have hpre : a <+: rawFrame.encode ++ [] := by
    rw [List.append_nil, ← h]
    exact List.prefix_append a b
  unfold withMaxOutput
  simp only [run, decompress_part (List.nil_append a) hpre hshort, decompress_rest h, finish_empty]
  intro limit hlimit
  cases hlimit

/-- In two pieces, and in one after an empty one. -/
theorem raw_frame_ignores_splits :
    ∃ a b, a ++ b = rawFrame.encode ∧ a ≠ [] ∧ b ≠ [] ∧
      new.run decodeRaw [] [a, b] = new.run decodeRaw [] [[], rawFrame.encode] := by
  have hsplit : rawFrame.encode.take 5 ++ rawFrame.encode.drop 5 = rawFrame.encode :=
    List.take_append_drop _ _
  refine ⟨rawFrame.encode.take 5, rawFrame.encode.drop 5, hsplit, by decide, by decide, ?_⟩
  apply decompression_ignores_splits decodeRaw
  · simp
  · exact fits_two_pieces hsplit (by decide)
  · exact fits_two_pieces (List.nil_append _) (by decide)

end ZripDecompressor

end Libfw

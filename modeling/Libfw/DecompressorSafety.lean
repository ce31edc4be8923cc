import Libfw.CheckedCode
import Libfw.ZstdStreams

/-!
# The decompressor on hostile bytes

`libfw-core/src/compress.rs` once more, as checked code: every index, slice, sum and shift of
`frame_boundary` and `drain_frames` can halt, and both loops take fuel.

* `frameBoundary_checked`, `drainFrom_checked` — nothing halts, and the results are those of the
  unchecked model.
* `decompressor_safe` — so in every sequence of calls; a call appends no more than its budget,
  and while no call has failed, what stays pending is bounded.
-/

namespace Libfw

open Checked Zstd

namespace CheckedZstd

/-! ## The boundary of a frame -/

/-- `for (i, b) in bytes { v |= b << (8 * i) }`, from `i` on. -/
def readLe (v i : Nat) : List UInt8 → Except Halt Nat
  | [] => .ok v
  | b :: rest => do
      let shifted ← shl b.toNat (8 * i)
      readLe (v ||| shifted) (i + 1) rest

/-- `skippable_frame_boundary`. -/
def skippableFrameBoundary (buf : List UInt8) : Except Halt FrameBoundary :=
  if buf.length < 8 then .ok .incomplete
  else do
    let b4 ← index buf 4
    let b5 ← index buf 5
    let b6 ← index buf 6
    let b7 ← index buf 7
    let total := satAdd 8 (leValue [b4, b5, b6, b7])
    .ok (if total ≤ buf.length then .complete total (some 0) else .incomplete)

/-- The block loop of `zstd_frame_boundary`. -/
def walkBlocks (buf : List UInt8) : Nat → Nat → Except Halt (Except FrameBoundary Nat)
  | 0, _ => .error .unfinished
  | fuel + 1, off => do
      let headerEnd ← add off 3
      if buf.length < headerEnd then .ok (.error .incomplete)
      else
        let b0 ← index buf off
        let b1 ← index buf (← add off 1)
        let b2 ← index buf (← add off 2)
        let blockHeader := leValue [b0, b1, b2, 0]
        let last := blockHeader % 2 = 1
        let blockType := blockHeader / 2 % 4
        let blockSize := blockHeader / 8
        if blockType = 3 then .ok (.error .invalid)
        else
          let off ← add off (← add 3 blockSize)
          if MAX_PENDING_FRAME < off then .ok (.error .invalid)
          else if last then .ok (.ok off)
          else walkBlocks buf fuel off

/-- `content_size`, of a field of this size. -/
def readContentSize (buf : List UInt8) (fcsSize : Nat) : Except Halt (Option Nat) :=
  if 0 < fcsSize then do
    let field ← slice buf 5 (← add 5 fcsSize)
    let v ← readLe 0 0 field
    .ok (some v)
  else .ok none

/-- `zstd_frame_boundary`. -/
def zstdFrameBoundary (fuel : Nat) (buf : List UInt8) : Except Halt FrameBoundary :=
  if buf.length < 5 then .ok .incomplete
  else do
    let descriptor ← index buf 4
    if descriptor &&& 0x18 ≠ 0 then .ok .invalid
    else
      let hdrLen ← add 5 (if descriptor &&& 0x20 ≠ 0 then 0 else 1)
      let hdrLen ← add hdrLen (dictIdSize descriptor)
      let hdrLen ← add hdrLen (fcsSize descriptor)
      if buf.length < hdrLen then .ok .incomplete
      else
        let contentSize ← readContentSize buf (fcsSize descriptor)
        match ← walkBlocks buf fuel hdrLen with
        | .error boundary => .ok boundary
        | .ok blocksEnd =>
            let off ← if descriptor &&& 0x04 ≠ 0 then add blocksEnd 4 else Except.ok blocksEnd
            .ok (if buf.length < off then .incomplete else .complete off contentSize)

/-- `frame_boundary`. -/
def frameBoundary (fuel : Nat) (buf : List UInt8) : Except Halt FrameBoundary :=
  if buf.length < 4 then .ok .incomplete
  else do
    let b0 ← index buf 0
    let b1 ← index buf 1
    let b2 ← index buf 2
    let b3 ← index buf 3
    let magic := leValue [b0, b1, b2, b3]
    if magic = ZSTD_MAGIC then zstdFrameBoundary fuel buf
    else if magic &&& SKIPPABLE_MASK = SKIPPABLE_MAGIC then skippableFrameBoundary buf
    else .ok .invalid

/-! ## The decompressor -/

variable (decodeFrame : List UInt8 → Except Text (List UInt8))

/-- The loop of `drain_frames`. -/
def drainFrom (maxAdd : Nat) (pending : List UInt8) : Nat → Nat → Nat → List UInt8 →
    Except Halt (List UInt8 × List UInt8 × Except DecompressError Unit)
  | 0, _, _, _ => .error .unfinished
  | fuel + 1, consumed, added, out => do
      let rest ← sliceFrom pending consumed
      match ← frameBoundary (fuel + 1) rest with
      | .incomplete =>
          let pending ← if 0 < consumed then drain pending consumed else Except.ok pending
          .ok (pending, out, .ok ())
      | .invalid => .ok (pending, out, .error (.io notAFrame))
      | .complete len contentSize =>
          if contentSize.any (MAX_FRAME_OUTPUT < ·) then
            .ok (pending, out, .error (.tooLarge MAX_FRAME_OUTPUT))
          else
            let frame ← slice pending consumed (← add consumed len)
            match decodeFrame frame with
            | .error e => .ok (pending, out, .error (.io e))
            | .ok decoded =>
                if maxAdd < satAdd added decoded.length then
                  .ok (pending, out, .error (.tooLarge maxAdd))
                else
                  let out ← extend out decoded
                  let consumed ← add consumed len
                  drainFrom maxAdd pending fuel consumed (satAdd added decoded.length) out

/-- `drain_frames`. -/
def drainFrames (fuel : Nat) (d : ZripDecompressor) (out : List UInt8) :
    Except Halt (ZripDecompressor × List UInt8 × Except DecompressError Unit) := do
  let (pending, out, result) ← drainFrom decodeFrame d.maxOutputPerCall d.pending fuel 0 0 out
  .ok ({ d with pending := pending }, out, result)

/-- What a call says of what `drain_frames` leaves, if that has not failed. -/
def judged (judge : ZripDecompressor → Except DecompressError Unit) :
    ZripDecompressor × List UInt8 × Except DecompressError Unit →
      ZripDecompressor × List UInt8 × Except DecompressError Unit
  | (d, out, .error e) => (d, out, .error e)
  | (d, out, .ok _) => (d, out, judge d)

/-- `decompress`. -/
def decompress (fuel : Nat) (d : ZripDecompressor) (input out : List UInt8) :
    Except Halt (ZripDecompressor × List UInt8 × Except DecompressError Unit) :=
  if d.finished then .ok (d, out, .error alreadyFinished)
  else do
    let pending ← if input ≠ [] then extend d.pending input else Except.ok d.pending
    let drained ← drainFrames decodeFrame fuel { d with pending := pending } out
    .ok (judged (fun d =>
      if MAX_PENDING_FRAME < d.pending.length then .error (.tooLarge MAX_PENDING_FRAME)
      else .ok ()) drained)

/-- `finish`. -/
def finish (fuel : Nat) (d : ZripDecompressor) (out : List UInt8) :
    Except Halt (ZripDecompressor × List UInt8 × Except DecompressError Unit) :=
  if d.finished then .ok (d, out, .ok ())
  else do
    let drained ← drainFrames decodeFrame fuel { d with finished := true } out
    .ok (judged (fun d =>
      if d.pending ≠ [] then .error (trailingBytes d.pending.length) else .ok ()) drained)

/-! ## Nothing halts -/

section Boundary

variable {buf : List UInt8} {fuel off : Nat}

/-- Eight bytes fit a word: no bit is lost, and no shift is as wide as the word. -/
theorem readLe_eq {bytes : List UInt8} : ∀ {v i : Nat}, v < 2 ^ (8 * i) → i + bytes.length ≤ 8 →
    readLe v i bytes = .ok (v + 2 ^ (8 * i) * leValue bytes) := by
  induction bytes with
  | nil =>
      intro v i hv hi
      rfl
  | cons b rest ih =>
      intro v i hv hi
      rw [List.length_cons] at hi
      have hb : b.toNat < 2 ^ 8 := b.toNat_lt
      have hsucc : 2 ^ (8 * (i + 1)) = 2 ^ 8 * 2 ^ (8 * i) := by
        rw [← Nat.pow_add]
        congr 1
        omega
      have hor : v ||| b.toNat <<< (8 * i) = v + 2 ^ (8 * i) * b.toNat := by
        rw [Nat.or_comm, ← Nat.shiftLeft_add_eq_or_of_lt hv, Nat.shiftLeft_eq, Nat.mul_comm,
          Nat.add_comm]
      have hsum : v + 2 ^ (8 * i) * b.toNat < 2 ^ (8 * (i + 1)) := by
        rw [hsucc]
        have hle : 2 ^ (8 * i) * (b.toNat + 1) ≤ 2 ^ (8 * i) * 2 ^ 8 := Nat.mul_le_mul_left _ hb
        rw [Nat.mul_add, Nat.mul_one] at hle
        omega
      have hword : 2 ^ (8 * (i + 1)) ≤ 2 ^ 64 := Nat.pow_le_pow_right (by decide) (by omega)
      have hshl : shl b.toNat (8 * i) = .ok (b.toNat <<< (8 * i)) := by
        apply shl_eq (by omega)
        rw [Nat.shiftLeft_eq, Nat.mul_comm]
        omega
      have hrest : readLe (v + 2 ^ (8 * i) * b.toNat) (i + 1) rest = _ := ih hsum (by omega)
      unfold readLe
      rw [hshl]
      have hcons : leValue (b :: rest) = b.toNat + 2 ^ 8 * leValue rest := rfl
      refine (congrArg (fun v => readLe v (i + 1) rest) hor).trans (hrest.trans ?_)
      rw [hcons, hsucc, Nat.mul_add, Nat.mul_comm (2 ^ 8), Nat.mul_assoc, Nat.add_assoc]

/-- Three bytes of a block header are there. -/
theorem drop_eq_three (h : off + 3 ≤ buf.length) :
    buf.drop off = buf[off] :: buf[off + 1] :: buf[off + 2] :: buf.drop (off + 3) := by
  rw [List.drop_eq_getElem_cons (by omega), List.drop_eq_getElem_cons (by omega),
    List.drop_eq_getElem_cons (by omega)]

theorem leValue_three (b0 b1 b2 : UInt8) :
    leValue [b0, b1, b2, 0] = leValue [b0, b1, b2] := by
  simp [leValue]

/-- The block loop halts nowhere, and ends. -/
theorem walkBlocks_checked : ∀ {fuel off : Nat}, buf.length - off < fuel →
    off ≤ MAX_PENDING_FRAME → walkBlocks buf fuel off = .ok (Libfw.walkBlocks buf off) := by
  intro fuel
  induction fuel with
  | zero =>
      intro off hfuel hoff
      exact absurd hfuel (Nat.not_lt_zero _)
  | succ fuel ih =>
      intro off hfuel hoff
      unfold MAX_PENDING_FRAME at hoff
      have hend : add off 3 = .ok (off + 3) := add_eq (by omega)
      unfold walkBlocks
      rw [hend]
      by_cases hshort : buf.length < off + 3
      · rw [walkBlocks_short hshort]
        exact if_pos hshort
      · have hlong : off + 3 ≤ buf.length := Nat.not_lt.1 hshort
        have h0 : index buf off = .ok buf[off] := index_eq (by omega)
        have h1 : index buf (off + 1) = .ok buf[off + 1] := index_eq (by omega)
        have h2 : index buf (off + 2) = .ok buf[off + 2] := index_eq (by omega)
        have hone : add off 1 = .ok (off + 1) := add_eq (by omega)
        have htwo : add off 2 = .ok (off + 2) := add_eq (by omega)
        have hvalue : leValue [buf[off], buf[off + 1], buf[off + 2]] < 256 ^ 3 := leValue_lt _
        rw [walkBlocks_header (drop_eq_three hlong)]
        generalize hheader : leValue [buf[off], buf[off + 1], buf[off + 2]] = header at hvalue
        have hthree : add 3 (header / 8) = .ok (3 + header / 8) := add_eq (by omega)
        have hnext : add off (3 + header / 8) = .ok (off + (3 + header / 8)) := add_eq (by omega)
        have hrest : off + (3 + header / 8) ≤ MAX_PENDING_FRAME →
            walkBlocks buf fuel (off + (3 + header / 8)) =
              .ok (Libfw.walkBlocks buf (off + (3 + header / 8))) := ih (by omega)
        simp only [bind, Except.bind, if_neg hshort, h0, hone, h1, htwo, h2, leValue_three, hheader,
          hthree, hnext]
        split_ifs with htype hcap hlast
        · rfl
        · rfl
        · rfl
        · exact hrest (Nat.not_lt.1 hcap)

theorem hdrLen_le (descriptor : UInt8) :
    5 + fcsSize descriptor ≤ hdrLen descriptor ∧ hdrLen descriptor ≤ 18 ∧
      fcsSize descriptor ≤ 8 := by
  have hdict : dictIdSize descriptor ≤ 4 := by
    unfold dictIdSize
    split_ifs <;> omega
  have hfcs : fcsSize descriptor ≤ 8 := by
    unfold fcsSize
    dsimp only
    split_ifs <;> omega
  unfold hdrLen
  split_ifs <;> omega

theorem walkBlocks_le {blocksEnd : Nat} (h : Libfw.walkBlocks buf off = .ok blocksEnd) :
    blocksEnd ≤ MAX_PENDING_FRAME := by
  fun_induction Libfw.walkBlocks buf off with
  | case1 => cases h
  | case2 => cases h
  | case3 off b0 b1 b2 rest hdrop hdr isLast type blockSize htype hcap hlast =>
      cases h
      exact Nat.not_lt.1 hcap
  | case4 off b0 b1 b2 rest hdrop hdr isLast type blockSize htype hcap hlast ih => exact ih h
  | case5 => cases h

/-- The content size is read whole. -/
theorem readContentSize_checked {size : Nat} (h : 5 + size ≤ buf.length) (hsize : size ≤ 8) :
    readContentSize buf size =
      .ok (if 0 < size then some (leValue ((buf.drop 5).take size)) else none) := by
  have hadd : add 5 size = .ok (5 + size) := add_eq (by omega)
  have hslice : slice buf 5 (5 + size) = .ok ((buf.drop 5).take size) := by
    rw [slice_eq (by omega) h, Nat.add_sub_cancel_left]
  have hread : readLe 0 0 ((buf.drop 5).take size) = .ok (leValue ((buf.drop 5).take size)) := by
    rw [readLe_eq (Nat.two_pow_pos _) (by rw [List.length_take]; omega), Nat.mul_zero, Nat.pow_zero,
      Nat.one_mul, Nat.zero_add]
  unfold readContentSize
  split_ifs with hpos
  · simp only [bind, Except.bind, hadd, hslice, hread]
  · rfl

theorem zstdFrameBoundary_checked (hfuel : buf.length < fuel) :
    zstdFrameBoundary fuel buf = .ok (Libfw.zstdFrameBoundary buf) := by
  unfold zstdFrameBoundary Libfw.zstdFrameBoundary
  by_cases hshort : buf.length < 5
  · rw [if_pos hshort, if_pos hshort]
  · have hdescriptor : index buf 4 = .ok (buf.getD 4 0) := by
      rw [index_eq (by omega)]
      simp [List.getElem?_eq_getElem (Nat.not_lt.1 hshort)]
    simp only [if_neg hshort, hdescriptor]
    generalize buf.getD 4 0 = descriptor
    obtain ⟨hfield, hheader, hfcs⟩ := hdrLen_le descriptor
    have hwindow : add 5 (if descriptor &&& 0x20 ≠ 0 then 0 else 1) =
        .ok (5 + if descriptor &&& 0x20 ≠ 0 then 0 else 1) := by
      apply add_eq
      split_ifs <;> omega
    have hdict : add (5 + if descriptor &&& 0x20 ≠ 0 then 0 else 1) (dictIdSize descriptor) =
        .ok ((5 + if descriptor &&& 0x20 ≠ 0 then 0 else 1) + dictIdSize descriptor) := by
      apply add_eq
      unfold hdrLen at hheader
      omega
    have hlen : add ((5 + if descriptor &&& 0x20 ≠ 0 then 0 else 1) + dictIdSize descriptor)
        (fcsSize descriptor) = .ok (hdrLen descriptor) := by
      apply add_eq
      unfold hdrLen at hheader
      omega
    have hwalk : walkBlocks buf fuel (hdrLen descriptor) =
        .ok (Libfw.walkBlocks buf (hdrLen descriptor)) := by
      apply walkBlocks_checked (by omega)
      unfold MAX_PENDING_FRAME
      omega
    simp only [bind, Except.bind, hwindow, hdict, hlen]
    by_cases hreserved : descriptor &&& 0x18 ≠ 0
    · rw [if_pos hreserved, if_pos hreserved]
    · rw [if_neg hreserved, if_neg hreserved]
      by_cases hcut : buf.length < hdrLen descriptor
      · rw [if_pos hcut, if_pos hcut]
      · have hcontent := readContentSize_checked (hfield.trans (Nat.not_lt.1 hcut)) hfcs
        simp only [if_neg hcut, hcontent, hwalk]
        cases hblocks : Libfw.walkBlocks buf (hdrLen descriptor) with
        | error boundary => rfl
        | ok blocksEnd =>
            have hle := walkBlocks_le hblocks
            unfold MAX_PENDING_FRAME at hle
            have hsum : add blocksEnd 4 = .ok (blocksEnd + 4) := add_eq (by omega)
            simp only [hsum]
            split_ifs <;> rfl

/-- Four bytes are there. -/
theorem take_four (h : off + 4 ≤ buf.length) :
    (buf.drop off).take 4 = [buf[off], buf[off + 1], buf[off + 2], buf[off + 3]] := by
  rw [drop_eq_three (by omega), List.drop_eq_getElem_cons (by omega)]
  rfl

theorem skippableFrameBoundary_checked :
    skippableFrameBoundary buf = .ok (Libfw.skippableFrameBoundary buf) := by
  unfold skippableFrameBoundary Libfw.skippableFrameBoundary
  by_cases hshort : buf.length < 8
  · rw [if_pos hshort, if_pos hshort]
  · have h4 : index buf 4 = .ok buf[4] := index_eq (by omega)
    have h5 : index buf 5 = .ok buf[5] := index_eq (by omega)
    have h6 : index buf 6 = .ok buf[6] := index_eq (by omega)
    have h7 : index buf 7 = .ok buf[7] := index_eq (by omega)
    have hskip : leValue [buf[4], buf[5], buf[6], buf[7]] < 256 ^ 4 := leValue_lt _
    have htotal : satAdd 8 (leValue [buf[4], buf[5], buf[6], buf[7]]) =
        8 + leValue [buf[4], buf[5], buf[6], buf[7]] := by
      unfold satAdd
      omega
    have htake : (buf.drop 4).take 4 = [buf[4], buf[5], buf[6], buf[7]] := take_four (by omega)
    simp only [if_neg hshort, h4, h5, h6, h7, htake, htotal, bind, Except.bind]

/-- **`frame_boundary` halts nowhere**, and ends within the length of what it looks at. -/
theorem frameBoundary_checked (hfuel : buf.length < fuel) :
    frameBoundary fuel buf = .ok (Libfw.frameBoundary buf) := by
  unfold frameBoundary Libfw.frameBoundary
  by_cases hshort : buf.length < 4
  · rw [if_pos hshort, if_pos hshort]
  · have h0 : index buf 0 = .ok buf[0] := index_eq (by omega)
    have h1 : index buf 1 = .ok buf[1] := index_eq (by omega)
    have h2 : index buf 2 = .ok buf[2] := index_eq (by omega)
    have h3 : index buf 3 = .ok buf[3] := index_eq (by omega)
    have htake : buf.take 4 = [buf[0], buf[1], buf[2], buf[3]] := by
      have hdrop : (buf.drop 0).take 4 = _ := take_four (by omega)
      exact hdrop
    simp only [if_neg hshort, h0, h1, h2, h3, htake, bind, Except.bind]
    split_ifs
    · exact zstdFrameBoundary_checked hfuel
    · exact skippableFrameBoundary_checked
    · rfl

end Boundary

section Drain

variable {decodeFrame : List UInt8 → Except Text (List UInt8)} {maxAdd : Nat}
  {pending : List UInt8}

/-- One turn of the loop, without the checks that hold. -/
theorem drainFrom_succ (hpending : pending.length < 2 ^ 63) {fuel consumed : Nat}
    (hconsumed : consumed ≤ pending.length) (hfuel : pending.length - consumed < fuel + 1)
    (added : Nat) (out : List UInt8) :
    drainFrom decodeFrame maxAdd pending (fuel + 1) consumed added out =
      match Libfw.frameBoundary (pending.drop consumed) with
      | .incomplete => .ok (pending.drop consumed, out, .ok ())
      | .invalid => .ok (pending, out, .error (.io notAFrame))
      | .complete len contentSize =>
          if contentSize.any (MAX_FRAME_OUTPUT < ·) then
            .ok (pending, out, .error (.tooLarge MAX_FRAME_OUTPUT))
          else
            match decodeFrame ((pending.drop consumed).take len) with
            | .error e => .ok (pending, out, .error (.io e))
            | .ok decoded =>
                if maxAdd < satAdd added decoded.length then
                  .ok (pending, out, .error (.tooLarge maxAdd))
                else if out.length + decoded.length < 2 ^ 63 then
                  drainFrom decodeFrame maxAdd pending fuel (consumed + len)
                    (satAdd added decoded.length) (out ++ decoded)
                else .error .capacity := by
  have hrest : sliceFrom pending consumed = .ok (pending.drop consumed) := sliceFrom_eq hconsumed
  have hdrain : drain pending consumed = .ok (pending.drop consumed) := drain_eq hconsumed
  have hboundary : frameBoundary (fuel + 1) (pending.drop consumed) =
      .ok (Libfw.frameBoundary (pending.drop consumed)) := by
    apply frameBoundary_checked
    rw [List.length_drop]
    exact hfuel
  rw [drainFrom]
  simp only [bind, Except.bind, hrest, hboundary, hdrain]
  cases hnext : Libfw.frameBoundary (pending.drop consumed) with
  | incomplete =>
      dsimp only
      split_ifs with hsome
      · rfl
      · obtain rfl : consumed = 0 := by omega
        rfl
  | invalid => rfl
  | complete len contentSize =>
      obtain ⟨hpos, hlen⟩ := frameBoundary_complete hnext
      rw [List.length_drop] at hlen
      have hadd : add consumed len = .ok (consumed + len) := add_eq (by omega)
      have hslice : slice pending consumed (consumed + len) =
          .ok ((pending.drop consumed).take len) := by
        rw [slice_eq (by omega) (by omega), Nat.add_sub_cancel_left]
      simp only [hadd, hslice, extend]
      split_ifs
      · rfl
      · cases decodeFrame ((pending.drop consumed).take len) with
        | error e => rfl
        | ok decoded =>
            dsimp only
            split_ifs
            · rfl
            · rfl
            · rfl

/-- One turn of the loop that nothing is checked in. -/
theorem plainDrainFrom_eq (consumed added : Nat) (out : List UInt8) :
    ZripDecompressor.drainFrom decodeFrame maxAdd pending consumed added out =
      match Libfw.frameBoundary (pending.drop consumed) with
      | .incomplete => (pending.drop consumed, out, .ok ())
      | .invalid => (pending, out, .error (.io notAFrame))
      | .complete len contentSize =>
          if contentSize.any (MAX_FRAME_OUTPUT < ·) then
            (pending, out, .error (.tooLarge MAX_FRAME_OUTPUT))
          else
            match decodeFrame ((pending.drop consumed).take len) with
            | .error e => (pending, out, .error (.io e))
            | .ok decoded =>
                if maxAdd < satAdd added decoded.length then
                  (pending, out, .error (.tooLarge maxAdd))
                else
                  ZripDecompressor.drainFrom decodeFrame maxAdd pending (consumed + len)
                    (satAdd added decoded.length) (out ++ decoded) := by
  rw [ZripDecompressor.drainFrom]
  split
  · next hboundary => simp only [hboundary]
  · next hboundary => simp only [hboundary]
  · next len contentSize hboundary => exact hboundary ▸ rfl

/-- **`drain_frames` halts nowhere**, unless its output outgrows every buffer, and ends. -/
theorem drainFrom_checked (decodeFrame : List UInt8 → Except Text (List UInt8)) (maxAdd : Nat)
    (hpending : pending.length < 2 ^ 63) : ∀ (fuel consumed added : Nat)
    (out : List UInt8), consumed ≤ pending.length → pending.length - consumed < fuel →
    added ≤ out.length →
    (drainFrom decodeFrame maxAdd pending fuel consumed added out = .error .capacity ∧
      2 ^ 63 ≤ out.length + (maxAdd - added)) ∨
      drainFrom decodeFrame maxAdd pending fuel consumed added out =
          .ok (ZripDecompressor.drainFrom decodeFrame maxAdd pending consumed added out) ∧
        ((ZripDecompressor.drainFrom decodeFrame maxAdd pending consumed added out).2.1 = out ∨
          (ZripDecompressor.drainFrom decodeFrame maxAdd pending consumed added
            out).2.1.length < 2 ^ 63) := by
  intro fuel
  induction fuel with
  | zero =>
      intro consumed added out hconsumed hfuel hadded
      exact absurd hfuel (Nat.not_lt_zero _)
  | succ fuel ih =>
      intro consumed added out hconsumed hfuel hadded
      rw [drainFrom_succ hpending hconsumed hfuel, plainDrainFrom_eq]
      cases hnext : Libfw.frameBoundary (pending.drop consumed) with
      | incomplete => exact Or.inr ⟨rfl, Or.inl rfl⟩
      | invalid => exact Or.inr ⟨rfl, Or.inl rfl⟩
      | complete len contentSize =>
          obtain ⟨hpos, hlen⟩ := frameBoundary_complete hnext
          rw [List.length_drop] at hlen
          dsimp only
          split_ifs with hsize
          · exact Or.inr ⟨rfl, Or.inl rfl⟩
          · cases decodeFrame ((pending.drop consumed).take len) with
            | error e => exact Or.inr ⟨rfl, Or.inl rfl⟩
            | ok decoded =>
                dsimp only
                split_ifs with hroom hfits
                · exact Or.inr ⟨rfl, Or.inl rfl⟩
                · have hsum : satAdd added decoded.length = added + decoded.length := by
                    unfold satAdd
                    omega
                  have hlength : (out ++ decoded).length = out.length + decoded.length :=
                    List.length_append
                  obtain ⟨hfull, hlarge⟩ | ⟨hrest, hout⟩ := ih (consumed + len)
                    (satAdd added decoded.length) (out ++ decoded) (by omega) (by omega) (by omega)
                  · exact Or.inl ⟨hfull, by omega⟩
                  · refine Or.inr ⟨hrest, Or.inr ?_⟩
                    obtain heq | hlt := hout
                    · rw [heq, List.length_append]
                      exact hfits
                    · exact hlt
                · refine Or.inl ⟨rfl, ?_⟩
                  unfold satAdd at hroom
                  omega

/-- More fuel changes nothing. -/
theorem drainFrom_fuel (hpending : pending.length < 2 ^ 63) : ∀ (fuel fuel' consumed added : Nat)
    (out : List UInt8), consumed ≤ pending.length → pending.length - consumed < fuel →
    pending.length - consumed < fuel' →
    drainFrom decodeFrame maxAdd pending fuel consumed added out =
      drainFrom decodeFrame maxAdd pending fuel' consumed added out := by
  intro fuel
  induction fuel with
  | zero =>
      intro fuel' consumed added out hconsumed hfuel hfuel'
      exact absurd hfuel (Nat.not_lt_zero _)
  | succ fuel ih =>
      intro fuel' consumed added out hconsumed hfuel hfuel'
      cases fuel' with
      | zero => exact absurd hfuel' (Nat.not_lt_zero _)
      | succ fuel' =>
          rw [drainFrom_succ hpending hconsumed hfuel, drainFrom_succ hpending hconsumed hfuel']
          cases hnext : Libfw.frameBoundary (pending.drop consumed) with
          | incomplete => rfl
          | invalid => rfl
          | complete len contentSize =>
              obtain ⟨hpos, hlen⟩ := frameBoundary_complete hnext
              rw [List.length_drop] at hlen
              dsimp only
              split_ifs with hsize
              · rfl
              · cases decodeFrame ((pending.drop consumed).take len) with
                | error e => rfl
                | ok decoded =>
                    dsimp only
                    split_ifs with hroom hfits
                    · rfl
                    · exact ih fuel' (consumed + len) (satAdd added decoded.length)
                        (out ++ decoded) (by omega) (by omega) (by omega)
                    · rfl

/-! ## The budget -/

/-- What is appended fits what is left of the budget. -/
theorem drainFrom_appends (decodeFrame : List UInt8 → Except Text (List UInt8)) (maxAdd : Nat)
    (pending : List UInt8) (consumed added : Nat) (out : List UInt8) : ∃ tail,
    (ZripDecompressor.drainFrom decodeFrame maxAdd pending consumed added out).2.1 = out ++ tail ∧
      (tail = [] ∨ satAdd added tail.length ≤ maxAdd) := by
  fun_induction ZripDecompressor.drainFrom decodeFrame maxAdd pending consumed added out with
  | case1 | case2 | case3 | case4 | case5 => exact ⟨[], (List.append_nil _).symm, Or.inl rfl⟩
  | case6 consumed added out len contentSize hboundary hsize decoded hdecode hroom ih =>
      obtain ⟨tail, hout, hbudget⟩ := ih
      refine ⟨decoded ++ tail, by rw [hout, List.append_assoc], Or.inr ?_⟩
      rw [List.length_append]
      obtain rfl | hle := hbudget
      · exact Nat.not_lt.1 hroom
      · unfold satAdd at hle ⊢
        omega

/-- What stays pending was pending. -/
theorem drainFrom_pending (decodeFrame : List UInt8 → Except Text (List UInt8)) (maxAdd : Nat)
    (pending : List UInt8) (consumed added : Nat) (out : List UInt8) :
    (ZripDecompressor.drainFrom decodeFrame maxAdd pending consumed added out).1.length ≤
      pending.length := by
  fun_induction ZripDecompressor.drainFrom decodeFrame maxAdd pending consumed added out with
  | case1 consumed added out hboundary =>
      rw [List.length_drop]
      exact Nat.sub_le _ _
  | case2 | case3 | case4 | case5 => exact Nat.le_refl _
  | case6 consumed added out len contentSize hboundary hsize decoded hdecode hroom ih => exact ih

end Drain

/-! ## Calls -/

/-- A call of the decompressor, with the buffer it appends to. -/
inductive Call where
  | decompress (input out : List UInt8)
  | finish (out : List UInt8)

/-- The buffer of a call. -/
def Call.out : Call → List UInt8
  | .decompress _ out => out
  | .finish out => out

/-- The bytes a call is given. -/
def Call.input : Call → List UInt8
  | .decompress input _ => input
  | .finish _ => []

/-- What a call leaves: the decompressor, the buffer and the result. -/
abbrev Called := ZripDecompressor × List UInt8 × Except DecompressError Unit

section Calls

variable (decodeFrame : List UInt8 → Except Text (List UInt8))

def call (fuel : Nat) (d : ZripDecompressor) : Call → Except Halt Called
  | .decompress input out => decompress decodeFrame fuel d input out
  | .finish out => finish decodeFrame fuel d out

/-- What a sequence of calls that return leads to from a new decompressor; `fine` while none has
returned an error. -/
inductive Reached (limit : Nat) : (fine : Bool) → ZripDecompressor → Prop where
  | start : Reached limit true (.withMaxOutput limit)
  | step {fine : Bool} {d d' : ZripDecompressor} {c : Call} {steps : Nat} {out : List UInt8}
      {result : Except DecompressError Unit} :
      Reached limit fine d →
      (∀ fuel, steps ≤ fuel → call decodeFrame fuel d c = .ok (d', out, result)) →
      Reached limit (fine && result.isOk) d'

end Calls

section Safety

variable {decodeFrame : List UInt8 → Except Text (List UInt8)} {d : ZripDecompressor}

/-- `drain_frames` from any state: it halts at nothing but a buffer, keeps to the budget, and
leaves no more pending. -/
theorem drainFrames_checked (decodeFrame : List UInt8 → Except Text (List UInt8))
    (d : ZripDecompressor) (hpending : d.pending.length < 2 ^ 63) (out : List UInt8) :
    ∃ drained, (∀ fuel, d.pending.length < fuel → drainFrames decodeFrame fuel d out = drained) ∧
      ((drained = .error .capacity ∧ 2 ^ 63 ≤ out.length + d.maxOutputPerCall) ∨
        ∃ pending tail result, drained = .ok ({ d with pending := pending }, out ++ tail, result) ∧
          tail.length ≤ d.maxOutputPerCall ∧ pending.length ≤ d.pending.length) := by
  refine ⟨drainFrames decodeFrame (d.pending.length + 1) d out, ?_, ?_⟩
  · intro fuel hfuel
    unfold drainFrames
    rw [drainFrom_fuel hpending fuel (d.pending.length + 1) 0 0 out (Nat.zero_le _) (by omega)
      (by omega)]
  · have hchecked := drainFrom_checked decodeFrame d.maxOutputPerCall hpending
      (d.pending.length + 1) 0 0 out (Nat.zero_le _) (by omega) (Nat.zero_le _)
    obtain ⟨hfull, hlarge⟩ | ⟨hdrained, hout⟩ := hchecked
    · refine Or.inl ⟨?_, hlarge⟩
      unfold drainFrames
      rw [hfull]
      rfl
    · right
      obtain ⟨tail, htail, hbudget⟩ :=
        drainFrom_appends decodeFrame d.maxOutputPerCall d.pending 0 0 out
      have hle := drainFrom_pending decodeFrame d.maxOutputPerCall d.pending 0 0 out
      generalize ZripDecompressor.drainFrom decodeFrame d.maxOutputPerCall d.pending 0 0 out =
        drained at hdrained hout htail hle
      obtain ⟨pending, out', result⟩ := drained
      dsimp only at hout htail hle
      subst htail
      refine ⟨pending, tail, result, ?_, ?_, hle⟩
      · unfold drainFrames
        rw [hdrained]
        rfl
      · obtain rfl | hbudget := hbudget
        · exact Nat.zero_le _
        · rw [List.append_right_eq_self, List.length_append] at hout
          obtain rfl | hlt := hout
          · exact Nat.zero_le _
          · unfold satAdd at hbudget
            omega

/-- What a call may come to: a buffer too large, or a return within the limits. -/
def Returns (limit : Nat) (fine : Bool) (large : Nat) (out : List UInt8)
    (returned : Except Halt Called) : Prop :=
  (returned = .error .capacity ∧ (2 ^ 63 ≤ large ∨ 2 ^ 63 ≤ out.length + limit)) ∨
  ∃ d' tail result, returned = .ok (d', out ++ tail, result) ∧
    tail.length ≤ limit ∧
      (fine = true → result = .ok () → d'.pending.length ≤ MAX_PENDING_FRAME) ∧
        d'.pending.length < 2 ^ 63 ∧ d'.maxOutputPerCall = limit

/-- Draining within the limits, and judging what is left. -/
theorem judged_checked (fine : Bool) {judge : ZripDecompressor → Except DecompressError Unit}
    (hjudge : ∀ d, judge d = .ok () → d.pending.length ≤ MAX_PENDING_FRAME)
    (decodeFrame : List UInt8 → Except Text (List UInt8)) (d : ZripDecompressor)
    (hpending : d.pending.length < 2 ^ 63) (large : Nat) (out : List UInt8) : ∃ returned,
    (∀ fuel, d.pending.length < fuel →
      (drainFrames decodeFrame fuel d out).map (judged judge) = returned) ∧
    Returns d.maxOutputPerCall fine large out returned := by
  obtain ⟨drained, hdrained, hresult⟩ := drainFrames_checked decodeFrame d hpending out
  refine ⟨drained.map (judged judge), fun fuel hfuel => by rw [hdrained fuel hfuel], ?_⟩
  obtain ⟨rfl, hlarge⟩ | ⟨pending, tail, result, rfl, htail, hle⟩ := hresult
  · exact Or.inl ⟨rfl, Or.inr hlarge⟩
  · cases result with
    | error e =>
        refine Or.inr ⟨{ d with pending := pending }, tail, .error e, rfl, htail, ?_,
          Nat.lt_of_le_of_lt hle hpending, rfl⟩
        intro _ hok
        cases hok
    | ok _ =>
        exact Or.inr ⟨{ d with pending := pending }, tail, _, rfl, htail, fun _ hok => hjudge _ hok,
          Nat.lt_of_le_of_lt hle hpending, rfl⟩

/-- A call from a state that calls lead to. -/
theorem call_checked (decodeFrame : List UInt8 → Except Text (List UInt8)) {fine : Bool}
    (hpending : d.pending.length < 2 ^ 63)
    (hfine : fine = true → d.pending.length ≤ MAX_PENDING_FRAME) (c : Call) :
    ∃ steps returned, (∀ fuel, steps ≤ fuel → call decodeFrame fuel d c = returned) ∧
      Returns d.maxOutputPerCall fine (d.pending.length + c.input.length) c.out returned := by
  cases c with
  | decompress input out =>
      by_cases hfinished : d.finished = true
      · have hreturn : ∀ fuel, 0 ≤ fuel → call decodeFrame fuel d (.decompress input out) =
            .ok (d, out ++ [], .error alreadyFinished) := by
          intro fuel _
          rw [List.append_nil]
          exact if_pos hfinished
        refine ⟨0, _, hreturn, Or.inr ⟨d, [], _, rfl, Nat.zero_le _, ?_, hpending, rfl⟩⟩
        intro _ hok
        cases hok
      · by_cases hcap : d.pending.length + input.length < 2 ^ 63
        · have hjudge : ∀ d : ZripDecompressor, (if MAX_PENDING_FRAME < d.pending.length then
              Except.error (.tooLarge MAX_PENDING_FRAME) else .ok ()) =
                (.ok () : Except DecompressError Unit) → d.pending.length ≤ MAX_PENDING_FRAME := by
            intro d hok
            by_contra hlong
            rw [if_pos (Nat.not_le.1 hlong)] at hok
            cases hok
          obtain ⟨returned, hreturned, hlimits⟩ := judged_checked fine hjudge decodeFrame
            { d with pending := d.pending ++ input } (by rw [List.length_append]; exact hcap)
            (d.pending.length + input.length) out
          refine ⟨(d.pending ++ input).length + 1, returned, ?_, hlimits⟩
          intro fuel hfuel
          rw [← hreturned fuel hfuel]
          unfold call decompress
          dsimp only
          rw [if_neg hfinished]
          split_ifs with hsome
          · rw [extend_eq hcap]
            rfl
          · rw [not_not.1 hsome, List.append_nil]
            rfl
        · refine ⟨0, .error .capacity, ?_, Or.inl ⟨rfl, Or.inl (Nat.not_lt.1 hcap)⟩⟩
          intro fuel _
          have hinput : input ≠ [] := by
            rintro rfl
            exact hcap hpending
          have hextend : extend d.pending input = .error .capacity := if_neg hcap
          unfold call decompress
          dsimp only
          rw [if_neg hfinished, if_pos hinput, hextend]
          rfl
  | finish out =>
      by_cases hfinished : d.finished = true
      · have hreturn : ∀ fuel, 0 ≤ fuel → call decodeFrame fuel d (.finish out) =
            .ok (d, out ++ [], .ok ()) := by
          intro fuel _
          rw [List.append_nil]
          exact if_pos hfinished
        exact ⟨0, _, hreturn, Or.inr ⟨d, [], _, rfl, Nat.zero_le _, fun h _ => hfine h, hpending,
          rfl⟩⟩
      · have hjudge : ∀ d : ZripDecompressor, (if d.pending ≠ [] then
            Except.error (trailingBytes d.pending.length) else .ok ()) =
              (.ok () : Except DecompressError Unit) → d.pending.length ≤ MAX_PENDING_FRAME := by
          intro d hok
          by_cases hempty : d.pending = []
          · rw [hempty]
            exact Nat.zero_le _
          · rw [if_pos hempty] at hok
            cases hok
        obtain ⟨returned, hreturned, hlimits⟩ := judged_checked fine hjudge decodeFrame
          { d with finished := true } hpending (d.pending.length + 0) out
        refine ⟨d.pending.length + 1, returned, ?_, hlimits⟩
        intro fuel hfuel
        rw [← hreturned fuel hfuel]
        unfold call finish
        dsimp only
        rw [if_neg hfinished]
        rfl

/-- What calls lead to fits a buffer, and while none has failed, stays small. -/
theorem Reached.inv {limit : Nat} {fine : Bool} (h : Reached decodeFrame limit fine d) :
    d.pending.length < 2 ^ 63 ∧ d.maxOutputPerCall = limit ∧
      (fine = true → d.pending.length ≤ MAX_PENDING_FRAME) := by
  induction h with
  | start => exact ⟨Nat.two_pow_pos 63, rfl, fun _ => Nat.zero_le _⟩
  | @step fine d d' c steps out result hd hcall ih =>
      obtain ⟨hpending, hlimit, hfine⟩ := ih
      obtain ⟨steps', returned, hreturned, hlimits⟩ := call_checked decodeFrame hpending hfine c
      have hsame := (hreturned (max steps steps') (le_max_right _ _)).symm.trans
        (hcall (max steps steps') (le_max_left _ _))
      obtain ⟨hfull, -⟩ | ⟨d'', tail, result', hout, -, hnext, hfits, hlimit'⟩ := hlimits
      · rw [hfull] at hsame
        cases hsame
      · rw [hout] at hsame
        cases hsame
        refine ⟨hfits, hlimit'.trans hlimit, ?_⟩
        intro hboth
        rw [Bool.and_eq_true] at hboth
        cases result with
        | error e => exact absurd hboth.2 Bool.noConfusion
        | ok u => exact hnext hboth.1 rfl

/-- **The decompressor is safe on hostile bytes.**  After any calls, for any decoder of frames and
from some number of steps on, a call returns, unless a buffer outgrows the address space: no index
is out of bounds, nothing wraps and no loop goes on.  It has appended to its buffer no more than
the budget, and while no call has failed no more is pending than a frame may have. -/
theorem decompressor_safe (decodeFrame : List UInt8 → Except Text (List UInt8)) {limit : Nat}
    {fine : Bool} (h : Reached decodeFrame limit fine d) (c : Call) :
    ∃ steps returned, (∀ fuel, steps ≤ fuel → call decodeFrame fuel d c = returned) ∧
      ((returned = .error .capacity ∧ (2 ^ 63 ≤ d.pending.length + c.input.length ∨
          2 ^ 63 ≤ c.out.length + limit)) ∨
        ∃ d' tail result, returned = .ok (d', c.out ++ tail, result) ∧ tail.length ≤ limit ∧
          (fine = true → result = .ok () → d'.pending.length ≤ MAX_PENDING_FRAME)) := by
  obtain ⟨hpending, rfl, hfine⟩ := h.inv
  obtain ⟨steps, returned, hreturned, hlimits⟩ := call_checked decodeFrame hpending hfine c
  refine ⟨steps, returned, hreturned, ?_⟩
  obtain hfull | ⟨d', tail, result, hout, htail, hnext, -⟩ := hlimits
  · exact Or.inl hfull
  · exact Or.inr ⟨d', tail, result, hout, htail, hnext⟩

end Safety

/-- Half a magic number that is none, and then the other half. -/
theorem noise_refused : ∃ steps d' tail result,
    (∀ fuel, steps ≤ fuel → call ZripDecompressor.decodeRaw fuel ⟨[1, 2], false, 16⟩
      (.decompress [3, 4] [0]) = .ok (d', [0] ++ tail, result)) ∧ tail.length ≤ 16 ∧
        (result = .ok () → d'.pending.length ≤ MAX_PENDING_FRAME) := by
  have hhalf : ∀ fuel, 1 ≤ fuel → call ZripDecompressor.decodeRaw fuel (.withMaxOutput 16)
      (.decompress [1, 2] []) = .ok (⟨[1, 2], false, 16⟩, [], .ok ()) := by
    intro fuel hfuel
    obtain ⟨n, rfl⟩ : ∃ n, fuel = n + 1 := ⟨fuel - 1, by omega⟩
    rfl
  obtain ⟨steps, returned, hreturned, ⟨-, hlarge⟩ | ⟨d', tail, result, rfl, htail, hnext⟩⟩ :=
    decompressor_safe ZripDecompressor.decodeRaw (Reached.step Reached.start hhalf)
      (.decompress [3, 4] [0])
  · exact absurd hlarge (by decide)
  · exact ⟨steps, d', tail, result, hreturned, htail, hnext rfl⟩

end CheckedZstd

end Libfw

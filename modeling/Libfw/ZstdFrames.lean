import Libfw.ZstdFormat
import Mathlib.Data.List.Infix

/-!
# Frame boundaries of the zstd decompressor

`libfw-core/src/compress.rs`: `frame_boundary` and what it calls.  The
decompressor asks it, before every frame, how many pending bytes the frame
occupies and how much output it declares.

The parser takes every block to occupy `3 + Block_Size` bytes and reads the
content size at byte 5.  `frame_boundary_exact_iff` says for which frames that
is right: the block section must also be a chain of blocks under this reading,
and the bytes at 5 must happen to be the declared size.  A frame whose RLE
blocks all have `Block_Size` 1 and which has no window descriptor, no
dictionary id and no two-byte size field is such a frame
(`byBlockSize_of_rle_one`, `sizeAtFive_of_bare_header`); a single RLE block of
size 5 is not (`rle_frame_boundary_incomplete`).
-/

namespace Libfw

open Zstd

def ZSTD_MAGIC : Nat := 0xFD2FB528
def SKIPPABLE_MASK : Nat := 0xFFFFFFF0
def SKIPPABLE_MAGIC : Nat := 0x184D2A50

/-- Hard cap on buffered compressed bytes while waiting for a frame. -/
def MAX_PENDING_FRAME : Nat := 2 * 1024 * 1024 + 64 * 1024

inductive FrameBoundary where
  | complete (len : Nat) (contentSize : Option Nat)
  | incomplete
  | invalid
  deriving DecidableEq

/-- Skippable frames: `magic(4) | skip_size u32(4) | payload(skip_size)`. -/
def skippableFrameBoundary (buf : List UInt8) : FrameBoundary :=
  if buf.length < 8 then .incomplete
  else
    let total := 8 + leValue ((buf.drop 4).take 4)
    if total ≤ buf.length then .complete total (some 0) else .incomplete

/-- The block loop: the offset behind the last block, or the boundary the
function returns early.  A match on the bytes at `off` is the length check
`buf.len() < off + 3`. -/
def walkBlocks (buf : List UInt8) (off : Nat) : Except FrameBoundary Nat :=
  match _hdrop : buf.drop off with
  | b0 :: b1 :: b2 :: _ =>
      let blockHeader := leValue [b0, b1, b2]
      let last := blockHeader % 2 = 1
      let blockType := blockHeader / 2 % 4
      let blockSize := blockHeader / 8
      if blockType = 3 then .error .invalid
      else if MAX_PENDING_FRAME < off + (3 + blockSize) then .error .invalid
      else if last then .ok (off + (3 + blockSize))
      else walkBlocks buf (off + (3 + blockSize))
  | _ => .error .incomplete
termination_by buf.length - off
decreasing_by
  have := congrArg List.length _hdrop
  simp only [List.length_drop, List.length_cons] at this
  omega

/-- `dict_id_size`. -/
def dictIdSize (descriptor : UInt8) : Nat :=
  if descriptor &&& 0x03 = 0 then 0
  else if descriptor &&& 0x03 = 1 then 1
  else if descriptor &&& 0x03 = 2 then 2
  else 4

/-- `fcs_size`. -/
def fcsSize (descriptor : UInt8) : Nat :=
  let fcsFlag := descriptor >>> 6
  if fcsFlag = 0 then if descriptor &&& 0x20 ≠ 0 then 1 else 0
  else if fcsFlag = 1 then 2
  else if fcsFlag = 2 then 4
  else 8

/-- `hdr_len`, with the window descriptor of frames that are not
single-segment. -/
def hdrLen (descriptor : UInt8) : Nat :=
  5 + (if descriptor &&& 0x20 ≠ 0 then 0 else 1) + dictIdSize descriptor
    + fcsSize descriptor

/-- Walk the frame header and blocks of a standard zstd frame. -/
def zstdFrameBoundary (buf : List UInt8) : FrameBoundary :=
  if buf.length < 5 then .incomplete
  else
    let descriptor := buf.getD 4 0
    if descriptor &&& 0x18 ≠ 0 then .invalid
    else if buf.length < hdrLen descriptor then .incomplete
    else
      let contentSize :=
        if 0 < fcsSize descriptor then
          some (leValue ((buf.drop 5).take (fcsSize descriptor)))
        else none
      match walkBlocks buf (hdrLen descriptor) with
      | .error boundary => boundary
      | .ok blocksEnd =>
          let off := if descriptor &&& 0x04 ≠ 0 then blocksEnd + 4 else blocksEnd
          if buf.length < off then .incomplete else .complete off contentSize

/-- Determine the byte length of the next zstd frame in `buf`. -/
def frameBoundary (buf : List UInt8) : FrameBoundary :=
  if buf.length < 4 then .incomplete
  else
    let magic := leValue (buf.take 4)
    if magic = ZSTD_MAGIC then zstdFrameBoundary buf
    else if magic &&& SKIPPABLE_MASK = SKIPPABLE_MAGIC then
      skippableFrameBoundary buf
    else .invalid

/-! ## The block walk -/

/-- What the parser takes a block to occupy behind its header, whatever its
type. -/
def bySize (_ : BlockType) (size : Nat) : Nat := size

/-- One turn of the loop, on three header bytes. -/
theorem walkBlocks_header {buf rest : List UInt8} {off : Nat} {b0 b1 b2 : UInt8}
    (hdrop : buf.drop off = b0 :: b1 :: b2 :: rest) :
    walkBlocks buf off =
      if leValue [b0, b1, b2] / 2 % 4 = 3 then .error .invalid
      else if MAX_PENDING_FRAME < off + (3 + leValue [b0, b1, b2] / 8) then
        .error .invalid
      else if leValue [b0, b1, b2] % 2 = 1 then
        .ok (off + (3 + leValue [b0, b1, b2] / 8))
      else walkBlocks buf (off + (3 + leValue [b0, b1, b2] / 8)) := by
  rw [walkBlocks]
  split
  · next c0 c1 c2 rest' hdrop' =>
      rw [hdrop] at hdrop'
      cases hdrop'
      rfl
  · next hnot => exact absurd hdrop (hnot b0 b1 b2 rest)

theorem walkBlocks_short {buf : List UInt8} {off : Nat}
    (hshort : buf.length < off + 3) :
    walkBlocks buf off = .error .incomplete := by
  rw [walkBlocks]
  split
  · next b0 b1 b2 rest hdrop =>
      have hlen := congrArg List.length hdrop
      simp only [List.length_drop, List.length_cons] at hlen
      omega
  · rfl

/-- One turn of the loop, on the header of a block. -/
theorem walkBlocks_block {buf : List UInt8} {off : Nat} (b : Block bySize)
    (last : Bool) {r : List UInt8} (hpre : buf.drop off <+: b.encode last ++ r)
    (hcap : off + (3 + b.size) ≤ MAX_PENDING_FRAME) (hlong : off + 3 ≤ buf.length) :
    walkBlocks buf off =
      if last then .ok (off + (3 + b.size)) else walkBlocks buf (off + (3 + b.size)) := by
  have hdrop : ∃ rest, buf.drop off = le3 (blockHeader last b) ++ rest := by
    have hle : (le3 (blockHeader last b)).length ≤ (buf.drop off).length := by
      simp only [le3, List.length_cons, List.length_nil, List.length_drop]
      omega
    have hhdr : le3 (blockHeader last b) <+: b.encode last ++ r := by
      unfold Block.encode
      exact ⟨b.content ++ r, by simp⟩
    obtain ⟨rest, hrest⟩ := List.prefix_of_prefix_length_le hhdr hpre hle
    exact ⟨rest, hrest.symm⟩
  obtain ⟨rest, hrest⟩ := hdrop
  rw [walkBlocks_header hrest]
  have hvalue : leValue (le3 (blockHeader last b)) = blockHeader last b :=
    leValue_le3 (blockHeader_lt last b)
  have htype := b.type.code_lt
  have hlast : last.toNat ≤ 1 := Bool.toNat_le last
  simp only [le3] at hvalue
  rw [hvalue]
  have h1 : blockHeader last b / 2 % 4 = b.type.code := by
    unfold blockHeader; omega
  have h2 : blockHeader last b / 8 = b.size := by
    unfold blockHeader; omega
  have h3 : blockHeader last b % 2 = last.toNat := by
    unfold blockHeader; omega
  rw [h1, h2, h3, if_neg (by omega), if_neg (by omega)]
  cases last <;> rfl

theorem Block.encode_length (last : Bool) (b : Block bySize) :
    (b.encode last).length = 3 + b.size := by
  have h := b.content_length
  unfold bySize at h
  unfold Block.encode le3
  simp only [List.length_append, List.length_cons, List.length_nil]
  omega

/-- The walk over any part of a chain of blocks: it ends behind the chain, or
it runs out of bytes, and then bytes of the chain are missing. -/
theorem walkBlocks_chain {buf r : List UInt8} (bs : List (Block bySize))
    (l : Block bySize) (off : Nat)
    (hpre : buf.drop off <+: encodeBlocks bs l ++ r)
    (hcap : off + (encodeBlocks bs l).length ≤ MAX_PENDING_FRAME) :
    walkBlocks buf off = .ok (off + (encodeBlocks bs l).length) ∨
      walkBlocks buf off = .error .incomplete ∧
        buf.length < off + (encodeBlocks bs l).length := by
  induction bs generalizing off with
  | nil =>
      simp only [encodeBlocks] at hpre hcap ⊢
      have hl := Block.encode_length true l
      by_cases hlong : off + 3 ≤ buf.length
      · left
        rw [walkBlocks_block l true hpre (by omega) hlong, hl]
        rfl
      · right
        exact ⟨walkBlocks_short (by omega), by omega⟩
  | cons b bs ih =>
      simp only [encodeBlocks, List.append_assoc, List.length_append] at hpre hcap ⊢
      have hb := Block.encode_length false b
      by_cases hlong : off + 3 ≤ buf.length
      · have hnext : buf.drop (off + (3 + b.size)) <+: encodeBlocks bs l ++ r := by
          have hdrop := hpre.drop (3 + b.size)
          rw [List.drop_drop, ← hb, List.drop_left] at hdrop
          rw [← hb]
          exact hdrop
        have hstep := walkBlocks_block b false hpre (by omega) hlong
        simp only [Bool.false_eq_true, if_false] at hstep
        rw [hstep, hb]
        have hrec := ih (off + (3 + b.size)) hnext (by omega)
        rw [Nat.add_assoc] at hrec
        exact hrec
      · right
        exact ⟨walkBlocks_short (by omega), by omega⟩

/-- Any three header bytes with a known block type are the header of a block
of the size they state. -/
theorem exists_block_of_header (b0 b1 b2 : UInt8) (content : List UInt8)
    (htype : leValue [b0, b1, b2] / 2 % 4 ≠ 3)
    (hcontent : content.length = leValue [b0, b1, b2] / 8) :
    ∃ b : Block bySize,
      b.encode (decide (leValue [b0, b1, b2] % 2 = 1)) =
        b0 :: b1 :: b2 :: content := by
  obtain ⟨t, ht⟩ := BlockType.exists_of_code
    (n := leValue [b0, b1, b2] / 2 % 4) (by omega) htype
  have hlt : leValue [b0, b1, b2] < 2 ^ 24 := by
    have h := leValue_lt [b0, b1, b2]
    simp only [List.length_cons, List.length_nil] at h
    omega
  refine ⟨⟨t, leValue [b0, b1, b2] / 8, content, by omega, hcontent⟩, ?_⟩
  have hheader : ∀ b : Block bySize, b.type = t →
      b.size = leValue [b0, b1, b2] / 8 →
      blockHeader (decide (leValue [b0, b1, b2] % 2 = 1)) b =
        leValue [b0, b1, b2] := by
    intro b hbt hbs
    unfold blockHeader
    rw [hbt, hbs, ht]
    by_cases hlast : leValue [b0, b1, b2] % 2 = 1
    · simp only [hlast, decide_true, Bool.toNat_true]
      omega
    · simp only [hlast, decide_false, Bool.toNat_false]
      omega
  unfold Block.encode
  rw [hheader _ rfl rfl, le3_leValue]
  rfl

/-- A walk that ends inside the buffer has gone over a chain of blocks. -/
theorem exists_chain_of_walkBlocks {buf : List UInt8} {off stop : Nat}
    (hwalk : walkBlocks buf off = .ok stop) (hstop : stop ≤ buf.length) :
    off ≤ stop ∧ ∃ (bs : List (Block bySize)) (l : Block bySize),
      (buf.drop off).take (stop - off) = encodeBlocks bs l := by
  fun_induction walkBlocks buf off with
  | case1 => cases hwalk
  | case2 => cases hwalk
  | case3 off b0 b1 b2 rest hdrop hdr isLast type size htype hcap hlast =>
      cases hwalk
      have hlen := congrArg List.length hdrop
      simp only [List.length_drop, List.length_cons] at hlen
      have hcontent : (rest.take size).length = size := by
        rw [List.length_take]
        omega
      obtain ⟨l, hl⟩ := exists_block_of_header b0 b1 b2 (rest.take size) htype hcontent
      refine ⟨by omega, [], l, ?_⟩
      have hdec : decide (leValue [b0, b1, b2] % 2 = 1) = true := decide_eq_true hlast
      rw [hdec] at hl
      rw [encodeBlocks, hl, hdrop, Nat.add_sub_cancel_left, Nat.add_comm 3]
      rfl
  | case4 off b0 b1 b2 rest hdrop hdr isLast type size htype hcap hlast ih =>
      obtain ⟨hle, bs, l, hchain⟩ := ih hwalk
      have hlen := congrArg List.length hdrop
      simp only [List.length_drop, List.length_cons] at hlen
      have hcontent : (rest.take size).length = size := by
        rw [List.length_take]
        omega
      obtain ⟨b, hb⟩ := exists_block_of_header b0 b1 b2 (rest.take size) htype hcontent
      refine ⟨by omega, b :: bs, l, ?_⟩
      have hdec : decide (leValue [b0, b1, b2] % 2 = 1) = false := decide_eq_false hlast
      rw [hdec] at hb
      have hsplit : stop - off = (3 + size) + (stop - (off + (3 + size))) := by omega
      rw [encodeBlocks, hb, ← hchain, hsplit, List.take_add, List.drop_drop, hdrop,
        Nat.add_comm 3]
      rfl
  | case5 => cases hwalk

/-- Leaving the loop early never reports a complete frame. -/
theorem walkBlocks_ne_complete (buf : List UInt8) (off len : Nat)
    (size : Option Nat) : walkBlocks buf off ≠ .error (.complete len size) := by
  fun_induction walkBlocks buf off with
  | case1 => simp
  | case2 => simp
  | case3 => simp
  | case4 off b0 b1 b2 rest hdrop hdr isLast type blockSize htype hcap hlast ih => exact ih
  | case5 => simp

/-! ## The header -/

/-- The masks of the parser take the four parts of the descriptor apart
again. -/
theorem descriptorByte_fields :
    ∀ (c d : Fin 4) (single checksum : Bool),
      descriptorByte c single checksum d &&& 0x18 = 0 ∧
      dictIdSize (descriptorByte c single checksum d) = dictWidth d ∧
      fcsSize (descriptorByte c single checksum d) = fcsWidth single c ∧
      (descriptorByte c single checksum d &&& 0x20 ≠ 0 ↔ single = true) ∧
      (descriptorByte c single checksum d &&& 0x04 ≠ 0 ↔ checksum = true) := by
  decide

section Frames

variable (f : Frame rfcStored)

theorem descriptor_reserved : f.descriptor &&& 0x18 = 0 :=
  (descriptorByte_fields f.fcsFlag f.dictFlag _ _).1

theorem fcsSize_descriptor : fcsSize f.descriptor = f.fcs.length :=
  (descriptorByte_fields f.fcsFlag f.dictFlag _ _).2.2.1.trans f.fcs_length.symm

/-- The checksum flag adds the four checksum bytes. -/
theorem checksum_offset (n : Nat) :
    (if ¬f.descriptor &&& 0x04 = 0 then n + 4 else n) =
      n + if f.checksum.isSome then 4 else 0 := by
  have hflag : f.descriptor &&& 0x04 ≠ 0 ↔ f.checksum.isSome = true :=
    (descriptorByte_fields f.fcsFlag f.dictFlag _ _).2.2.2.2
  by_cases hsum : f.checksum.isSome = true
  · rw [if_pos (hflag.2 hsum), if_pos hsum]
  · rw [if_neg (fun h => hsum (hflag.1 h)), if_neg hsum, Nat.add_zero]

theorem hdrLen_descriptor : hdrLen f.descriptor = f.header.length := by
  obtain ⟨-, hdict, hfcs, hsingle, -⟩ := descriptorByte_fields f.fcsFlag f.dictFlag
    f.window.isNone f.checksum.isSome
  rw [Frame.header_length]
  unfold hdrLen Frame.descriptor
  rw [hdict, hfcs]
  cases hw : f.window with
  | none =>
      rw [if_pos (by rw [← hw]; exact hsingle.2 (by rw [hw]; rfl))]
      rfl
  | some w =>
      rw [if_neg (by rw [← hw, hsingle, hw]; exact Bool.false_ne_true)]
      rfl

/-- The size the parser reads: the field's width of bytes, from byte 5 on. -/
def sizeAtFive : Option Nat :=
  if 0 < f.fcs.length then some (leValue ((f.encode.drop 5).take f.fcs.length))
  else none

/-- Five or more bytes of a frame and what follows it show the descriptor. -/
theorem getD_descriptor {t s : List UInt8} (hpre : t <+: f.encode ++ s)
    (hlen : 5 ≤ t.length) : t.getD 4 0 = f.descriptor := by
  obtain ⟨u, hu⟩ := hpre
  have hat : (t ++ u)[4]? = some f.descriptor := by
    rw [hu]
    rfl
  rw [List.getElem?_append_left (by omega)] at hat
  rw [List.getD_eq_getElem?_getD, hat]
  rfl

/-- Enough bytes of a frame and what follows it show the size field. -/
theorem take_sizeField {t s : List UInt8} (hpre : t <+: f.encode ++ s)
    (hlen : f.header.length ≤ t.length) :
    (t.drop 5).take f.fcs.length = (f.encode.drop 5).take f.fcs.length := by
  have hwidth := f.fcs_length
  have hhdr := f.header_length
  have hagree : t.take (5 + f.fcs.length) = f.encode.take (5 + f.fcs.length) := by
    have htake := List.prefix_iff_eq_take.1 hpre
    rw [htake, List.take_take, Nat.min_eq_left (by omega), List.take_append_of_le_length]
    have hle : f.header.length ≤ f.encode.length := by
      simp only [Frame.encode, List.length_append]
      omega
    omega
  rw [List.take_drop, List.take_drop, hagree]

/-- The block section is also a chain of blocks that occupy `Block_Size` bytes
each, RLE blocks included. -/
def ByBlockSize : Prop :=
  ∃ (bs : List (Block bySize)) (l : Block bySize),
    encodeBlocks bs l = encodeBlocks f.blocks f.last

theorem encode_length : f.encode.length =
    f.header.length + ((encodeBlocks f.blocks f.last).length +
      if f.checksum.isSome then 4 else 0) := by
  unfold Frame.encode
  rw [List.length_append, List.length_append, Frame.checksum_getD_length]

/-- The parser on any part of a frame and what follows it, when the frame reads
as a chain by `Block_Size`. -/
theorem zstdFrameBoundary_of_byBlockSize (hchain : ByBlockSize f)
    (hcap : f.encode.length ≤ MAX_PENDING_FRAME) {t s : List UInt8}
    (hpre : t <+: f.encode ++ s) :
    zstdFrameBoundary t =
      if t.length < f.encode.length then .incomplete
      else .complete f.encode.length (sizeAtFive f) := by
  have hlen := encode_length f
  have hhdr := f.header_length
  unfold zstdFrameBoundary
  by_cases h5 : t.length < 5
  · rw [if_pos h5, if_pos (by omega)]
  rw [if_neg h5]
  simp only [getD_descriptor f hpre (by omega), descriptor_reserved, ne_eq,
    not_true_eq_false, if_false, hdrLen_descriptor, fcsSize_descriptor,
    checksum_offset]
  by_cases hshort : t.length < f.header.length
  · rw [if_pos hshort, if_pos (by omega)]
  rw [if_neg hshort, take_sizeField f hpre (by omega)]
  obtain ⟨bs, l, hbs⟩ := hchain
  have hdrop : t.drop f.header.length <+:
      encodeBlocks bs l ++ (f.checksum.getD [] ++ s) := by
    have h := hpre.drop f.header.length
    unfold Frame.encode at h
    rw [List.append_assoc, List.drop_left, List.append_assoc, ← hbs] at h
    exact h
  rw [← hbs] at hlen
  rcases walkBlocks_chain bs l f.header.length hdrop (by omega) with hok | ⟨hinc, hmiss⟩
  · rw [hok]
    simp only [Nat.add_assoc, ← hlen]
    rfl
  · rw [hinc]
    exact (if_pos (by omega)).symm

/-- `frame_boundary` hands everything that starts with the magic number to the
standard parser. -/
theorem frameBoundary_eq_zstd {t s : List UInt8} (hpre : t <+: f.encode ++ s)
    (hlen : 4 ≤ t.length) : frameBoundary t = zstdFrameBoundary t := by
  have htake : t.take 4 = magic := by
    have h := List.prefix_iff_eq_take.1 hpre
    rw [h, List.take_take, Nat.min_eq_left hlen]
    rfl
  unfold frameBoundary
  rw [if_neg (by omega), htake]
  exact if_pos (by decide)

theorem frameBoundary_of_byBlockSize (hchain : ByBlockSize f)
    (hcap : f.encode.length ≤ MAX_PENDING_FRAME) {t s : List UInt8}
    (hpre : t <+: f.encode ++ s) :
    frameBoundary t =
      if t.length < f.encode.length then .incomplete
      else .complete f.encode.length (sizeAtFive f) := by
  by_cases h4 : t.length < 4
  · have hlen := encode_length f
    have hhdr := f.header_length
    unfold frameBoundary
    rw [if_pos h4, if_pos (by omega)]
  · rw [frameBoundary_eq_zstd f hpre (by omega),
      zstdFrameBoundary_of_byBlockSize f hchain hcap hpre]

/-- If the parser finds the whole frame, it has read the blocks by
`Block_Size`. -/
theorem byBlockSize_of_complete {size : Option Nat}
    (hfound : frameBoundary f.encode = .complete f.encode.length size) :
    ByBlockSize f ∧ size = sizeAtFive f := by
  have hlen := encode_length f
  have hhdr := f.header_length
  have hself : f.encode <+: f.encode ++ [] := by rw [List.append_nil]
  rw [frameBoundary_eq_zstd f hself (by omega)] at hfound
  unfold zstdFrameBoundary at hfound
  rw [if_neg (by omega)] at hfound
  simp only [getD_descriptor f hself (by omega), descriptor_reserved, ne_eq,
    not_true_eq_false, if_false, hdrLen_descriptor, fcsSize_descriptor,
    checksum_offset] at hfound
  rw [if_neg (by omega)] at hfound
  cases hwalk : walkBlocks f.encode f.header.length with
  | error boundary =>
      rw [hwalk] at hfound
      have hcomplete : boundary = .complete f.encode.length size := hfound
      rw [hcomplete] at hwalk
      exact absurd hwalk (walkBlocks_ne_complete _ _ _ _)
  | ok stop =>
      rw [hwalk] at hfound
      dsimp only at hfound
      by_cases hreach : f.encode.length < stop + if f.checksum.isSome then 4 else 0
      · rw [if_pos hreach] at hfound
        cases hfound
      rw [if_neg hreach] at hfound
      injection hfound with hstop hsize
      obtain ⟨-, bs, l, hbs⟩ := exists_chain_of_walkBlocks hwalk (by omega)
      refine ⟨⟨bs, l, ?_⟩, hsize.symm⟩
      have hblocks : stop - f.header.length =
          (encodeBlocks f.blocks f.last).length := by omega
      rw [← hbs, hblocks]
      unfold Frame.encode
      rw [List.drop_left, List.take_left]

/-- The boundary the parser finds is the frame's own, with every continuation
and on every strict prefix. -/
def BoundaryExact : Prop :=
  (∀ s, frameBoundary (f.encode ++ s) = .complete f.encode.length f.contentSize) ∧
    ∀ p, p <+: f.encode → p ≠ f.encode → frameBoundary p = .incomplete

/-- **Main result.**  For a frame that fits the pending buffer, the boundary is
exact if and only if the block section also reads as a chain by `Block_Size`
and the bytes at offset 5 give the declared content size. -/
theorem frame_boundary_exact_iff (hcap : f.encode.length ≤ MAX_PENDING_FRAME) :
    BoundaryExact f ↔ ByBlockSize f ∧ sizeAtFive f = f.contentSize := by
  constructor
  · intro hexact
    have hfound := hexact.1 []
    rw [List.append_nil] at hfound
    obtain ⟨hchain, hsize⟩ := byBlockSize_of_complete f hfound
    exact ⟨hchain, hsize.symm⟩
  · rintro ⟨hchain, hsize⟩
    constructor
    · intro s
      rw [frameBoundary_of_byBlockSize f hchain hcap (List.prefix_refl _),
        if_neg (by rw [List.length_append]; omega), hsize]
    · intro p hp hne
      have hlt : p.length < f.encode.length :=
        Nat.lt_of_le_of_ne hp.length_le fun h => hne (hp.eq_of_length h)
      rw [frameBoundary_of_byBlockSize f hchain hcap
        (hp.trans (List.prefix_append _ [])), if_pos hlt]

/-- Raw and compressed blocks occupy their `Block_Size`; RLE blocks do when it
is 1. -/
theorem Block.exists_bySize (b : Block rfcStored) (hone : b.type = .rle → b.size = 1)
    (last : Bool) : ∃ c : Block bySize, c.encode last = b.encode last := by
  have hcontent : b.content.length = b.size := by
    rw [b.content_length]
    cases ht : b.type with
    | raw => rfl
    | rle => exact (hone ht).symm
    | compressed => rfl
  exact ⟨⟨b.type, b.size, b.content, b.size_lt, hcontent⟩, rfl⟩

/-- With RLE blocks of `Block_Size` 1 only, the two readings of a block section
agree. -/
theorem byBlockSize_of_rle_one
    (hone : ∀ b ∈ f.last :: f.blocks, b.type = .rle → b.size = 1) : ByBlockSize f := by
  obtain ⟨l, hl⟩ := Block.exists_bySize f.last (hone _ (List.mem_cons_self ..)) true
  have hblocks : ∀ b ∈ f.blocks, b.type = .rle → b.size = 1 := by
    intro b hb
    exact hone b (List.mem_cons_of_mem _ hb)
  unfold ByBlockSize
  generalize f.blocks = bs at hblocks
  induction bs with
  | nil => exact ⟨[], l, hl⟩
  | cons b bs ih =>
      obtain ⟨c, hc⟩ := Block.exists_bySize b (hblocks b (List.mem_cons_self ..)) false
      obtain ⟨cs, l', hcs⟩ := ih fun b hb => hblocks b (List.mem_cons_of_mem _ hb)
      exact ⟨c :: cs, l', by rw [encodeBlocks, encodeBlocks, hc, hcs]⟩

/-- The size field is at byte 5 when no window descriptor and no dictionary id
come before it, and its value needs no correction unless it has two bytes. -/
theorem sizeAtFive_of_bare_header (hwindow : f.window = none) (hdict : f.dictId = [])
    (hwidth : f.fcs.length ≠ 2) : sizeAtFive f = f.contentSize := by
  unfold sizeAtFive Frame.contentSize
  by_cases hnone : f.fcs.length = 0
  · rw [if_pos hnone, if_neg (by omega)]
  · rw [if_neg hnone, if_neg hwidth, if_pos (by omega)]
    have hfield : f.encode.drop 5 =
        f.fcs ++ (encodeBlocks f.blocks f.last ++ f.checksum.getD []) := by
      unfold Frame.encode Frame.header
      rw [hwindow, hdict]
      rfl
    rw [hfield, List.take_left]

end Frames

/-- A single-segment frame of one raw block, as an encoder emits for three
bytes that do not compress. -/
def rawFrame : Frame rfcStored where
  window := none
  dictFlag := 0
  dictId := []
  fcsFlag := 0
  fcs := [3]
  blocks := []
  last := ⟨.raw, 3, [0x61, 0x62, 0x63], by decide, rfl⟩
  checksum := none
  dictId_length := rfl
  fcs_length := rfl
  checksum_length := by simp

theorem raw_frame_boundary_exact : BoundaryExact rawFrame :=
  (frame_boundary_exact_iff rawFrame (by decide)).2
    ⟨byBlockSize_of_rle_one rawFrame (by decide),
      sizeAtFive_of_bare_header rawFrame rfl rfl (by decide)⟩

/-- Five times the byte `A`, as one RLE block. -/
def rleFrame : Frame rfcStored where
  window := none
  dictFlag := 0
  dictId := []
  fcsFlag := 0
  fcs := [5]
  blocks := []
  last := ⟨.rle, 5, [0x41], by decide, rfl⟩
  checksum := none
  dictId_length := rfl
  fcs_length := rfl
  checksum_length := by simp

/-- The whole frame is there, but the parser waits for four more bytes. -/
theorem rle_frame_boundary_incomplete :
    frameBoundary [0x28, 0xB5, 0x2F, 0xFD, 0x20, 0x05, 0x2B, 0x00, 0x00, 0x41] =
      .incomplete := by
  have hdrop : List.drop 6
      [0x28, 0xB5, 0x2F, 0xFD, 0x20, 0x05, 0x2B, 0x00, 0x00, 0x41] =
        (0x2B : UInt8) :: 0x00 :: 0x00 :: [0x41] := rfl
  have hwalk := walkBlocks_header hdrop
  have hstop : leValue [0x2B, 0x00, 0x00] = 43 := by decide
  rw [hstop] at hwalk
  have hhdr : hdrLen 0x20 = 6 := by decide
  have hreserved : (0x20 : UInt8) &&& 0x18 = 0 := by decide
  have hsum : (0x20 : UInt8) &&& 0x04 = 0 := by decide
  unfold frameBoundary zstdFrameBoundary
  simp [hhdr, hwalk, hreserved, hsum, leValue, ZSTD_MAGIC, MAX_PENDING_FRAME]

theorem rle_block_breaks_boundary :
    ¬ ∀ f : Frame rfcStored, f.encode.length ≤ MAX_PENDING_FRAME → BoundaryExact f := by
  intro hall
  have hexact := (hall rleFrame (by decide)).1 []
  have hbytes : rleFrame.encode ++ [] =
      [0x28, 0xB5, 0x2F, 0xFD, 0x20, 0x05, 0x2B, 0x00, 0x00, 0x41] := by decide
  rw [hbytes, rle_frame_boundary_incomplete] at hexact
  cases hexact

end Libfw

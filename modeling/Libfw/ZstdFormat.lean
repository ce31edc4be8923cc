import Mathlib.Algebra.GroupWithZero.Nat
import Mathlib.Data.List.Basic
import Mathlib.Data.Fin.VecNotation
import Mathlib.Tactic.FinCases

/-!
# The layout of a zstd frame

The frame layout of RFC 8878, as far as byte counts go:

    magic(4) descriptor(1) [window(1)] [dictionary id(0/1/2/4)]
    [content size(0/1/2/4/8)] block* [checksum(4)]

A block is a three-byte header (`Last_Block`, `Block_Type`, `Block_Size`)
followed by its content.  How many content bytes follow depends on the type:
`Block_Size` many for raw and compressed blocks, a single one for an RLE
block, whose `Block_Size` counts the bytes it stands for.  That rule is a
parameter `stored`, so that other readings of `Block_Size` can be stated;
`rfcStored` is the one of the RFC.

A `Frame` carries the widths of its fields, so only laid-out frames exist.
What the bytes of a compressed block mean plays no part.
-/

namespace Zstd

/-- The block types a frame may contain; type 3 is reserved. -/
inductive BlockType where
  | raw
  | rle
  | compressed
  deriving DecidableEq

def BlockType.code : BlockType → Nat
  | .raw => 0
  | .rle => 1
  | .compressed => 2

theorem BlockType.code_lt (t : BlockType) : t.code < 3 := by
  cases t <;> decide

/-- Every two-bit type code but the reserved one names a block type. -/
theorem BlockType.exists_of_code {n : Nat} (h : n < 4) (h3 : n ≠ 3) :
    ∃ t : BlockType, t.code = n := by
  have hn : n = 0 ∨ n = 1 ∨ n = 2 := by omega
  rcases hn with rfl | rfl | rfl
  · exact ⟨.raw, rfl⟩
  · exact ⟨.rle, rfl⟩
  · exact ⟨.compressed, rfl⟩

/-- Content bytes after a block header, by RFC 8878 §3.1.1.2. -/
def rfcStored : BlockType → Nat → Nat
  | .raw, size => size
  | .rle, _ => 1
  | .compressed, size => size

/-- Little-endian value of a field. -/
def leValue : List UInt8 → Nat
  | [] => 0
  | b :: rest => b.toNat + 256 * leValue rest

theorem leValue_lt (bs : List UInt8) : leValue bs < 256 ^ bs.length := by
  induction bs with
  | nil => simp [leValue]
  | cons b rest ih =>
      have hb := b.toNat_lt
      simp only [leValue, List.length_cons, Nat.pow_succ]
      omega

/-- Three bytes, little-endian. -/
def le3 (n : Nat) : List UInt8 :=
  [UInt8.ofNat n, UInt8.ofNat (n / 256), UInt8.ofNat (n / 65536)]

theorem leValue_le3 {n : Nat} (h : n < 2 ^ 24) : leValue (le3 n) = n := by
  simp only [le3, leValue, UInt8.toNat_ofNat']
  omega

theorem le3_leValue (a b c : UInt8) : le3 (leValue [a, b, c]) = [a, b, c] := by
  have ha := a.toNat_lt
  have hb := b.toNat_lt
  have hc := c.toNat_lt
  simp only [le3, leValue, List.cons.injEq, and_true]
  refine ⟨?_, ?_, ?_⟩ <;>
    · apply UInt8.toNat_inj.1
      rw [UInt8.toNat_ofNat']
      omega

/-- One block, whose content has the length its header calls for. -/
structure Block (stored : BlockType → Nat → Nat) where
  type : BlockType
  size : Nat
  content : List UInt8
  size_lt : size < 2 ^ 21
  content_length : content.length = stored type size

/-- Width of the dictionary id for a `Dictionary_ID_flag`. -/
def dictWidth : Fin 4 → Nat := ![0, 1, 2, 4]

/-- Width of the content size field for a `Frame_Content_Size_flag`. -/
def fcsWidth (singleSegment : Bool) : Fin 4 → Nat :=
  ![if singleSegment then 1 else 0, 2, 4, 8]

/-- A frame: `window = none` is the single-segment form. -/
structure Frame (stored : BlockType → Nat → Nat) where
  window : Option UInt8
  dictFlag : Fin 4
  dictId : List UInt8
  fcsFlag : Fin 4
  fcs : List UInt8
  blocks : List (Block stored)
  last : Block stored
  checksum : Option (List UInt8)
  dictId_length : dictId.length = dictWidth dictFlag
  fcs_length : fcs.length = fcsWidth window.isNone fcsFlag
  checksum_length : ∀ c, checksum = some c → c.length = 4

variable {stored : BlockType → Nat → Nat}

/-- Block header value: `Last_Block`, `Block_Type`, `Block_Size` from the
lowest bit up. -/
def blockHeader (last : Bool) (b : Block stored) : Nat :=
  last.toNat + 2 * b.type.code + 8 * b.size

theorem blockHeader_lt (last : Bool) (b : Block stored) :
    blockHeader last b < 2 ^ 24 := by
  have hl : last.toNat ≤ 1 := Bool.toNat_le last
  have ht := b.type.code_lt
  have hs := b.size_lt
  simp only [blockHeader]
  omega

def Block.encode (last : Bool) (b : Block stored) : List UInt8 :=
  le3 (blockHeader last b) ++ b.content

/-- The block list of a frame; only the final block has `Last_Block` set. -/
def encodeBlocks : List (Block stored) → Block stored → List UInt8
  | [], last => last.encode true
  | b :: rest, last => b.encode false ++ encodeBlocks rest last

/-- `Magic_Number`, 0xFD2FB528 in little-endian order. -/
def magic : List UInt8 := [0x28, 0xB5, 0x2F, 0xFD]

/-- `Frame_Header_Descriptor` from its four parts, with the unused and the
reserved bit zero. -/
def descriptorByte (fcsFlag : Fin 4) (single checksum : Bool) (dictFlag : Fin 4) :
    UInt8 :=
  UInt8.ofNat (64 * fcsFlag.val + 32 * single.toNat + 4 * checksum.toNat
    + dictFlag.val)

namespace Frame

variable (f : Frame stored)

def descriptor : UInt8 :=
  descriptorByte f.fcsFlag f.window.isNone f.checksum.isSome f.dictFlag

/-- Everything before the first block. -/
def header : List UInt8 :=
  magic ++ f.descriptor :: (f.window.toList ++ f.dictId ++ f.fcs)

def encode : List UInt8 :=
  f.header ++ (encodeBlocks f.blocks f.last ++ f.checksum.getD [])

/-- The `Frame_Content_Size` the header declares.  A two-byte field counts
from 256. -/
def contentSize : Option Nat :=
  if f.fcs.length = 0 then none
  else if f.fcs.length = 2 then some (leValue f.fcs + 256)
  else some (leValue f.fcs)

theorem header_length :
    f.header.length = 5 + f.window.isSome.toNat + dictWidth f.dictFlag
      + fcsWidth f.window.isNone f.fcsFlag := by
  have hd := f.dictId_length
  have hf := f.fcs_length
  cases hw : f.window with
  | none => simp [header, magic, hw, hd, hf]; omega
  | some w => simp [header, magic, hw, hd, hf]; omega

theorem checksum_getD_length :
    (f.checksum.getD []).length = if f.checksum.isSome then 4 else 0 := by
  cases hc : f.checksum with
  | none => rfl
  | some c => simpa using f.checksum_length c hc

end Frame

end Zstd

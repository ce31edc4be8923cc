import Mathlib.Data.List.Basic

/-!
# Names, files and sparse contents

A `Disk` maps names to directories and files, and files (numbers, as inodes are)
to contents.  An open handle is a file number: it keeps meaning the same file
after the name it was opened by has been renamed or unlinked.  No file has two
names, and no name leads to a file that has not been made yet; both are fields
of the structure, so every operation proves them once.

`writeAt` is a positional write into a sparse content, whose unwritten positions
are holes; `HoldsPrefix` says that a content begins as given data does.
-/

namespace PosixStore

/-- What a name leads to. -/
inductive Entry where
  | absent
  | dir
  | file (ino : Nat)
  deriving DecidableEq

def Entry.isFile : Entry → Bool
  | .file _ => true
  | _ => false

/-- A store over names `π` with file contents `β`. -/
structure Disk (π β : Type) where
  entry : π → Entry
  content : Nat → β
  next : Nat
  entry_lt : ∀ {p i}, entry p = .file i → i < next
  single : ∀ {p q i}, entry p = .file i → entry q = .file i → p = q

namespace Disk

variable {π β : Type} (d : Disk π β)

/-- Change the content of a file. -/
def modify (ino : Nat) (f : β → β) : Disk π β where
  entry := d.entry
  content := fun i => if i = ino then f (d.content i) else d.content i
  next := d.next
  entry_lt := d.entry_lt
  single := d.single

section Modify

variable {i j : Nat} {f : β → β}

@[simp] theorem modify_entry : (d.modify i f).entry = d.entry := rfl

@[simp] theorem modify_content_self : (d.modify i f).content i = f (d.content i) :=
  if_pos rfl

theorem modify_content_ne (h : j ≠ i) : (d.modify i f).content j = d.content j :=
  if_neg h

@[simp] theorem modify_next : (d.modify i f).next = d.next := rfl

end Modify

variable [DecidableEq π] (p q : π)

/-- A new file under the name, in the place of what was there. -/
def create (b : β) : Disk π β where
  entry := fun x => if x = p then .file d.next else d.entry x
  content := fun i => if i = d.next then b else d.content i
  next := d.next + 1
  entry_lt := by
    intro x i h
    by_cases hx : x = p
    · rw [if_pos hx] at h
      cases h
      exact Nat.lt_succ_self _
    · rw [if_neg hx] at h
      exact Nat.lt_succ_of_lt (d.entry_lt h)
  single := by
    intro x y i hx hy
    by_cases hxp : x = p <;> by_cases hyp : y = p
    · rw [hxp, hyp]
    · rw [if_pos hxp] at hx
      rw [if_neg hyp] at hy
      cases hx
      exact absurd (d.entry_lt hy) (Nat.lt_irrefl _)
    · rw [if_neg hxp] at hx
      rw [if_pos hyp] at hy
      cases hy
      exact absurd (d.entry_lt hx) (Nat.lt_irrefl _)
    · rw [if_neg hxp] at hx
      rw [if_neg hyp] at hy
      exact d.single hx hy

/-- Take the name away; the file stays for those who have it open. -/
def unlink : Disk π β where
  entry := fun x => if x = p then .absent else d.entry x
  content := d.content
  next := d.next
  entry_lt := by
    intro x i h
    by_cases hx : x = p
    · rw [if_pos hx] at h
      cases h
    · rw [if_neg hx] at h
      exact d.entry_lt h
  single := by
    intro x y i hx hy
    by_cases hxp : x = p
    · rw [if_pos hxp] at hx
      cases hx
    · by_cases hyp : y = p
      · rw [if_pos hyp] at hy
        cases hy
      · rw [if_neg hxp] at hx
        rw [if_neg hyp] at hy
        exact d.single hx hy

/-- Move what `p` leads to under the name `q`, in the place of what was there. -/
def rename : Disk π β where
  entry := fun x => if x = q then d.entry p else if x = p then .absent else d.entry x
  content := d.content
  next := d.next
  entry_lt := by
    intro x i h
    by_cases hxq : x = q
    · rw [if_pos hxq] at h
      exact d.entry_lt h
    · rw [if_neg hxq] at h
      by_cases hxp : x = p
      · rw [if_pos hxp] at h
        cases h
      · rw [if_neg hxp] at h
        exact d.entry_lt h
  single := by
    intro x y i hx hy
    by_cases hxq : x = q <;> by_cases hyq : y = q
    · rw [hxq, hyq]
    · rw [if_pos hxq] at hx
      rw [if_neg hyq] at hy
      by_cases hyp : y = p
      · rw [if_pos hyp] at hy
        cases hy
      · rw [if_neg hyp] at hy
        exact absurd (d.single hy hx) hyp
    · rw [if_neg hxq] at hx
      rw [if_pos hyq] at hy
      by_cases hxp : x = p
      · rw [if_pos hxp] at hx
        cases hx
      · rw [if_neg hxp] at hx
        exact absurd (d.single hx hy) hxp
    · rw [if_neg hxq] at hx
      rw [if_neg hyq] at hy
      by_cases hxp : x = p
      · rw [if_pos hxp] at hx
        cases hx
      · by_cases hyp : y = p
        · rw [if_pos hyp] at hy
          cases hy
        · rw [if_neg hxp] at hx
          rw [if_neg hyp] at hy
          exact d.single hx hy

/-- Make a directory of every absent name among `ps`. -/
def mkdirs (ps : List π) : Disk π β where
  entry := fun x => if x ∈ ps ∧ d.entry x = .absent then .dir else d.entry x
  content := d.content
  next := d.next
  entry_lt := by
    intro x i h
    by_cases hx : x ∈ ps ∧ d.entry x = .absent
    · rw [if_pos hx] at h
      cases h
    · rw [if_neg hx] at h
      exact d.entry_lt h
  single := by
    intro x y i hx hy
    by_cases hxa : x ∈ ps ∧ d.entry x = .absent
    · rw [if_pos hxa] at hx
      cases hx
    · by_cases hya : y ∈ ps ∧ d.entry y = .absent
      · rw [if_pos hya] at hy
        cases hy
      · rw [if_neg hxa] at hx
        rw [if_neg hya] at hy
        exact d.single hx hy

section Lookups

variable {x : π} {i : Nat} {b : β} {ps : List π}

@[simp] theorem create_entry_self : (d.create p b).entry p = .file d.next := if_pos rfl

theorem create_entry_ne (h : x ≠ p) : (d.create p b).entry x = d.entry x := if_neg h

@[simp] theorem create_content_next : (d.create p b).content d.next = b := if_pos rfl

theorem create_content_lt (h : i < d.next) : (d.create p b).content i = d.content i :=
  if_neg (Nat.ne_of_lt h)

@[simp] theorem create_next : (d.create p b).next = d.next + 1 := rfl

@[simp] theorem unlink_entry_self : (d.unlink p).entry p = .absent := if_pos rfl

theorem unlink_entry_ne (h : x ≠ p) : (d.unlink p).entry x = d.entry x := if_neg h

@[simp] theorem unlink_content : (d.unlink p).content = d.content := rfl

@[simp] theorem unlink_next : (d.unlink p).next = d.next := rfl

@[simp] theorem rename_entry_target : (d.rename p q).entry q = d.entry p := if_pos rfl

theorem rename_entry_source (h : p ≠ q) : (d.rename p q).entry p = .absent := by
  unfold rename
  simp only [if_neg h, if_true]

theorem rename_entry_ne (hp : x ≠ p) (hq : x ≠ q) :
    (d.rename p q).entry x = d.entry x := by
  unfold rename
  simp only [if_neg hp, if_neg hq]

@[simp] theorem rename_content : (d.rename p q).content = d.content := rfl

@[simp] theorem rename_next : (d.rename p q).next = d.next := rfl

theorem mkdirs_entry : (d.mkdirs ps).entry x =
    if x ∈ ps ∧ d.entry x = .absent then .dir else d.entry x := rfl

@[simp] theorem mkdirs_content : (d.mkdirs ps).content = d.content := rfl

@[simp] theorem mkdirs_next : (d.mkdirs ps).next = d.next := rfl

/-- Making directories moves no file. -/
theorem mkdirs_entry_file : (d.mkdirs ps).entry x = .file i ↔ d.entry x = .file i := by
  rw [mkdirs_entry]
  by_cases h : x ∈ ps ∧ d.entry x = .absent
  · rw [if_pos h, h.2]
    simp only [reduceCtorEq]
  · rw [if_neg h]

end Lookups

end Disk

/-! ## Sparse contents -/

section Sparse

variable {α : Type}

/-- A write at an offset.  Positions between the old end and the offset become
holes. -/
def writeAt (cells : List (Option α)) (off : Nat) (data : List α) : List (Option α) :=
  if data = [] then cells
  else (cells.take off ++ List.replicate (off - cells.length) none) ++
    (data.map some ++ cells.drop (off + data.length))

/-- The position holds a byte that was written. -/
def Written (cells : List (Option α)) (k : Nat) : Prop := ∃ b, cells[k]? = some (some b)

theorem writeAt_length (cells : List (Option α)) (off : Nat) {data : List α}
    (h : data ≠ []) :
    (writeAt cells off data).length = max cells.length (off + data.length) := by
  unfold writeAt
  rw [if_neg h]
  simp only [List.length_append, List.length_take, List.length_replicate,
    List.length_map, List.length_drop]
  omega

theorem writeAt_getElem?_before (cells : List (Option α)) {off k : Nat} {data : List α}
    (h : data ≠ []) (hk : k < off) :
    (writeAt cells off data)[k]? =
      if k < cells.length then cells[k]? else some none := by
  unfold writeAt
  rw [if_neg h, List.getElem?_append_left (by
    simp only [List.length_append, List.length_take, List.length_replicate]; omega)]
  by_cases hin : k < cells.length
  · rw [if_pos hin, List.getElem?_append_left (by rw [List.length_take]; omega),
      List.getElem?_take_of_lt hk]
  · rw [if_neg hin, List.getElem?_append_right (by rw [List.length_take]; omega),
      List.length_take, List.getElem?_replicate, if_pos (by omega)]

theorem writeAt_getElem?_inside (cells : List (Option α)) {off k : Nat} {data : List α}
    (hk : off ≤ k) (hd : k < off + data.length) :
    (writeAt cells off data)[k]? = some data[k - off]? := by
  have hne : data ≠ [] := by
    rintro rfl
    simp only [List.length_nil] at hd
    omega
  unfold writeAt
  rw [if_neg hne, List.getElem?_append_right (by
    simp only [List.length_append, List.length_take, List.length_replicate]; omega)]
  have hlen : (cells.take off ++ List.replicate (off - cells.length) none).length = off := by
    simp only [List.length_append, List.length_take, List.length_replicate]
    omega
  rw [hlen, List.getElem?_append_left (by rw [List.length_map]; omega), List.getElem?_map,
    List.getElem?_eq_getElem (by omega)]
  rfl

theorem writeAt_getElem?_after (cells : List (Option α)) {off k : Nat} {data : List α}
    (hk : off + data.length ≤ k) : (writeAt cells off data)[k]? = cells[k]? := by
  unfold writeAt
  by_cases h : data = []
  · rw [if_pos h]
  have hlen : (cells.take off ++ List.replicate (off - cells.length) none).length = off := by
    simp only [List.length_append, List.length_take, List.length_replicate]
    omega
  rw [if_neg h, List.getElem?_append_right (by rw [hlen]; omega), hlen,
    List.getElem?_append_right (by rw [List.length_map]; omega), List.length_map,
    List.getElem?_drop]
  congr 1
  omega

/-- Two writes, the second where the first ends, are one. -/
theorem writeAt_writeAt (cells : List (Option α)) (off : Nat) (xs ys : List α) :
    writeAt (writeAt cells off xs) (off + xs.length) ys = writeAt cells off (xs ++ ys) := by
  by_cases hxs : xs = []
  · rw [hxs]
    exact congrArg (fun cells => writeAt cells off ys) (if_pos rfl)
  by_cases hys : ys = []
  · rw [hys, List.append_nil]
    exact if_pos rfl
  have hboth : xs ++ ys ≠ [] := List.append_ne_nil_of_left_ne_nil hxs ys
  have hlen : (xs ++ ys).length = xs.length + ys.length := List.length_append
  have hfirst := writeAt_length cells off hxs
  apply List.ext_getElem?
  intro k
  by_cases hbefore : k < off
  · rw [writeAt_getElem?_before _ hys (by omega), if_pos (by omega),
      writeAt_getElem?_before cells hxs hbefore, writeAt_getElem?_before cells hboth hbefore]
  by_cases hin : k < off + xs.length
  · rw [writeAt_getElem?_before _ hys hin, if_pos (by omega),
      writeAt_getElem?_inside cells (by omega) hin,
      writeAt_getElem?_inside cells (by omega) (by omega),
      List.getElem?_append_left (by omega)]
  by_cases hsecond : k < off + xs.length + ys.length
  · rw [writeAt_getElem?_inside _ (by omega) hsecond,
      writeAt_getElem?_inside cells (by omega) (by omega),
      List.getElem?_append_right (by omega), Nat.sub_add_eq]
  · rw [writeAt_getElem?_after _ (by omega), writeAt_getElem?_after cells (by omega),
      writeAt_getElem?_after cells (by omega)]

/-- A write at the end appends. -/
theorem writeAt_end (cells : List (Option α)) (data : List α) :
    writeAt cells cells.length data = cells ++ data.map some := by
  unfold writeAt
  split
  · next h => simp [h]
  · simp

/-- A write puts exactly its own positions in. -/
theorem written_writeAt {cells : List (Option α)} {off k : Nat} {data : List α} :
    Written (writeAt cells off data) k ↔
      Written cells k ∨ (off ≤ k ∧ k < off + data.length) := by
  unfold Written
  by_cases hin : off ≤ k ∧ k < off + data.length
  · rw [writeAt_getElem?_inside cells hin.1 hin.2, List.getElem?_eq_getElem (by omega)]
    exact ⟨fun _ => Or.inr hin, fun _ => ⟨_, rfl⟩⟩
  · by_cases hk : k < off
    · by_cases hne : data = []
      · unfold writeAt
        rw [if_pos hne]
        simp only [hin, or_false]
      · rw [writeAt_getElem?_before cells hne hk]
        by_cases hlen : k < cells.length
        · rw [if_pos hlen]
          simp only [hin, or_false]
        · rw [if_neg hlen, List.getElem?_eq_none (by omega)]
          simp only [hin, or_false, Option.some.injEq, reduceCtorEq]
    · rw [writeAt_getElem?_after cells (by omega)]
      simp only [hin, or_false]

/-- A written position keeps its byte unless the write is about it. -/
theorem writeAt_getElem?_of_written {cells : List (Option α)} {off k : Nat}
    {data : List α} {b : α} (h : (writeAt cells off data)[k]? = some (some b)) :
    cells[k]? = some (some b) ∨
      (off ≤ k ∧ k < off + data.length ∧ data[k - off]? = some b) := by
  by_cases hin : off ≤ k ∧ k < off + data.length
  · rw [writeAt_getElem?_inside cells hin.1 hin.2] at h
    exact Or.inr ⟨hin.1, hin.2, Option.some.inj h⟩
  · left
    by_cases hk : k < off
    · by_cases hne : data = []
      · unfold writeAt at h
        rw [if_pos hne] at h
        exact h
      · rw [writeAt_getElem?_before cells hne hk] at h
        by_cases hlen : k < cells.length
        · rw [if_pos hlen] at h
          exact h
        · rw [if_neg hlen] at h
          cases h
    · rw [writeAt_getElem?_after cells (by omega)] at h
      exact h

/-- Cut or extend to a length; what is new is a hole. -/
def resize (cells : List (Option α)) (n : Nat) : List (Option α) :=
  cells.take n ++ List.replicate (n - cells.length) none

theorem resize_length (cells : List (Option α)) (n : Nat) : (resize cells n).length = n := by
  unfold resize
  rw [List.length_append, List.length_take, List.length_replicate]
  omega

theorem resize_getElem?_of_lt {cells : List (Option α)} {n k : Nat} (hk : k < n)
    (hlen : k < cells.length) : (resize cells n)[k]? = cells[k]? := by
  unfold resize
  rw [List.getElem?_append_left (by rw [List.length_take]; omega),
    List.getElem?_take_of_lt hk]

/-- The first `n` positions hold the first `n` elements of `data`. -/
def HoldsPrefix (cells : List (Option α)) (data : List α) (n : Nat) : Prop :=
  n ≤ data.length ∧ ∀ k, k < n → cells[k]? = some data[k]?

namespace HoldsPrefix

variable {cells : List (Option α)} {data piece : List α} {n m off : Nat}

theorem zero : HoldsPrefix cells data 0 :=
  ⟨Nat.zero_le _, fun _ hk => absurd hk (Nat.not_lt_zero _)⟩

theorem length_le (h : HoldsPrefix cells data n) : n ≤ cells.length := by
  by_contra hlt
  have hend := h.2 cells.length (by omega)
  rw [List.getElem?_eq_none (Nat.le_refl _)] at hend
  cases hend

theorem mono (h : HoldsPrefix cells data n) (hm : m ≤ n) : HoldsPrefix cells data m :=
  ⟨Nat.le_trans hm h.1, fun k hk => h.2 k (Nat.lt_of_lt_of_le hk hm)⟩

private theorem getElem?_of_piece {k : Nat} (hpiece : piece <+: data.drop off) (hk : off ≤ k)
    (hlt : k < off + piece.length) : piece[k - off]? = data[k]? := by
  obtain ⟨rest, hrest⟩ := hpiece
  have hdrop : (piece ++ rest)[k - off]? = data[k]? := by
    rw [hrest, List.getElem?_drop, Nat.add_sub_cancel' hk]
  rwa [List.getElem?_append_left (by omega)] at hdrop

/-- A piece of `data`, written in its place, changes nothing that was right. -/
theorem writeAt (h : HoldsPrefix cells data n) (hpiece : piece <+: data.drop off) :
    HoldsPrefix (writeAt cells off piece) data n := by
  refine ⟨h.1, ?_⟩
  intro k hk
  have hlen := h.length_le
  by_cases hin : off ≤ k ∧ k < off + piece.length
  · rw [writeAt_getElem?_inside cells hin.1 hin.2, getElem?_of_piece hpiece hin.1 hin.2]
  · by_cases hbefore : k < off
    · by_cases hne : piece = []
      · unfold PosixStore.writeAt
        rw [if_pos hne]
        exact h.2 k hk
      · rw [writeAt_getElem?_before cells hne hbefore, if_pos (by omega)]
        exact h.2 k hk
    · rw [writeAt_getElem?_after cells (by omega)]
      exact h.2 k hk

/-- Written where the right prefix ends, it makes that longer. -/
theorem writeAt_end (h : HoldsPrefix cells data off) (hpiece : piece <+: data.drop off) :
    HoldsPrefix (PosixStore.writeAt cells off piece) data (off + piece.length) := by
  constructor
  · have hle := hpiece.length_le
    rw [List.length_drop] at hle
    have hoff := h.1
    omega
  · intro k hk
    by_cases hbefore : k < off
    · exact (h.writeAt hpiece).2 k hbefore
    · rw [writeAt_getElem?_inside cells (by omega) hk,
        getElem?_of_piece hpiece (by omega) hk]

theorem resize (h : HoldsPrefix cells data n) (hm : n ≤ m) :
    HoldsPrefix (PosixStore.resize cells m) data n := by
  refine ⟨h.1, ?_⟩
  intro k hk
  rw [resize_getElem?_of_lt (by omega) (by have := h.length_le; omega)]
  exact h.2 k hk

/-- A file of the right length that holds all of it is it. -/
theorem eq_of_length (h : HoldsPrefix cells data data.length)
    (hlen : cells.length = data.length) : cells = data.map some := by
  apply List.ext_getElem?
  intro k
  by_cases hk : k < data.length
  · rw [h.2 k hk, List.getElem?_map, List.getElem?_eq_getElem hk]
    rfl
  · rw [List.getElem?_eq_none (by omega), List.getElem?_eq_none (by rw [List.length_map]; omega)]

end HoldsPrefix

end Sparse

end PosixStore

import Libfw.ChunkPlans
import Libfw.NativeResume

/-!
# The batches of the native client

`download_batch` of `libfw-client/src/native/download.rs` under every order in which
its range requests end, any of which may fail, and so may a write.

The chunks that are still to be written follow on one another from the cursor on;
each of them is in flight (or not yet begun) or is parked (`BatchInv`).  What has
been written is the beginning of the range and nothing else (`WrittenTo`).

* `batches_write_prefixes`: at every moment, and at the end all of it.
-/

namespace Libfw

open PosixStore SteppedPrograms SoloPrograms

/-! ## What has been written -/

/-- `[start, cursor)` of the version has been written over a destination and nothing
else, and no offset beyond the cursor has been saved. -/
structure WrittenTo (remote : Remote) (before : DestFiles) (start cursor : Nat)
    (s : DestFiles) : Prop where
  whole : (remote.slice start cursor).length = cursor - start
  dest : s.dest = (before.put remote.etag start (remote.slice start cursor)).dest
  saved : s.sidecar = before.sidecar ∨ s.sidecar = none ∨
    ∃ offset ≤ cursor, s.sidecar = some ⟨remote.etag, offset⟩

/-- The beginning of what comes from a place on, as a slice. -/
theorem Remote.eq_slice {remote : Remote} {start : Nat} {data : List UInt8}
    (h : data <+: remote.content.drop start) :
    remote.slice start (start + data.length) = data := by
  unfold Remote.slice
  rw [List.drop_take, Nat.add_sub_cancel_left]
  exact (List.prefix_iff_eq_take.1 h).symm

theorem Remote.slice_append {remote : Remote} {start cursor : Nat} {data : List UInt8}
    (hle : start ≤ cursor) (hwhole : (remote.slice start cursor).length = cursor - start)
    (h : data <+: remote.content.drop cursor) :
    remote.slice start (cursor + data.length) = remote.slice start cursor ++ data := by
  have hfirst := slice_isPrefix remote start cursor
  have hboth : remote.slice start cursor ++ data <+: remote.content.drop start := by
    obtain ⟨rest, hrest⟩ := hfirst
    have hdrop : remote.content.drop cursor = rest := by
      have hcursor : cursor = start + (remote.slice start cursor).length := by omega
      rw [hcursor, ← List.drop_drop, ← hrest, List.drop_left]
    rw [hdrop] at h
    rw [← hrest]
    exact List.prefix_append_right_inj _ |>.2 h
  have heq := Remote.eq_slice hboth
  rw [List.length_append, hwhole] at heq
  rw [← heq]
  congr 1
  omega

namespace DestFiles

variable {s t : DestFiles} {etag : Text} {pos : Nat} {data : List UInt8}

theorem put_dest (s : DestFiles) (etag : Text) (pos : Nat) (data : List UInt8) :
    (s.put etag pos data).dest =
      if data = [] then s.dest else some (writeAt (s.dest.getD []) pos data) := by
  unfold put
  split
  · rfl
  · rfl

theorem put_sidecar (s : DestFiles) (etag : Text) (pos : Nat) (data : List UInt8) :
    (s.put etag pos data).sidecar = s.sidecar := by
  unfold put
  split
  · rfl
  · rfl

/-- Two pieces, the second where the first ends, are one. -/
theorem put_put_dest (s : DestFiles) (etag : Text) (pos : Nat) (xs ys : List UInt8)
    (h : t.dest = (s.put etag pos xs).dest) :
    (t.put etag (pos + xs.length) ys).dest = (s.put etag pos (xs ++ ys)).dest := by
  rw [put_dest, h, put_dest, put_dest]
  by_cases hxs : xs = []
  · rw [hxs]
    rfl
  · rw [if_neg hxs, if_neg (List.append_ne_nil_of_left_ne_nil hxs ys)]
    by_cases hys : ys = []
    · rw [if_pos hys, hys, List.append_nil]
    · rw [if_neg hys, Option.getD_some, writeAt_writeAt]

end DestFiles

namespace WrittenTo

variable {remote : Remote} {before s : DestFiles} {start cursor : Nat} {data : List UInt8}

theorem begin (remote : Remote) (before : DestFiles) (start : Nat) :
    WrittenTo remote before start start before := by
  have hnone : remote.slice start start = [] := by
    unfold Remote.slice
    rw [List.drop_take, Nat.sub_self, List.take_zero]
  constructor
  · rw [hnone, Nat.sub_self]
    rfl
  · rw [hnone]
    rfl
  · exact Or.inl rfl

/-- The next piece of the version is written in its place. -/
theorem put (h : WrittenTo remote before start cursor s) (hle : start ≤ cursor)
    (hdata : data <+: remote.content.drop cursor) :
    WrittenTo remote before start (cursor + data.length) (s.put remote.etag cursor data) := by
  have hslice := Remote.slice_append hle h.whole hdata
  constructor
  · rw [hslice, List.length_append, h.whole]
    omega
  · rw [hslice, ← DestFiles.put_put_dest before remote.etag start _ data h.dest, h.whole,
      Nat.add_sub_cancel' hle]
  · rw [DestFiles.put_sidecar]
    rcases h.saved with hkept | hnone | ⟨offset, hoffset, hsaved⟩
    · exact Or.inl hkept
    · exact Or.inr (Or.inl hnone)
    · exact Or.inr (Or.inr ⟨offset, Nat.le_add_right_of_le hoffset, hsaved⟩)

theorem saveResume (h : WrittenTo remote before start cursor s) :
    WrittenTo remote before start cursor (s.saved remote.etag cursor) :=
  ⟨h.whole, h.dest, Or.inr (Or.inr ⟨cursor, Nat.le_refl _, rfl⟩)⟩

theorem tear (h : WrittenTo remote before start cursor s) :
    WrittenTo remote before start cursor { s with sidecar := none } :=
  ⟨h.whole, h.dest, Or.inr (Or.inl rfl)⟩

end WrittenTo

/-! ## The chunks to come -/

namespace BatchState

/-- The chunks that are parked, as ranges. -/
def parked (b : BatchState) : List (Nat × Nat) := b.pending.map fun c => (c.1, c.1 + c.2.length)

end BatchState

/-- The chunks to be written follow on one another from the cursor to the end; they
are the ones that have not ended yet and those that are parked, and these are pieces
of the version. -/
structure BatchInv (remote : Remote) (start stop : Nat) (remaining : List (Nat × Nat))
    (b : BatchState) : Prop extends b.Right remote.content start where
  tiles : ∃ rest, Tiles b.cursor rest stop ∧ rest.Perm (remaining ++ b.parked)

/-- Where starts differ, one start has one chunk. -/
theorem perm_cons_filter {pending : List (Nat × List UInt8)} {start : Nat} {data : List UInt8}
    (hnodup : (pending.map Prod.fst).Nodup) (hmem : (start, data) ∈ pending) :
    pending.Perm ((start, data) :: pending.filter fun c => c.1 ≠ start) := by
  induction pending with
  | nil => cases hmem
  | cons c rest ih =>
      obtain ⟨hnot, hrest⟩ := List.nodup_cons.1 (List.map_cons ▸ hnodup)
      rcases List.mem_cons.1 hmem with rfl | hmem
      · have hothers : rest.filter (fun c => c.1 ≠ start) = rest := by
          apply List.filter_eq_self.2
          intro x hx
          apply decide_eq_true
          intro hsame
          exact hnot (List.mem_map.2 ⟨x, hx, hsame⟩)
        rw [List.filter_cons_of_neg (by simp), hothers]
      · have hother : c.1 ≠ start := by
          intro hsame
          exact hnot (List.mem_map.2 ⟨_, hmem, hsame.symm⟩)
        have hkeep := List.filter_cons_of_pos (p := fun c : Nat × List UInt8 => c.1 ≠ start)
          (l := rest) (decide_eq_true hother)
        rw [hkeep]
        exact ((ih hrest hmem).cons c).trans (List.Perm.swap _ _ _)

namespace BatchInv

variable {remote : Remote} {start stop : Nat} {remaining : List (Nat × Nat)} {b : BatchState}
  {data : List UInt8}

/-- Parked chunks begin at different places, and where nothing else does. -/
theorem starts_nodup (h : BatchInv remote start stop remaining b) :
    ((remaining ++ b.parked).map Prod.fst).Nodup := by
  obtain ⟨rest, htiles, hperm⟩ := h.tiles
  exact (hperm.map Prod.fst).nodup_iff.1 htiles.starts_nodup

theorem pending_nodup (h : BatchInv remote start stop remaining b) :
    (b.pending.map Prod.fst).Nodup := by
  have hall := h.starts_nodup
  rw [List.map_append] at hall
  have hparked := (List.nodup_append.1 hall).2.1
  unfold BatchState.parked at hparked
  rw [List.map_map] at hparked
  exact hparked

/-- A chunk in flight ends and is parked. -/
theorem insert {j first last : Nat} (h : BatchInv remote start stop remaining b)
    (hj : remaining[j]? = some (first, last)) (hpiece : data <+: remote.content.drop first)
    (hlen : data.length = last - first) :
    BatchInv remote start stop (remaining.eraseIdx j) (b.insert first data) := by
  obtain ⟨hlt, hget⟩ := List.getElem?_eq_some_iff.1 hj
  have hmem : (first, last) ∈ remaining := List.mem_of_getElem? hj
  obtain ⟨rest, htiles, hperm⟩ := h.tiles
  have hbounds := htiles.bounds (hperm.mem_iff.2 (List.mem_append_left _ hmem))
  have hnew : b.pending.filter (fun c => c.1 ≠ first) = b.pending := by
    apply List.filter_eq_self.2
    intro c hc
    apply decide_eq_true
    intro hsame
    have hstarts := h.starts_nodup
    rw [List.map_append] at hstarts
    apply (List.nodup_append.1 hstarts).2.2 first (List.mem_map.2 ⟨_, hmem, rfl⟩) c.1
    · exact List.mem_map.2 ⟨_, List.mem_map.2 ⟨c, hc, rfl⟩, rfl⟩
    · exact hsame.symm
  have hparked : (b.insert first data).parked = (first, last) :: b.parked := by
    unfold BatchState.insert BatchState.parked
    dsimp only at hbounds ⊢
    rw [hnew, List.map_cons]
    dsimp only
    rw [show first + data.length = last by omega]
  constructor
  · constructor
    · intro c hc
      rcases List.mem_cons.1 hc with rfl | hc
      · exact hpiece
      · exact h.pieces c (List.mem_of_mem_filter hc)
    · exact h.cursor
  · refine ⟨rest, htiles, ?_⟩
    rw [hparked]
    have herase := List.getElem_cons_eraseIdx_perm hlt
    rw [hget] at herase
    exact hperm.trans ((herase.symm.append_right _).trans List.perm_middle.symm)

/-- The chunk at the cursor is the next one. -/
theorem advance (h : BatchInv remote start stop remaining b)
    (hdata : b.pending.lookup b.cursor = some data) :
    BatchInv remote start stop remaining (b.advance data) ∧
      data <+: remote.content.drop b.cursor ∧ b.cursor + data.length ≤ stop := by
  obtain ⟨before, after, hsplit, -⟩ := List.lookup_eq_some_iff.1 hdata
  have hmem : (b.cursor, data) ∈ b.pending := by
    rw [hsplit]
    exact List.mem_append_right _ List.mem_cons_self
  have hpending := perm_cons_filter h.pending_nodup hmem
  have hparked : b.parked.Perm
      ((b.cursor, b.cursor + data.length) :: (b.advance data).parked) :=
    hpending.map fun c : Nat × List UInt8 => (c.1, c.1 + c.2.length)
  obtain ⟨rest, htiles, hperm⟩ := h.tiles
  have hin : (b.cursor, b.cursor + data.length) ∈ rest := by
    apply hperm.mem_iff.2
    exact List.mem_append_right _ (List.mem_map.2 ⟨_, hmem, rfl⟩)
  cases htiles with
  | nil => cases hin
  | @cons _ e _ rest hlt hrest =>
      have hend : e = b.cursor + data.length := by
        rcases List.mem_cons.1 hin with heq | hlater
        · exact (congrArg Prod.snd heq).symm
        · have hbounds := (hrest.bounds hlater).1
          dsimp only at hbounds
          omega
      subst hend
      refine ⟨⟨h.toRight.advance data, rest, hrest, ?_⟩, h.pieces _ hmem, hrest.le⟩
      have hall := hperm.trans ((hparked.append_left remaining).trans List.perm_middle)
      exact hall.cons_inv

/-- When every chunk has ended and none can be flushed, all are written. -/
theorem cursor_eq (h : BatchInv remote start stop [] b)
    (hflushed : b.pending.lookup b.cursor = none) : b.cursor = stop := by
  obtain ⟨rest, htiles, hperm⟩ := h.tiles
  cases htiles with
  | nil => rfl
  | @cons _ e _ rest hlt hrest =>
      have hin : (b.cursor, e) ∈ b.parked := hperm.mem_iff.1 List.mem_cons_self
      obtain ⟨c, hc, heq⟩ := List.mem_map.1 hin
      have hother := List.lookup_eq_none_iff.1 hflushed c hc
      have hsame : c.1 = b.cursor := congrArg Prod.fst heq
      exact absurd hsame.symm (bne_iff_ne.1 hother)

theorem le_stop (h : BatchInv remote start stop remaining b) : b.cursor ≤ stop := by
  obtain ⟨rest, htiles, -⟩ := h.tiles
  exact htiles.le

end BatchInv

theorem parallelChunks_tiles (start stop chunkSize : Nat) :
    Tiles start (parallelChunks start stop chunkSize) (max start stop) := by
  have hchunk : 0 < if chunkSize = 0 then CHUNK_SIZE else chunkSize := by
    split
    · decide
    · omega
  unfold parallelChunks
  rcases Nat.le_total start stop with hle | hge
  · rw [Nat.min_eq_left hle, Nat.max_eq_right hle]
    exact chunksFrom_whole hchunk hle
  · rw [Nat.min_eq_right hge, Nat.max_eq_left hge]
    have hnone : ∀ left, chunksFrom stop (if chunkSize = 0 then CHUNK_SIZE else chunkSize) left
        stop = [] := by
      intro left
      cases left with
      | zero => rfl
      | succ left =>
          unfold chunksFrom
          exact if_neg (Nat.lt_irrefl _)
    rw [hnone]
    exact .nil start

theorem batchInv_start (remote : Remote) (start stop chunkSize : Nat) :
    BatchInv remote start (max start stop) (parallelChunks start stop chunkSize)
      ⟨[], start, 0, start⟩ := by
  constructor
  · constructor
    · intro c hc
      cases hc
    · rfl
  · refine ⟨_, parallelChunks_tiles start stop chunkSize, ?_⟩
    exact List.Perm.of_eq (List.append_nil _).symm

/-! ## The code writes prefixes -/

section Delivers

variable {cfg : NativeConfig} {remote : Remote} {before s : DestFiles} {start stop : Nat}
  {α β : Type}

/-- Some beginning of the range has been written. -/
def HoldsSome (remote : Remote) (before : DestFiles) (start stop : Nat) (s : DestFiles) : Prop :=
  ∃ cursor, start ≤ cursor ∧ cursor ≤ stop ∧ WrittenTo remote before start cursor s

/-- Some beginning of the range is all that has been written wherever the code may
stop. -/
def Delivers (cfg : NativeConfig) (remote : Remote) (before : DestFiles) (start stop : Nat)
    (p : NativeProg (Except ClientError α)) (P : α → DestFiles → Prop) (s : DestFiles) : Prop :=
  wp (NativeOp.exec cfg remote) (HoldsSome remote before start stop) p (fun r t => match r with
    | .ok a => P a t
    | .error _ => HoldsSome remote before start stop t) s

theorem delivers_okThen {p : NativeProg (Except ClientError α)}
    {f : α → NativeProg (Except ClientError β)} {P : α → DestFiles → Prop}
    {P' : β → DestFiles → Prop} (hp : Delivers cfg remote before start stop p P s)
    (hf : ∀ a t, P a t → Delivers cfg remote before start stop (f a) P' t) :
    Delivers cfg remote before start stop (okThen p f) P' s := by
  apply wp_then hp
  intro r t hr
  cases r with
  | ok a => exact hf a t hr
  | error e => exact hr

/-- Writing the next piece. -/
theorem delivers_writeAll {cursor : Nat} {data : List UInt8}
    (h : WrittenTo remote before start cursor s) (hle : start ≤ cursor)
    (hdata : data <+: remote.content.drop cursor) (hstop : cursor + data.length ≤ stop) :
    Delivers cfg remote before start stop (.writeAll cursor data)
      (fun _ t => WrittenTo remote before start (cursor + data.length) t) s := by
  refine ⟨⟨cursor, hle, by omega, h⟩, ?_⟩
  intro c t a hexec
  cases c with
  | go =>
      cases hexec
      exact h.put hle hdata
  | fail e done =>
      cases hexec
      have hpart : data.take done <+: remote.content.drop cursor :=
        (List.take_prefix done data).trans hdata
      have hshort : (data.take done).length ≤ data.length := List.length_take_le' _ _
      exact ⟨cursor + (data.take done).length, by omega, by omega, h.put hle hpart⟩
  | torn | tuned | respond | complete => cases hexec

/-- Saving the offset of what has been written. -/
theorem delivers_saveResume {cursor : Nat} {p : NativeProg (Except ClientError α)}
    {P : α → DestFiles → Prop} (h : WrittenTo remote before start cursor s)
    (hle : start ≤ cursor) (hstop : cursor ≤ stop)
    (hp : ∀ t, WrittenTo remote before start cursor t →
      Delivers cfg remote before start stop p P t) :
    Delivers cfg remote before start stop
      (.call (.saveResume remote.etag cursor) fun _ => p) P s := by
  refine ⟨⟨cursor, hle, hstop, h⟩, ?_⟩
  intro c t a hexec
  cases c with
  | go =>
      cases hexec
      exact hp _ h.saveResume
  | torn =>
      cases hexec
      exact hp _ h.tear
  | fail e done =>
      cases hexec
      exact hp _ h
  | tuned | respond | complete => cases hexec

theorem advance_length {b : BatchState} {data : List UInt8}
    (hdata : b.pending.lookup b.cursor = some data) :
    (b.advance data).pending.length < b.pending.length := by
  obtain ⟨before, after, hsplit, -⟩ := List.lookup_eq_some_iff.1 hdata
  apply List.length_filter_lt_length_iff_exists.2
  refine ⟨(b.cursor, data), ?_, by simp⟩
  rw [hsplit]
  exact List.mem_append_right _ List.mem_cons_self

/-- **Flushing** writes what is contiguous, and leaves nothing that is. -/
theorem delivers_flushPending {left : Nat} {remaining : List (Nat × Nat)} {b : BatchState}
    (hb : BatchInv remote start stop remaining b)
    (h : WrittenTo remote before start b.cursor s) (hleft : b.pending.length ≤ left) :
    Delivers cfg remote before start stop (flushPending remote.etag left b)
      (fun b t => BatchInv remote start stop remaining b ∧
        WrittenTo remote before start b.cursor t ∧ b.pending.lookup b.cursor = none) s := by
  induction left generalizing b s with
  | zero =>
      have hempty : b.pending = [] := List.eq_nil_of_length_eq_zero (Nat.le_zero.1 hleft)
      refine ⟨hb, h, ?_⟩
      rw [hempty]
      rfl
  | succ left ih =>
      unfold flushPending
      split
      · next hnone => exact ⟨hb, h, hnone⟩
      · next data hdata =>
          obtain ⟨hadvance, hpiece, hstop⟩ := hb.advance hdata
          have hshorter := advance_length hdata
          have hcursor := hb.cursor
          apply delivers_okThen (delivers_writeAll h (by omega) hpiece hstop)
          intro _ t ht
          dsimp only
          split
          · apply delivers_saveResume ht (by omega) hstop
            intro u hu
            exact ih (b := { b.advance data with lastSaved := (b.advance data).cursor })
              ⟨⟨hadvance.pieces, hadvance.cursor⟩, hadvance.tiles⟩ hu
              (Nat.le_of_lt_succ (Nat.lt_of_lt_of_le hshorter hleft))
          · exact ih hadvance ht (Nat.le_of_lt_succ (Nat.lt_of_lt_of_le hshorter hleft))

/-- **The loop of a batch**, whatever order its requests end in. -/
theorem delivers_batchLoop {window : Nat} {remaining : List (Nat × Nat)} {b : BatchState}
    (left : Nat) (hleft : remaining.length = left) (hb : BatchInv remote start stop remaining b)
    (h : WrittenTo remote before start b.cursor s)
    (hflushed : b.pending.lookup b.cursor = none) :
    Delivers cfg remote before start stop (batchLoop remote.etag window left remaining b)
      (fun got t => start + got = stop ∧ WrittenTo remote before start stop t) s := by
  induction left generalizing b s remaining with
  | zero =>
      have hnone : remaining = [] := List.eq_nil_of_length_eq_zero hleft
      subst hnone
      have hend := hb.cursor_eq hflushed
      unfold batchLoop
      refine ⟨hb.cursor.symm.trans hend, ?_⟩
      rw [← hend]
      exact h
  | succ left ih =>
      have hcursor := hb.cursor
      have hbefore : HoldsSome remote before start stop s := ⟨b.cursor, by omega, hb.le_stop, h⟩
      unfold batchLoop
      refine ⟨hbefore, ?_⟩
      intro c t ended hexec
      cases c with
      | complete i attempts =>
          obtain ⟨result, hresult, hended⟩ := Option.map_eq_some_iff.1 hexec
          cases hended
          obtain ⟨j, outcome⟩ := ended
          cases outcome with
          | error e => exact hbefore
          | ok chunk =>
              obtain ⟨first, data⟩ := chunk
              obtain ⟨hpiece, last, hj, hlen⟩ := completeRange_ok hresult
              have hrange : remaining[j]? = some (first, last) := by
                rw [List.getElem?_take] at hj
                split at hj
                · exact hj
                · cases hj
              have hshorter : (remaining.eraseIdx j).length = left := by
                rw [List.length_eraseIdx_of_lt (List.getElem?_eq_some_iff.1 hrange).1, hleft]
                exact Nat.add_sub_cancel left 1
              have hinsert := hb.insert hrange hpiece hlen
              have hrest : Delivers cfg remote before start stop
                  (okThen (flushPending remote.etag (b.insert first data).pending.length
                    (b.insert first data)) fun b =>
                      batchLoop remote.etag window left (remaining.eraseIdx j) b)
                  (fun got t => start + got = stop ∧ WrittenTo remote before start stop t) s := by
                apply delivers_okThen (delivers_flushPending hinsert h (Nat.le_refl _))
                intro b' u hu
                exact ih hshorter hu.1 hu.2.1 hu.2.2
              exact hrest
      | go | fail | torn | tuned | respond => cases hexec

theorem delivers_downloadBatch (cfg : NativeConfig) (remote : Remote) (before : DestFiles)
    (start stop window chunkSize : Nat) :
    Delivers cfg remote before start (max start stop)
      (downloadBatch remote.etag start stop window chunkSize)
      (fun got t => start + got = max start stop ∧
        WrittenTo remote before start (max start stop) t) before :=
  delivers_batchLoop _ rfl (batchInv_start remote start stop chunkSize)
    (WrittenTo.begin remote before start) rfl

end Delivers

/-! ## A batch in which nothing fails -/

/-- A range request, or a write to the destination, has failed. -/
def NativeOp.failed : (o : NativeOp) → o.Ans → Bool
  | .nextRange _, (_, .error _) => true
  | .write _ _, .error _ => true
  | _, _ => false

/-- The calls, none of which fails. -/
def NativeOp.execWell (cfg : NativeConfig) (remote : Remote) :
    Exec NativeOp NativeOp.Ans NativeChoice DestFiles := fun o c s =>
  (NativeOp.exec cfg remote o c s).filter fun answered => !NativeOp.failed o answered.2

section Well

variable {cfg : NativeConfig} {remote : Remote} {s : DestFiles} {α β : Type}

theorem exec_of_execWell {o : NativeOp} {c : NativeChoice} {r : DestFiles × o.Ans}
    (h : NativeOp.execWell cfg remote o c s = some r) :
    NativeOp.exec cfg remote o c s = some r ∧ NativeOp.failed o r.2 = false := by
  obtain ⟨hexec, hwell⟩ := Option.filter_eq_some_iff.1 h
  exact ⟨hexec, Bool.not_eq_true' _ ▸ hwell⟩

theorem run_of_execWell {p : NativeProg α} {choices : List NativeChoice}
    {r : DestFiles × Option α} (h : runBy (NativeOp.execWell cfg remote) p s choices = some r) :
    runBy (NativeOp.exec cfg remote) p s choices = some r := by
  apply runBy_mono _ h
  intro o c t answered hexec
  exact (exec_of_execWell hexec).1

/-- Where nothing fails the program ends well. -/
def EndsWell (cfg : NativeConfig) (remote : Remote) (p : NativeProg (Except ClientError α))
    (s : DestFiles) : Prop :=
  wp (NativeOp.execWell cfg remote) (fun _ => True) p (fun r _ => ∃ a, r = .ok a) s

theorem endsWell_okThen {p : NativeProg (Except ClientError α)}
    {f : α → NativeProg (Except ClientError β)} (hp : EndsWell cfg remote p s)
    (hf : ∀ a t, EndsWell cfg remote (f a) t) : EndsWell cfg remote (okThen p f) s := by
  apply wp_then hp
  intro r t hr
  obtain ⟨a, rfl⟩ := hr
  exact hf a t

theorem endsWell_writeAll (pos : Nat) (data : List UInt8) :
    EndsWell cfg remote (.writeAll pos data) s := by
  refine ⟨trivial, ?_⟩
  intro c t a hexec
  obtain ⟨-, hwell⟩ := exec_of_execWell hexec
  cases a with
  | ok u => exact ⟨u, rfl⟩
  | error e => cases hwell

theorem endsWell_flushPending (etag : Text) (left : Nat) (b : BatchState) :
    EndsWell cfg remote (flushPending etag left b) s := by
  induction left generalizing b s with
  | zero => exact ⟨b, rfl⟩
  | succ left ih =>
      unfold flushPending
      split
      · exact ⟨b, rfl⟩
      · next data _ =>
          apply endsWell_okThen (endsWell_writeAll _ _)
          intro _ t
          dsimp only
          split
          · exact ⟨trivial, fun c u _ _ => ih _⟩
          · exact ih _

theorem endsWell_batchLoop (etag : Text) (window left : Nat) (remaining : List (Nat × Nat))
    (b : BatchState) : EndsWell cfg remote (batchLoop etag window left remaining b) s := by
  induction left generalizing b s remaining with
  | zero => exact ⟨b.moved, rfl⟩
  | succ left ih =>
      refine ⟨trivial, ?_⟩
      intro c t ended hexec
      obtain ⟨-, hwell⟩ := exec_of_execWell hexec
      obtain ⟨j, outcome⟩ := ended
      cases outcome with
      | error e => cases hwell
      | ok chunk => exact endsWell_okThen (endsWell_flushPending _ _ _) fun b' u => ih _ b'

end Well

/-! ### How many calls a batch makes -/

section Calls

variable {α β : Type}

theorem callsAtMost_writeAll {n pos : Nat} {data : List UInt8}
    {g : Unit → NativeProg (Except ClientError β)} {f : β → NativeProg (Except ClientError α)}
    (h : CallsAtMost n (okThen (g ()) f)) :
    CallsAtMost (n + 1) (okThen (okThen (NativeProg.writeAll pos data) g) f) := by
  intro answer
  cases answer with
  | error e => cases n <;> trivial
  | ok u => exact h

theorem callsAtMost_saveResume {n offset : Nat} {etag : Text}
    {p : NativeProg (Except ClientError β)} {f : β → NativeProg (Except ClientError α)}
    (h : CallsAtMost n (okThen p f)) :
    CallsAtMost (n + 1) (okThen (.call (.saveResume etag offset) fun _ => p) f) :=
  fun _ => h

/-- Each chunk that is flushed costs a write and, at times, a save. -/
theorem callsAtMost_flushPending {etag : Text} {left m : Nat} {b : BatchState}
    {f : BatchState → NativeProg (Except ClientError α)}
    (hf : ∀ b, CallsAtMost (m + 2 * b.pending.length) (f b)) :
    CallsAtMost (m + 2 * b.pending.length) (okThen (flushPending etag left b) f) := by
  induction left generalizing b with
  | zero => exact hf b
  | succ left ih =>
      unfold flushPending
      split
      · exact hf b
      · next data hdata =>
          have hshorter := advance_length hdata
          have hone : m + 2 * (b.advance data).pending.length + 1 + 1 ≤
              m + 2 * b.pending.length := by omega
          apply CallsAtMost.mono _ hone
          apply callsAtMost_writeAll
          dsimp only
          split
          · apply callsAtMost_saveResume
            exact ih (b := { b.advance data with lastSaved := (b.advance data).cursor })
          · exact CallsAtMost.mono ih (Nat.le_succ _)

/-- A chunk costs a request, a write and a save. -/
theorem callsAtMost_batchLoop {etag : Text} {window : Nat} (left : Nat)
    (remaining : List (Nat × Nat)) (b : BatchState) :
    CallsAtMost (3 * left + 2 * b.pending.length) (batchLoop etag window left remaining b) := by
  induction left generalizing b remaining with
  | zero =>
      unfold batchLoop
      exact CallsAtMost.mono (m := 0) trivial (Nat.zero_le _)
  | succ left ih =>
      have hloop : CallsAtMost (3 * left + 2 * (b.pending.length + 1) + 1)
          (batchLoop etag window (left + 1) remaining b) := by
        intro ended
        obtain ⟨j, outcome⟩ := ended
        cases outcome with
        | error e => trivial
        | ok chunk =>
            obtain ⟨first, data⟩ := chunk
            have hinsert : (b.insert first data).pending.length ≤ b.pending.length + 1 :=
              Nat.succ_le_succ (List.length_filter_le _ _)
            have hflush : CallsAtMost (3 * left + 2 * (b.insert first data).pending.length)
                (okThen (flushPending etag (b.insert first data).pending.length
                  (b.insert first data)) fun b =>
                    batchLoop etag window left (remaining.eraseIdx j) b) :=
              callsAtMost_flushPending fun b' => ih _ b'
            exact hflush.mono (by omega)
      exact hloop.mono (by omega)

theorem callsAtMost_downloadBatch (etag : Text) (start stop window chunkSize : Nat) :
    CallsAtMost (3 * (parallelChunks start stop chunkSize).length)
      (downloadBatch etag start stop window chunkSize) := by
  unfold downloadBatch
  dsimp only
  apply (callsAtMost_batchLoop _ _ _).mono
  exact Nat.le_refl _

end Calls

theorem endsWell_downloadBatch (cfg : NativeConfig) (remote : Remote) (before : DestFiles)
    (start stop window chunkSize : Nat) :
    EndsWell cfg remote (downloadBatch remote.etag start stop window chunkSize) before :=
  endsWell_batchLoop _ _ _ _ _

/-- **Batches write prefixes, in whatever order their requests end.**  Wherever a batch
stands or has ended, what has been written is the beginning of its range, and no
offset beyond it has been saved; where it returns, it returns the length of the
range, and all of that is written.  Where no request fails (and no write), it returns
after at most three calls for a chunk. -/
theorem batches_write_prefixes (cfg : NativeConfig) (remote : Remote) (before : DestFiles)
    (start stop window chunkSize : Nat) (horder : start ≤ stop) :
    (∀ choices t result, runBy (NativeOp.exec cfg remote)
      (downloadBatch remote.etag start stop window chunkSize) before choices =
        some (t, result) →
      (∃ cursor, start ≤ cursor ∧ cursor ≤ stop ∧ WrittenTo remote before start cursor t) ∧
        ∀ got, result = some (.ok got) →
          got = stop - start ∧ WrittenTo remote before start stop t) ∧
    ∀ choices t result, runBy (NativeOp.execWell cfg remote)
      (downloadBatch remote.etag start stop window chunkSize) before choices =
        some (t, result) →
      3 * (parallelChunks start stop chunkSize).length ≤ choices.length →
      result = some (.ok (stop - start)) ∧ WrittenTo remote before start stop t := by
  have hdelivers := delivers_downloadBatch cfg remote before start stop window chunkSize
  rw [Nat.max_eq_right horder] at hdelivers
  have hreturned : ∀ choices t got, runBy (NativeOp.exec cfg remote)
      (downloadBatch remote.etag start stop window chunkSize) before choices =
        some (t, some (.ok got)) →
      got = stop - start ∧ WrittenTo remote before start stop t := by
    intro choices t got hrun
    obtain ⟨hmoved, hwritten⟩ := (runBy_of_wp hdelivers hrun).1 _ rfl
    exact ⟨by omega, hwritten⟩
  constructor
  · intro choices t result hrun
    constructor
    · obtain ⟨hended, hstopped⟩ := runBy_of_wp hdelivers hrun
      cases result with
      | none => exact hstopped rfl
      | some outcome =>
          cases outcome with
          | ok got => exact ⟨stop, horder, Nat.le_refl _, (hreturned choices t got hrun).2⟩
          | error e => exact hended _ rfl
    · intro got hgot
      exact hreturned choices t got (hgot ▸ hrun)
  · intro choices t result hwell hlong
    obtain ⟨outcome, rfl⟩ := ends_of_callsAtMost
      (callsAtMost_downloadBatch remote.etag start stop window chunkSize) hwell hlong
    obtain ⟨got, rfl⟩ := (runBy_of_wp (endsWell_downloadBatch cfg remote before start stop window
      chunkSize) hwell).1 outcome rfl
    obtain ⟨hgot, hwritten⟩ := hreturned choices t got (run_of_execWell hwell)
    rw [hgot]
    exact ⟨rfl, hwritten⟩

/-- The second chunk of a batch arrives before the first, which is tried twice. -/
theorem swapped_batch_writes_prefix :
    ∃ t, runBy (NativeOp.execWell sampleConfig ⟨"a".toList, [1, 2, 3, 4, 5]⟩)
        (downloadBatch "a".toList 1 5 2 2) emptyDest
        [.complete 1 [.ok [4, 5]], .complete 0 [.error (.network []), .ok [2, 3]],
          .go, .go, .go, .go] = some (t, some (.ok 4)) ∧
      t.dest = some [none, some 2, some 3, some 4, some 5] ∧
      WrittenTo ⟨"a".toList, [1, 2, 3, 4, 5]⟩ emptyDest 1 5 t := by
  have hrun : ((runBy (NativeOp.execWell sampleConfig ⟨"a".toList, [1, 2, 3, 4, 5]⟩)
      (downloadBatch "a".toList 1 5 2 2) emptyDest
      [.complete 1 [.ok [4, 5]], .complete 0 [.error (.network []), .ok [2, 3]],
        .go, .go, .go, .go]).any fun ended =>
          ended.1.dest = some [none, some 2, some 3, some 4, some 5]) = true := by
    decide +kernel
  obtain ⟨⟨t, result⟩, ht, hdest⟩ := (Option.any_eq_true _ _).1 hrun
  obtain ⟨hresult, hwritten⟩ := (batches_write_prefixes sampleConfig
    ⟨"a".toList, [1, 2, 3, 4, 5]⟩ emptyDest 1 5 2 2 (by decide)).2 _ t result ht (by decide)
  subst hresult
  exact ⟨t, ht, of_decide_eq_true hdest, hwritten⟩

end Libfw

import Libfw.BrowserDownload
import Libfw.ReceivedRanges
import Libfw.ServerErrors
import Libfw.UploadPlans

/-!
# Every way of cutting a file up

The batches of both download engines, planned with whatever window and chunk size the tuner
supplies before each (`batch_span` and `parallel_chunks` of the native client, `chunk_batch`
of the browser), `chunk_bounds`, and `TransferPlan::with_chunk_size` of
`libfw-core/src/metadata.rs`.

* `batches_plan_once` — both loops end, keep to window and chunk size, and plan every byte
  once; at a constant chunk size all four agree.
-/

namespace Libfw

/-! ## Consecutive ranges -/

/-- Non-empty ranges, each beginning where the one before ends, from `a` to `b`. -/
inductive Tiles : Nat → List (Nat × Nat) → Nat → Prop where
  | nil (a : Nat) : Tiles a [] a
  | cons {a e b : Nat} {rest : List (Nat × Nat)} : a < e → Tiles e rest b →
      Tiles a ((a, e) :: rest) b

namespace Tiles

variable {a b c : Nat} {xs ys : List (Nat × Nat)}

theorem le (h : Tiles a xs b) : a ≤ b := by
  induction h with
  | nil => exact Nat.le_refl _
  | cons hlt _ ih => omega

theorem append (h : Tiles a xs b) (h' : Tiles b ys c) : Tiles a (xs ++ ys) c := by
  induction h with
  | nil => exact h'
  | cons hlt _ ih => exact .cons hlt (ih h')

theorem bounds (h : Tiles a xs b) {r : Nat × Nat} (hr : r ∈ xs) :
    a ≤ r.1 ∧ r.1 < r.2 ∧ r.2 ≤ b := by
  induction h with
  | nil => cases hr
  | cons hlt hrest ih =>
      have hle := hrest.le
      rcases List.mem_cons.1 hr with rfl | hr
      · exact ⟨Nat.le_refl _, hlt, hle⟩
      · have hin := ih hr
        omega

/-- The ranges stand in increasing order and do not overlap. -/
theorem ordered (h : Tiles a xs b) : xs.Pairwise fun r t => r.2 ≤ t.1 := by
  induction h with
  | nil => exact List.Pairwise.nil
  | cons hlt hrest ih => exact List.pairwise_cons.2 ⟨fun t ht => (hrest.bounds ht).1, ih⟩

/-- They begin at different places. -/
theorem starts_nodup (h : Tiles a xs b) : (xs.map Prod.fst).Nodup := by
  induction h with
  | nil => exact List.nodup_nil
  | cons hlt hrest ih =>
      rw [List.map_cons, List.nodup_cons]
      refine ⟨?_, ih⟩
      intro hmem
      obtain ⟨r, hr, hstart⟩ := List.mem_map.1 hmem
      have hafter := (hrest.bounds hr).1
      dsimp only at hstart
      omega

/-- The first of them begins where they all begin. -/
theorem head_start (h : Tiles a xs b) {r : Nat × Nat} (hr : xs.head? = some r) : r.1 = a := by
  cases h with
  | nil => cases hr
  | cons hlt hrest =>
      cases hr
      rfl

/-- Every position lies in one of them. -/
theorem covers_iff (h : Tiles a xs b) (x : Nat) :
    (∃ r ∈ xs, r.1 ≤ x ∧ x < r.2) ↔ a ≤ x ∧ x < b := by
  constructor
  · intro hx
    obtain ⟨r, hr, hlo, hhi⟩ := hx
    have hin := h.bounds hr
    omega
  · intro hx
    induction h with
    | nil => omega
    | @cons a e b rest hlt hrest ih =>
        by_cases hfirst : x < e
        · exact ⟨(a, e), List.mem_cons_self, hx.1, hfirst⟩
        · obtain ⟨r, hr, hin⟩ := ih (by omega)
          exact ⟨r, List.mem_cons_of_mem _ hr, hin⟩

/-- Where each range ends is known from where it begins: there is one such list. -/
theorem unique {f : Nat → Nat} (h : Tiles a xs b) (h' : Tiles a ys b)
    (hxs : ∀ r ∈ xs, r.2 = f r.1) (hys : ∀ r ∈ ys, r.2 = f r.1) : xs = ys := by
  induction h generalizing ys with
  | nil =>
      cases h' with
      | nil => rfl
      | cons hlt hrest =>
          have hle := hrest.le
          omega
  | @cons a e b rest hlt hrest ih =>
      have hle := hrest.le
      cases h' with
      | nil => omega
      | @cons _ e' _ rest' _ hrest' =>
          have hsame : e = e' :=
            (hxs _ List.mem_cons_self).trans (hys _ List.mem_cons_self).symm
          subst hsame
          rw [ih hrest' (fun r hr => hxs r (List.mem_cons_of_mem _ hr))
            fun r hr => hys r (List.mem_cons_of_mem _ hr)]

/-- The bytes in all of them. -/
theorem total (h : Tiles a xs b) : a + (xs.map fun r => r.2 - r.1).sum = b := by
  induction h with
  | nil => rfl
  | cons hlt _ ih =>
      rw [List.map_cons, List.sum_cons]
      omega

end Tiles

/-! ## The cutting loop -/

section Chunks

variable {size chunkSize : Nat}

/-- The loop covers what its rounds allow. -/
theorem chunksFrom_tiles (hchunk : 0 < chunkSize) (n : Nat) {offset : Nat} (hoff : offset ≤ size) :
    Tiles offset (chunksFrom size chunkSize n offset) (min (offset + n * chunkSize) size) := by
  induction n generalizing offset with
  | zero =>
      rw [Nat.zero_mul, Nat.add_zero, Nat.min_eq_left hoff]
      exact .nil offset
  | succ n ih =>
      unfold chunksFrom
      by_cases hlt : offset < size
      · rw [if_pos hlt]
        have hrest := ih (Nat.min_le_right (offset + chunkSize) size)
        have hend : min (min (offset + chunkSize) size + n * chunkSize) size =
            min (offset + (n + 1) * chunkSize) size := by
          rw [Nat.succ_mul]
          omega
        rw [hend] at hrest
        exact .cons (by omega) hrest
      · rw [if_neg hlt]
        have hsame : min (offset + (n + 1) * chunkSize) size = offset := by omega
        rw [hsame]
        exact .nil offset

/-- Each chunk begins on the grid and is as long as it may be. -/
theorem mem_chunksFrom {n offset : Nat} {r : Nat × Nat}
    (h : r ∈ chunksFrom size chunkSize n offset) :
    r.1 < size ∧ r.2 = min (r.1 + chunkSize) size ∧ ∃ k < n, r.1 = offset + k * chunkSize := by
  induction n generalizing offset with
  | zero => cases h
  | succ n ih =>
      unfold chunksFrom at h
      by_cases hlt : offset < size
      · rw [if_pos hlt] at h
        rcases List.mem_cons.1 h with rfl | h
        · exact ⟨hlt, rfl, 0, Nat.succ_pos n, by omega⟩
        · obtain ⟨hsize, hend, k, hk, hstart⟩ := ih h
          refine ⟨hsize, hend, k + 1, Nat.succ_lt_succ hk, ?_⟩
          rw [Nat.succ_mul]
          omega
      · rw [if_neg hlt] at h
        cases h

/-- There are no more chunks than it takes. -/
theorem length_chunksFrom_le {w : Nat} (n : Nat) {offset : Nat}
    (hspan : size ≤ offset + w * chunkSize) :
    (chunksFrom size chunkSize n offset).length ≤ w := by
  induction n generalizing offset w with
  | zero => exact Nat.zero_le w
  | succ n ih =>
      unfold chunksFrom
      by_cases hlt : offset < size
      · rw [if_pos hlt]
        cases w with
        | zero => omega
        | succ w =>
            apply Nat.succ_le_succ
            apply ih
            rw [Nat.succ_mul] at hspan
            omega
      · rw [if_neg hlt]
        exact Nat.zero_le w

theorem length_chunksFrom_fuel (n offset : Nat) :
    (chunksFrom size chunkSize n offset).length ≤ n := by
  induction n generalizing offset with
  | zero => exact Nat.le_refl 0
  | succ n ih =>
      unfold chunksFrom
      split
      · exact Nat.succ_le_succ (ih _)
      · exact Nat.zero_le _

/-- With as many rounds as bytes the loop comes to the end. -/
theorem chunksFrom_whole (hchunk : 0 < chunkSize) {offset : Nat} (hoff : offset ≤ size) :
    Tiles offset (chunksFrom size chunkSize size offset) size := by
  have h := chunksFrom_tiles hchunk size hoff
  have hmul : size ≤ size * chunkSize := Nat.le_mul_of_pos_right size hchunk
  rw [Nat.min_eq_right (by omega)] at h
  exact h

end Chunks

theorem chunkBounds_tiles {size chunkSize start : Nat} (hchunk : 0 < chunkSize)
    (hstart : start ≤ size) : Tiles start (chunkBounds size chunkSize start) size := by
  unfold chunkBounds
  rw [Nat.min_eq_left hstart]
  exact chunksFrom_whole hchunk hstart

/-- A list of chunks of a constant size is that of `chunk_bounds`. -/
theorem eq_chunkBounds {size chunkSize start : Nat} (hchunk : 0 < chunkSize) {xs : List (Nat × Nat)}
    (htiles : Tiles start xs size) (hxs : ∀ r ∈ xs, r.2 = min (r.1 + chunkSize) size) :
    xs = chunkBounds size chunkSize start :=
  htiles.unique (f := fun s => min (s + chunkSize) size) (chunkBounds_tiles hchunk htiles.le) hxs
    fun _ hr => (mem_chunksFrom hr).2.1

/-! ## Batches -/

/-- The batches of the native loop: before batch `n` the tuner supplies `params n`, window and
chunk size; `none` where the rounds run out. -/
def nativeBatches (size : Nat) (params : Nat → Nat × Nat) :
    Nat → Nat → Nat → Option (List (List (Nat × Nat)))
  | 0, _, _ => none
  | left + 1, n, cursor =>
      if cursor < size then
        let window := max (params n).1 1
        let chunkSize := max (params n).2 1
        let stop := satAdd cursor (batchSpan (size - cursor) chunkSize window)
        (nativeBatches size params left (n + 1) stop).map (parallelChunks cursor stop chunkSize :: ·)
      else some []

/-- The batches of the browser loop. -/
def browserBatches (size : Nat) (params : Nat → Nat × Nat) :
    Nat → Nat → Nat → Option (List (List (Nat × Nat)))
  | 0, _, _ => none
  | left + 1, n, contiguous =>
      if contiguous < size then
        let window := max (params n).1 1
        let chunkSize := max (params n).2 1
        let batch := chunkBatch contiguous size chunkSize window
        let stop := batch.foldl (fun contiguous r => satAdd contiguous (r.2 - r.1)) contiguous
        (browserBatches size params left (n + 1) stop).map (batch :: ·)
      else some []

/-- Rust's `u64::saturating_mul`. -/
def satMul (a b : Nat) : Nat := min (a * b) (2 ^ 64 - 1)

/-- The product of `batch_span` may saturate: what is left of the file is below that. -/
theorem batchSpan_saturating {remaining chunkSize window : Nat} (hchunk : chunkSize < 2 ^ 64)
    (hremaining : remaining < 2 ^ 64) :
    batchSpan remaining chunkSize window =
      min (max (satMul (max chunkSize 1) (max window 1)) (max chunkSize 1)) (max remaining 1) := by
  unfold batchSpan satMul
  dsimp only
  omega

/-! ### What one batch plans -/

/-- A batch from the cursor on: consecutive chunks, no more than the window, none longer than
the chunk size, and shorter only at the end of the file. -/
structure BatchPlan (size window chunkSize cursor : Nat) (batch : List (Nat × Nat))
    (stop : Nat) : Prop where
  tiles : Tiles cursor batch stop
  moves : cursor < stop
  within : stop ≤ size
  few : batch.length ≤ window
  grid : ∀ r ∈ batch, r.2 = min (r.1 + chunkSize) size

/-- What the browser moves its offset by: the chunks' lengths. -/
theorem Tiles.foldl_satAdd {xs : List (Nat × Nat)} {a b : Nat} (h : Tiles a xs b) (hb : b < 2 ^ 64) :
    xs.foldl (fun offset r => satAdd offset (r.2 - r.1)) a = b := by
  induction h with
  | nil => rfl
  | @cons a e b rest hae hrest ih =>
      have hle := hrest.le
      have hnext : satAdd a (e - a) = e := by
        unfold satAdd
        omega
      rw [List.foldl_cons, hnext]
      exact ih hb

section Batches

variable {size window chunkSize cursor : Nat} (hlt : cursor < size) (hwindow : 1 ≤ window)
  (hchunk : 1 ≤ chunkSize) (hsmall : size + chunkSize < 2 ^ 64)

include hlt hwindow hchunk hsmall

theorem batchPlan_native :
    BatchPlan size window chunkSize cursor
      (parallelChunks cursor (satAdd cursor (batchSpan (size - cursor) chunkSize window)) chunkSize)
      (satAdd cursor (batchSpan (size - cursor) chunkSize window)) := by
  have hprod : chunkSize ≤ chunkSize * window := Nat.le_mul_of_pos_right chunkSize hwindow
  have hstop : satAdd cursor (batchSpan (size - cursor) chunkSize window) =
      min (cursor + chunkSize * window) size := by
    unfold satAdd batchSpan
    dsimp only
    rw [Nat.max_eq_left hchunk, Nat.max_eq_left hwindow, Nat.max_eq_left hprod]
    omega
  rw [hstop]
  have hchunks : parallelChunks cursor (min (cursor + chunkSize * window) size) chunkSize =
      chunksFrom (min (cursor + chunkSize * window) size) chunkSize
        (min (cursor + chunkSize * window) size) cursor := by
    unfold parallelChunks
    rw [if_neg (by omega),
      Nat.min_eq_left (show cursor ≤ min (cursor + chunkSize * window) size by omega)]
  rw [hchunks]
  constructor
  · exact chunksFrom_whole hchunk (by omega)
  · omega
  · omega
  · apply length_chunksFrom_le
    rw [Nat.mul_comm]
    omega
  · intro r hr
    obtain ⟨hstart, hend, k, -, hk⟩ := mem_chunksFrom hr
    rw [hend]
    -- a chunk that the end of the batch cut short would begin beyond the window
    by_cases hfits : r.1 + chunkSize ≤ cursor + chunkSize * window
    · omega
    · have hkw : k < window := by
        by_contra hge
        have hmul : chunkSize * window ≤ k * chunkSize := by
          rw [Nat.mul_comm]
          exact Nat.mul_le_mul_right chunkSize (by omega)
        omega
      have hmul : (k + 1) * chunkSize ≤ window * chunkSize := Nat.mul_le_mul_right chunkSize hkw
      rw [Nat.succ_mul, Nat.mul_comm window] at hmul
      omega

theorem batchPlan_browser :
    BatchPlan size window chunkSize cursor (chunkBatch cursor size chunkSize window)
      ((chunkBatch cursor size chunkSize window).foldl
        (fun contiguous r => satAdd contiguous (r.2 - r.1)) cursor) := by
  have hchunks : chunkBatch cursor size chunkSize window =
      chunksFrom size chunkSize window cursor := by
    unfold chunkBatch
    rw [if_neg (by omega), Nat.min_eq_left (by omega)]
  have htiles := chunksFrom_tiles hchunk window (Nat.le_of_lt hlt)
  have hmul : chunkSize ≤ window * chunkSize := Nat.le_mul_of_pos_left chunkSize hwindow
  rw [hchunks, htiles.foldl_satAdd (by omega)]
  constructor
  · exact htiles
  · omega
  · omega
  · exact length_chunksFrom_fuel window cursor
  · intro r hr
    exact (mem_chunksFrom hr).2.1

end Batches

/-! ### All batches -/

/-- The batches of a whole file, from the cursor on. -/
inductive Planned (size : Nat) (params : Nat → Nat × Nat) :
    Nat → Nat → List (List (Nat × Nat)) → Prop where
  | done (n : Nat) : Planned size params n size []
  | batch {n cursor stop : Nat} {batch : List (Nat × Nat)} {rest : List (List (Nat × Nat))} :
      BatchPlan size (params n).1 (params n).2 cursor batch stop →
        Planned size params (n + 1) stop rest → Planned size params n cursor (batch :: rest)

/-- Window and chunk size, as the tuner may supply them. -/
def Sensible (size : Nat) (params : Nat → Nat × Nat) : Prop :=
  ∀ n, 1 ≤ (params n).1 ∧ 1 ≤ (params n).2 ∧ size + (params n).2 < 2 ^ 64

section Loops

variable {size : Nat} {params : Nat → Nat × Nat}

/-- A loop that plans a batch after the other ends, and has planned the file. -/
theorem loop_planned {loop : Nat → Nat → Nat → Option (List (List (Nat × Nat)))}
    (hend : ∀ left n, loop (left + 1) n size = some [])
    (hturn : ∀ left n cursor, cursor < size → ∃ batch stop,
      BatchPlan size (params n).1 (params n).2 cursor batch stop ∧
        loop (left + 1) n cursor = (loop left (n + 1) stop).map (batch :: ·))
    {left n cursor : Nat} (hcursor : cursor ≤ size) (hleft : size < cursor + left) :
    ∃ batches, loop left n cursor = some batches ∧ Planned size params n cursor batches := by
  induction left generalizing n cursor with
  | zero => omega
  | succ left ih =>
      by_cases hlt : cursor < size
      · obtain ⟨batch, stop, hplan, hloop⟩ := hturn left n cursor hlt
        have hmoves := hplan.moves
        obtain ⟨rest, hrest, hplanned⟩ := ih (n := n + 1) hplan.within (by omega)
        rw [hloop, hrest]
        exact ⟨_, rfl, .batch hplan hplanned⟩
      · obtain rfl : cursor = size := by omega
        exact ⟨[], hend left n, .done n⟩

/-- **The native loop ends, and has planned the file.** -/
theorem nativeBatches_planned (hparams : Sensible size params) {left n cursor : Nat}
    (hcursor : cursor ≤ size) (hleft : size < cursor + left) :
    ∃ batches, nativeBatches size params left n cursor = some batches ∧
      Planned size params n cursor batches := by
  apply loop_planned (fun left n => if_neg (Nat.lt_irrefl size)) _ hcursor hleft
  intro left n cursor hlt
  obtain ⟨hwindow, hchunk, hsmall⟩ := hparams n
  refine ⟨_, _, batchPlan_native hlt hwindow hchunk hsmall, ?_⟩
  rw [nativeBatches, if_pos hlt]
  simp only [Nat.max_eq_left hwindow, Nat.max_eq_left hchunk]

/-- **The browser loop ends, and has planned the file.** -/
theorem browserBatches_planned (hparams : Sensible size params) {left n cursor : Nat}
    (hcursor : cursor ≤ size) (hleft : size < cursor + left) :
    ∃ batches, browserBatches size params left n cursor = some batches ∧
      Planned size params n cursor batches := by
  apply loop_planned (fun left n => if_neg (Nat.lt_irrefl size)) _ hcursor hleft
  intro left n cursor hlt
  obtain ⟨hwindow, hchunk, hsmall⟩ := hparams n
  refine ⟨_, _, batchPlan_browser hlt hwindow hchunk hsmall, ?_⟩
  rw [browserBatches, if_pos hlt]
  simp only [Nat.max_eq_left hwindow, Nat.max_eq_left hchunk]

variable {n cursor : Nat} {batches : List (List (Nat × Nat))}

theorem Planned.tiles (h : Planned size params n cursor batches) :
    Tiles cursor batches.flatten size := by
  induction h with
  | done => exact .nil size
  | batch hplan _ ih => exact hplan.tiles.append ih

/-- What batch `i` keeps to. -/
theorem Planned.batch_bounds (h : Planned size params n cursor batches) {i : Nat}
    {batch : List (Nat × Nat)} (hi : batches[i]? = some batch) :
    batch.length ≤ (params (n + i)).1 ∧
      ∀ r ∈ batch, 1 ≤ r.2 - r.1 ∧ r.2 - r.1 ≤ (params (n + i)).2 := by
  induction h generalizing i with
  | done => cases hi
  | @batch n cursor stop first rest hplan _ ih =>
      cases i with
      | zero =>
          cases hi
          refine ⟨hplan.few, ?_⟩
          intro r hr
          have hin := hplan.tiles.bounds hr
          have hend := hplan.grid r hr
          rw [Nat.add_zero]
          omega
      | succ i =>
          have hnext := ih (i := i) hi
          rw [show n + (i + 1) = n + 1 + i by omega]
          exact hnext

theorem Planned.grid (h : Planned size params n cursor batches) {chunkSize : Nat}
    (hconst : ∀ k, (params k).2 = chunkSize) :
    ∀ r ∈ batches.flatten, r.2 = min (r.1 + chunkSize) size := by
  induction h with
  | done =>
      intro r hr
      cases hr
  | batch hplan _ ih =>
      intro r hr
      rcases List.mem_append.1 hr with hr | hr
      · rw [← hconst]
        exact hplan.grid r hr
      · exact ih r hr

end Loops

/-! ## Transfer plans -/

/-- `ChunkMeta`. -/
structure ChunkMeta where
  index : Nat
  offset : Nat
  size : Nat
  deriving DecidableEq

/-- `TransferPlan`. -/
structure TransferPlan where
  file : FileMeta
  chunkSize : Nat
  chunks : List ChunkMeta
  deriving DecidableEq

/-- The loop of `with_chunk_size`; the index is the number of chunks so far, as a `u32`. -/
def planChunks (size chunkSize : Nat) : Nat → Nat → Nat → List ChunkMeta
  | 0, _, _ => []
  | left + 1, count, offset =>
      if offset < size then
        let len := min chunkSize (size - offset)
        ⟨count % 2 ^ 32, offset, len⟩ :: planChunks size chunkSize left (count + 1) (offset + len)
      else []

/-- `TransferPlan::with_chunk_size`; `none` where the assertion on the chunk size fails. -/
def TransferPlan.withChunkSize (file : FileMeta) (chunkSize : Nat) : Option TransferPlan :=
  if chunkSize = 0 then none
  else
    let chunks := planChunks file.size chunkSize file.size 0 0
    some ⟨file, chunkSize, if file.size = 0 then chunks ++ [⟨0, 0, 0⟩] else chunks⟩

/-- The ranges of a plan. -/
def TransferPlan.ranges (plan : TransferPlan) : List (Nat × Nat) :=
  plan.chunks.map fun c => (c.offset, c.offset + c.size)

/-- The loop cuts as `chunk_bounds` does. -/
theorem planChunks_ranges {size chunkSize : Nat} (left count : Nat) {offset : Nat} :
    (planChunks size chunkSize left count offset).map (fun c => (c.offset, c.offset + c.size)) =
      chunksFrom size chunkSize left offset := by
  induction left generalizing count offset with
  | zero => rfl
  | succ left ih =>
      unfold planChunks chunksFrom
      by_cases hlt : offset < size
      · have hend : offset + min chunkSize (size - offset) = min (offset + chunkSize) size := by
          omega
        rw [if_pos hlt, if_pos hlt]
        dsimp only
        rw [List.map_cons, ih, hend]
      · rw [if_neg hlt, if_neg hlt]
        rfl

theorem planChunks_index {size chunkSize left count offset i : Nat} {c : ChunkMeta}
    (h : (planChunks size chunkSize left count offset)[i]? = some c) :
    c.index = (count + i) % 2 ^ 32 := by
  induction left generalizing count offset i with
  | zero => cases h
  | succ left ih =>
      unfold planChunks at h
      by_cases hlt : offset < size
      · rw [if_pos hlt] at h
        cases i with
        | zero =>
            cases h
            rfl
        | succ i =>
            rw [ih (i := i) h]
            congr 1
            omega
      · rw [if_neg hlt] at h
        cases h

/-- The plan of a file lists its chunks, each at its index. -/
structure PlanAgrees (plan : TransferPlan) (bounds : List (Nat × Nat)) : Prop where
  ranges : plan.ranges = bounds
  index : ∀ (i : Nat) (c : ChunkMeta), plan.chunks[i]? = some c → c.index = i

theorem withChunkSize_agrees {file : FileMeta} {chunkSize : Nat} (hchunk : 0 < chunkSize)
    (hsize : 0 < file.size) (hcount : (chunkBounds file.size chunkSize 0).length ≤ 2 ^ 32) :
    ∃ plan, TransferPlan.withChunkSize file chunkSize = some plan ∧
      PlanAgrees plan (chunkBounds file.size chunkSize 0) := by
  have hranges : (planChunks file.size chunkSize file.size 0 0).map
      (fun c => (c.offset, c.offset + c.size)) = chunkBounds file.size chunkSize 0 := by
    unfold chunkBounds
    rw [planChunks_ranges, Nat.min_eq_left (Nat.zero_le _)]
  refine ⟨⟨file, chunkSize, planChunks file.size chunkSize file.size 0 0⟩, ?_, hranges, ?_⟩
  · unfold TransferPlan.withChunkSize
    rw [if_neg (by omega)]
    dsimp only
    rw [if_neg (by omega)]
  · intro i c hc
    have hlen : i < (chunkBounds file.size chunkSize 0).length := by
      rw [← hranges, List.length_map]
      exact (List.getElem?_eq_some_iff.1 hc).1
    rw [planChunks_index hc, Nat.zero_add]
    exact Nat.mod_eq_of_lt (by omega)

/-! ## Every byte is planned once -/

/-- Batches plan every byte of `[start, size)` once, in order, and each keeps to its window and
chunk size. -/
structure PlansOnce (size start : Nat) (params : Nat → Nat × Nat)
    (batches : List (List (Nat × Nat))) : Prop where
  tiles : Tiles start batches.flatten size
  bounded : ∀ (i : Nat) (batch : List (Nat × Nat)), batches[i]? = some batch → batch.length ≤ (params i).1 ∧
    ∀ r ∈ batch, 1 ≤ r.2 - r.1 ∧ r.2 - r.1 ≤ (params i).2
  constant : ∀ chunkSize, (∀ n, (params n).2 = chunkSize) →
    batches.flatten = chunkBounds size chunkSize start

theorem Planned.once {size start : Nat} {params : Nat → Nat × Nat}
    {batches : List (List (Nat × Nat))} (hparams : Sensible size params)
    (h : Planned size params 0 start batches) : PlansOnce size start params batches where
  tiles := h.tiles
  bounded := by
    intro i batch hi
    have hbounds := h.batch_bounds hi
    rw [Nat.zero_add] at hbounds
    exact hbounds
  constant := by
    intro chunkSize hconst
    have hchunk : 0 < chunkSize := by
      rw [← hconst 0]
      exact (hparams 0).2.1
    exact eq_chunkBounds hchunk h.tiles (h.grid hconst)

/-- **Whatever the tuner supplies, both loops end and plan every byte once; at a constant chunk
size they, `chunk_bounds` and the transfer plan agree.** -/
theorem batches_plan_once {size start : Nat} {params : Nat → Nat × Nat} (hstart : start ≤ size)
    (hparams : Sensible size params) :
    (∃ batches, nativeBatches size params (size - start + 1) 0 start = some batches ∧
      PlansOnce size start params batches) ∧
    (∃ batches, browserBatches size params (size - start + 1) 0 start = some batches ∧
      PlansOnce size start params batches) ∧
    ∀ (file : FileMeta) (chunkSize : Nat), file.size = size → 0 < size → 0 < chunkSize →
      (chunkBounds size chunkSize 0).length ≤ 2 ^ 32 →
        ∃ plan, TransferPlan.withChunkSize file chunkSize = some plan ∧
          PlanAgrees plan (chunkBounds size chunkSize 0) := by
  refine ⟨?_, ?_, ?_⟩
  · obtain ⟨batches, hrun, hplanned⟩ := nativeBatches_planned hparams (n := 0) hstart
      (show size < start + (size - start + 1) by omega)
    exact ⟨batches, hrun, hplanned.once hparams⟩
  · obtain ⟨batches, hrun, hplanned⟩ := browserBatches_planned hparams (n := 0) hstart
      (show size < start + (size - start + 1) by omega)
    exact ⟨batches, hrun, hplanned.once hparams⟩
  · intro file chunkSize hfile hsize hchunk hcount
    subst hfile
    exact withChunkSize_agrees hchunk hsize hcount

/-! ### A ramp -/

/-- The window doubles and the chunk size grows with every batch. -/
def rampParams (n : Nat) : Nat × Nat := (min (2 ^ n) 8, min (n + 2) 5)

theorem ramp_plans_once :
    (∃ batches, nativeBatches 20 rampParams 18 0 3 = some batches ∧
      PlansOnce 20 3 rampParams batches) ∧
    (∃ batches, browserBatches 20 rampParams 18 0 3 = some batches ∧
      PlansOnce 20 3 rampParams batches) ∧
    ∀ (file : FileMeta) (chunkSize : Nat), file.size = 20 → 0 < 20 → 0 < chunkSize →
      (chunkBounds 20 chunkSize 0).length ≤ 2 ^ 32 →
        ∃ plan, TransferPlan.withChunkSize file chunkSize = some plan ∧
          PlanAgrees plan (chunkBounds 20 chunkSize 0) := by
  apply batches_plan_once (by decide : 3 ≤ 20)
  intro n
  have hpow : 1 ≤ 2 ^ n := Nat.one_le_two_pow
  unfold rampParams
  dsimp only
  omega

example : nativeBatches 20 rampParams 18 0 3 =
    some [[(3, 5)], [(5, 8), (8, 11)], [(11, 15), (15, 19), (19, 20)]] := by decide

end Libfw

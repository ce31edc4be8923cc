import Libfw.TransferPlans

/-!
# What an upload still has to send

`chunk_bounds` of `libfw-client/src/plan.rs`, `missing_ranges` and `aligned_missing`
of `libfw-client/src/upload.rs`: the blocks of a file, at the chunk size of the
moment, less what the server reports.  Sizes stay below `2^63`, so that no sum
overflows.
-/

namespace Libfw

/-- `chunk_bounds`: the chunks of a file, from a resume offset on. -/
def chunkBounds (size chunkSize start : Nat) : List (Nat × Nat) :=
  chunksFrom size chunkSize size (min start size)

/-- What of a missing range lies outside the received range `[rs, re)`. -/
def cutOut (rs re : Nat) : Nat × Nat → List (Nat × Nat)
  | (ms, me) =>
      if re ≤ ms ∨ me ≤ rs then [(ms, me)]
      else (if ms < rs then [(ms, rs)] else []) ++ (if re < me then [(re, me)] else [])

/-- One received range of `missing_ranges`, clamped to `[start, stop)`. -/
def takeReceived (start stop : Nat) (missing : List (Nat × Nat)) (range : Nat × Nat) :
    List (Nat × Nat) :=
  let rs := max range.1 start
  let re := max (min range.2 stop) rs
  if re ≤ rs then missing else missing.flatMap (cutOut rs re)

/-- `missing_ranges`: the parts of `[start, stop)` no received range covers. -/
def missingRanges (start stop : Nat) (received : List (Nat × Nat)) : List (Nat × Nat) :=
  received.foldl (takeReceived start stop) [(start, stop)]

/-- `aligned_missing`. -/
def alignedMissing (size chunkSize : Nat) (received : List (Nat × Nat)) : List (Nat × Nat) :=
  (chunkBounds size chunkSize 0).flatMap fun (start, stop) => missingRanges start stop received

/-- An empty file has nothing to send. -/
theorem alignedMissing_empty (chunkSize : Nat) (received : List (Nat × Nat)) :
    alignedMissing 0 chunkSize received = [] := rfl

/-- A file in one chunk, none of it received. -/
theorem alignedMissing_whole {size : Nat} (h : 0 < size) :
    alignedMissing size size [] = [(0, size)] := by
  obtain ⟨n, rfl⟩ : ∃ n, size = n + 1 := ⟨size - 1, by omega⟩
  have hlast : chunksFrom (n + 1) (n + 1) n (n + 1) = [] := by
    cases n with
    | zero => rfl
    | succ m => exact if_neg (Nat.lt_irrefl _)
  have hchunks : chunkBounds (n + 1) (n + 1) 0 = [(0, n + 1)] := by
    unfold chunkBounds chunksFrom
    simp [hlast]
  unfold alignedMissing
  rw [hchunks]
  rfl

example : alignedMissing 10 4 [(4, 8)] = [(0, 4), (8, 10)] := by decide

end Libfw

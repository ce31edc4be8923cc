import Libfw.BrowserDownload
import Mathlib.Algebra.Order.BigOperators.Group.List
import Mathlib.Algebra.Order.Group.Nat

/-!
# When a browser download ends

A download restarts at byte zero whenever the server says that the file has changed,
and a restart forgets the attempts made.  Nothing bounds the number of restarts; the
attempts between two of them are bounded by `max_retries`.

* `requests`, `restarts` — counted from the history of a run.
* `round_spends` — what one turn of the loop costs, and how it may go on.
* `download_settles_iff` — a download ends exactly when its server asks for finitely
  many restarts, and then the requests are bounded.
* `empty_file_never_settles` — an empty file with a stale offset is refused for ever.
-/

namespace Libfw

open SteppedPrograms PlayedPrograms BrowserProg

/-! ## What is counted -/

/-- Requests of one attempt at a chunk. -/
def ChunkReply.sent : ChunkReply → Nat
  | .cancelled => 0
  | .failed _ => 1
  | .answered .. => 1

/-- Requests of `download_chunk_with_retry`. -/
def chunkRequests (path : Text) (start stop : Nat) (replies : Nat → ChunkReply) :
    Nat → Nat → Nat
  | 0, attempt => (replies attempt).sent
  | left + 1, attempt =>
      match chunkAttempt path start stop (replies attempt) with
      | .ended _ => (replies attempt).sent
      | .retry _ =>
          (replies attempt).sent + chunkRequests path start stop replies left (attempt + 1)

/-- Requests of a batch. -/
def batchRequests (path : Text) (maxRetries : Nat) (batch : List (Nat × Nat))
    (reply : BatchReply) : Nat :=
  (batch.mapIdx fun i (start, stop) =>
    chunkRequests path start stop (reply.attempt i) maxRetries 0).sum

/-- Requests behind one answer. -/
def requestsOf (path : Text) (maxRetries : Nat) : Asked BrowserOp BrowserOp.Ans → Nat
  | ⟨.head, _⟩ => 1
  | ⟨.get _ _, _⟩ => 1
  | ⟨.fetchBatch _ batch, reply⟩ => batchRequests path maxRetries batch reply
  | _ => 0

/-- Whether a result asks for a restart. -/
def restartsOf {α : Type} : Except ClientError α → Nat
  | .error e => if isRestartErr e then 1 else 0
  | .ok _ => 0

@[simp] theorem restartsOf_error {α : Type} (e : ClientError) :
    restartsOf (.error e : Except ClientError α) = if isRestartErr e then 1 else 0 := rfl

/-- Whether an answer sends the download back to byte zero. -/
def restartOf (path : Text) (maxRetries : Nat) : Asked BrowserOp BrowserOp.Ans → Nat
  | ⟨.head, .ok resp⟩ => if resp.status = 416 then 1 else 0
  | ⟨.get _ _, .ok resp⟩ => if resp.status = 416 then 1 else 0
  | ⟨.fetchBatch _ batch, reply⟩ => restartsOf (batchResults path maxRetries batch reply)
  | _ => 0

def requests (path : Text) (maxRetries : Nat) (h : BrowserHistory) : Nat :=
  (h.map (requestsOf path maxRetries)).sum

def restarts (path : Text) (maxRetries : Nat) (h : BrowserHistory) : Nat :=
  (h.map (restartOf path maxRetries)).sum

/-- No `HEAD` tells a size over `size`, and no tuned chunk is smaller than `chunk`. -/
def tameAnswer (size chunk : Nat) : Asked BrowserOp BrowserOp.Ans → Bool
  | ⟨.head, .ok resp⟩ => resp.contentLength.getD 0 ≤ size
  | ⟨.live, (_, chunkSize)⟩ => chunk ≤ max chunkSize 1
  | _ => true

def Tame (size chunk : Nat) (h : BrowserHistory) : Prop := ∀ a ∈ h, tameAnswer size chunk a

instance (size chunk : Nat) (h : BrowserHistory) : Decidable (Tame size chunk h) :=
  inferInstanceAs (Decidable (∀ a ∈ h, tameAnswer size chunk a))

theorem Tame.of_suffix {size chunk : Nat} {h h' : BrowserHistory} (ht : Tame size chunk h')
    (hs : h <:+ h') : Tame size chunk h :=
  fun a ha => ht a (hs.subset ha)

theorem Tame.tail {size chunk : Nat} {a : Asked BrowserOp BrowserOp.Ans} {h : BrowserHistory}
    (ht : Tame size chunk (a :: h)) : Tame size chunk h :=
  fun b hb => ht b (List.mem_cons_of_mem a hb)

section Counting

variable {path : Text} {maxRetries : Nat} {h h' : BrowserHistory}

@[simp] theorem requests_cons (a : Asked BrowserOp BrowserOp.Ans) :
    requests path maxRetries (a :: h) =
      requestsOf path maxRetries a + requests path maxRetries h := by
  simp [requests]

@[simp] theorem restarts_cons (a : Asked BrowserOp BrowserOp.Ans) :
    restarts path maxRetries (a :: h) =
      restartOf path maxRetries a + restarts path maxRetries h := by
  simp [restarts]

/-- A longer history counts at least as many restarts. -/
theorem restarts_le_of_suffix (hs : h <:+ h') :
    restarts path maxRetries h ≤ restarts path maxRetries h' := by
  obtain ⟨new, rfl⟩ := hs
  induction new with
  | nil => exact le_refl _
  | cons a new ih =>
      apply ih.trans
      simp

/-- A chunk is asked for at most once for each retry, and once more. -/
theorem chunkRequests_le (start stop : Nat) (replies : Nat → ChunkReply) (left attempt : Nat) :
    chunkRequests path start stop replies left attempt ≤ left + 1 := by
  have hsent : ∀ r : ChunkReply, r.sent ≤ 1 := by
    intro r
    cases r <;> simp [ChunkReply.sent]
  induction left generalizing attempt with
  | zero => exact hsent _
  | succ left ih =>
      have hthis := hsent (replies attempt)
      have hlater := ih (attempt + 1)
      unfold chunkRequests
      split <;> omega

theorem batchRequests_le (batch : List (Nat × Nat)) (reply : BatchReply) :
    batchRequests path maxRetries batch reply ≤ batch.length * (maxRetries + 1) := by
  unfold batchRequests
  have hall : ∀ n ∈ batch.mapIdx fun i (c : Nat × Nat) =>
      chunkRequests path c.1 c.2 (reply.attempt i) maxRetries 0, n ≤ maxRetries + 1 := by
    intro n hn
    obtain ⟨i, hi, rfl⟩ := List.mem_mapIdx.1 hn
    exact chunkRequests_le _ _ _ _ _
  have hsum := List.sum_le_card_nsmul _ _ hall
  simpa using hsum

end Counting

/-! ## Parts that cost nothing -/

section Idle

variable (path : Text) (maxRetries : Nat) {α β : Type}

/-- Neither a request nor a restart, whatever is answered. -/
def Idle (p : BrowserProg (Except ClientError α)) : Prop :=
  ∀ h, Ensures p (fun r h' =>
    requests path maxRetries h' = requests path maxRetries h ∧
    restarts path maxRetries h' = restarts path maxRetries h ∧ restartsOf r = 0) h

variable {path maxRetries}

theorem idle_ok (a : α) : Idle path maxRetries (.done (.ok a)) := fun _ => ⟨rfl, rfl, rfl⟩

theorem idle_error {e : ClientError} (he : isRestartErr e = false) :
    Idle path maxRetries (.done (.error e : Except ClientError α)) := by
  intro h
  exact ⟨rfl, rfl, by simp [restartsOf, he]⟩

theorem idle_okThen {p : BrowserProg (Except ClientError α)}
    {f : α → BrowserProg (Except ClientError β)} (hp : Idle path maxRetries p)
    (hf : ∀ a, Idle path maxRetries (f a)) : Idle path maxRetries (p.okThen f) := by
  intro h
  apply ensures_okThen (hp h)
  · rintro a h' ⟨hreq, hres, _⟩
    apply ensures_mono (hf a h')
    intro r h'' hr
    rw [hreq, hres] at hr
    exact hr
  · intro e h' he
    exact he

theorem idle_callback {o : BrowserOp} (ho : o.Ans = Except Text Unit)
    (hreq : ∀ a, requestsOf path maxRetries ⟨o, a⟩ = 0)
    (hres : ∀ a, restartOf path maxRetries ⟨o, a⟩ = 0) :
    Idle path maxRetries (callback o ho) := by
  intro h a
  have hcalm : ∀ a : Except Text Unit, restartsOf (a.mapError ClientError.js) = 0 := by
    intro a
    cases a <;> rfl
  refine ⟨?_, ?_, hcalm _⟩
  · simp [hreq a]
  · simp [hres a]

theorem idle_ready : Idle path maxRetries ready := by
  intro h go
  cases go with
  | true => exact ⟨by simp [requestsOf], by simp [restartOf], rfl⟩
  | false => exact ⟨by simp [requestsOf], by simp [restartOf], rfl⟩

theorem idle_progress (bytes : Nat) : Idle path maxRetries (progress bytes) :=
  idle_callback rfl (fun _ => rfl) (fun _ => rfl)

theorem idle_writeChunk (offset : Nat) (data : List UInt8) :
    Idle path maxRetries (writeChunk offset data) :=
  idle_callback rfl (fun _ => rfl) (fun _ => rfl)

theorem idle_saveEvery {etag : Text} {offset lastSaved : Nat}
    {f : Nat → BrowserProg (Except ClientError α)} (hf : ∀ n, Idle path maxRetries (f n)) :
    Idle path maxRetries ((saveEvery etag offset lastSaved).bind f) := by
  intro h
  unfold saveEvery
  split
  · intro a
    apply ensures_mono (hf offset _)
    rintro r h' ⟨hreq, hres, hr⟩
    simp only [requests_cons, restarts_cons, requestsOf, restartOf] at hreq hres
    exact ⟨by omega, by omega, hr⟩
  · exact hf lastSaved h

theorem idle_emitChunks (etag : Text) (chunks : List (Nat × List UInt8))
    (contiguous lastSaved : Nat) :
    Idle path maxRetries (emitChunks path etag chunks contiguous lastSaved) := by
  induction chunks generalizing contiguous lastSaved with
  | nil => exact idle_ok _
  | cons chunk rest ih =>
      obtain ⟨start, data⟩ := chunk
      unfold emitChunks
      split
      · exact idle_error rfl
      · apply idle_okThen (idle_writeChunk _ _)
        intro _
        apply idle_saveEvery
        intro n
        exact ih _ _

theorem BodyError.toClient_no_restart (e : BodyError) : isRestartErr e.toClient = false := by
  cases e <;> rfl

/-- A body that ends early asks for no restart. -/
theorem collect_no_restart {body : StreamBody} {e : ClientError}
    (he : body.collect = .error e) : isRestartErr e = false := by
  unfold StreamBody.collect at he
  generalize body.pieces = pieces at he
  induction pieces generalizing e with
  | nil =>
      unfold StreamBody.collect.go at he
      cases hfinish : body.finish with
      | ok tail => simp [hfinish, Except.mapError] at he
      | error m =>
          simp only [hfinish, Except.mapError, Except.error.injEq] at he
          subst he
          rfl
  | cons piece rest ih =>
      cases piece with
      | error m =>
          cases he
          exact m.toClient_no_restart
      | ok out =>
          unfold StreamBody.collect.go at he
          cases hlater : StreamBody.collect.go body rest with
          | ok later => simp [hlater, Except.map] at he
          | error m =>
              simp only [hlater, Except.map, Except.error.injEq] at he
              subst he
              exact ih hlater

theorem idle_streamReads (etag : Text) (pieces : List (Except BodyError (List UInt8)))
    (offset lastSaved : Nat) :
    Idle path maxRetries (streamReads etag pieces offset lastSaved) := by
  induction pieces generalizing offset lastSaved with
  | nil => exact idle_ok _
  | cons piece rest ih =>
      unfold streamReads
      cases piece with
      | error e => exact idle_error e.toClient_no_restart
      | ok data =>
          apply idle_okThen idle_ready
          intro _
          split
          · exact ih _ _
          · apply idle_okThen (idle_writeChunk _ _)
            intro _
            apply idle_okThen (idle_progress _)
            intro _
            apply idle_saveEvery
            intro n
            exact ih _ _

theorem idle_progressIf (bytes : Nat) :
    Idle path maxRetries (if 0 < bytes then progress bytes else .done (.ok ())) := by
  split
  · exact idle_progress _
  · exact idle_ok _

theorem idle_streamDownload (file : FileEntry) (body : StreamBody) (start : Nat)
    (etag : Text) : Idle path maxRetries (streamDownload file body start etag) := by
  apply idle_okThen (idle_progressIf start)
  intro _
  apply idle_okThen (idle_streamReads etag _ _ _)
  intro offset
  split
  · exact idle_error rfl
  · split
    · exact idle_ok _
    · apply idle_okThen (idle_writeChunk _ _)
      intro _
      apply idle_okThen (idle_progress _)
      intro _
      exact idle_ok _

theorem idle_finishDownload (etag : Text) (size : Nat) :
    Idle path maxRetries (finishDownload etag size) := by
  apply idle_okThen (idle_callback rfl (fun _ => rfl) (fun _ => rfl))
  intro _
  apply idle_okThen (idle_callback rfl (fun _ => rfl) (fun _ => rfl))
  intro _
  exact idle_ok _

end Idle

/-! ## What a chunked attempt costs -/

/-- The chunks of at least `chunk` bytes that `bytes` bytes can make. -/
def chunksNeeded (chunk bytes : Nat) : Nat := (bytes + (chunk - 1)) / chunk

theorem chunksNeeded_mono {chunk a b : Nat} (hab : a ≤ b) :
    chunksNeeded chunk a ≤ chunksNeeded chunk b :=
  Nat.div_le_div_right (by omega)

/-- One more chunk of `bytes` bytes. -/
theorem chunksNeeded_step {chunk size bytes : Nat} (hchunk : 0 < chunk) (hsize : chunk ≤ size)
    (hbytes : 0 < bytes) :
    1 + chunksNeeded chunk (bytes - min size bytes) ≤ chunksNeeded chunk bytes := by
  unfold chunksNeeded
  have hone : 1 + (bytes - min size bytes + (chunk - 1)) / chunk =
      (bytes - min size bytes + (chunk - 1) + chunk) / chunk := by
    rw [Nat.add_div_right _ hchunk]
    omega
  rw [hone]
  by_cases hlast : bytes ≤ chunk
  · have hrest : bytes - min size bytes = 0 := by omega
    have hleft : (bytes - min size bytes + (chunk - 1) + chunk) / chunk < 2 := by
      apply (Nat.div_lt_iff_lt_mul hchunk).2
      omega
    have hright : 1 ≤ (bytes + (chunk - 1)) / chunk :=
      (Nat.le_div_iff_mul_le hchunk).2 (by omega)
    omega
  · apply Nat.div_le_div_right
    omega

/-- The bytes of a list of ranges. -/
def spanned (batch : List (Nat × Nat)) : Nat := (batch.map fun (a, b) => b - a).sum

theorem chunksFrom_spanned (size chunkSize : Nat) (n offset : Nat) (hoff : offset ≤ size) :
    offset + spanned (chunksFrom size chunkSize n offset) ≤ size := by
  induction n generalizing offset with
  | zero => simpa [chunksFrom, spanned] using hoff
  | succ n ih =>
      unfold chunksFrom
      split
      · have hlater := ih (min (offset + chunkSize) size) (by omega)
        simp only [spanned, List.map_cons, List.sum_cons] at hlater ⊢
        omega
      · simpa [spanned] using hoff

/-- The chunks of a batch, and those that the rest will need. -/
theorem chunksFrom_needed {chunk size chunkSize : Nat} (hchunk : 0 < chunk)
    (hsize : chunk ≤ chunkSize) (n offset : Nat) :
    (chunksFrom size chunkSize n offset).length +
        chunksNeeded chunk (size - (offset + spanned (chunksFrom size chunkSize n offset))) ≤
      chunksNeeded chunk (size - offset) := by
  induction n generalizing offset with
  | zero => simp [chunksFrom, spanned]
  | succ n ih =>
      unfold chunksFrom
      split
      · next hlt =>
        have hlater := ih (min (offset + chunkSize) size)
        have hstep := chunksNeeded_step hchunk hsize (Nat.sub_pos_of_lt hlt)
        have hrest : size - min (offset + chunkSize) size =
            size - offset - min chunkSize (size - offset) := by omega
        rw [← hrest] at hstep
        simp only [spanned, List.map_cons, List.sum_cons, List.length_cons] at hlater ⊢
        have hend : offset + (min (offset + chunkSize) size - offset +
            (List.map (fun x : Nat × Nat => x.2 - x.1)
              (chunksFrom size chunkSize n (min (offset + chunkSize) size))).sum) =
            min (offset + chunkSize) size + (List.map (fun x : Nat × Nat => x.2 - x.1)
              (chunksFrom size chunkSize n (min (offset + chunkSize) size))).sum := by omega
        rw [hend]
        omega
      · simp [spanned]

/-- An attempt that succeeds has the length of its range. -/
theorem chunkAttempt_length {path : Text} {start stop : Nat} {reply : ChunkReply}
    {data : List UInt8} (hreply : chunkAttempt path start stop reply = .ended (.ok data)) :
    data.length = stop - start := by
  unfold chunkAttempt at hreply
  split at hreply
  · cases hreply
  · cases hreply
  · next status body reported =>
    split at hreply
    · split at hreply
      · cases hreply
      · next got _ =>
        split at hreply
        · cases hreply
        · next hlen =>
          cases reported with
          | error m => cases hreply
          | ok u =>
              cases hreply
              exact not_not.1 hlen
    · split at hreply <;> cases hreply

theorem downloadChunkWithRetry_length {path : Text} {start stop : Nat}
    {replies : Nat → ChunkReply} {left attempt : Nat} {data : List UInt8}
    (hok : downloadChunkWithRetry path start stop replies left attempt = .ok data) :
    data.length = stop - start := by
  induction left generalizing attempt with
  | zero =>
      unfold downloadChunkWithRetry at hok
      grind [chunkAttempt_length]
  | succ left ih =>
      unfold downloadChunkWithRetry at hok
      grind [chunkAttempt_length]

/-- The bytes of the chunks of a batch. -/
def delivered (chunks : List (Nat × List UInt8)) : Nat :=
  (chunks.map fun chunk => chunk.2.length).sum

/-- A chunk holds the bytes of its range. -/
def Fills (chunk : Nat × List UInt8) (range : Nat × Nat) : Prop :=
  chunk.1 = range.1 ∧ chunk.2.length = range.2 - range.1

theorem fills_of_no_error {path : Text} {maxRetries : Nat} {batch : List (Nat × Nat)}
    {attempt : Nat → Nat → ChunkReply}
    (hno : (batchOutcomes path maxRetries batch attempt).filterMap
      (fun (_, result) => errorOf result) = []) :
    List.Forall₂ Fills ((batchOutcomes path maxRetries batch attempt).filterMap
      fun (start, result) => result.toOption.map fun data => (start, data)) batch := by
  induction batch generalizing attempt with
  | nil => exact List.Forall₂.nil
  | cons chunk rest ih =>
      obtain ⟨start, stop⟩ := chunk
      have hcons : batchOutcomes path maxRetries ((start, stop) :: rest) attempt =
          (start, downloadChunkWithRetry path start stop (attempt 0) maxRetries 0) ::
            batchOutcomes path maxRetries rest fun i => attempt (i + 1) := by
        simp [batchOutcomes, List.mapIdx_cons]
      rw [hcons] at hno ⊢
      cases hone : downloadChunkWithRetry path start stop (attempt 0) maxRetries 0 with
      | error e => simp [hone, errorOf] at hno
      | ok data =>
          rw [hone] at hno
          have hlater := ih (by simpa [errorOf] using hno)
          have hlen := downloadChunkWithRetry_length hone
          exact List.Forall₂.cons ⟨rfl, hlen⟩ hlater

/-- A batch without an error has a chunk for each of its ranges. -/
theorem batchResults_fills {path : Text} {maxRetries : Nat} {batch : List (Nat × Nat)}
    {reply : BatchReply} {chunks : List (Nat × List UInt8)}
    (hok : batchResults path maxRetries batch reply = .ok chunks) :
    List.Forall₂ Fills chunks batch := by
  unfold batchResults at hok
  dsimp only at hok
  split at hok
  · cases hok
  · next hnone =>
    have hno := List.getElem?_eq_none_iff.1 hnone
    have hempty : ((batchOutcomes path maxRetries batch reply.attempt).filterMap
        fun (_, result) => errorOf result).length = 0 := by
      by_contra hpos
      exact absurd hno (not_le.2 (Nat.mod_lt reply.first (Nat.pos_of_ne_zero hpos)))
    cases hok
    exact fills_of_no_error (List.length_eq_zero_iff.1 hempty)

/-- Such chunks have the bytes of the batch. -/
theorem delivered_of_fills {chunks : List (Nat × List UInt8)} {batch : List (Nat × Nat)}
    (hfills : List.Forall₂ Fills chunks batch) : delivered chunks = spanned batch := by
  induction hfills with
  | nil => rfl
  | cons hone hrest ih =>
      unfold delivered spanned at ih ⊢
      rw [List.map_cons, List.map_cons, List.sum_cons, List.sum_cons, ih, hone.2]

theorem chunkBatch_eq {contiguous size chunkSize window : Nat} (hle : contiguous ≤ size)
    (hpos : 0 < chunkSize) :
    chunkBatch contiguous size chunkSize window =
      chunksFrom size chunkSize window contiguous := by
  simp [chunkBatch, Nat.min_eq_left hle, Nat.pos_iff_ne_zero.1 hpos]

/-- The chunks handed over move the offset by their length. -/
theorem emitChunks_offset (path etag : Text) (chunks : List (Nat × List UInt8))
    (contiguous lastSaved : Nat) (h : BrowserHistory) :
    Ensures (emitChunks path etag chunks contiguous lastSaved)
      (fun r _ => ∀ c l, r = .ok (c, l) → c = contiguous + delivered chunks) h := by
  induction chunks generalizing contiguous lastSaved h with
  | nil =>
      intro c l hr
      cases hr
      rfl
  | cons chunk rest ih =>
      obtain ⟨start, data⟩ := chunk
      have hlater : ∀ l h, Ensures (emitChunks path etag rest (contiguous + data.length) l)
          (fun r _ => ∀ c l, r = .ok (c, l) → c = contiguous + delivered ((start, data) :: rest))
          h := by
        intro l h
        apply ensures_mono (ih (contiguous + data.length) l h)
        intro r _ hr c l' hc
        have heq := hr c l' hc
        simp only [delivered, List.map_cons, List.sum_cons] at heq ⊢
        omega
      unfold emitChunks
      split
      · intro c l hr
        cases hr
      · apply ensures_okThen (ensures_true _ h)
        · intro _ h₁ _
          apply ensures_bind (ensures_true _ h₁)
          intro l h₂ _
          exact hlater l h₂
        · intro e _ _ c l hr
          cases hr

section Spending

variable {path : Text} {maxRetries size chunk : Nat}

/-- What a chunked attempt may spend on the bytes it still lacks. -/
def spendable (maxRetries chunk bytes : Nat) : Nat :=
  (maxRetries + 1) * chunksNeeded chunk bytes

/-- A batch, paid for by the bytes it fetches. -/
theorem chunkBatch_spends {contiguous chunkSize window : Nat} (hchunk : 0 < chunk)
    (hsize : chunk ≤ chunkSize) (hle : contiguous ≤ size) (reply : BatchReply) :
    batchRequests path maxRetries (chunkBatch contiguous size chunkSize window) reply +
        spendable maxRetries chunk
          (size - (contiguous + spanned (chunkBatch contiguous size chunkSize window))) ≤
      spendable maxRetries chunk (size - contiguous) := by
  rw [chunkBatch_eq hle (by omega)]
  have hneeded : _ + chunksNeeded chunk (size - _) ≤ _ :=
    chunksFrom_needed hchunk hsize window contiguous
  have hbatch : batchRequests path maxRetries _ reply ≤ _ :=
    batchRequests_le (chunksFrom size chunkSize window contiguous) reply
  have hscaled := Nat.mul_le_mul_left (maxRetries + 1) hneeded
  unfold spendable
  rw [Nat.mul_add] at hscaled
  rw [Nat.mul_comm] at hbatch
  omega

variable (path maxRetries) in
/-- At most `cost` requests, and a restart only where the result asks for it. -/
def Spends {α : Type} (bound chunk cost : Nat) (p : BrowserProg (Except ClientError α)) :
    Prop :=
  ∀ h, Ensures p (fun r h' =>
    restarts path maxRetries h' = restarts path maxRetries h + restartsOf r ∧
    (Tame bound chunk h' →
      requests path maxRetries h' ≤ requests path maxRetries h + cost)) h

theorem spends_of_idle {α : Type} {bound cost : Nat}
    {p : BrowserProg (Except ClientError α)} (hp : Idle path maxRetries p) :
    Spends path maxRetries bound chunk cost p := by
  intro h
  apply ensures_mono (hp h)
  rintro r h' ⟨hreq, hres, hr⟩
  exact ⟨by omega, fun _ => by omega⟩

theorem spends_idle_okThen {α β : Type} {bound cost : Nat}
    {p : BrowserProg (Except ClientError α)} {f : α → BrowserProg (Except ClientError β)}
    (hp : Idle path maxRetries p) (hf : ∀ a, Spends path maxRetries bound chunk cost (f a)) :
    Spends path maxRetries bound chunk cost (p.okThen f) := by
  intro h
  apply ensures_okThen (hp h)
  · rintro a h₁ ⟨hreq, hres, _⟩
    rw [← hreq, ← hres]
    exact hf a h₁
  · rintro e h₁ ⟨hreq, hres, hno⟩
    rw [restartsOf_error] at hno ⊢
    exact ⟨by omega, fun _ => by omega⟩

theorem spends_okThen_idle {α β : Type} {bound cost : Nat}
    {p : BrowserProg (Except ClientError α)} {f : α → BrowserProg (Except ClientError β)}
    (hp : Spends path maxRetries bound chunk cost p) (hf : ∀ a, Idle path maxRetries (f a)) :
    Spends path maxRetries bound chunk cost (p.okThen f) := by
  intro h
  apply ensures_okThen (hp h)
  · rintro a h₁ ⟨hres, hreq⟩
    apply ensures_mono (ensures_and (ensures_isSuffix _ h₁) (hf a h₁))
    rintro r h' ⟨hs, hreq', hres', hno⟩
    refine ⟨?_, fun ht => ?_⟩
    · rw [hres', hres, hno]
      rfl
    · rw [hreq']
      exact hreq (ht.of_suffix hs)
  · intro e h₁ he
    exact he

/-- What the batches of a chunked attempt cost. -/
theorem parallelBatches_spends (hchunk : 0 < chunk) (bound : Nat) (etag : Text)
    (left contiguous lastSaved : Nat) (hle : contiguous ≤ size) :
    Spends path maxRetries bound chunk (spendable maxRetries chunk (size - contiguous))
      (parallelBatches path maxRetries etag size left contiguous lastSaved) := by
  induction left generalizing contiguous lastSaved with
  | zero => exact spends_of_idle (idle_ok _)
  | succ left ih =>
      unfold parallelBatches
      split
      · apply spends_idle_okThen idle_ready
        intro _ h live
        obtain ⟨window, chunkSize⟩ := live
        intro reply
        have hspan : contiguous + spanned
            (chunkBatch contiguous size (max chunkSize 1) (max window 1)) ≤ size := by
          rw [chunkBatch_eq hle (by omega)]
          exact chunksFrom_spanned _ _ _ _ hle
        have hbatch : Tame bound chunk (⟨.live, (window, chunkSize)⟩ :: h) →
            batchRequests path maxRetries
                (chunkBatch contiguous size (max chunkSize 1) (max window 1)) reply +
              spendable maxRetries chunk (size - (contiguous + spanned
                (chunkBatch contiguous size (max chunkSize 1) (max window 1)))) ≤
            spendable maxRetries chunk (size - contiguous) := by
          intro ht
          have hlive := of_decide_eq_true (ht _ List.mem_cons_self)
          exact chunkBatch_spends hchunk hlive hle reply
        dsimp only at hspan hbatch ⊢
        generalize chunkBatch contiguous size (max chunkSize 1) (max window 1) = batch
          at hspan hbatch ⊢
        cases hresult : batchResults path maxRetries batch reply with
        | error e =>
            constructor
            · simp [restartOf, hresult, Nat.add_comm]
            · intro ht
              have hpaid := hbatch ht.tail
              simp only [requests_cons, requestsOf]
              omega
        | ok chunks =>
            have hmoved := delivered_of_fills (batchResults_fills hresult)
            have hcalm : Idle path maxRetries
                (emitChunks path etag chunks contiguous lastSaved) := idle_emitChunks _ _ _ _
            apply ensures_okThen (ensures_and (ensures_isSuffix _ _) (ensures_and (hcalm _)
              (emitChunks_offset path etag chunks contiguous lastSaved _)))
            · intro next h₂ hnext
              obtain ⟨contiguous', lastSaved'⟩ := next
              obtain ⟨hs₂, ⟨hreq₂, hres₂, _⟩, hoffset⟩ := hnext
              have hat : contiguous' = contiguous + spanned batch :=
                hmoved ▸ hoffset contiguous' lastSaved' rfl
              apply ensures_mono (ensures_and (ensures_isSuffix _ h₂)
                (ih contiguous' lastSaved' (by omega) h₂))
              intro r h' hr
              obtain ⟨hs, hres, hreq⟩ := hr
              simp only [requests_cons, restarts_cons, requestsOf, restartOf, hresult,
                restartsOf] at hreq₂ hres₂
              constructor
              · omega
              · intro ht
                have hlater := hreq ht
                have hpaid := hbatch ((ht.of_suffix hs).of_suffix hs₂).tail
                rw [hat] at hlater
                omega
            · intro e h₂ he
              obtain ⟨hs₂, ⟨hreq₂, hres₂, hno⟩, _⟩ := he
              rw [restartsOf_error] at hno ⊢
              simp only [requests_cons, restarts_cons, requestsOf, restartOf, hresult,
                restartsOf] at hreq₂ hres₂
              constructor
              · omega
              · intro ht
                have hpaid := hbatch (ht.of_suffix hs₂).tail
                omega
      · exact spends_of_idle (idle_ok _)

variable (path maxRetries) in
/-- `HEAD` is one request, and it tells no size over the bound. -/
theorem browserFetchMeta_spends (bound chunk : Nat) (h : BrowserHistory) :
    Ensures browserFetchMeta (fun r h' =>
      restarts path maxRetries h' = restarts path maxRetries h + restartsOf r ∧
      requests path maxRetries h' = requests path maxRetries h + 1 ∧
      ∀ etag size, r = .ok (etag, size) → Tame bound chunk h' → size ≤ bound) h := by
  intro answer
  cases answer with
  | error m =>
      refine ⟨by simp [restartOf, isRestartErr], by simp [requestsOf, Nat.add_comm], ?_⟩
      intro etag size hr
      cases hr
  | ok resp =>
      refine ⟨?_, by simp [requestsOf, Nat.add_comm], ?_⟩
      · by_cases hstatus : resp.status = 200
        · simp [restartOf, hstatus, restartsOf]
        · simp [restartOf, hstatus, isRestartErr, Nat.add_comm]
      · intro etag size hr ht
        have htold : resp.contentLength.getD 0 ≤ bound :=
          of_decide_eq_true (ht _ List.mem_cons_self)
        split at hr
        · cases hr
        · cases hr
          exact htold

theorem chunkedPass_spends (hchunk : 0 < chunk) (bound : Nat) (resumeEtag : Text)
    (resumeOffset : Nat) (metaEtag : Text) :
    Spends path maxRetries bound chunk (spendable maxRetries chunk size)
      (chunkedPass path maxRetries resumeEtag resumeOffset metaEtag size) := by
  unfold chunkedPass
  split
  · exact spends_of_idle (idle_error rfl)
  · dsimp only
    have hle : passStart resumeEtag metaEtag resumeOffset size ≤ size := by
      unfold passStart
      split <;> omega
    generalize passStart resumeEtag metaEtag resumeOffset size = start at hle ⊢
    apply spends_idle_okThen (idle_progressIf start)
    intro _
    apply spends_okThen_idle
    · intro h
      apply ensures_mono (parallelBatches_spends hchunk bound metaEtag (size - start) start 0 hle h)
      rintro r h' ⟨hres, hreq⟩
      refine ⟨hres, fun ht => (hreq ht).trans ?_⟩
      exact Nat.add_le_add_left (Nat.mul_le_mul_left _ (chunksNeeded_mono (Nat.sub_le _ _))) _
    · intro contiguous
      split
      · exact idle_error rfl
      · exact idle_ok _

/-- What a chunked attempt costs. -/
theorem downloadFileParallel_spends (hchunk : 0 < chunk) (bound : Nat) (resumeEtag : Text)
    (resumeOffset : Nat) :
    Spends path maxRetries bound chunk (1 + spendable maxRetries chunk bound)
      (downloadFileParallel path maxRetries resumeEtag resumeOffset) := by
  intro h
  apply ensures_okThen (browserFetchMeta_spends path maxRetries bound chunk h)
  · intro told h₁ htold
    obtain ⟨metaEtag, size⟩ := told
    obtain ⟨hres, hreq, hsize⟩ := htold
    apply ensures_mono (ensures_and (ensures_isSuffix _ h₁)
      (chunkedPass_spends hchunk bound resumeEtag resumeOffset metaEtag h₁))
    rintro r h' ⟨hs, hres', hreq'⟩
    simp only [restartsOf] at hres
    refine ⟨by omega, fun ht => ?_⟩
    have hlater := hreq' ht
    have hscaled : spendable maxRetries chunk size ≤ spendable maxRetries chunk bound :=
      Nat.mul_le_mul_left _ (chunksNeeded_mono (hsize metaEtag size rfl (ht.of_suffix hs)))
    omega
  · intro e h₁ he
    obtain ⟨hres, hreq, _⟩ := he
    exact ⟨hres, fun _ => by omega⟩

/-- How a turn of the loop goes on, with the restarts it met. -/
def GoesOn (maxRetries : Nat) (s : Engine) (met : Nat) :
    Engine ⊕ Except ClientError Nat → Prop
  | .inl s' => (met = 0 ∧ s.attempts < maxRetries ∧ s' = { s with attempts := s.attempts + 1 }) ∨
      (met = 1 ∧ s' = restart s)
  | .inr _ => met = 0

theorem retryOr_goesOn (s : Engine) (e : ClientError) :
    GoesOn maxRetries s 0 (retryOr maxRetries s e) := by
  unfold retryOr
  split
  · rfl
  · exact Or.inl ⟨rfl, by omega, rfl⟩

/-- What one turn of the loop may cost. -/
def roundCost (maxRetries bound chunk : Nat) : Nat := 1 + spendable maxRetries chunk bound

/-- A program that ends the loop without a request. -/
theorem ends_idle {p : BrowserProg (Except ClientError Nat)} (hp : Idle path maxRetries p)
    (s : Engine) (h : BrowserHistory) :
    Ensures (ends p) (fun r h' => h <:+ h' ∧
      requests path maxRetries h' = requests path maxRetries h ∧
      restarts path maxRetries h' = restarts path maxRetries h ∧ GoesOn maxRetries s 0 r) h := by
  apply ensures_bind (ensures_and (ensures_isSuffix p h) (hp h))
  rintro r h' ⟨hs, hreq, hres, _⟩
  exact ⟨hs, hreq, hres, rfl⟩

/-- A turn of the loop costs so much, and restarts no more often than it is told to. -/
theorem round_spends (hchunk : 0 < chunk) (file : FileEntry) (bound : Nat) (s : Engine)
    (h : BrowserHistory) :
    Ensures (downloadRound file maxRetries s) (fun r h' =>
      (∃ met, restarts file.path maxRetries h' = restarts file.path maxRetries h + met ∧
        GoesOn maxRetries s met r) ∧
      (Tame bound chunk h' → requests file.path maxRetries h' ≤
        requests file.path maxRetries h + roundCost maxRetries bound chunk)) h := by
  have hready : Idle file.path maxRetries ready := idle_ready
  have hfinish : ∀ etag size, Idle file.path maxRetries (finishDownload etag size) :=
    idle_finishDownload
  apply ensures_bind (hready h)
  rintro go h₁ ⟨hreq₁, hres₁, _⟩
  rw [← hreq₁, ← hres₁]
  cases go with
  | error e => exact ⟨⟨0, rfl, rfl⟩, fun _ => Nat.le_add_right _ _⟩
  | ok u =>
      dsimp only
      split
      · apply ensures_bind (downloadFileParallel_spends hchunk bound s.etag s.offset h₁)
        rintro r h₂ ⟨hres₂, hreq₂⟩
        cases r with
        | ok told =>
            apply ensures_mono (ends_idle (hfinish told.1 told.2) s h₂)
            rintro r h' ⟨hs, hreq, hres, hgoes⟩
            rw [hreq, hres]
            exact ⟨⟨0, hres₂, hgoes⟩, fun ht => hreq₂ (ht.of_suffix hs)⟩
        | error e =>
            refine ⟨⟨_, hres₂, ?_⟩, hreq₂⟩
            rw [restartsOf_error]
            by_cases he : isRestartErr e
            · rw [if_pos he, if_pos he]
              exact Or.inr ⟨rfl, rfl⟩
            · rw [if_neg he, if_neg he]
              exact retryOr_goesOn s e
      · intro answer
        have hstream : ∀ body start etag, Idle file.path maxRetries
            (okThen (streamDownload file body start etag) fun size =>
              finishDownload etag size) := by
          intro body start etag
          exact idle_okThen (idle_streamDownload _ _ _ _) (hfinish etag)
        generalize hasked : (⟨_, answer⟩ :: h₁ : BrowserHistory) = h₂
        have hone : requests file.path maxRetries h₂ = requests file.path maxRetries h₁ + 1 := by
          subst hasked
          simp [requestsOf, Nat.add_comm]
        have hmet : restarts file.path maxRetries h₂ =
            restarts file.path maxRetries h₁ + restartOf file.path maxRetries ⟨_, answer⟩ := by
          subst hasked
          simp [Nat.add_comm]
        have hcost : requests file.path maxRetries h₂ ≤
            requests file.path maxRetries h₁ + roundCost maxRetries bound chunk := by
          unfold roundCost
          omega
        cases answer with
        | error m => exact ⟨⟨0, hmet, retryOr_goesOn s _⟩, fun _ => hcost⟩
        | ok resp =>
            have hother : resp.status ≠ 416 →
                restarts file.path maxRetries h₂ = restarts file.path maxRetries h₁ := by
              intro hne
              simpa [restartOf, hne] using hmet
            have hended : ∀ body start etag, resp.status ≠ 416 →
                Ensures (ends (okThen (streamDownload file body start etag) fun size =>
                  finishDownload etag size)) (fun r h' =>
                  (∃ met, restarts file.path maxRetries h' =
                    restarts file.path maxRetries h₁ + met ∧ GoesOn maxRetries s met r) ∧
                  (Tame bound chunk h' → requests file.path maxRetries h' ≤
                    requests file.path maxRetries h₁ + roundCost maxRetries bound chunk)) h₂ := by
              intro body start etag hne
              apply ensures_mono (ends_idle (hstream body start etag) s h₂)
              rintro r h' ⟨hs, hreq, hres, hgoes⟩
              exact ⟨⟨0, hres.trans (hother hne), hgoes⟩, fun _ => hreq ▸ hcost⟩
            dsimp only
            split
            · next h200 => exact hended _ _ _ (by omega)
            · split
              · next h206 => exact hended _ _ _ (by omega)
              · split
                · next h416 =>
                  exact ⟨⟨1, by simpa [restartOf, h416] using hmet, Or.inr ⟨rfl, rfl⟩⟩,
                    fun _ => hcost⟩
                · next hne => exact ⟨⟨0, hother hne, rfl⟩, fun _ => hcost⟩

/-- Before the loop nothing is asked of the server. -/
theorem openDownload_spends (file : FileEntry) (h : BrowserHistory) :
    Ensures (openDownload file) (fun r h' =>
      requests path maxRetries h' = requests path maxRetries h ∧
      restarts path maxRetries h' = restarts path maxRetries h ∧
      ∀ s, r = .inl s → s.attempts = 0) h := by
  have hstart : Idle path maxRetries onFileStart :=
    idle_callback rfl (fun _ => rfl) (fun _ => rfl)
  apply ensures_bind (hstart h)
  rintro r h₁ ⟨hreq₁, hres₁, _⟩
  rw [← hreq₁, ← hres₁]
  cases r with
  | error e => exact ⟨rfl, rfl, nofun⟩
  | ok u =>
      intro answer
      generalize hasked : (⟨.loadState, answer⟩ :: h₁ : BrowserHistory) = h₂
      have hreq₂ : requests path maxRetries h₂ = requests path maxRetries h₁ := by
        subst hasked
        simp [requestsOf]
      have hres₂ : restarts path maxRetries h₂ = restarts path maxRetries h₁ := by
        subst hasked
        simp [restartOf]
      rw [← hreq₂, ← hres₂]
      cases answer with
      | error e => exact ⟨rfl, rfl, nofun⟩
      | ok saved =>
          dsimp only [resumeDownload]
          split
          · refine ⟨rfl, rfl, ?_⟩
            intro s hs
            cases hs
            rfl
          · have hall : Idle path maxRetries
                (okThen (if 0 < (usableState saved).2 then progress (usableState saved).2
                  else .done (.ok ())) fun _ =>
                  finishDownload (usableState saved).1 file.size) :=
              idle_okThen (idle_progressIf _) fun _ => idle_finishDownload _ _
            apply ensures_bind (hall h₂)
            rintro r h' ⟨hreq, hres, _⟩
            exact ⟨hreq, hres, nofun⟩
          · refine ⟨rfl, rfl, ?_⟩
            intro s hs
            cases hs
            rfl

/-! ## Runs -/

/-- So many restarts pay for so many turns. -/
theorem rounds_spend {answers : Strategy BrowserOp BrowserOp.Ans} (hchunk : 0 < chunk)
    (bound : Nat) {file : FileEntry} {n : Nat} {s : Engine} {h h' : BrowserHistory}
    {result : Option (Except ClientError Nat)} (hs : s.attempts ≤ maxRetries)
    (hrun : play answers (rounds (downloadRound file maxRetries) n s) h = (result, h')) :
    ∃ met, restarts file.path maxRetries h' = restarts file.path maxRetries h + met ∧
      (result = none → n + s.attempts ≤ met * (maxRetries + 1) + maxRetries) ∧
      (Tame bound chunk h' →
        requests file.path maxRetries h' + roundCost maxRetries bound chunk * s.attempts ≤
          requests file.path maxRetries h +
            roundCost maxRetries bound chunk * ((met + 1) * (maxRetries + 1))) := by
  induction n generalizing s h with
  | zero =>
      cases hrun
      refine ⟨0, rfl, fun _ => by omega, fun _ => ?_⟩
      exact Nat.add_le_add_left (Nat.mul_le_mul_left _ (by omega)) _
  | succ n ih =>
      have hround := play_of_ensures answers
        (round_spends hchunk file bound s h : Ensures (downloadRound file maxRetries s) _ h)
      have hlast : roundCost maxRetries bound chunk * s.attempts +
          roundCost maxRetries bound chunk ≤
            roundCost maxRetries bound chunk * (maxRetries + 1) := by
        rw [← Nat.mul_succ]
        exact Nat.mul_le_mul_left _ (by omega)
      cases hgot : (play answers (downloadRound file maxRetries s) h).1 with
      | inr r =>
          rw [play_rounds_inr hgot] at hrun
          rw [hgot] at hround
          obtain ⟨⟨met, hres, hgoes⟩, hreq⟩ := hround
          cases hrun
          refine ⟨met, hres, nofun, fun ht => ?_⟩
          have hmet : met = 0 := hgoes
          have hpaid := hreq ht
          subst hmet
          rw [Nat.zero_add, Nat.one_mul]
          omega
      | inl j =>
          rw [play_rounds_inl hgot] at hrun
          rw [hgot] at hround
          obtain ⟨⟨met, hres, hgoes⟩, hreq⟩ := hround
          have hsuffix : (play answers (downloadRound file maxRetries s) h).2 <:+ h' := by
            have hgrow := play_isSuffix answers (rounds (downloadRound file maxRetries) n j)
              (play answers (downloadRound file maxRetries s) h).2
            rwa [hrun] at hgrow
          obtain hretry | hrestart := hgoes
          · obtain ⟨rfl, hlt, rfl⟩ := hretry
            obtain ⟨later, hres', hturns, hreq'⟩ := ih (Nat.succ_le_of_lt hlt) hrun
            refine ⟨later, by omega, fun hnone => ?_, fun ht => ?_⟩
            · have hleft := hturns hnone
              dsimp only at hleft
              omega
            · have hpaid := hreq (ht.of_suffix hsuffix)
              have hafter := hreq' ht
              rw [Nat.mul_succ] at hafter
              omega
          · obtain ⟨rfl, rfl⟩ := hrestart
            obtain ⟨later, hres', hturns, hreq'⟩ := ih (Nat.zero_le _) hrun
            refine ⟨later + 1, by omega, fun hnone => ?_, fun ht => ?_⟩
            · have hleft := hturns hnone
              rw [Nat.succ_mul]
              dsimp only [restart] at hleft
              omega
            · have hpaid := hreq (ht.of_suffix hsuffix)
              have hafter := hreq' ht
              dsimp only [restart] at hafter
              rw [Nat.mul_zero] at hafter
              rw [Nat.succ_mul (later + 1), Nat.mul_add _ _ (maxRetries + 1)]
              omega

end Spending

/-! ## Whole downloads -/

section Downloads

variable (answers : Strategy BrowserOp BrowserOp.Ans) (file : FileEntry) (maxRetries : Nat)

/-- The result, if there is one, and the history after so many turns of the loop. -/
def afterTurns (turns : Nat) : Option (Except ClientError Nat) × BrowserHistory :=
  play answers (downloadFileBrowser file maxRetries turns) []

/-- The download returns. -/
def Settles : Prop := ∃ turns result, (afterTurns answers file maxRetries turns).1 = some result

/-- The server asks for at most so many restarts. -/
def RestartsAtMost (limit : Nat) : Prop :=
  ∀ turns, restarts file.path maxRetries (afterTurns answers file maxRetries turns).2 ≤ limit

/-- The requests of a download with so many restarts. -/
def requestLimit (limit maxRetries bound chunk : Nat) : Nat :=
  roundCost maxRetries bound chunk * ((limit + 1) * (maxRetries + 1))

/-- Either the loop is never entered, or it is entered with no attempt made. -/
theorem download_opens :
    (∃ r h, (∀ turns, afterTurns answers file maxRetries turns = (some r, h)) ∧
      requests file.path maxRetries h = 0 ∧ restarts file.path maxRetries h = 0) ∨
    ∃ s h, (∀ turns, afterTurns answers file maxRetries turns =
        play answers (rounds (downloadRound file maxRetries) turns s) h) ∧
      requests file.path maxRetries h = 0 ∧ restarts file.path maxRetries h = 0 ∧
      s.attempts = 0 := by
  have hopen : _ ∧ _ := play_of_ensures answers
    (openDownload_spends file [] : Ensures (openDownload file) (fun r h' =>
      requests file.path maxRetries h' = requests file.path maxRetries [] ∧ _) [])
  obtain ⟨hreq, hres, hattempts⟩ := hopen
  cases hgot : (play answers (openDownload file) []).1 with
  | inl s =>
      refine Or.inr ⟨s, _, fun turns => ?_, hreq, hres, hattempts s hgot⟩
      apply (play_bind answers (openDownload file) _ []).trans
      rw [hgot]
  | inr r =>
      refine Or.inl ⟨r, _, fun turns => ?_, hreq, hres⟩
      apply (play_bind answers (openDownload file) _ []).trans
      rw [hgot]
      rfl

variable {answers file maxRetries}

/-- With so many restarts, the loop has ended after so many turns. -/
theorem settles_of_limit {limit : Nat} (hlimit : RestartsAtMost answers file maxRetries limit) :
    Settles answers file maxRetries := by
  let turns := limit * (maxRetries + 1) + maxRetries + 1
  obtain ⟨r, h, hall, _⟩ | ⟨s, h, hall, _, hres, hattempts⟩ :=
    download_opens answers file maxRetries
  · exact ⟨0, r, by rw [hall]⟩
  · cases hend : (afterTurns answers file maxRetries turns).1 with
    | some r => exact ⟨turns, r, hend⟩
    | none =>
        have hrun : play answers (rounds (downloadRound file maxRetries) turns s) h =
            (none, (afterTurns answers file maxRetries turns).2) := by
          rw [← hall, ← hend]
        obtain ⟨met, hmet, hturns, _⟩ :=
          rounds_spend Nat.one_pos 0 (by omega) hrun
        have hfew : met ≤ limit := by
          have hat := hlimit turns
          omega
        have hleft := hturns rfl
        have hscaled := Nat.mul_le_mul_right (maxRetries + 1) hfew
        omega

/-- A download that returns has met finitely many restarts. -/
theorem limit_of_settles (hends : Settles answers file maxRetries) :
    ∃ limit, RestartsAtMost answers file maxRetries limit := by
  obtain ⟨turns, r, hr⟩ := hends
  refine ⟨restarts file.path maxRetries (afterTurns answers file maxRetries turns).2, ?_⟩
  intro others
  apply restarts_le_of_suffix
  obtain ⟨r', h, hall, _⟩ | ⟨s, h, hall, _⟩ := download_opens answers file maxRetries
  · rw [hall, hall]
  · rw [hall] at hr
    rw [hall, hall]
    exact rounds_isSuffix hr

/-- What a download with so many restarts costs. -/
theorem requests_le_of_limit {limit bound chunk turns : Nat} (hchunk : 0 < chunk)
    (hlimit : RestartsAtMost answers file maxRetries limit)
    (ht : Tame bound chunk (afterTurns answers file maxRetries turns).2) :
    requests file.path maxRetries (afterTurns answers file maxRetries turns).2 ≤
      requestLimit limit maxRetries bound chunk := by
  obtain ⟨r, h, hall, hreq, _⟩ | ⟨s, h, hall, hreq, hres, hattempts⟩ :=
    download_opens answers file maxRetries
  · rw [hall]
    exact hreq.trans_le (Nat.zero_le _)
  · have hrun : play answers (rounds (downloadRound file maxRetries) turns s) h =
        ((afterTurns answers file maxRetries turns).1,
          (afterTurns answers file maxRetries turns).2) := by
      rw [← hall]
    obtain ⟨met, hmet, _, hpaid⟩ := rounds_spend hchunk bound (by omega) hrun
    have hfew : met + 1 ≤ limit + 1 := by
      have hat := hlimit turns
      omega
    have hscaled : roundCost maxRetries bound chunk * ((met + 1) * (maxRetries + 1)) ≤
        requestLimit limit maxRetries bound chunk :=
      Nat.mul_le_mul_left _ (Nat.mul_le_mul_right _ hfew)
    have hcost := hpaid ht
    omega

variable (answers file maxRetries)

/-- A download returns exactly when its server asks for finitely many restarts; the
requests are then bounded by the restarts, the sizes told, the chunks tuned and the
retries allowed. -/
theorem download_settles_iff :
    (Settles answers file maxRetries ↔ ∃ limit, RestartsAtMost answers file maxRetries limit) ∧
    ∀ limit bound chunk turns, 0 < chunk → RestartsAtMost answers file maxRetries limit →
      Tame bound chunk (afterTurns answers file maxRetries turns).2 →
      requests file.path maxRetries (afterTurns answers file maxRetries turns).2 ≤
        requestLimit limit maxRetries bound chunk := by
  refine ⟨⟨limit_of_settles, fun ⟨limit, hlimit⟩ => settles_of_limit hlimit⟩, ?_⟩
  intro limit bound chunk turns hchunk hlimit ht
  exact requests_le_of_limit hchunk hlimit ht

end Downloads

/-! ## An empty file -/

/-- A state saved when the file had five bytes, and a server that now has none of them:
every range of an empty file is refused with 416. -/
def emptyFileServer : Strategy BrowserOp BrowserOp.Ans := fun _ o =>
  match o with
  | .onFileStart => .ok ()
  | .loadState => .ok (some ("v1".toList, 5))
  | .ready => true
  | .progress _ => .ok ()
  | .head => .ok ⟨200, some "v2".toList, some 0⟩
  | .live => (1, 1)
  | .fetchBatch _ _ => ⟨fun _ _ => .answered 416 ⟨[], .ok []⟩ (.ok ()), 0⟩
  | .get _ _ => .ok ⟨416, none, none, ⟨[], .ok []⟩⟩
  | .writeChunk _ _ => .ok ()
  | .saveState _ _ => .ok ()
  | .onFileCompleted => .ok ()

/-- The same server, once the file has three bytes. -/
def smallFileServer : Strategy BrowserOp BrowserOp.Ans := fun n o =>
  match o with
  | .get _ _ => .ok ⟨200, some "v2".toList, none, ⟨[.ok [1, 2, 3]], .ok []⟩⟩
  | o => emptyFileServer n o

/-- One that refuses the first range, loses the second answer and then sends the three bytes. -/
def flakyFileServer : Strategy BrowserOp BrowserOp.Ans := fun n o =>
  match o with
  | .get _ _ =>
      if n ≤ 3 then .ok ⟨416, none, none, ⟨[], .ok []⟩⟩
      else if n ≤ 5 then .error "connection reset".toList
      else .ok ⟨200, some "v2".toList, none, ⟨[.ok [1, 2, 3]], .ok []⟩⟩
  | o => emptyFileServer n o

def emptyFile : FileEntry := ⟨"a".toList, 0⟩

theorem empty_round (n : Nat) (h : BrowserHistory) :
    (play emptyFileServer (rounds (downloadRound emptyFile 3) n ⟨0, [], 0⟩) h).1 = none := by
  induction n generalizing h with
  | zero => rfl
  | succ n ih =>
      have hround : (play emptyFileServer (downloadRound emptyFile 3 ⟨0, [], 0⟩) h).1 =
          .inl ⟨0, [], 0⟩ := rfl
      rw [play_rounds_inl hround]
      exact ih _

/-- The client restarts at byte zero for ever. -/
theorem empty_file_never_settles : ¬ Settles emptyFileServer emptyFile 3 := by
  rintro ⟨turns, r, hr⟩
  have hnone : (afterTurns emptyFileServer emptyFile 3 turns).1 = none := empty_round turns _
  exact nomatch hnone.symm.trans hr

def smallFile : FileEntry := ⟨"a".toList, 3⟩

theorem small_file_one_restart : RestartsAtMost flakyFileServer smallFile 3 1 := by
  have hfew : ∀ turns < 3,
      restarts smallFile.path 3 (afterTurns flakyFileServer smallFile 3 turns).2 ≤ 1 := by
    decide +kernel
  intro turns
  by_cases hturns : turns < 3
  · exact hfew turns hturns
  · -- The third round is the last.
    obtain ⟨more, rfl⟩ := Nat.exists_eq_add_of_le' (Nat.not_lt.1 hturns)
    exact le_of_eq rfl

theorem small_file_tame : Tame 3 1 (afterTurns flakyFileServer smallFile 3 5).2 := by
  decide +kernel

/-- After a restart and a retry three bytes are fetched and the download returns. -/
theorem small_file_settles :
    Settles flakyFileServer smallFile 3 ∧
      restarts smallFile.path 3 (afterTurns flakyFileServer smallFile 3 5).2 = 1 ∧
      requests smallFile.path 3 (afterTurns flakyFileServer smallFile 3 5).2 = 3 ∧
      requests smallFile.path 3 (afterTurns flakyFileServer smallFile 3 5).2 ≤
        requestLimit 1 3 3 1 :=
  ⟨(download_settles_iff flakyFileServer smallFile 3).1.2 ⟨1, small_file_one_restart⟩,
    by decide +kernel, by decide +kernel,
    (download_settles_iff flakyFileServer smallFile 3).2 1 3 1 5 Nat.one_pos
      small_file_one_restart small_file_tame⟩

end Libfw

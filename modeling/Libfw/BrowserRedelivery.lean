import Libfw.ChunkPlans
import Libfw.DownloadCompleteness

/-!
# What the retries of a browser download deliver again

The chunked pass keeps a contiguous cursor of its own.  The loop around it does not
learn how far that cursor came: after an error it begins another pass at the offset
at which the failed one began, and what was handed over before is handed over again.

* `DeliveredOnce` — the chunks handed over follow on one another from the resume
  offset.
* `firstBatches` — the passes that got their first batch.
* `delivered_once_iff` — while the file stays the same, every byte is handed over at
  most once exactly when at most one pass gets its first batch.
* `retry_delivers_again` — two passes get it, and the first byte is handed over twice.
-/

namespace Libfw

open SteppedPrograms PlayedPrograms BrowserProg

/-! ## What is handed over -/

/-- The ranges handed to `on_write_chunk`, in order, whatever it answered. -/
def handed : BrowserHistory → List (Nat × Nat)
  | [] => []
  | ⟨.writeChunk offset data, _⟩ :: h => handed h ++ [(offset, offset + data.length)]
  | _ :: h => handed h

/-- The chunks handed over are contiguous from the resume offset, and no byte is in two
of them. -/
def DeliveredOnce (resumed : Nat) (h : BrowserHistory) : Prop :=
  ∃ stop, Tiles resumed (handed h) stop

/-- A pass has begun, and no batch of it has been fetched. -/
def passBegins : BrowserHistory → Bool
  | [] => false
  | ⟨.head, _⟩ :: _ => true
  | ⟨.fetchBatch _ _, _⟩ :: _ => false
  | _ :: h => passBegins h

/-- The passes that got every chunk of their first batch. -/
def firstBatches (path : Text) (maxRetries : Nat) : BrowserHistory → Nat
  | [] => 0
  | ⟨.fetchBatch _ batch, reply⟩ :: h =>
      firstBatches path maxRetries h +
        if passBegins h ∧ (batchResults path maxRetries batch reply).toBool then 1 else 0
  | _ :: h => firstBatches path maxRetries h

/-! ## A file that stays the same -/

/-- The answers of a server that has had one version of the file all along: it tells the
version and size of that one, and sends the ranges it is asked for. -/
def sameVersion (file : FileEntry) (etag : Text) : Asked BrowserOp BrowserOp.Ans → Prop
  | ⟨.head, .ok resp⟩ => resp.status ≠ 416 ∧ (resp.status = 200 →
      resp.etag.getD [] = etag ∧ ∀ size, resp.contentLength = some size → size = file.size)
  | ⟨.fetchBatch _ _, reply⟩ => ∀ chunk n status body reported,
      reply.attempt chunk n = .answered status body reported →
        isRestartErr (.http status) = false
  | ⟨.get offset _, .ok resp⟩ => resp.status ≠ 416 ∧ (resp.status = 200 → offset = 0) ∧
      (resp.status = 206 → resp.contentRangeStart.getD offset = offset)
  | _ => True

/-- The file has not changed since the download that is resumed, and does not change. -/
def Unchanged (file : FileEntry) (resumed : Text × Nat) (h : BrowserHistory) : Prop :=
  ∃ etag, (resumed.1 ≠ [] → resumed.1 = etag) ∧ ∀ a ∈ h, sameVersion file etag a

section Versions

variable {path : Text} {maxRetries : Nat} {file : FileEntry} {etag : Text}

/-- An attempt at a chunk asks for a restart only when the server does. -/
theorem chunkAttempt_no_restart {start stop : Nat} {reply : ChunkReply}
    (hreply : ∀ status body reported, reply = .answered status body reported →
      isRestartErr (.http status) = false) :
    (∀ e, chunkAttempt path start stop reply = .ended (.error e) → isRestartErr e = false) ∧
      ∀ e, chunkAttempt path start stop reply = .retry e → isRestartErr e = false := by
  cases reply with
  | cancelled =>
      constructor
      · intro e he
        cases he
        rfl
      · exact nofun
  | failed m =>
      constructor
      · exact nofun
      · intro e he
        cases he
        rfl
  | answered status body reported =>
      have hstatus := hreply status body reported rfl
      simp only [chunkAttempt, hstatus, Bool.false_eq_true, if_false]
      by_cases h206 : status = 206
      · rw [if_pos h206]
        cases hbody : body.collect with
        | error e =>
            constructor
            · exact nofun
            · intro e' he
              cases he
              exact collect_no_restart hbody
        | ok data =>
            dsimp only
            split
            · constructor
              · intro e he
                cases he
                rfl
              · exact nofun
            · constructor
              · intro e he
                cases reported with
                | error m =>
                    cases he
                    rfl
                | ok u => exact nomatch he
              · exact nofun
      · rw [if_neg h206]
        constructor
        · exact nofun
        · intro e he
          cases he
          exact hstatus

theorem downloadChunkWithRetry_no_restart {start stop : Nat} {replies : Nat → ChunkReply}
    (hreplies : ∀ n status body reported, replies n = .answered status body reported →
      isRestartErr (.http status) = false) {left attempt : Nat} {e : ClientError}
    (he : downloadChunkWithRetry path start stop replies left attempt = .error e) :
    isRestartErr e = false := by
  have hone : ∀ n, (∀ e, chunkAttempt path start stop (replies n) = .ended (.error e) →
      isRestartErr e = false) ∧
      ∀ e, chunkAttempt path start stop (replies n) = .retry e → isRestartErr e = false :=
    fun n => chunkAttempt_no_restart (hreplies n)
  induction left generalizing attempt with
  | zero =>
      unfold downloadChunkWithRetry at he
      grind
  | succ left ih =>
      unfold downloadChunkWithRetry at he
      grind

/-- Neither does any answer of a server whose file stays the same. -/
theorem restartOf_sameVersion {a : Asked BrowserOp BrowserOp.Ans}
    (ha : sameVersion file etag a) : restartOf path maxRetries a = 0 := by
  obtain ⟨o, answer⟩ := a
  cases o with
  | fetchBatch tag batch =>
      show restartsOf (batchResults path maxRetries batch answer) = 0
      cases hresult : batchResults path maxRetries batch answer with
      | ok chunks => rfl
      | error e =>
          suffices hcalm : isRestartErr e = false by simp [hcalm]
          unfold batchResults at hresult
          dsimp only at hresult
          split at hresult
          · next e' hfirst =>
            cases hresult
            obtain ⟨outcome, hmem, herror⟩ := List.mem_filterMap.1 (List.mem_of_getElem? hfirst)
            obtain ⟨i, hi, houtcome⟩ := List.mem_mapIdx.1 hmem
            subst houtcome
            cases hchunk : downloadChunkWithRetry path (batch[i]).1 (batch[i]).2
                (answer.attempt i) maxRetries 0 with
            | ok data => simp [hchunk, errorOf] at herror
            | error m =>
                simp only [hchunk, errorOf, Option.some.injEq] at herror
                subst herror
                exact downloadChunkWithRetry_no_restart (fun n status body reported hn =>
                  ha i n status body reported hn) hchunk
          · cases hresult
  | head =>
      cases answer with
      | error m => rfl
      | ok resp => exact if_neg ha.1
  | get offset tag =>
      cases answer with
      | error m => rfl
      | ok resp => exact if_neg ha.1
  | _ => rfl

theorem restarts_unchanged {h : BrowserHistory} (hsame : ∀ a ∈ h, sameVersion file etag a) :
    restarts path maxRetries h = 0 := by
  induction h with
  | nil => rfl
  | cons a h ih =>
      rw [restarts_cons, restartOf_sameVersion (hsame a List.mem_cons_self),
        ih fun b hb => hsame b (List.mem_cons_of_mem a hb)]

end Versions

/-! ## What a part of a pass hands over -/

theorem handed_mono {h h' : BrowserHistory} (hs : h <:+ h') : handed h <+: handed h' := by
  obtain ⟨later, rfl⟩ := hs
  induction later with
  | nil => exact List.prefix_refl _
  | cons a later ih =>
      obtain ⟨o, answer⟩ := a
      cases o with
      | writeChunk offset data => exact ih.trans (List.prefix_append _ _)
      | _ => exact ih

/-- `new` is handed over from `start` to `stop`, and no pass or batch begins. -/
structure Lays (path : Text) (maxRetries : Nat) (start stop : Nat) (new : List (Nat × Nat))
    (h h' : BrowserHistory) : Prop where
  handed : handed h' = handed h ++ new
  tiles : Tiles start new stop
  batches : firstBatches path maxRetries h' = firstBatches path maxRetries h
  begins : passBegins h' = passBegins h

section Laying

variable {path : Text} {maxRetries start middle stop : Nat} {new later : List (Nat × Nat)}
  {h h₁ h₂ : BrowserHistory}

theorem Lays.refl : Lays path maxRetries start start [] h h :=
  ⟨(List.append_nil _).symm, .nil start, rfl, rfl⟩

theorem Lays.trans (hab : Lays path maxRetries start middle new h h₁)
    (hbc : Lays path maxRetries middle stop later h₁ h₂) :
    Lays path maxRetries start stop (new ++ later) h h₂ := by
  refine ⟨?_, hab.tiles.append hbc.tiles, hbc.batches.trans hab.batches,
    hbc.begins.trans hab.begins⟩
  rw [hbc.handed, hab.handed, List.append_assoc]

variable (path maxRetries start) in
/-- A part of a pass lays chunks from `start` on, and `told` where it stopped. -/
def LaysFrom {α : Type} (p : BrowserProg (Except ClientError α)) (told : α → Nat → Prop)
    (h : BrowserHistory) : Prop :=
  Ensures p (fun r h' => ∃ new stop, Lays path maxRetries start stop new h h' ∧
    ∀ a, r = .ok a → told a stop) h

variable {α β : Type} {told : α → Nat → Prop} {told' : β → Nat → Prop}

theorem laysFrom_ok {a : α} (ha : told a start) :
    LaysFrom path maxRetries start (.done (.ok a)) told h := by
  refine ⟨[], start, Lays.refl, ?_⟩
  intro b hb
  cases hb
  exact ha

theorem laysFrom_error {e : ClientError} :
    LaysFrom path maxRetries start (.done (.error e)) told h :=
  ⟨[], start, Lays.refl, nofun⟩

theorem LaysFrom.after {p : BrowserProg (Except ClientError α)}
    (hbefore : Lays path maxRetries start middle new h h₁)
    (hp : LaysFrom path maxRetries middle p told h₁) :
    Ensures p (fun r h' => ∃ new stop, Lays path maxRetries start stop new h h' ∧
      ∀ a, r = .ok a → told a stop) h₁ := by
  apply ensures_mono hp
  rintro r h' ⟨later, stop, hlater, htold⟩
  exact ⟨new ++ later, stop, hbefore.trans hlater, htold⟩

theorem laysFrom_okThen {p : BrowserProg (Except ClientError α)}
    {f : α → BrowserProg (Except ClientError β)} (hp : LaysFrom path maxRetries start p told h)
    (hf : ∀ a stop h', told a stop → passBegins h' = passBegins h →
      LaysFrom path maxRetries stop (f a) told' h') :
    LaysFrom path maxRetries start (p.okThen f) told' h := by
  apply ensures_okThen hp
  · rintro a h₁ ⟨new, middle, hnew, htold⟩
    exact LaysFrom.after hnew (hf a middle h₁ (htold a rfl) hnew.begins)
  · rintro e h₁ ⟨new, middle, hnew, _⟩
    exact ⟨new, middle, hnew, nofun⟩

variable (path maxRetries) in
/-- Nothing is handed over, whatever is answered, and no pass or batch begins. -/
def LaysNothing (p : BrowserProg (Except ClientError α)) : Prop :=
  ∀ h start, Ensures p (fun _ h' => Lays path maxRetries start start [] h h') h

theorem LaysNothing.laysFrom {p : BrowserProg (Except ClientError α)}
    (hp : LaysNothing path maxRetries p) :
    LaysFrom path maxRetries start p (fun _ stop => stop = start) h := by
  apply ensures_mono (hp h start)
  intro r h' hr
  exact ⟨[], start, hr, fun _ _ => rfl⟩

theorem nothing_okThen {p : BrowserProg (Except ClientError α)}
    {f : α → BrowserProg (Except ClientError β)} (hp : LaysNothing path maxRetries p)
    (hf : ∀ a, LaysNothing path maxRetries (f a)) : LaysNothing path maxRetries (p.okThen f) := by
  intro h start
  apply ensures_okThen (hp h start)
  · intro a h₁ hbefore
    apply ensures_mono (hf a h₁ start)
    intro r h' hafter
    exact hbefore.trans hafter
  · intro e h₁ hbefore
    exact hbefore

theorem nothing_ok {a : α} : LaysNothing path maxRetries (.done (.ok a)) :=
  fun _ _ => Lays.refl

theorem nothing_ready : LaysNothing path maxRetries ready := by
  intro h start go
  cases go with
  | true => exact ⟨(List.append_nil _).symm, .nil start, rfl, rfl⟩
  | false => exact ⟨(List.append_nil _).symm, .nil start, rfl, rfl⟩

theorem nothing_progress (bytes : Nat) : LaysNothing path maxRetries (progress bytes) :=
  fun _ start _ => ⟨(List.append_nil _).symm, .nil start, rfl, rfl⟩

theorem nothing_progressIf (bytes : Nat) :
    LaysNothing path maxRetries (if 0 < bytes then progress bytes else .done (.ok ())) := by
  split
  · exact nothing_progress bytes
  · exact nothing_ok

theorem nothing_finishDownload (etag : Text) (size : Nat) :
    LaysNothing path maxRetries (finishDownload etag size) := by
  have hsave : LaysNothing path maxRetries (saveState etag size) :=
    fun _ start _ => ⟨(List.append_nil _).symm, .nil start, rfl, rfl⟩
  have hdone : LaysNothing path maxRetries onFileCompleted :=
    fun _ start _ => ⟨(List.append_nil _).symm, .nil start, rfl, rfl⟩
  apply nothing_okThen hsave
  intro _
  apply nothing_okThen hdone
  intro _
  exact nothing_ok

/-- A chunk is handed over whether the write succeeds or not. -/
theorem lays_writeChunk {data : List UInt8} (hdata : data ≠ []) :
    LaysFrom path maxRetries start (writeChunk start data)
      (fun _ stop => stop = start + data.length) h := by
  have hpos := List.length_pos_iff.2 hdata
  intro answer
  exact ⟨[(start, start + data.length)], _,
    ⟨rfl, .cons (by omega) (.nil _), rfl, rfl⟩, fun _ _ => rfl⟩

theorem lays_saveEvery {etag : Text} {saved : Nat}
    {f : Nat → BrowserProg (Except ClientError α)}
    (hf : ∀ n h', passBegins h' = passBegins h → LaysFrom path maxRetries start (f n) told h') :
    LaysFrom path maxRetries start ((saveEvery etag start saved).bind f) told h := by
  unfold saveEvery
  split
  · intro answer
    have hsaved : Lays path maxRetries start start [] h
        (⟨.saveState etag start, answer⟩ :: h) :=
      ⟨(List.append_nil _).symm, .nil start, rfl, rfl⟩
    exact LaysFrom.after hsaved (hf start _ rfl)
  · exact hf saved h rfl

/-- The chunks of a batch are laid end to end. -/
theorem lays_emitChunks (etag : Text) (chunks : List (Nat × List UInt8))
    (hdata : ∀ chunk ∈ chunks, chunk.2 ≠ []) (contiguous saved : Nat) (h : BrowserHistory) :
    LaysFrom path maxRetries contiguous (emitChunks path etag chunks contiguous saved)
      (fun next stop => stop = next.1) h := by
  induction chunks generalizing contiguous saved h with
  | nil => exact laysFrom_ok rfl
  | cons chunk rest ih =>
      obtain ⟨first, data⟩ := chunk
      unfold emitChunks
      split
      · exact laysFrom_error
      · apply laysFrom_okThen (lays_writeChunk (hdata _ List.mem_cons_self))
        intro _ stop h₁ hstop _
        subst hstop
        apply lays_saveEvery
        intro n h₂ _
        exact ih (fun c hc => hdata c (List.mem_cons_of_mem _ hc)) _ n h₂

/-- What comes after a batch lays on from where it stopped. -/
theorem lays_emitThen {etag : Text} {chunks : List (Nat × List UInt8)} {contiguous saved : Nat}
    {f : Nat × Nat → BrowserProg (Except ClientError α)}
    (hdata : ∀ chunk ∈ chunks, chunk.2 ≠ [])
    (hf : ∀ next h', passBegins h' = passBegins h →
      LaysFrom path maxRetries next.1 (f next) told h') :
    LaysFrom path maxRetries contiguous (okThen (emitChunks path etag chunks contiguous saved) f)
      told h := by
  apply laysFrom_okThen (lays_emitChunks etag chunks hdata contiguous saved h)
  intro next stop h₁ hstop hbegins
  subst hstop
  exact hf next h₁ hbegins

theorem lays_streamReads (etag : Text) (pieces : List (Except BodyError (List UInt8)))
    (offset saved : Nat) (h : BrowserHistory) :
    LaysFrom path maxRetries offset (streamReads etag pieces offset saved)
      (fun told stop => stop = told) h := by
  induction pieces generalizing offset saved h with
  | nil => exact laysFrom_ok rfl
  | cons piece rest ih =>
      unfold streamReads
      cases piece with
      | error e => exact laysFrom_error
      | ok data =>
          apply laysFrom_okThen nothing_ready.laysFrom
          intro _ stop h₁ hstop _
          subst hstop
          split
          · exact ih stop saved h₁
          · next hdata =>
            apply laysFrom_okThen (lays_writeChunk hdata)
            intro _ stop' h₂ hstop _
            subst hstop
            apply laysFrom_okThen (nothing_progress data.length).laysFrom
            intro _ stop' h₃ hstop _
            subst hstop
            apply lays_saveEvery
            intro n h₄ _
            exact ih _ n h₄

/-- A streamed pass lays its body end to end. -/
theorem lays_streamDownload (file : FileEntry) (body : StreamBody) (etag : Text) :
    LaysFrom path maxRetries start (streamDownload file body start etag) (fun _ _ => True) h := by
  apply laysFrom_okThen (nothing_progressIf start).laysFrom
  intro _ stop h₁ hstop _
  subst hstop
  apply laysFrom_okThen (lays_streamReads etag body.pieces stop 0 h₁)
  intro offset stop h₂ hstop _
  subst hstop
  split
  · exact laysFrom_error
  · split
    · exact laysFrom_ok trivial
    · next hdata =>
      apply laysFrom_okThen (lays_writeChunk hdata)
      intro _ stop h₃ hstop _
      subst hstop
      apply laysFrom_okThen (nothing_progress _).laysFrom
      intro _ _ _ _ _
      exact laysFrom_ok trivial

/-- The ranges of a batch are tiles. -/
theorem chunkBatch_tiles {contiguous size : Nat} (hlt : contiguous < size)
    (window chunkSize : Nat) :
    ∃ stop rest, ∃ next, chunkBatch contiguous size (max chunkSize 1) (max window 1) =
        (contiguous, next) :: rest ∧
      Tiles contiguous ((contiguous, next) :: rest) stop := by
  have hpos : 0 < max chunkSize 1 := by omega
  rw [chunkBatch_eq hlt.le hpos]
  have htiles := chunksFrom_tiles hpos (max window 1) hlt.le
  obtain ⟨n, hn⟩ : ∃ n, max window 1 = n + 1 := ⟨max window 1 - 1, by omega⟩
  rw [hn] at htiles ⊢
  unfold chunksFrom at htiles ⊢
  rw [if_pos hlt] at htiles ⊢
  exact ⟨_, _, _, rfl, htiles⟩

/-- Chunks that fill tiles are not empty. -/
theorem fills_ne_nil {chunks : List (Nat × List UInt8)} {batch : List (Nat × Nat)}
    (hfills : List.Forall₂ Fills chunks batch) (htiles : Tiles start batch stop) :
    ∀ chunk ∈ chunks, chunk.2 ≠ [] := by
  induction hfills generalizing start with
  | nil => exact nofun
  | cons hfill _ ih =>
      cases htiles with
      | cons hlt hrest =>
          intro chunk hmem hnil
          obtain hfirst | hlater := List.mem_cons.1 hmem
          · have hlen := hfill.2
            rw [← hfirst, hnil, List.length_nil] at hlen
            omega
          · exact ih hrest chunk hlater hnil

/-- The batches after the first lay end to end where it stopped. -/
theorem lays_laterBatches (etag : Text) (size left contiguous saved : Nat) (h : BrowserHistory)
    (hbegins : passBegins h = false) :
    LaysFrom path maxRetries contiguous
      (parallelBatches path maxRetries etag size left contiguous saved)
      (fun _ _ => True) h := by
  induction left generalizing contiguous saved h with
  | zero => exact laysFrom_ok trivial
  | succ left ih =>
      unfold parallelBatches
      split
      · next hlt =>
        apply laysFrom_okThen nothing_ready.laysFrom
        intro _ here h₁ hstop hbegins₁ live reply
        subst hstop
        obtain ⟨stop, rest, next, hbatch, htiles⟩ := chunkBatch_tiles hlt live.1 live.2
        dsimp only
        rw [hbegins] at hbegins₁
        have hasked : Lays path maxRetries here here [] h₁ (⟨.fetchBatch etag (chunkBatch here
            size (max live.2 1) (max live.1 1)), reply⟩ :: ⟨.live, live⟩ :: h₁) := by
          refine ⟨(List.append_nil _).symm, .nil here, ?_, hbegins₁.symm⟩
          simp [firstBatches, passBegins, hbegins₁]
        apply LaysFrom.after hasked
        split
        · exact laysFrom_error
        · next chunks hchunks =>
          rw [hbatch] at hchunks
          have hdata := fills_ne_nil (batchResults_fills hchunks) htiles
          apply lays_emitThen hdata
          intro next h₂ hbegins₂
          exact ih next.1 next.2 h₂ hbegins₂
      · exact laysFrom_ok trivial

end Laying

/-! ## A chunked pass -/

/-- A pass hands over what it has fetched, if its first batch was fetched at all. -/
structure LaidPass (path : Text) (maxRetries start : Nat) (new : List (Nat × Nat))
    (h h' : BrowserHistory) : Prop where
  handed : handed h' = handed h ++ new
  tiles : ∃ stop, Tiles start new stop
  batches : firstBatches path maxRetries h' =
    firstBatches path maxRetries h + if new = [] then 0 else 1

section Passes

variable {path : Text} {maxRetries start stop : Nat} {new : List (Nat × Nat)}
  {h h₁ h₂ : BrowserHistory}

theorem LaidPass.of_lays (hlays : Lays path maxRetries start stop [] h h₁) :
    LaidPass path maxRetries start [] h h₁ :=
  ⟨hlays.handed, ⟨start, .nil start⟩, hlays.batches⟩

theorem LaidPass.after (hidle : Lays path maxRetries start stop [] h h₁)
    (hpass : LaidPass path maxRetries start new h₁ h₂) :
    LaidPass path maxRetries start new h h₂ := by
  refine ⟨?_, hpass.tiles, ?_⟩
  · rw [hpass.handed, hidle.handed, List.append_nil]
  · rw [hpass.batches, hidle.batches]

theorem LaidPass.ended (hpass : LaidPass path maxRetries start new h h₁)
    (hidle : Lays path maxRetries stop stop [] h₁ h₂) :
    LaidPass path maxRetries start new h h₂ := by
  refine ⟨?_, hpass.tiles, ?_⟩
  · rw [hidle.handed, hpass.handed, List.append_nil]
  · rw [hidle.batches, hpass.batches]

/-- A batch whose first chunk starts at the cursor hands something over. -/
theorem emitChunks_hands {α : Type} (etag : Text) (data : List UInt8)
    (rest : List (Nat × List UInt8)) (contiguous saved : Nat)
    (f : Nat × Nat → BrowserProg (Except ClientError α)) (h : BrowserHistory) :
    Ensures (okThen (emitChunks path etag ((contiguous, data) :: rest) contiguous saved) f)
      (fun _ h' => handed h' ≠ handed h) h := by
  unfold emitChunks
  rw [if_neg (not_not.2 rfl)]
  intro answer
  apply ensures_mono (ensures_isSuffix _ _)
  intro r h' hs hsame
  have hlong := (handed_mono hs).length_le
  rw [hsame] at hlong
  simp [handed] at hlong

/-- The batches of a pass that has just begun. -/
theorem laid_parallelBatches (etag : Text) (size left contiguous saved : Nat)
    (h : BrowserHistory) (hbegins : passBegins h = true) :
    Ensures (parallelBatches path maxRetries etag size left contiguous saved)
      (fun _ h' => ∃ new, LaidPass path maxRetries contiguous new h h') h := by
  have hnone : LaidPass path maxRetries contiguous [] h h := LaidPass.of_lays Lays.refl
  cases left with
  | zero => exact ⟨[], hnone⟩
  | succ left =>
      unfold parallelBatches
      split
      · next hlt =>
        have hwait : LaysNothing path maxRetries ready := nothing_ready
        apply ensures_okThen (hwait h contiguous)
        · intro _ h₁ hready live reply
          have hbegins₁ := hready.begins.trans hbegins
          obtain ⟨stop, rest, next, hbatch, htiles⟩ := chunkBatch_tiles hlt live.1 live.2
          dsimp only
          generalize chunkBatch contiguous size (max live.2 1) (max live.1 1) = batch at *
          subst hbatch
          cases hresult : batchResults path maxRetries ((contiguous, next) :: rest) reply with
          | error e =>
              refine ⟨[], ⟨by rw [List.append_nil]; exact hready.handed.trans (List.append_nil _),
                ⟨contiguous, .nil contiguous⟩, ?_⟩⟩
              have hbefore := hready.batches
              simpa [firstBatches, hresult, Except.toBool] using hbefore
          | ok chunks =>
              have hfills := batchResults_fills hresult
              have hdata := fills_ne_nil hfills htiles
              dsimp only
              generalize hfetched : (⟨.fetchBatch etag ((contiguous, next) :: rest), reply⟩ ::
                ⟨.live, live⟩ :: h₁ : BrowserHistory) = h₂
              have hhanded : handed h₂ = handed h := by
                subst hfetched
                exact hready.handed.trans (List.append_nil _)
              have hbatches : firstBatches path maxRetries h₂ =
                  firstBatches path maxRetries h + 1 := by
                subst hfetched
                simp [firstBatches, hresult, Except.toBool, passBegins, hbegins₁, hready.batches]
              have hended : passBegins h₂ = false := by
                subst hfetched
                rfl
              cases hfills with
              | @cons chunk _ others _ hfirst _ =>
                  obtain ⟨first, data⟩ := chunk
                  obtain ⟨rfl, _⟩ := hfirst
                  have hall : LaysFrom path maxRetries first (okThen
                      (emitChunks path etag ((first, data) :: others) first saved) fun next =>
                        parallelBatches path maxRetries etag size left next.1 next.2)
                      (fun _ _ => True) h₂ := by
                    apply lays_emitThen hdata
                    intro next h₃ hbegins₃
                    exact lays_laterBatches etag size left next.1 next.2 h₃
                      (hbegins₃.trans hended)
                  apply ensures_mono (ensures_and hall
                    (emitChunks_hands etag data others first saved _ h₂))
                  rintro r h' ⟨⟨new, stop, hlays, _⟩, hsome⟩
                  have hne : new ≠ [] := by
                    intro hnil
                    apply hsome
                    rw [hlays.handed, hnil, List.append_nil]
                  refine ⟨new, ⟨?_, ⟨stop, hlays.tiles⟩, ?_⟩⟩
                  · rw [hlays.handed, hhanded]
                  · rw [hlays.batches, hbatches, if_neg hne]
        · intro e h₁ hready
          exact ⟨[], LaidPass.of_lays hready⟩
      · exact ⟨[], hnone⟩

theorem laid_chunkedPass {resumeEtag metaEtag : Text} {resumeOffset size : Nat}
    (hsize : size ≠ 0) (hbegins : passBegins h = true) :
    Ensures (chunkedPass path maxRetries resumeEtag resumeOffset metaEtag size)
      (fun _ h' => ∃ new, LaidPass path maxRetries
        (passStart resumeEtag metaEtag resumeOffset size) new h h') h := by
  unfold chunkedPass
  rw [if_neg hsize]
  dsimp only
  generalize passStart resumeEtag metaEtag resumeOffset size = start
  have hreport : LaysNothing path maxRetries
      (if 0 < start then progress start else .done (.ok ())) := nothing_progressIf start
  apply ensures_okThen (hreport h start)
  · intro _ h₁ hprogress
    apply ensures_okThen (laid_parallelBatches metaEtag size (size - start) start 0 h₁
      (hprogress.begins.trans hbegins))
    · rintro contiguous h₂ ⟨new, hpass⟩
      exact ⟨new, LaidPass.after hprogress hpass⟩
    · rintro e h₂ ⟨new, hpass⟩
      exact ⟨new, LaidPass.after hprogress hpass⟩
  · intro e h₁ hprogress
    exact ⟨[], LaidPass.of_lays hprogress⟩

/-- A whole pass over a file that stays the same begins at the offset it was given. -/
theorem laid_downloadFileParallel {file : FileEntry} {etag : Text} {resumeEtag : Text}
    {resumeOffset : Nat} (hetag : resumeEtag ≠ [] → resumeEtag = etag)
    (hoffset : resumeOffset ≤ file.size) (h : BrowserHistory) :
    Ensures (downloadFileParallel path maxRetries resumeEtag resumeOffset)
      (fun _ h' => (∀ a ∈ h', sameVersion file etag a) →
        ∃ new, LaidPass path maxRetries resumeOffset new h h') h := by
  have hnone : ∀ answer, LaidPass path maxRetries resumeOffset [] h (⟨.head, answer⟩ :: h) :=
    fun _ => ⟨(List.append_nil _).symm, ⟨resumeOffset, .nil resumeOffset⟩, rfl⟩
  intro answer
  cases answer with
  | error m => exact fun _ => ⟨[], hnone _⟩
  | ok resp =>
      by_cases h200 : resp.status = 200
      · simp only [h200, ne_eq, not_true_eq_false, if_false]
        show Ensures (chunkedPass path maxRetries resumeEtag resumeOffset (resp.etag.getD [])
          (resp.contentLength.getD 0)) _ _
        by_cases hsize : resp.contentLength.getD 0 = 0
        · unfold chunkedPass
          rw [if_pos hsize]
          exact fun _ => ⟨[], hnone _⟩
        · apply ensures_mono (ensures_and (ensures_isSuffix _ _) (laid_chunkedPass hsize rfl))
          rintro r h' ⟨hs, new, hpass⟩ hsame
          have hhead : sameVersion file etag ⟨.head, .ok resp⟩ :=
            hsame _ (hs.subset List.mem_cons_self)
          obtain ⟨htag, hlength⟩ := hhead.2 h200
          have htold : resp.contentLength.getD 0 = file.size := by
            cases hlen : resp.contentLength with
            | none => simp [hlen] at hsize
            | some size => exact hlength size hlen
          have hstart : passStart resumeEtag (resp.etag.getD []) resumeOffset
              (resp.contentLength.getD 0) = resumeOffset := by
            unfold passStart
            rw [htag, htold, if_neg fun hchanged => hchanged.2 (hetag hchanged.1)]
            exact Nat.min_eq_left hoffset
          rw [hstart] at hpass
          exact ⟨new, hpass.handed, hpass.tiles, hpass.batches⟩
      · simp only [ne_eq, h200, not_false_eq_true, if_true]
        exact fun _ => ⟨[], hnone _⟩

end Passes

/-! ## Turns of the loop -/

section Turns

variable {file : FileEntry} {maxRetries : Nat} {etag : Text}

/-- What a chunked turn hands over. -/
theorem turn_laysPass {s : Engine} (hetag : s.etag ≠ [] → s.etag = etag)
    (hoffset : s.offset ≤ file.size) (hchunked : shouldChunked file.size s.offset = true)
    (h : BrowserHistory) :
    Ensures (downloadRound file maxRetries s) (fun _ h' => (∀ a ∈ h', sameVersion file etag a) →
      ∃ new, LaidPass file.path maxRetries s.offset new h h') h := by
  have hwait : LaysNothing file.path maxRetries ready := nothing_ready
  apply ensures_bind (hwait h s.offset)
  intro go h₁ hready
  cases go with
  | error e => exact fun _ => ⟨[], LaidPass.of_lays hready⟩
  | ok u =>
      dsimp only
      rw [if_pos hchunked]
      have hfile : Ensures (downloadFileParallel file.path maxRetries s.etag s.offset)
          (fun _ h' => (∀ a ∈ h', sameVersion file etag a) →
            ∃ new, LaidPass file.path maxRetries s.offset new h₁ h') h₁ :=
        laid_downloadFileParallel hetag hoffset h₁
      apply ensures_bind hfile
      intro r h₂ hpass
      cases r with
      | ok told =>
          have hdone : LaysNothing file.path maxRetries (finishDownload told.1 told.2) :=
            nothing_finishDownload told.1 told.2
          apply ensures_bind (ensures_and (ensures_isSuffix _ h₂) (hdone h₂ s.offset))
          rintro result h' ⟨hs, hidle⟩ hsame
          obtain ⟨new, hnew⟩ := hpass fun a ha => hsame a (hs.subset ha)
          exact ⟨new, (LaidPass.after hready hnew).ended hidle⟩
      | error e =>
          intro hsame
          obtain ⟨new, hnew⟩ := hpass hsame
          exact ⟨new, LaidPass.after hready hnew⟩

variable (file maxRetries) in
/-- What a streamed turn hands over: nothing, if another turn follows. -/
def TurnStreams (offset : Nat) (h : BrowserHistory) (r : Engine ⊕ Except ClientError Nat)
    (h' : BrowserHistory) : Prop :=
  (∃ new stop, Lays file.path maxRetries offset stop new h h') ∧
    ∀ j, r = .inl j → handed h' = handed h

/-- The body that a `GET` brings, if it begins where a file that stays the same has it. -/
theorem stream_lays {offset start : Nat} {h h₁ : BrowserHistory}
    {a : Asked BrowserOp BrowserOp.Ans} (body : StreamBody) (tag : Text)
    (hasked : Lays file.path maxRetries offset offset [] h (a :: h₁))
    (hstart : sameVersion file etag a → start = offset) :
    Ensures (ends (okThen (streamDownload file body start tag) fun size =>
        finishDownload tag size)) (fun r h' => (∀ a ∈ h', sameVersion file etag a) →
      TurnStreams file maxRetries offset h r h') (a :: h₁) := by
  by_cases hfrom : start = offset
  · subst hfrom
    have hbody : LaysFrom file.path maxRetries start (okThen
        (streamDownload file body start tag) fun size => finishDownload tag size)
        (fun _ _ => True) (a :: h₁) := by
      apply laysFrom_okThen (lays_streamDownload file body tag)
      intro size stop h₂ _ _
      have hdone : LaysFrom file.path maxRetries stop (finishDownload tag size)
          (fun _ stop' => stop' = stop) h₂ := (nothing_finishDownload tag size).laysFrom
      apply ensures_mono hdone
      rintro r h' ⟨new, stop', hlays, _⟩
      exact ⟨new, stop', hlays, fun _ _ => trivial⟩
    apply ensures_bind (LaysFrom.after hasked hbody)
    rintro result h' ⟨new, stop, hlays, _⟩ _
    exact ⟨⟨new, stop, hlays⟩, nofun⟩
  · apply ensures_mono (ensures_isSuffix _ _)
    intro r h' hs hsame
    exact absurd (hstart (hsame a (hs.subset List.mem_cons_self))) hfrom

/-- What a streamed turn hands over. -/
theorem turn_laysStream {s : Engine} (hchunked : shouldChunked file.size s.offset = false)
    (h : BrowserHistory) :
    Ensures (downloadRound file maxRetries s) (fun r h' => (∀ a ∈ h', sameVersion file etag a) →
      TurnStreams file maxRetries s.offset h r h') h := by
  intro go
  have hready : Lays file.path maxRetries s.offset s.offset [] h (⟨.ready, go⟩ :: h) :=
    ⟨(List.append_nil _).symm, .nil s.offset, rfl, rfl⟩
  cases go with
  | false => exact fun _ => ⟨⟨[], s.offset, hready⟩, nofun⟩
  | true =>
      show Ensures (if shouldChunked file.size s.offset then _ else _) _ _
      rw [hchunked]
      intro answer
      have hasked : Lays file.path maxRetries s.offset s.offset [] h (⟨.get s.offset
          (if 0 < s.offset ∧ s.etag ≠ [] then some s.etag else none), answer⟩ ::
            ⟨.ready, true⟩ :: h) :=
        ⟨(List.append_nil _).symm, .nil s.offset, rfl, rfl⟩
      have hnothing := hasked.handed.trans (List.append_nil _)
      cases answer with
      | error m => exact fun _ => ⟨⟨[], s.offset, hasked⟩, fun _ _ => hnothing⟩
      | ok resp =>
          dsimp only
          split
          · next h200 =>
            apply stream_lays resp.body _ hasked
            intro hsame
            exact (hsame.2.1 h200).symm
          · split
            · next h206 =>
              apply stream_lays resp.body _ hasked
              intro hsame
              exact hsame.2.2 h206
            · split
              · exact fun _ => ⟨⟨[], s.offset, hasked⟩, fun _ _ => hnothing⟩
              · exact fun _ => ⟨⟨[], s.offset, hasked⟩, nofun⟩

/-! ## Runs -/

variable (file maxRetries) in
/-- What holds before every turn of a download that continues at `resumed`. -/
structure Relayed (resumed : Nat) (h : BrowserHistory) : Prop where
  once : DeliveredOnce resumed h ↔ firstBatches file.path maxRetries h ≤ 1
  none : handed h = [] ↔ firstBatches file.path maxRetries h = 0
  first : ∀ range, (handed h).head? = some range → range.1 = resumed
  streamed : shouldChunked file.size resumed = false → handed h = []

theorem Relayed.begins {resumed : Nat} {h : BrowserHistory} (hhanded : handed h = [])
    (hbatches : firstBatches file.path maxRetries h = 0) : Relayed file maxRetries resumed h := by
  refine ⟨?_, by simp [hhanded, hbatches], ?_, fun _ => hhanded⟩
  · unfold DeliveredOnce
    rw [hhanded, hbatches]
    exact ⟨fun _ => Nat.zero_le 1, fun _ => ⟨resumed, .nil resumed⟩⟩
  · rw [hhanded]
    exact nofun

/-- Two passes that both hand something over do so twice. -/
theorem not_once_of_both {resumed stop : Nat} {before new : List (Nat × Nat)}
    (hbefore : before ≠ []) (hfirst : ∀ range, before.head? = some range → range.1 = resumed)
    (hnew : Tiles resumed new stop) (hne : new ≠ []) (stop' : Nat) :
    ¬ Tiles resumed (before ++ new) stop' := by
  intro htiles
  obtain ⟨a, before, rfl⟩ := List.exists_cons_of_ne_nil hbefore
  obtain ⟨b, new, rfl⟩ := List.exists_cons_of_ne_nil hne
  have hstarts := htiles.starts_nodup
  have ha := hfirst a rfl
  have hb := hnew.head_start rfl
  simp [ha, hb] at hstarts

/-- A chunked turn. -/
theorem Relayed.pass {resumed : Nat} {h h' : BrowserHistory} {new : List (Nat × Nat)}
    (hbefore : Relayed file maxRetries resumed h)
    (hchunked : shouldChunked file.size resumed = true)
    (hpass : LaidPass file.path maxRetries resumed new h h') :
    Relayed file maxRetries resumed h' := by
  have hstreamed : shouldChunked file.size resumed = false → handed h' = [] :=
    fun hnot => nomatch hnot.symm.trans hchunked
  obtain ⟨stop, htiles⟩ := hpass.tiles
  by_cases hnew : new = []
  · have hhanded := hpass.handed
    have hbatches := hpass.batches
    rw [if_pos hnew, Nat.add_zero] at hbatches
    rw [hnew, List.append_nil] at hhanded
    refine ⟨?_, ?_, ?_, hstreamed⟩
    · unfold DeliveredOnce
      rw [hhanded, hbatches]
      exact hbefore.once
    · rw [hhanded, hbatches]
      exact hbefore.none
    · rw [hhanded]
      exact hbefore.first
  · have hbatches := hpass.batches
    rw [if_neg hnew] at hbatches
    have hhanded := hpass.handed
    refine ⟨?_, ?_, ?_, hstreamed⟩
    · unfold DeliveredOnce
      rw [hhanded, hbatches]
      by_cases hnothing : handed h = []
      · have hzero := hbefore.none.1 hnothing
        rw [hnothing, hzero]
        exact ⟨fun _ => le_refl _, fun _ => ⟨stop, htiles⟩⟩
      · have hsome : firstBatches file.path maxRetries h ≠ 0 :=
          fun hzero => hnothing (hbefore.none.2 hzero)
        constructor
        · rintro ⟨stop', htwice⟩
          exact absurd htwice (not_once_of_both hnothing hbefore.first htiles hnew stop')
        · intro hle
          omega
    · rw [hhanded, hbatches]
      simp [hnew]
    · intro range hrange
      rw [hhanded] at hrange
      cases hhead : (handed h).head? with
      | some r =>
          rw [List.head?_append, hhead] at hrange
          cases hrange
          exact hbefore.first _ hhead
      | none =>
          rw [List.head?_append, hhead] at hrange
          exact htiles.head_start hrange

/-- The last turn of a download that streams. -/
theorem Relayed.stream_once {resumed stop : Nat} {h h' : BrowserHistory}
    {new : List (Nat × Nat)} (hbefore : Relayed file maxRetries resumed h)
    (hchunked : shouldChunked file.size resumed = false)
    (hlays : Lays file.path maxRetries resumed stop new h h') :
    DeliveredOnce resumed h' ↔ firstBatches file.path maxRetries h' ≤ 1 := by
  have hnothing := hbefore.streamed hchunked
  have hzero := hbefore.none.1 hnothing
  have hhanded := hlays.handed
  rw [hnothing, List.nil_append] at hhanded
  unfold DeliveredOnce
  rw [hhanded, hlays.batches, hzero]
  exact ⟨fun _ => Nat.zero_le 1, fun _ => ⟨stop, hlays.tiles⟩⟩

/-- However many turns it took. -/
theorem rounds_delivered {answers : Strategy BrowserOp BrowserOp.Ans} {n : Nat} {s : Engine}
    {h : BrowserHistory} (hetag : s.etag ≠ [] → s.etag = etag) (hoffset : s.offset ≤ file.size)
    (hbefore : Relayed file maxRetries s.offset h)
    (hsame : ∀ a ∈ (play answers (rounds (downloadRound file maxRetries) n s) h).2,
      sameVersion file etag a) :
    DeliveredOnce s.offset (play answers (rounds (downloadRound file maxRetries) n s) h).2 ↔
      firstBatches file.path maxRetries
        (play answers (rounds (downloadRound file maxRetries) n s) h).2 ≤ 1 := by
  induction n generalizing s h with
  | zero => exact hbefore.once
  | succ n ih =>
      have hspends : ∃ met, restarts file.path maxRetries
            (play answers (downloadRound file maxRetries s) h).2 =
          restarts file.path maxRetries h + met ∧
          GoesOn maxRetries s met (play answers (downloadRound file maxRetries s) h).1 :=
        (play_of_ensures answers (round_spends Nat.one_pos file 0 s h)).1
      obtain ⟨met, hmet, hgoes⟩ := hspends
      cases hround : (play answers (downloadRound file maxRetries s) h).1 with
      | inr r =>
          rw [play_rounds_inr hround] at hsame ⊢
          dsimp only at hsame ⊢
          cases hchunked : shouldChunked file.size s.offset with
          | true =>
              obtain ⟨new, hpass⟩ := play_of_ensures answers
                (turn_laysPass hetag hoffset hchunked h) hsame
              exact (hbefore.pass hchunked hpass).once
          | false =>
              obtain ⟨⟨new, stop, hlays⟩, _⟩ := play_of_ensures answers
                (turn_laysStream hchunked h) hsame
              exact hbefore.stream_once hchunked hlays
      | inl j =>
          have hrest := play_rounds_inl hround (n := n)
          rw [hrest] at hsame ⊢
          have hsuffix := play_isSuffix answers (rounds (downloadRound file maxRetries) n j)
            (play answers (downloadRound file maxRetries s) h).2
          have hsame₁ : ∀ a ∈ (play answers (downloadRound file maxRetries s) h).2,
              sameVersion file etag a := fun a ha => hsame a (hsuffix.subset ha)
          have hcalm : restarts file.path maxRetries
              (play answers (downloadRound file maxRetries s) h).2 = 0 :=
            restarts_unchanged hsame₁
          rw [hround] at hgoes
          obtain hretry | hrestart := hgoes
          · obtain ⟨_, _, rfl⟩ := hretry
            have hnext : Relayed file maxRetries s.offset
                (play answers (downloadRound file maxRetries s) h).2 := by
              cases hchunked : shouldChunked file.size s.offset with
              | true =>
                  obtain ⟨new, hpass⟩ := play_of_ensures answers
                    (turn_laysPass hetag hoffset hchunked h) hsame₁
                  exact hbefore.pass hchunked hpass
              | false =>
                  obtain ⟨⟨new, stop, hlays⟩, hagain⟩ := play_of_ensures answers
                    (turn_laysStream hchunked h) hsame₁
                  have hnothing := hbefore.streamed hchunked
                  apply Relayed.begins
                  · rw [hagain _ hround, hnothing]
                  · rw [hlays.batches, hbefore.none.1 hnothing]
            exact ih (s := { s with attempts := s.attempts + 1 }) hetag hoffset hnext hsame
          · omega

end Turns

/-! ## Whole downloads -/

section Whole

variable (answers : Strategy BrowserOp BrowserOp.Ans) (file : FileEntry) (maxRetries : Nat)

/-- Before the loop nothing is handed over. -/
theorem openDownload_hands :
    Ensures (openDownload file) (fun _ h' => handed h' = [] ∧
      firstBatches file.path maxRetries h' = 0) [] := by
  intro started
  cases started with
  | error m => exact ⟨rfl, rfl⟩
  | ok u =>
      intro loaded
      cases loaded with
      | error e => exact ⟨rfl, rfl⟩
      | ok saved =>
          show Ensures (resumeDownload file saved) _ _
          unfold resumeDownload
          dsimp only
          split
          · exact ⟨rfl, rfl⟩
          · have hdone : LaysNothing file.path maxRetries (okThen
                (if 0 < (usableState saved).2 then progress (usableState saved).2
                  else .done (.ok ())) fun _ =>
                finishDownload (usableState saved).1 file.size) :=
              nothing_okThen (nothing_progressIf _) fun _ => nothing_finishDownload _ _
            apply ensures_bind (hdone _ 0)
            intro r h' hidle
            exact ⟨hidle.handed, hidle.batches⟩
          · exact ⟨rfl, rfl⟩

variable {answers file maxRetries}

/-- While the remote file stays the same, the chunks that a download hands over are
contiguous from its resume offset, each byte in one of them, exactly when at most one
of its passes gets all of its first batch. -/
theorem delivered_once_iff {turns : Nat}
    (hsame : Unchanged file (resumedAt answers file) (afterTurns answers file maxRetries turns).2) :
    DeliveredOnce (resumedAt answers file).2 (afterTurns answers file maxRetries turns).2 ↔
      firstBatches file.path maxRetries (afterTurns answers file maxRetries turns).2 ≤ 1 := by
  have hopened : _ ∧ _ := play_of_ensures answers (openDownload_hands file maxRetries)
  obtain ⟨hnothing, hzero⟩ := hopened
  obtain ⟨etag, hetag, hsame⟩ := hsame
  obtain ⟨h, hopen, _, hresumed⟩ | ⟨r, h, hopen, _⟩ := download_begins answers file maxRetries
  · have hplay : afterTurns answers file maxRetries turns =
        play answers (rounds (downloadRound file maxRetries) turns
          ⟨(resumedAt answers file).2, (resumedAt answers file).1, 0⟩) h := by
      apply (play_bind answers (openDownload file) _ []).trans
      rw [hopen]
    rw [hopen] at hnothing hzero
    rw [hplay] at hsame ⊢
    have hoffset : (resumedAt answers file).2 ≤ file.size := by omega
    exact rounds_delivered hetag hoffset (Relayed.begins hnothing hzero) hsame
  · have hplay : afterTurns answers file maxRetries turns = (some r, h) := by
      apply (play_bind answers (openDownload file) _ []).trans
      rw [hopen]
      rfl
    rw [hopen] at hnothing hzero
    rw [hplay]
    exact (Relayed.begins hnothing hzero).once

end Whole

/-! ## A batch that fails after another -/

/-- The connection breaks whenever another chunk than the first is asked for. -/
def breakingChunk (batch : List (Nat × Nat)) : ChunkReply :=
  if batch = [(0, 1)] then .answered 206 ⟨[.ok [7]], .ok []⟩ (.ok ())
  else .failed "connection reset".toList

/-- A server with one version of a file, behind such a connection. -/
def breakingServer : Strategy BrowserOp BrowserOp.Ans := fun _ o =>
  match o with
  | .onFileStart => .ok ()
  | .loadState => .ok none
  | .ready => true
  | .progress _ => .ok ()
  | .head => .ok ⟨200, some "v1".toList, some MIN_PARALLEL_DOWNLOAD_BYTES⟩
  | .live => (1, 1)
  | .fetchBatch _ batch => ⟨fun _ _ => breakingChunk batch, 0⟩
  | .get _ _ => .error "connection reset".toList
  | .writeChunk _ _ => .ok ()
  | .saveState _ _ => .ok ()
  | .onFileCompleted => .ok ()

def breakingFile : FileEntry := ⟨"a".toList, MIN_PARALLEL_DOWNLOAD_BYTES⟩

theorem breaking_unchanged (turns : Nat) :
    Unchanged breakingFile (resumedAt breakingServer breakingFile)
      (afterTurns breakingServer breakingFile 1 turns).2 := by
  refine ⟨"v1".toList, fun hsome => absurd rfl hsome, ?_⟩
  apply play_answered
  · intro n o
    cases o with
    | head => exact ⟨by decide, fun _ => ⟨rfl, fun size hsize => (Option.some.inj hsize).symm⟩⟩
    | fetchBatch tag batch =>
        intro chunk attempt status body reported hreply
        have hchunk : breakingChunk batch = .answered status body reported := hreply
        unfold breakingChunk at hchunk
        split at hchunk <;> cases hchunk
        rfl
    | _ => trivial
  · exact nofun

/-- One pass gets its first batch, and what it delivers is in one piece. -/
theorem first_pass_delivers_once :
    DeliveredOnce (resumedAt breakingServer breakingFile).2
      (afterTurns breakingServer breakingFile 1 1).2 :=
  (delivered_once_iff (breaking_unchanged 1)).2 (by decide +kernel)

/-- The first byte is handed over by the first pass, and by the retry again. -/
theorem retry_delivers_again :
    Unchanged breakingFile (resumedAt breakingServer breakingFile)
        (afterTurns breakingServer breakingFile 1 2).2 ∧
      handed (afterTurns breakingServer breakingFile 1 2).2 = [(0, 1), (0, 1)] ∧
      ¬ DeliveredOnce (resumedAt breakingServer breakingFile).2
        (afterTurns breakingServer breakingFile 1 2).2 := by
  have hhanded : handed (afterTurns breakingServer breakingFile 1 2).2 = [(0, 1), (0, 1)] := by
    decide +kernel
  refine ⟨breaking_unchanged 2, hhanded, ?_⟩
  rintro ⟨stop, htiles⟩
  rw [hhanded] at htiles
  have hstarts := htiles.starts_nodup
  simp at hstarts

end Libfw

import Libfw.DownloadTermination

/-!
# What a browser download that returns has delivered

A download ends with the pass that succeeds: the body of one `GET`, or the chunks
planned after one `HEAD`.  The chunked pass checks that it has reached the size it was
told.  The streamed pass checks nothing: it reports the listed size, or the end of the
body when that is further.

* `reached` — the contiguous bytes delivered, from the writes in the history.
* `Complete` — the whole file is delivered, and the saved offset says so.
* `LastPassFits` — the last pass starts where bytes have been delivered and ends at
  the size of the file.
* `download_complete_iff` — a download that returns is complete exactly when its last
  pass fits.
* `truncated_body_is_accepted` — a body that ends early leaves the file unfinished.
-/

namespace Libfw

open SteppedPrograms PlayedPrograms BrowserProg

/-! ## What is delivered -/

/-- The contiguous bytes delivered, `resumed` of them by earlier downloads.  Bytes
written inside them start over from there; bytes written past them leave a hole. -/
def reached (resumed : Nat) : BrowserHistory → Nat
  | [] => resumed
  | ⟨.writeChunk offset data, .ok _⟩ :: h =>
      if data ≠ [] ∧ offset ≤ reached resumed h then offset + data.length
      else reached resumed h
  | _ :: h => reached resumed h

/-- The offset in the resume state. -/
def lastSaved : BrowserHistory → Option Nat
  | [] => none
  | ⟨.saveState _ offset, .ok _⟩ :: _ => some offset
  | _ :: h => lastSaved h

/-- All of a file of `size` bytes is delivered, and the resume state says so. -/
structure Complete (size resumed : Nat) (h : BrowserHistory) : Prop where
  delivered : reached resumed h = size
  saved : lastSaved h = some size

/-! ## Passes -/

/-- The bytes a body decompresses to. -/
def StreamBody.size (body : StreamBody) : Nat :=
  (body.pieces.map fun piece => (piece.toOption.getD []).length).sum +
    (body.finish.toOption.getD []).length

/-- Where a download continues: the saved state, unless it is past the end. -/
def resumePoint (file : FileEntry) (saved : Option (Text × Nat)) : Text × Nat :=
  if classifyDownload file.size (usableState saved).2 = .restart then ([], 0)
  else usableState saved

section Passes

variable (path : Text) (maxRetries : Nat) (resumed : Text × Nat)

/-- The offset an attempt continues at: a restart goes back to byte zero. -/
def offsetAfter (h : BrowserHistory) : Nat :=
  if restarts path maxRetries h = 0 then resumed.2 else 0

/-- The range a pass is about to deliver, from the answer it begins with. -/
def passOf (before : BrowserHistory) : Asked BrowserOp BrowserOp.Ans → Option (Nat × Nat)
  | ⟨.head, .ok resp⟩ =>
      let size := resp.contentLength.getD 0
      some (passStart resumed.1 (resp.etag.getD [])
        (offsetAfter path maxRetries resumed before) size, size)
  | ⟨.get offset _, .ok resp⟩ =>
      let start := if resp.status = 200 then 0 else resp.contentRangeStart.getD offset
      some (start, start + resp.body.size)
  | _ => none

/-- The last pass, and the history before it. -/
def lastPass : BrowserHistory → Option ((Nat × Nat) × BrowserHistory)
  | [] => none
  | a :: h =>
      match passOf path maxRetries resumed h a with
      | some range => some (range, h)
      | none => lastPass h

/-- The last pass starts inside of what was delivered before it, and ends at `size`. -/
def LastPassFits (size : Nat) (h : BrowserHistory) : Prop :=
  match lastPass path maxRetries resumed h with
  | none => True
  | some ((start, stop), before) => start ≤ reached resumed.2 before ∧ stop = size

end Passes

/-! ## Parts of a pass -/

/-- What holds when a program succeeds. -/
def Succeeds {α : Type} (p : BrowserProg (Except ClientError α))
    (Q : α → BrowserHistory → Prop) (h : BrowserHistory) : Prop :=
  Ensures p (fun r h' => ∀ a, r = .ok a → Q a h') h

theorem succeeds_ok {α : Type} {a : α} {Q : α → BrowserHistory → Prop} {h : BrowserHistory}
    (ha : Q a h) : Succeeds (.done (.ok a)) Q h := by
  intro b hb
  cases hb
  exact ha

theorem succeeds_error {α : Type} {e : ClientError} {Q : α → BrowserHistory → Prop}
    {h : BrowserHistory} : Succeeds (.done (.error e)) Q h := nofun

theorem succeeds_mono {α : Type} {p : BrowserProg (Except ClientError α)}
    {Q Q' : α → BrowserHistory → Prop} {h : BrowserHistory} (hp : Succeeds p Q h)
    (hQ : ∀ a h', Q a h' → Q' a h') : Succeeds p Q' h := by
  apply ensures_mono hp
  intro r h' hr a ha
  exact hQ a h' (hr a ha)

theorem succeeds_okThen {α β : Type} {p : BrowserProg (Except ClientError α)}
    {f : α → BrowserProg (Except ClientError β)} {P : α → BrowserHistory → Prop}
    {Q : β → BrowserHistory → Prop} {h : BrowserHistory} (hp : Succeeds p P h)
    (hf : ∀ a h', P a h' → Succeeds (f a) Q h') : Succeeds (p.okThen f) Q h := by
  apply ensures_okThen hp
  · intro a h' ha
    exact hf a h' (ha a rfl)
  · intro e h' _ b hb
    cases hb

/-- The bytes from `start` to `stop` are handed over, and no pass has begun. -/
structure Hands (path : Text) (maxRetries : Nat) (resumed : Text × Nat) (start stop : Nat)
    (h h' : BrowserHistory) : Prop where
  le : start ≤ stop
  moved : reached resumed.2 h' =
    if start < stop ∧ start ≤ reached resumed.2 h then stop else reached resumed.2 h
  pass : lastPass path maxRetries resumed h' = lastPass path maxRetries resumed h

section Hands

variable {path : Text} {maxRetries : Nat} {resumed : Text × Nat} {start middle stop : Nat}
  {h h₁ h₂ : BrowserHistory}

theorem Hands.refl : Hands path maxRetries resumed start start h h :=
  ⟨le_refl _, by simp, rfl⟩

theorem Hands.trans (hab : Hands path maxRetries resumed start middle h h₁)
    (hbc : Hands path maxRetries resumed middle stop h₁ h₂) :
    Hands path maxRetries resumed start stop h h₂ := by
  have hle := hab.le
  have hle' := hbc.le
  refine ⟨by omega, ?_, hbc.pass.trans hab.pass⟩
  rw [hbc.moved, hab.moved]
  split <;> split <;> split <;> omega

/-- An answer that is neither a write nor the beginning of a pass. -/
theorem Hands.other {a : Asked BrowserOp BrowserOp.Ans}
    (hreached : reached resumed.2 (a :: h) = reached resumed.2 h)
    (hpass : passOf path maxRetries resumed h a = none) :
    Hands path maxRetries resumed start start h (a :: h) := by
  refine ⟨le_refl _, by simpa using hreached, ?_⟩
  simp [lastPass, hpass]

theorem hands_ready (start : Nat) (h : BrowserHistory) :
    Succeeds ready (fun _ h' => Hands path maxRetries resumed start start h h') h := by
  intro go
  cases go with
  | true => exact succeeds_ok (Hands.other rfl rfl)
  | false => exact succeeds_error

theorem hands_progress (bytes start : Nat) (h : BrowserHistory) :
    Succeeds (progress bytes) (fun _ h' => Hands path maxRetries resumed start start h h') h := by
  intro a
  cases a with
  | ok u => exact succeeds_ok (Hands.other rfl rfl)
  | error m => exact succeeds_error

theorem hands_progressIf (bytes start : Nat) (h : BrowserHistory) :
    Succeeds (if 0 < bytes then progress bytes else .done (.ok ()))
      (fun _ h' => Hands path maxRetries resumed start start h h') h := by
  split
  · exact hands_progress bytes start h
  · exact succeeds_ok Hands.refl

theorem hands_writeChunk (offset : Nat) (data : List UInt8) (h : BrowserHistory) :
    Succeeds (writeChunk offset data)
      (fun _ h' => Hands path maxRetries resumed offset (offset + data.length) h h') h := by
  intro a
  cases a with
  | error m => exact succeeds_error
  | ok u =>
      apply succeeds_ok
      refine ⟨by omega, ?_, rfl⟩
      have hdata : offset < offset + data.length ↔ data ≠ [] := by
        rw [← List.length_pos_iff]
        omega
      simp only [reached, hdata]

/-- A saved offset changes nothing of what is delivered. -/
theorem hands_saveEvery {α : Type} {etag : Text} {offset saved : Nat}
    {f : Nat → BrowserProg (Except ClientError α)} {Q : α → BrowserHistory → Prop}
    (hf : ∀ n h', Hands path maxRetries resumed offset offset h h' → Succeeds (f n) Q h') :
    Succeeds ((saveEvery etag offset saved).bind f) Q h := by
  unfold saveEvery
  split
  · intro a
    apply hf
    cases a with
    | ok u => exact Hands.other rfl rfl
    | error m => exact Hands.other rfl rfl
  · exact hf saved h Hands.refl

/-- The chunks of a batch are handed over without a gap. -/
theorem hands_emitChunks (etag : Text) (chunks : List (Nat × List UInt8))
    (contiguous saved : Nat) (h : BrowserHistory) :
    Succeeds (emitChunks path etag chunks contiguous saved)
      (fun next h' => Hands path maxRetries resumed contiguous next.1 h h') h := by
  induction chunks generalizing contiguous saved h with
  | nil => exact succeeds_ok Hands.refl
  | cons chunk rest ih =>
      obtain ⟨start, data⟩ := chunk
      unfold emitChunks
      split
      · exact succeeds_error
      · apply succeeds_okThen (hands_writeChunk contiguous data h)
        intro _ h₁ hwrite
        apply hands_saveEvery
        intro n h₂ hsave
        apply succeeds_mono (ih (contiguous + data.length) n h₂)
        intro next h' hlater
        exact (hwrite.trans hsave).trans hlater

theorem hands_parallelBatches (etag : Text) (size left contiguous saved : Nat)
    (h : BrowserHistory) :
    Succeeds (parallelBatches path maxRetries etag size left contiguous saved)
      (fun next h' => Hands path maxRetries resumed contiguous next h h') h := by
  induction left generalizing contiguous saved h with
  | zero => exact succeeds_ok Hands.refl
  | succ left ih =>
      unfold parallelBatches
      split
      · apply succeeds_okThen (hands_ready contiguous h)
        intro _ h₁ hready live reply
        dsimp only
        split
        · exact succeeds_error
        · have hasked : Hands path maxRetries resumed contiguous contiguous h₁
              (⟨.fetchBatch _ _, reply⟩ :: ⟨.live, live⟩ :: h₁) :=
            (Hands.other rfl rfl).trans (Hands.other rfl rfl)
          apply succeeds_okThen (hands_emitChunks etag _ contiguous saved _)
          intro next h₂ hemit
          apply succeeds_mono (ih next.1 next.2 h₂)
          intro stop h' hlater
          exact ((hready.trans hasked).trans hemit).trans hlater
      · exact succeeds_ok Hands.refl

/-- The body of a stream is handed over without a gap. -/
theorem hands_streamReads (etag : Text) (pieces : List (Except BodyError (List UInt8)))
    (offset saved : Nat) (h : BrowserHistory) :
    Succeeds (streamReads etag pieces offset saved) (fun stop h' =>
      Hands path maxRetries resumed offset stop h h' ∧
      stop = offset + (pieces.map fun piece => (piece.toOption.getD []).length).sum) h := by
  induction pieces generalizing offset saved h with
  | nil => exact succeeds_ok ⟨Hands.refl, rfl⟩
  | cons piece rest ih =>
      unfold streamReads
      cases piece with
      | error e => exact succeeds_error
      | ok data =>
          have hsum : ((Except.ok data :: rest : List (Except BodyError (List UInt8))).map
              fun piece => (piece.toOption.getD []).length).sum = data.length +
              (rest.map fun piece => (piece.toOption.getD []).length).sum := rfl
          rw [hsum]
          apply succeeds_okThen (hands_ready offset h)
          intro _ h₁ hready
          split
          · next hempty =>
            apply succeeds_mono (ih offset saved h₁)
            rintro stop h' ⟨hlater, hstop⟩
            subst hempty
            exact ⟨hready.trans hlater, by simpa using hstop⟩
          · apply succeeds_okThen (hands_writeChunk offset data h₁)
            intro _ h₂ hwrite
            apply succeeds_okThen (hands_progress data.length (offset + data.length) h₂)
            intro _ h₃ hprogress
            apply hands_saveEvery
            intro n h₄ hsave
            apply succeeds_mono (ih (offset + data.length) n h₄)
            rintro stop h' ⟨hlater, hstop⟩
            exact ⟨(((hready.trans hwrite).trans hprogress).trans hsave).trans hlater, by omega⟩

variable (path maxRetries resumed) in
/-- A streamed pass delivers its body, and reports no less than the listed size. -/
theorem hands_streamDownload (file : FileEntry) (body : StreamBody) (start : Nat)
    (etag : Text) (h : BrowserHistory) :
    Succeeds (streamDownload file body start etag) (fun told h' =>
      Hands path maxRetries resumed start (start + body.size) h h' ∧
      told = max file.size (start + body.size)) h := by
  apply succeeds_okThen (hands_progressIf start start h)
  intro _ h₁ hprogress
  apply succeeds_okThen (hands_streamReads etag body.pieces start 0 h₁)
  intro stop h₂ hread
  have hbefore : Hands path maxRetries resumed start stop h h₂ := hprogress.trans hread.1
  have hstop := hread.2
  split
  · exact succeeds_error
  · next tail htail =>
    have hlast : (body.finish.toOption.getD []).length = tail.length := by
      rw [htail]
      rfl
    have hsize : start + body.size = stop + tail.length := by
      unfold StreamBody.size
      omega
    rw [hsize]
    split
    · next hempty =>
      subst hempty
      exact succeeds_ok ⟨hbefore, rfl⟩
    · apply succeeds_okThen (hands_writeChunk stop tail h₂)
      intro _ h₃ hwrite
      apply succeeds_okThen (hands_progress tail.length (stop + tail.length) h₃)
      intro _ h₄ hdone
      exact succeeds_ok ⟨(hbefore.trans hwrite).trans hdone, rfl⟩

variable (path maxRetries resumed) in
/-- The offset is saved at last. -/
theorem hands_finishDownload (etag : Text) (size : Nat) (h : BrowserHistory) :
    Succeeds (finishDownload etag size) (fun told h' =>
      told = size ∧ lastSaved h' = some size ∧
      Hands path maxRetries resumed size size h h') h := by
  intro saved
  cases saved with
  | error m => exact succeeds_error
  | ok u =>
      intro completed
      cases completed with
      | error m => exact succeeds_error
      | ok u => exact succeeds_ok ⟨rfl, rfl, (Hands.other rfl rfl).trans (Hands.other rfl rfl)⟩

variable (path maxRetries resumed) in
/-- A chunked pass that returns has reached the size it was told. -/
theorem hands_chunkedPass (resumeEtag : Text) (resumeOffset : Nat) (metaEtag : Text)
    (size : Nat) (h : BrowserHistory) :
    Succeeds (chunkedPass path maxRetries resumeEtag resumeOffset metaEtag size)
      (fun told h' => told.2 = size ∧ size ≠ 0 ∧ Hands path maxRetries resumed
        (passStart resumeEtag metaEtag resumeOffset size) size h h') h := by
  unfold chunkedPass
  split
  · exact succeeds_error
  · next hsize =>
    dsimp only
    generalize passStart resumeEtag metaEtag resumeOffset size = start
    apply succeeds_okThen (hands_progressIf start start h)
    intro _ h₁ hprogress
    apply succeeds_okThen (hands_parallelBatches metaEtag size (size - start) start 0 h₁)
    intro contiguous h₂ hbatches
    split
    · exact succeeds_error
    · next hend =>
      apply succeeds_ok
      have hat : contiguous = size := not_not.1 hend
      subst hat
      exact ⟨rfl, hsize, hprogress.trans hbatches⟩

/-! ## Whole passes -/

variable (path maxRetries resumed start stop) in
/-- A pass that began after `h` has delivered its range, and is the last one. -/
structure Passed (h h' : BrowserHistory) : Prop where
  le : start ≤ stop
  moved : reached resumed.2 h' =
    if start < stop ∧ start ≤ reached resumed.2 h then stop else reached resumed.2 h
  last : lastPass path maxRetries resumed h' = some ((start, stop), h)

theorem Passed.of_hands {a : Asked BrowserOp BrowserOp.Ans}
    (hpass : passOf path maxRetries resumed h a = some (start, stop))
    (hreached : reached resumed.2 (a :: h) = reached resumed.2 h)
    (hands : Hands path maxRetries resumed start stop (a :: h) h₁) :
    Passed path maxRetries resumed start stop h h₁ := by
  refine ⟨hands.le, ?_, ?_⟩
  · rw [hands.moved, hreached]
  · rw [hands.pass]
    simp [lastPass, hpass]

theorem Passed.trans {other : Nat} (hpassed : Passed path maxRetries resumed start stop h h₁)
    (hands : Hands path maxRetries resumed other other h₁ h₂) :
    Passed path maxRetries resumed start stop h h₂ := by
  refine ⟨hpassed.le, ?_, hands.pass.trans hpassed.last⟩
  rw [hands.moved, hpassed.moved]
  simp

/-- Whether a pass that reports `told` is complete. -/
theorem Passed.complete_iff {size told : Nat}
    (hpassed : Passed path maxRetries resumed start stop h h₁)
    (hsaved : lastSaved h₁ = some told)
    (htold : told = stop ∧ (start < stop ∨ stop < size) ∨
      told = max size stop ∧ (reached resumed.2 h < size ∨
        size = 0 ∧ reached resumed.2 h = 0)) :
    Complete size resumed.2 h₁ ↔ LastPassFits path maxRetries resumed size h₁ := by
  have hle := hpassed.le
  have hboth : Complete size resumed.2 h₁ ↔
      reached resumed.2 h₁ = size ∧ told = size := by
    constructor
    · intro hcomplete
      exact ⟨hcomplete.delivered, Option.some.inj (hsaved.symm.trans hcomplete.saved)⟩
    · rintro ⟨hdelivered, heq⟩
      exact ⟨hdelivered, heq ▸ hsaved⟩
  rw [hboth, LastPassFits, hpassed.last, hpassed.moved]
  dsimp only
  split <;> omega

end Hands

/-! ## Turns of the loop -/

section Turns

variable {file : FileEntry} {maxRetries : Nat} {resumed : Text × Nat}

variable (file maxRetries resumed) in
/-- The variables of the loop, from the history.  Before a streamed pass nothing has
been delivered. -/
structure Tracked (s : Engine) (h : BrowserHistory) : Prop where
  etag : s.etag = resumed.1
  offset : s.offset = offsetAfter file.path maxRetries resumed h
  still : shouldChunked file.size s.offset = false → reached resumed.2 h = resumed.2

variable (file maxRetries resumed) in
/-- What a turn leaves: a streamed one goes on only when it has delivered nothing, and
one that returns a size is complete exactly when its pass fits. -/
def TurnFits (s : Engine) (h : BrowserHistory) :
    Engine ⊕ Except ClientError Nat → BrowserHistory → Prop
  | .inl _, h' =>
      shouldChunked file.size s.offset = false → reached resumed.2 h' = reached resumed.2 h
  | .inr (.ok _), h' => Complete file.size resumed.2 h' ↔
      LastPassFits file.path maxRetries resumed file.size h'
  | .inr (.error _), _ => True

theorem shouldChunked_lt {size offset : Nat} (hchunked : shouldChunked size offset) :
    offset < size := by
  have hboth := Bool.and_eq_true_iff.1 hchunked
  have hlarge := of_decide_eq_true hboth.2
  have hpos : 0 < MIN_PARALLEL_DOWNLOAD_BYTES := by decide
  omega

theorem shouldChunked_zero {size offset : Nat} (hchunked : shouldChunked size offset) :
    shouldChunked size 0 := by
  have hboth := Bool.and_eq_true_iff.1 hchunked
  exact Bool.and_eq_true_iff.2 ⟨hboth.1, hboth.1⟩

theorem retryOr_fits (s : Engine) (h h' : BrowserHistory) (e : ClientError)
    (hreached : shouldChunked file.size s.offset = false →
      reached resumed.2 h' = reached resumed.2 h) :
    TurnFits file maxRetries resumed s h (retryOr maxRetries s e) h' := by
  unfold retryOr
  split
  · trivial
  · exact hreached

/-- A turn that ends the loop. -/
theorem ends_fits {s : Engine} {h h₁ : BrowserHistory}
    {p : BrowserProg (Except ClientError Nat)}
    (hp : Succeeds p (fun _ h' => Complete file.size resumed.2 h' ↔
      LastPassFits file.path maxRetries resumed file.size h') h₁) :
    Ensures (ends p) (TurnFits file maxRetries resumed s h) h₁ := by
  apply ensures_bind hp
  intro r h' hr
  cases r with
  | ok told => exact hr told rfl
  | error e => trivial

/-- A streamed pass, from the answer to its `GET`. -/
theorem streamed_fits {s : Engine} {h : BrowserHistory} {resp : GetResponse}
    {offset start : Nat} {ifRange : Option Text} (etag : Text)
    (hresumed : resumed.2 < file.size ∨ file.size = 0 ∧ resumed.2 = 0)
    (hstill : reached resumed.2 h = resumed.2)
    (hpass : passOf file.path maxRetries resumed h ⟨.get offset ifRange, .ok resp⟩ =
      some (start, start + resp.body.size)) :
    Ensures (ends (okThen (streamDownload file resp.body start etag) fun size =>
        finishDownload etag size))
      (TurnFits file maxRetries resumed s h) (⟨.get offset ifRange, .ok resp⟩ :: h) := by
  apply ends_fits
  apply succeeds_okThen (hands_streamDownload file.path maxRetries resumed file resp.body start etag _)
  rintro told h₁ ⟨hands, htold⟩
  have hpassed : Passed file.path maxRetries resumed start (start + resp.body.size) h h₁ :=
    Passed.of_hands hpass rfl hands
  apply succeeds_mono (hands_finishDownload file.path maxRetries resumed etag told h₁)
  rintro size h' ⟨hsize, hsaved, hands'⟩
  apply (hpassed.trans hands').complete_iff hsaved
  exact Or.inr ⟨htold, by rw [hstill]; exact hresumed⟩

/-- The size and version that `HEAD` tells. -/
theorem succeeds_fetchMeta (h : BrowserHistory) :
    Succeeds browserFetchMeta (fun told h' => ∃ resp : HeadResponse,
      h' = ⟨.head, .ok resp⟩ :: h ∧
      told = (resp.etag.getD [], resp.contentLength.getD 0)) h := by
  intro answer
  cases answer with
  | error m => exact succeeds_error
  | ok resp =>
      intro told htold
      refine ⟨resp, rfl, ?_⟩
      split at htold
      · cases htold
      · cases htold
        rfl

/-- A chunked attempt that returns. -/
theorem chunked_passed {s : Engine} {h : BrowserHistory}
    (ht : Tracked file maxRetries resumed s h)
    (hchunked : shouldChunked file.size s.offset) :
    Succeeds (downloadFileParallel file.path maxRetries s.etag s.offset) (fun told h' =>
      ∃ start, Passed file.path maxRetries resumed start told.2 h h' ∧
        (start < told.2 ∨ told.2 < file.size)) h := by
  have hlt := shouldChunked_lt hchunked
  apply succeeds_okThen (succeeds_fetchMeta h)
  rintro meta' h₁ ⟨resp, hasked, hmeta⟩
  subst hasked hmeta
  dsimp only
  apply succeeds_mono (hands_chunkedPass file.path maxRetries resumed s.etag s.offset
    (resp.etag.getD []) (resp.contentLength.getD 0) _)
  rintro told h' ⟨htold, hpos, hands⟩
  rw [htold]
  have hpassed := Passed.of_hands (by rw [ht.etag, ht.offset]; rfl) rfl hands
  refine ⟨_, hpassed, ?_⟩
  unfold passStart
  split <;> omega

/-- What a turn of the loop leaves. -/
theorem turn_fits {s : Engine} {h : BrowserHistory}
    (hresumed : resumed.2 < file.size ∨ file.size = 0 ∧ resumed.2 = 0)
    (ht : Tracked file maxRetries resumed s h) :
    Ensures (downloadRound file maxRetries s) (TurnFits file maxRetries resumed s h) h := by
  intro go
  have hasked : Tracked file maxRetries resumed s (⟨.ready, go⟩ :: h) := by
    refine ⟨ht.etag, ?_, ht.still⟩
    rw [ht.offset]
    simp [offsetAfter, restartOf]
  cases go with
  | false => trivial
  | true =>
      show Ensures (if shouldChunked file.size s.offset then _ else _) _ _
      split
      · next hchunked =>
        have hagain : ∀ h', shouldChunked file.size s.offset = false →
            reached resumed.2 h' = reached resumed.2 h := by
          intro h' hnot
          cases hnot.symm.trans hchunked
        apply ensures_bind (chunked_passed hasked hchunked)
        intro r h₁ hr
        cases r with
        | ok told =>
            obtain ⟨start, hpassed, hends⟩ := hr told rfl
            apply ends_fits
            apply succeeds_mono
              (hands_finishDownload file.path maxRetries resumed told.1 told.2 h₁)
            rintro size h' ⟨hsize, hsaved, hands⟩
            exact (hpassed.trans hands).complete_iff hsaved (Or.inl ⟨rfl, hends⟩)
        | error e =>
            show TurnFits file maxRetries resumed s h
              (if isRestartErr e then _ else _) h₁
            split
            · exact hagain h₁
            · exact retryOr_fits s h h₁ e (hagain h₁)
      · next hnot =>
        have hstill := hasked.still (Bool.eq_false_iff.2 hnot)
        intro answer
        cases answer with
        | error m => exact retryOr_fits s h _ _ fun _ => rfl
        | ok resp =>
            dsimp only
            split
            · next h200 =>
              apply streamed_fits (resp.etag.getD s.etag) hresumed hstill
              simp [passOf, h200]
            · split
              · next h206 =>
                apply streamed_fits _ hresumed hstill
                simp [passOf, h206]
              · split
                · exact fun _ => rfl
                · trivial

/-- The variables of the loop follow the restarts. -/
theorem tracked_next {s j : Engine} {h h₁ : BrowserHistory} {met : Nat}
    (ht : Tracked file maxRetries resumed s h)
    (hres : restarts file.path maxRetries h₁ = restarts file.path maxRetries h + met)
    (hgoes : GoesOn maxRetries s met (.inl j))
    (hfits : TurnFits file maxRetries resumed s h (.inl j) h₁) :
    Tracked file maxRetries resumed j h₁ := by
  obtain hretry | hrestart := hgoes
  · obtain ⟨rfl, _, rfl⟩ := hretry
    refine ⟨ht.etag, ?_, fun hnot => (hfits hnot).trans (ht.still hnot)⟩
    simpa [offsetAfter, hres] using ht.offset
  · obtain ⟨rfl, rfl⟩ := hrestart
    refine ⟨ht.etag, by simp [offsetAfter, hres, restart], ?_⟩
    intro hnot
    have hstreamed : shouldChunked file.size s.offset = false := by
      by_contra hchunked
      have hzero := shouldChunked_zero (Bool.eq_true_of_not_eq_false hchunked)
      exact nomatch hnot.symm.trans hzero
    exact (hfits hstreamed).trans (ht.still hstreamed)

/-- However many turns it took. -/
theorem rounds_fit {answers : Strategy BrowserOp BrowserOp.Ans} {n size : Nat} {s : Engine}
    {h h' : BrowserHistory} (hresumed : resumed.2 < file.size ∨ file.size = 0 ∧ resumed.2 = 0)
    (ht : Tracked file maxRetries resumed s h)
    (hrun : play answers (rounds (downloadRound file maxRetries) n s) h =
      (some (.ok size), h')) :
    Complete file.size resumed.2 h' ↔
      LastPassFits file.path maxRetries resumed file.size h' := by
  induction n generalizing s h with
  | zero => exact nomatch congrArg Prod.fst hrun
  | succ n ih =>
      obtain ⟨⟨⟨met, hres, hgoes⟩, _⟩, hfits⟩ := play_of_ensures answers
        (ensures_and (round_spends Nat.one_pos file 0 s h) (turn_fits hresumed ht))
      cases hgot : (play answers (downloadRound file maxRetries s) h).1 with
      | inr r =>
          rw [play_rounds_inr hgot] at hrun
          rw [hgot] at hfits
          cases hrun
          exact hfits
      | inl j =>
          rw [play_rounds_inl hgot] at hrun
          rw [hgot] at hgoes hfits
          exact ih (tracked_next ht hres hgoes hfits) hrun

end Turns

/-! ## Whole downloads -/

section Whole

variable (answers : Strategy BrowserOp BrowserOp.Ans) (file : FileEntry) (maxRetries : Nat)

/-- The resume state that was loaded. -/
def savedState : Option (Text × Nat) :=
  match answers 1 .loadState with
  | .ok saved => saved
  | .error _ => none

/-- Where this download continues. -/
def resumedAt : Text × Nat := resumePoint file (savedState answers)

variable {answers file maxRetries}

/-- The loop is left with the result of the program. -/
theorem ends_succeeds {p : BrowserProg (Except ClientError Nat)} {h : BrowserHistory}
    {Q : BrowserHistory → Prop} (hp : Succeeds p (fun _ h' => Q h') h) :
    Ensures (ends p) (fun r h' => ∃ result, r = .inr result ∧
      ∀ size, result = .ok size → Q h') h := by
  apply ensures_bind hp
  intro result h' hr
  exact ⟨result, rfl, hr⟩

/-- A file that is already complete. -/
theorem alreadyDone_complete (etag : Text) (resumed : Text × Nat) {h : BrowserHistory}
    (hreached : reached resumed.2 h = file.size)
    (hpass : lastPass file.path maxRetries resumed h = none) :
    Succeeds (okThen (if 0 < resumed.2 then progress resumed.2 else .done (.ok ())) fun _ =>
        finishDownload etag file.size) (fun _ h' => Complete file.size resumed.2 h' ∧
      LastPassFits file.path maxRetries resumed file.size h') h := by
  have hreport : Succeeds (if 0 < resumed.2 then progress resumed.2 else .done (.ok ()))
      (fun _ h' => Hands file.path maxRetries resumed 0 0 h h') h :=
    hands_progressIf resumed.2 0 h
  apply succeeds_okThen hreport
  intro _ h₁ hprogress
  apply succeeds_mono (hands_finishDownload file.path maxRetries resumed etag file.size h₁)
  rintro size h' ⟨_, hsaved, hands⟩
  refine ⟨⟨?_, hsaved⟩, ?_⟩
  · rw [hands.moved, hprogress.moved, hreached]
    simp
  · rw [LastPassFits, hands.pass, hprogress.pass, hpass]
    trivial

variable (answers file maxRetries) in
/-- Before the loop: nothing is left to do, or the loop begins at the resume point. -/
theorem download_begins :
    (∃ h, play answers (openDownload file) [] =
        (.inl ⟨(resumedAt answers file).2, (resumedAt answers file).1, 0⟩, h) ∧
      Tracked file maxRetries (resumedAt answers file)
        ⟨(resumedAt answers file).2, (resumedAt answers file).1, 0⟩ h ∧
      ((resumedAt answers file).2 < file.size ∨
        file.size = 0 ∧ (resumedAt answers file).2 = 0)) ∨
    ∃ r h, play answers (openDownload file) [] = (.inr r, h) ∧
      ∀ size, r = .ok size → Complete file.size (resumedAt answers file).2 h ∧
        LastPassFits file.path maxRetries (resumedAt answers file) file.size h := by
  cases hstart : answers 0 .onFileStart with
  | error m =>
      refine Or.inr ⟨.error (.js m), [⟨.onFileStart, .error m⟩], ?_,
        fun _ h => by cases h⟩
      simp [openDownload, onFileStart, callback, play, Prog.bind, hstart]
      rfl
  | ok u =>
      cases hload : answers 1 .loadState with
      | error e =>
          refine Or.inr ⟨.error e, [⟨.loadState, .error e⟩, ⟨.onFileStart, .ok u⟩], ?_,
            fun _ h => by cases h⟩
          simp [openDownload, onFileStart, callback, play, Prog.bind, hstart]
          show play answers (.call .loadState _) _ = _
          simp [play, hload]
      | ok saved =>
          have hplay : play answers (openDownload file) [] =
              play answers (resumeDownload file saved)
                [⟨.loadState, .ok saved⟩, ⟨.onFileStart, .ok u⟩] := by
            simp [openDownload, onFileStart, callback, play, Prog.bind, hstart]
            show play answers (.call .loadState _) _ = _
            simp [play, hload]
          have hresumed : resumedAt answers file = resumePoint file saved := by
            unfold resumedAt savedState
            rw [hload]
          rw [hplay, hresumed]
          unfold resumeDownload resumePoint
          generalize usableState saved = point
          obtain ⟨etag, offset⟩ := point
          dsimp only
          cases hclass : classifyDownload file.size offset with
          | restart =>
              rw [if_pos rfl]
              refine Or.inl ⟨_, rfl, ⟨rfl, rfl, fun _ => rfl⟩, ?_⟩
              dsimp only
              omega
          | transfer =>
              simp only [reduceCtorEq, if_false]
              refine Or.inl ⟨_, rfl, ⟨rfl, rfl, fun _ => rfl⟩, Or.inl ?_⟩
              unfold classifyDownload at hclass
              grind
          | alreadyDone =>
              simp only [reduceCtorEq, if_false]
              have hsize : offset = file.size := by
                unfold classifyDownload at hclass
                grind
              have hreached : reached offset
                  [⟨.loadState, .ok saved⟩, ⟨.onFileStart, .ok u⟩] = file.size := hsize
              obtain ⟨r, hr, hdone⟩ := play_of_ensures answers
                (ends_succeeds (alreadyDone_complete etag (etag, offset) hreached rfl))
              exact Or.inr ⟨r, _, Prod.ext hr rfl, hdone⟩

/-- A download that returns has delivered the whole file, and saved that it has, exactly
when its last pass begins inside of what was delivered before and ends at the size of
the file. -/
theorem download_complete_iff {turns size : Nat}
    (hok : (afterTurns answers file maxRetries turns).1 = some (.ok size)) :
    Complete file.size (resumedAt answers file).2
        (afterTurns answers file maxRetries turns).2 ↔
      LastPassFits file.path maxRetries (resumedAt answers file) file.size
        (afterTurns answers file maxRetries turns).2 := by
  obtain ⟨h, hopen, ht, hresumed⟩ | ⟨r, h, hopen, hdone⟩ :=
    download_begins answers file maxRetries
  · have hplay : afterTurns answers file maxRetries turns =
        play answers (rounds (downloadRound file maxRetries) turns
          ⟨(resumedAt answers file).2, (resumedAt answers file).1, 0⟩) h := by
      apply (play_bind answers (openDownload file) _ []).trans
      rw [hopen]
    rw [hplay] at hok ⊢
    exact rounds_fit hresumed ht (Prod.ext hok rfl)
  · have hplay : afterTurns answers file maxRetries turns = (some r, h) := by
      apply (play_bind answers (openDownload file) _ []).trans
      rw [hopen]
      rfl
    rw [hplay] at hok ⊢
    obtain ⟨hcomplete, hfits⟩ := hdone size (Option.some.inj hok)
    exact ⟨fun _ => hfits, fun _ => hcomplete⟩

end Whole

/-! ## A body that ends early -/

/-- A file of five bytes, and a server whose answers end cleanly after three. -/
def truncatingServer : Strategy BrowserOp BrowserOp.Ans := fun n o =>
  match o with
  | .loadState => .ok none
  | o => smallFileServer n o

def fiveBytes : FileEntry := ⟨"a".toList, 5⟩

/-- The download succeeds, and its state says that all five bytes are there. -/
theorem truncated_body_is_accepted :
    (afterTurns truncatingServer fiveBytes 3 1).1 = some (.ok 5) ∧
      lastSaved (afterTurns truncatingServer fiveBytes 3 1).2 = some 5 ∧
      reached (resumedAt truncatingServer fiveBytes).2
        (afterTurns truncatingServer fiveBytes 3 1).2 = 3 := by
  decide +kernel

/-- Three bytes of three are a complete download. -/
theorem small_file_complete :
    Complete 3 0 (afterTurns smallFileServer smallFile 3 1).2 := by
  have hok : (afterTurns smallFileServer smallFile 3 1).1 = some (.ok 3) := by decide +kernel
  have hfits : LastPassFits smallFile.path 3 (resumedAt smallFileServer smallFile)
      smallFile.size (afterTurns smallFileServer smallFile 3 1).2 := ⟨Nat.zero_le _, rfl⟩
  exact (download_complete_iff hok).2 hfits

end Libfw

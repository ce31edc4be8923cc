import Libfw.DownloadTermination
import Libfw.ReceivedRanges

/-!
# What a block puts into the progress counter

`download_chunk_with_retry` and `collect_chunk` of `libfw-client/src/download.rs` and
`upload_one_chunk` of `upload.rs`, with every update of `done_bytes` and every progress
callback.  The counter is shared: other tasks put into it whatever they like between any
two steps.

* `netChange` — what a call has put into the counter, and not taken back.
* `downloadChunk_refines` — without the counter, a download is what it was.
* `block_progress_exact_iff` — when the net change is that of the block, and when it is
  nothing.
* `short_chunk_stays_counted`, `compressed_block_overcounts` — when it is neither.
-/

namespace Libfw

open SteppedPrograms PlayedPrograms

/-! ## The counter -/

/-- `TaskControl::add_progress`. -/
def addProgress (doneBytes bytes : Nat) : Nat := satAdd doneBytes bytes

/-- `TaskControl::subtract_progress`. -/
def subtractProgress (doneBytes bytes : Nat) : Nat := doneBytes - bytes

/-- What a block asks of its surroundings. -/
inductive BlockOp where
  | ready
  | fetch
  | readFile
  | compress (raw : List UInt8)
  | post (payload : List UInt8)
  | addProgress (bytes : Nat)
  | subtractProgress (bytes : Nat)
  | report

/-- The answers.  An update is told what the other tasks hold in the counter, and a `POST`
the wire-progress ticks that came before its outcome. -/
def BlockOp.Ans : BlockOp → Type
  | .ready => Bool
  | .fetch => Except Text (Nat × StreamBody)
  | .readFile => Except Text (List UInt8)
  | .compress _ => Except Text (List UInt8)
  | .post _ => List Nat × Except Text Nat
  | .addProgress _ => Nat
  | .subtractProgress _ => Nat
  | .report => Except Text Unit

abbrev BlockProg := Prog BlockOp BlockOp.Ans
abbrev BlockHistory := History BlockOp BlockOp.Ans

/-- The counter that an update finds. -/
def doneBytes (others : Nat) (own : Int) : Nat := (others + own).toNat

/-- The part of the counter that the other tasks do not hold. -/
def ownShare (others doneBytes : Nat) : Int := doneBytes - others

/-- What the call has put into the counter and not taken back. -/
def netChange : BlockHistory → Int
  | [] => 0
  | ⟨.addProgress bytes, others⟩ :: h =>
      ownShare others (addProgress (doneBytes others (netChange h)) bytes)
  | ⟨.subtractProgress bytes, others⟩ :: h =>
      ownShare others (subtractProgress (doneBytes others (netChange h)) bytes)
  | _ :: h => netChange h

/-- The room left in the counter when `bytes` are put in. -/
def HasRoom (others : Nat) (own : Int) (bytes : Nat) : Prop :=
  doneBytes others own + bytes ≤ 2 ^ 64 - 1

instance decidableHasRoom (others : Nat) (own : Int) (bytes : Nat) :
    Decidable (HasRoom others own bytes) :=
  inferInstanceAs (Decidable (_ ≤ _))

/-- The counter never reaches the end of its 64 bits. -/
def NeverSaturates : BlockHistory → Prop
  | [] => True
  | ⟨.addProgress bytes, others⟩ :: h => HasRoom others (netChange h) bytes ∧ NeverSaturates h
  | _ :: h => NeverSaturates h

instance decidableNeverSaturates : (h : BlockHistory) → Decidable (NeverSaturates h)
  | [] => isTrue trivial
  | ⟨.addProgress bytes, others⟩ :: h =>
      @instDecidableAnd _ _ (decidableHasRoom others (netChange h) bytes)
        (decidableNeverSaturates h)
  | ⟨.ready, _⟩ :: h | ⟨.fetch, _⟩ :: h | ⟨.readFile, _⟩ :: h | ⟨.compress _, _⟩ :: h
  | ⟨.post _, _⟩ :: h | ⟨.subtractProgress _, _⟩ :: h | ⟨.report, _⟩ :: h =>
      decidableNeverSaturates h

namespace BlockProg

/-- `wait_ready` and `check`. -/
def ready : BlockProg (Except ClientError Unit) :=
  .call .ready fun
    | true => .done (.ok ())
    | false => .done (.error .cancelled)

/-- `report_progress_if`. -/
def report : BlockProg (Except ClientError Unit) :=
  .call .report fun a => .done (a.mapError .js)

/-! ## One chunk down -/

/-- The slices of `collect_chunk`: what has been collected, and what has been counted. -/
def collectSlices : List (Except BodyError (List UInt8)) → List UInt8 → Nat →
    BlockProg (Except ClientError (List UInt8) × Nat)
  | [], collected, counted => .done (.ok collected, counted)
  | .error e :: _, _, counted => .done (.error e.toClient, counted)
  | .ok out :: rest, collected, counted =>
      if 0 < out.length then
        .call (.addProgress out.length) fun _ =>
          report.bind fun
            | .error e => .done (.error e, satAdd counted out.length)
            | .ok _ => collectSlices rest (collected ++ out) (satAdd counted out.length)
      else collectSlices rest (collected ++ out) counted

/-- `collect_chunk`: the whole body, and the bytes that were counted, also on an error. -/
def collectChunk (body : StreamBody) : BlockProg (Except ClientError (List UInt8) × Nat) :=
  (collectSlices body.pieces [] 0).bind fun
    | (.error e, counted) => .done (.error e, counted)
    | (.ok collected, counted) =>
        .done ((body.finish.mapError .decompress).map fun tail => collected ++ tail, counted)

/-- `download_chunk_once`. -/
def downloadChunkOnce : BlockProg (Except ClientError (List UInt8) × Nat) :=
  .call .fetch fun
    | .error m => .done (.error (.network m), 0)
    | .ok (status, body) =>
        if status = 206 then collectChunk body else .done (.error (.http status), 0)

/-- Top up what the slices did not report. -/
def topUp (counted : Nat) (data : List UInt8) : BlockProg (Except ClientError (List UInt8)) :=
  if counted < data.length then
    .call (.addProgress (data.length - counted)) fun _ =>
      report.bind fun a => .done (a.map fun _ => data)
  else .done (.ok data)

/-- Undo what a failed attempt has counted. -/
def rollback (counted : Nat) (e : ClientError) : BlockProg ChunkEnd :=
  if 0 < counted then .call (.subtractProgress counted) fun _ => .done (.retry e)
  else .done (.retry e)

/-- One turn of `download_chunk_with_retry`. -/
def chunkTurn (path : Text) (start stop : Nat) : BlockProg ChunkEnd :=
  ready.bind fun
    | .error e => .done (.ended (.error e))
    | .ok _ => downloadChunkOnce.bind fun
        | (.ok data, counted) =>
            if data.length ≠ stop - start then
              .done (.ended (.error (wrongChunkLength path start stop data.length)))
            else (topUp counted data).bind fun result => .done (.ended result)
        | (.error e, counted) =>
            if isRestartErr e then .done (.ended (.error e)) else rollback counted e

/-- `download_chunk_with_retry`, with so many retries left. -/
def downloadChunkWithRetry (path : Text) (start stop : Nat) :
    Nat → BlockProg (Except ClientError (List UInt8))
  | 0 => (chunkTurn path start stop).bind fun
      | .ended result => .done result
      | .retry e => .done (.error e)
  | left + 1 => (chunkTurn path start stop).bind fun
      | .ended result => .done result
      | .retry _ => downloadChunkWithRetry path start stop left

/-! ## One chunk up -/

/-- The progress handler of a `POST`: only what lies beyond the last tick is counted, and
a callback that fails is ignored. -/
def onProgress : List Nat → Nat → BlockProg Nat
  | [], lastLoaded => .done lastLoaded
  | loaded :: rest, lastLoaded =>
      if lastLoaded < loaded then
        .call (.addProgress (loaded - lastLoaded)) fun _ =>
          report.bind fun _ => onProgress rest loaded
      else onProgress rest lastLoaded

/-- `post_chunk`, with the last tick it counted. -/
def postChunk (payload : List UInt8) (lastLoaded : Nat) :
    BlockProg (Except ClientError Unit × Nat) :=
  .call (.post payload) fun (ticks, outcome) =>
    (onProgress ticks lastLoaded).bind fun lastLoaded =>
      .done (match outcome with
        | .error m => .error (.network m)
        | .ok status => if status = 201 then .ok () else .error (.http status), lastLoaded)

/-- The retry loop of `upload_one_chunk`, with so many retries left. -/
def postWithRetry (payload : List UInt8) :
    Nat → Nat → BlockProg (Except ClientError Unit × Nat)
  | 0, lastLoaded => ready.bind fun
      | .error e => .done (.error e, lastLoaded)
      | .ok _ => postChunk payload lastLoaded
  | left + 1, lastLoaded => ready.bind fun
      | .error e => .done (.error e, lastLoaded)
      | .ok _ => (postChunk payload lastLoaded).bind fun
          | (.ok _, lastLoaded) => .done (.ok (), lastLoaded)
          | (.error _, lastLoaded) => postWithRetry payload left lastLoaded

/-- What a file that has changed under the upload is refused with. -/
def shortRead (path : Text) (got len : Nat) : ClientError :=
  .storage ("read ".toList ++ decimal got ++ " of ".toList ++ decimal len ++
    " bytes for `".toList ++ path ++ "`".toList)

/-- The payload: the block itself, or its frames. -/
def payloadOf (compress : Bool) (raw : List UInt8) :
    BlockProg (Except ClientError (List UInt8)) :=
  if compress then .call (.compress raw) fun a => .done (a.mapError .compress)
  else .done (.ok raw)

/-- After the last `POST`: count the tail that no tick has told, and report. -/
def reconcile (len lastLoaded : Nat) : BlockProg (Except ClientError Nat) :=
  let finish := report.bind fun a => .done (a.map fun _ => len)
  if min lastLoaded len < len then
    .call (.addProgress (len - min lastLoaded len)) fun _ => finish
  else finish

/-- `upload_one_chunk`. -/
def uploadOneChunk (path : Text) (start stop : Nat) (compress : Bool) (maxRetries : Nat) :
    BlockProg (Except ClientError Nat) :=
  ready.bind fun
    | .error e => .done (.error e)
    | .ok _ => .call .readFile fun
        | .error m => .done (.error (.js m))
        | .ok raw =>
            if raw.length ≠ stop - start then
              .done (.error (shortRead path raw.length (stop - start)))
            else (payloadOf compress raw).bind fun
              | .error e => .done (.error e)
              | .ok payload => (postWithRetry payload maxRetries 0).bind fun
                  | (.error e, _) => .done (.error e)
                  | (.ok _, lastLoaded) => reconcile (stop - start) lastLoaded

end BlockProg

/-! ## What is asked of the counter -/

/-- What the updates would come to in a counter without an end. -/
def asked : BlockHistory → Int
  | [] => 0
  | ⟨.addProgress bytes, _⟩ :: h => asked h + bytes
  | ⟨.subtractProgress bytes, _⟩ :: h => asked h - bytes
  | _ :: h => asked h

/-- Nothing is taken back but what has been put in. -/
def Covered : BlockHistory → Prop
  | [] => True
  | ⟨.subtractProgress bytes, _⟩ :: h => bytes ≤ asked h ∧ Covered h
  | _ :: h => Covered h

theorem asked_nonneg {h : BlockHistory} (hcovered : Covered h) : 0 ≤ asked h := by
  induction h with
  | nil => exact le_refl _
  | cons a h ih =>
      obtain ⟨o, answer⟩ := a
      cases o with
      | addProgress bytes =>
          have hbefore := ih hcovered
          simp only [asked]
          omega
      | subtractProgress bytes =>
          have hbefore := hcovered.1
          simp only [asked]
          omega
      | _ => exact ih hcovered

/-- As long as the counter has room, the updates do what they are asked to. -/
theorem netChange_eq_asked {h : BlockHistory} (hcovered : Covered h) (hroom : NeverSaturates h) :
    netChange h = asked h := by
  induction h with
  | nil => rfl
  | cons a h ih =>
      obtain ⟨o, answer⟩ := a
      cases o with
      | addProgress bytes =>
          have hbefore := ih hcovered hroom.2
          have hnonneg := asked_nonneg (h := h) hcovered
          have hfits : HasRoom answer (netChange h) bytes := hroom.1
          show ownShare answer (addProgress (doneBytes answer (netChange h)) bytes) =
            asked h + bytes
          unfold HasRoom at hfits
          unfold ownShare addProgress satAdd
          rw [Nat.min_eq_left hfits, hbefore]
          unfold doneBytes
          omega
      | subtractProgress bytes =>
          have hbefore := ih hcovered.2 hroom
          have hleast : (bytes : Int) ≤ asked h := hcovered.1
          show ownShare answer (subtractProgress (doneBytes answer (netChange h)) bytes) =
            asked h - bytes
          unfold ownShare subtractProgress doneBytes
          rw [hbefore]
          omega
      | _ => exact ih hcovered hroom

theorem NeverSaturates.of_suffix {h h' : BlockHistory} (hroom : NeverSaturates h')
    (hs : h <:+ h') : NeverSaturates h := by
  obtain ⟨later, rfl⟩ := hs
  induction later with
  | nil => exact hroom
  | cons a later ih =>
      obtain ⟨o, answer⟩ := a
      cases o with
      | addProgress bytes => exact ih hroom.2
      | _ => exact ih hroom

/-- What a call on a block of `len` bytes is to leave in the counter. -/
def dueOf {α : Type} (len : Nat) : Except ClientError α → Int
  | .ok _ => len
  | .error _ => 0

/-- The net change is that of the block if the call succeeds, and nothing if it fails. -/
def Exact {α : Type} (len : Nat) (result : Except ClientError α) (h : BlockHistory) : Prop :=
  netChange h = dueOf len result

/-! ## When a download is exact -/

/-- The slices of a body that carry bytes. -/
def slicesOf (pieces : List (Except BodyError (List UInt8))) : List (List UInt8) :=
  (pieces.filterMap Except.toOption).filter fun out => 0 < out.length

/-- The body that the last attempt has been sent, and the answers of its progress
callbacks, the last one first. -/
def attemptOf : BlockHistory → Option (StreamBody × List (Except Text Unit))
  | [] => none
  | ⟨.ready, _⟩ :: _ => none
  | ⟨.fetch, .error _⟩ :: _ => none
  | ⟨.fetch, .ok (status, body)⟩ :: _ => if status = 206 then some (body, []) else none
  | ⟨.report, answer⟩ :: h =>
      (attemptOf h).map fun (body, callbacks) => (body, answer :: callbacks)
  | _ :: h => attemptOf h

/-- No progress callback fails after those of the slices, and a body that has been
collected whole is of the length of the block, unless no slice of it carried a byte. -/
structure BodyBalances (len : Nat) (body : StreamBody) (callbacks : List (Except Text Unit)) :
    Prop where
  reports : ∀ m earlier, callbacks = .error m :: earlier →
    callbacks.length ≤ (slicesOf body.pieces).length
  whole : (∀ a ∈ callbacks, a = .ok ()) → ∀ data, body.collect = .ok data →
    data.length = len ∨ slicesOf body.pieces = []

def DownloadBalances (len : Nat) (h : BlockHistory) : Prop :=
  ∀ body callbacks, attemptOf h = some (body, callbacks) → BodyBalances len body callbacks

/-- On top of `base` an attempt has counted so much. -/
structure Counted (base : Int) (counted : Nat) (h : BlockHistory) : Prop where
  covered : Covered h
  least : base + counted ≤ asked h
  exact : NeverSaturates h → asked h = base + counted

section Downloads

variable {base : Int} {counted : Nat} {h : BlockHistory}

theorem Counted.add (hcounted : Counted base counted h) (hbase : 0 ≤ base) (bytes others : Nat) :
    Counted base (satAdd counted bytes) (⟨.addProgress bytes, others⟩ :: h) := by
  have hleast := hcounted.least
  have hle : satAdd counted bytes ≤ counted + bytes := Nat.min_le_left _ _
  refine ⟨hcounted.covered, ?_, ?_⟩
  · simp only [asked]
    omega
  · intro hroom
    have hbefore := hcounted.exact hroom.2
    have hfits : HasRoom others (netChange h) bytes := hroom.1
    rw [HasRoom, netChange_eq_asked hcounted.covered hroom.2, hbefore] at hfits
    have hsum : satAdd counted bytes = counted + bytes := by
      unfold satAdd
      apply Nat.min_eq_left
      unfold doneBytes at hfits
      omega
    simp only [asked]
    omega

/-- An answer that does not concern the counter. -/
theorem Counted.other {a : Asked BlockOp BlockOp.Ans} (hcounted : Counted base counted h)
    (hcovered : Covered (a :: h) ↔ Covered h) (hasked : asked (a :: h) = asked h)
    (hroom : NeverSaturates (a :: h) → NeverSaturates h) :
    Counted base counted (a :: h) := by
  refine ⟨hcovered.2 hcounted.covered, ?_, ?_⟩
  · rw [hasked]
    exact hcounted.least
  · rw [hasked]
    exact fun h => hcounted.exact (hroom h)

theorem slicesOf_cons (out : List UInt8) (rest : List (Except BodyError (List UInt8))) :
    slicesOf (.ok out :: rest) =
      if 0 < out.length then out :: slicesOf rest else slicesOf rest := by
  unfold slicesOf
  rw [List.filterMap_cons]
  simp only [Except.toOption, List.filter_cons, decide_eq_true_eq]

/-- What is left of a slice loop, and the callbacks it has made. -/
structure Collected (body : StreamBody) (pieces : List (Except BodyError (List UInt8)))
    (collected : List UInt8) (result : Except ClientError (List UInt8))
    (new : List (Except Text Unit)) : Prop where
  whole : ∀ data, result = .ok data → data = collected ++ (slicesOf pieces).flatten ∧
    (∀ a ∈ new, a = .ok ()) ∧ new.length = (slicesOf pieces).length ∧
    StreamBody.collect.go body pieces = (body.finish.mapError .decompress).map
      fun tail => (slicesOf pieces).flatten ++ tail
  failed : ∀ e, result = .error e → isRestartErr e = false ∧
    ((∃ m earlier, new = .error m :: earlier ∧ new.length ≤ (slicesOf pieces).length) ∨
      (∀ a ∈ new, a = .ok ()) ∧ ∃ e', StreamBody.collect.go body pieces = .error e')

/-- A slice that carries bytes, and the callback after it. -/
theorem Collected.slice {body : StreamBody} {rest : List (Except BodyError (List UInt8))}
    {out collected : List UInt8} {result : Except ClientError (List UInt8)}
    {new : List (Except Text Unit)} (hpos : 0 < out.length)
    (hlater : Collected body rest (collected ++ out) result new) :
    Collected body (.ok out :: rest) collected result (new ++ [.ok ()]) := by
  have hslices : slicesOf (.ok out :: rest) = out :: slicesOf rest := by
    rw [slicesOf_cons, if_pos hpos]
  have hgo : StreamBody.collect.go body (.ok out :: rest) =
      (StreamBody.collect.go body rest).map fun later => out ++ later := rfl
  constructor
  · intro data hdata
    obtain ⟨hjoined, hok, hlen, hrest⟩ := hlater.whole data hdata
    rw [hslices, hgo, hrest]
    refine ⟨by simp [hjoined], ?_, by simp [hlen], ?_⟩
    · intro a ha
      obtain hnew | hlast := List.mem_append.1 ha
      · exact hok a hnew
      · exact List.mem_singleton.1 hlast
    · cases body.finish with
      | error m => rfl
      | ok tail => simp [Except.mapError, Except.map]
  · intro e he
    obtain ⟨hcalm, hwhy⟩ := hlater.failed e he
    refine ⟨hcalm, ?_⟩
    rw [hslices, hgo]
    obtain ⟨m, earlier, hnew, hlen⟩ | ⟨hok, e', hrest⟩ := hwhy
    · refine Or.inl ⟨m, earlier ++ [.ok ()], by rw [hnew, List.cons_append], ?_⟩
      rw [List.length_append, List.length_cons]
      exact Nat.add_le_add_right hlen 1
    · refine Or.inr ⟨?_, e', by rw [hrest]; rfl⟩
      intro a ha
      obtain hnew | hlast := List.mem_append.1 ha
      · exact hok a hnew
      · exact List.mem_singleton.1 hlast

/-- A slice that carries none. -/
theorem Collected.skip {body : StreamBody} {rest : List (Except BodyError (List UInt8))}
    {out collected : List UInt8} {result : Except ClientError (List UInt8)}
    {new : List (Except Text Unit)} (hzero : ¬ 0 < out.length)
    (hlater : Collected body rest (collected ++ out) result new) :
    Collected body (.ok out :: rest) collected result new := by
  have hnil : out = [] := List.eq_nil_of_length_eq_zero (by omega)
  subst hnil
  have hslices : slicesOf (.ok [] :: rest) = slicesOf rest := by
    rw [slicesOf_cons, if_neg hzero]
  have hgo : StreamBody.collect.go body (.ok [] :: rest) = StreamBody.collect.go body rest := by
    show (StreamBody.collect.go body rest).map (fun later => [] ++ later) = _
    cases StreamBody.collect.go body rest <;> rfl
  rw [List.append_nil] at hlater
  constructor
  · rw [hslices, hgo]
    exact hlater.whole
  · rw [hslices, hgo]
    exact hlater.failed

/-- The slices of a body: all of them are collected and counted, or a callback or the
body itself fails. -/
theorem collectSlices_counts (body : StreamBody) (hbase : 0 ≤ base)
    (pieces : List (Except BodyError (List UInt8))) (collected : List UInt8)
    (callbacks : List (Except Text Unit)) (hcounted : Counted base counted h)
    (hattempt : attemptOf h = some (body, callbacks)) :
    Ensures (BlockProg.collectSlices pieces collected counted) (fun r h' =>
      Counted base r.2 h' ∧ ∃ new, attemptOf h' = some (body, new ++ callbacks) ∧
        Collected body pieces collected r.1 new ∧
        (∀ data, r.1 = .ok data → NeverSaturates h' →
          r.2 = counted + (slicesOf pieces).flatten.length)) h := by
  induction pieces generalizing collected counted callbacks h with
  | nil =>
      refine ⟨hcounted, [], hattempt, ⟨?_, fun _ h => by cases h⟩, fun _ _ _ => rfl⟩
      intro data hdata
      cases hdata
      refine ⟨by simp [slicesOf], List.forall_mem_nil _, rfl, ?_⟩
      unfold StreamBody.collect.go
      cases body.finish <;> rfl
  | cons piece rest ih =>
      cases piece with
      | error e =>
          refine ⟨hcounted, [], hattempt, ⟨fun _ h => (by cases h), ?_⟩, fun _ h => by cases h⟩
          intro e' he
          cases he
          exact ⟨e.toClient_no_restart, Or.inr ⟨List.forall_mem_nil _, _, rfl⟩⟩
      | ok out =>
          unfold BlockProg.collectSlices
          split
          · next hpos =>
            intro others answer
            have hadded := hcounted.add hbase out.length others
            generalize hasked : (⟨.addProgress out.length, others⟩ :: h : BlockHistory) = h₁
              at hadded ⊢
            have hreported : Counted base (satAdd counted out.length)
                (⟨.report, answer⟩ :: h₁) := hadded.other Iff.rfl rfl id
            have hattempt₁ : attemptOf (⟨.report, answer⟩ :: h₁) =
                some (body, answer :: callbacks) := by
              subst hasked
              show (attemptOf h).map (fun last => (last.1, answer :: last.2)) = _
              rw [hattempt]
              rfl
            cases answer with
            | error m =>
                refine ⟨hreported, [.error m], hattempt₁,
                  ⟨fun _ h => (by cases h), ?_⟩, fun _ h => by cases h⟩
                intro e he
                cases he
                refine ⟨rfl, Or.inl ⟨m, [], rfl, ?_⟩⟩
                rw [slicesOf_cons, if_pos hpos]
                simp
            | ok u =>
                apply ensures_mono (ensures_and (ensures_isSuffix _ _)
                  (ih (collected ++ out) (.ok () :: callbacks) hreported hattempt₁))
                rintro r h' ⟨hs, hlast, new, hnew, hcollected, hall⟩
                have hcallbacks : attemptOf h' = some (body, (new ++ [.ok ()]) ++ callbacks) := by
                  rw [List.append_assoc]
                  exact hnew
                refine ⟨hlast, new ++ [.ok ()], hcallbacks, hcollected.slice hpos, ?_⟩
                intro data hdata hroom
                have hexact : satAdd counted out.length = counted + out.length := by
                  have hroom₂ : NeverSaturates (⟨.report, .ok u⟩ :: h₁) := hroom.of_suffix hs
                  have hroom₁ : NeverSaturates h₁ := hroom₂
                  have hafter := hadded.exact hroom₁
                  subst hasked
                  have hbefore := hcounted.exact hroom₁.2
                  simp only [asked] at hafter
                  omega
                rw [hall data hdata hroom, hexact, slicesOf_cons, if_pos hpos,
                  List.flatten_cons, List.length_append]
                omega
          · next hzero =>
            apply ensures_mono (ih (collected ++ out) callbacks hcounted hattempt)
            rintro r h' ⟨hlast, new, hnew, hcollected, hall⟩
            refine ⟨hlast, new, hnew, hcollected.skip hzero, ?_⟩
            rw [slicesOf_cons, if_neg hzero]
            exact hall

/-- What an attempt leaves: a whole body and its callbacks, or a failure that is balanced
once what it has counted is taken back. -/
def AttemptLeaves (len : Nat) (h : BlockHistory) (result : Except ClientError (List UInt8))
    (counted : Nat) (h' : BlockHistory) : Prop :=
  Counted (asked h) counted h' ∧ match result with
    | .error e => DownloadBalances len h' ∧ (isRestartErr e → counted = 0)
    | .ok data => ∃ body callbacks, attemptOf h' = some (body, callbacks) ∧
        (∀ a ∈ callbacks, a = .ok ()) ∧ callbacks.length = (slicesOf body.pieces).length ∧
        body.collect = .ok data ∧ (slicesOf body.pieces).flatten.length ≤ data.length ∧
        (NeverSaturates h' → counted = (slicesOf body.pieces).flatten.length)

/-- A body that cannot be collected is balanced. -/
theorem Collected.balances {body : StreamBody} {result : Except ClientError (List UInt8)}
    {new : List (Except Text Unit)} {e : ClientError} (len : Nat)
    (hcollected : Collected body body.pieces [] result new) (he : result = .error e) :
    BodyBalances len body new := by
  obtain ⟨_, ⟨m, earlier, hnew, hlen⟩ | ⟨hok, e', hgo⟩⟩ := hcollected.failed e he
  · refine ⟨fun _ _ _ => hlen, ?_⟩
    intro hok
    exact nomatch hok (.error m) (hnew ▸ List.mem_cons_self)
  · constructor
    · intro m earlier hnew
      exact nomatch hok (.error m) (hnew ▸ List.mem_cons_self)
    · intro _ data hdata
      exact nomatch hdata.symm.trans hgo

theorem collectChunk_leaves (len : Nat) (body : StreamBody) (hcovered : Covered h) :
    Ensures (BlockProg.collectChunk body) (fun r h' => AttemptLeaves len h r.1 r.2 h')
      (⟨.fetch, .ok (206, body)⟩ :: h) := by
  have hstart : Counted (asked h) 0 (⟨.fetch, .ok (206, body)⟩ :: h) :=
    ⟨hcovered, by simp [asked], fun _ => by simp [asked]⟩
  apply ensures_bind (collectSlices_counts body (asked_nonneg hcovered) body.pieces [] [] hstart rfl)
  rintro r h' ⟨hcounted, new, hattempt, hcollected, hall⟩
  rw [List.append_nil] at hattempt
  obtain ⟨result, counted⟩ := r
  cases result with
  | error e =>
      refine ⟨hcounted, ?_, ?_⟩
      · intro body' callbacks hlast
        cases hattempt.symm.trans hlast
        exact hcollected.balances len rfl
      · intro hrestart
        exact nomatch (hcollected.failed e rfl).1.symm.trans hrestart
  | ok data =>
      obtain ⟨hdata, hok, hlen, hgo⟩ := hcollected.whole data rfl
      rw [List.nil_append] at hdata
      subst hdata
      cases hfinish : body.finish with
      | error m =>
          simp only [Except.mapError, Except.map]
          refine ⟨hcounted, ?_, nofun⟩
          intro body' callbacks hlast
          cases hattempt.symm.trans hlast
          constructor
          · intro m earlier hnew
            exact nomatch hok (.error m) (hnew ▸ List.mem_cons_self)
          · intro _ data hdata
            rw [hfinish] at hgo
            exact nomatch hdata.symm.trans hgo
      | ok tail =>
          simp only [Except.mapError, Except.map]
          rw [hfinish] at hgo
          refine ⟨hcounted, body, new, hattempt, hok, hlen, hgo, by simp, ?_⟩
          intro hroom
          have hexact := hall _ rfl hroom
          simpa using hexact

theorem downloadChunkOnce_leaves (len : Nat) (hcovered : Covered h) :
    Ensures BlockProg.downloadChunkOnce (fun r h' => AttemptLeaves len h r.1 r.2 h') h := by
  intro answer
  cases answer with
  | error m =>
      refine ⟨⟨hcovered, by simp [asked], fun _ => by simp [asked]⟩, ?_, nofun⟩
      intro body callbacks hlast
      cases hlast
  | ok sent =>
      obtain ⟨status, body⟩ := sent
      by_cases h206 : status = 206
      · subst h206
        exact collectChunk_leaves len body hcovered
      · simp only [h206, if_false]
        refine ⟨⟨hcovered, by simp [asked], fun _ => by simp [asked]⟩, ?_, fun _ => rfl⟩
        intro body' callbacks hlast
        simp [attemptOf, h206] at hlast

/-- What a turn of the retry loop leaves. -/
def TurnLeaves (len : Nat) (h : BlockHistory) : ChunkEnd → BlockHistory → Prop
  | .ended result, h' => Covered h' ∧ (NeverSaturates h' →
      (asked h' = asked h + dueOf len result ↔ DownloadBalances len h'))
  | .retry _, h' => Covered h' ∧ DownloadBalances len h' ∧
      (NeverSaturates h' → asked h' = asked h)

theorem rollback_leaves {len : Nat} {h₁ : BlockHistory} {e : ClientError}
    (hcovered : Covered h) (hcounted : Counted (asked h) counted h₁)
    (hbalances : DownloadBalances len h₁) :
    Ensures (BlockProg.rollback counted e) (TurnLeaves len h) h₁ := by
  have hnonneg := asked_nonneg hcovered
  have hleast := hcounted.least
  unfold BlockProg.rollback
  split
  · intro others
    have hback : (counted : Int) ≤ asked h₁ := by omega
    refine ⟨⟨hback, hcounted.covered⟩, hbalances, ?_⟩
    intro hroom
    have hexact := hcounted.exact hroom
    simp only [asked]
    omega
  · refine ⟨hcounted.covered, hbalances, ?_⟩
    intro hroom
    have hexact := hcounted.exact hroom
    omega

theorem slicesOf_flatten (pieces : List (Except BodyError (List UInt8))) :
    (slicesOf pieces).flatten.length = 0 ↔ slicesOf pieces = [] := by
  constructor
  · intro hzero
    have hnil := List.flatten_eq_nil_iff.1 (List.eq_nil_of_length_eq_zero hzero)
    apply List.eq_nil_iff_forall_not_mem.2
    intro out hmem
    have hpos := of_decide_eq_true (List.mem_filter.1 hmem).2
    rw [hnil out hmem] at hpos
    cases hpos
  · intro hnil
    rw [hnil]
    rfl

/-- A body of another length than the block ends the call with what its slices counted. -/
theorem short_leaves {len : Nat} {h₁ : BlockHistory} {data : List UInt8} {e : ClientError}
    (hleaves : AttemptLeaves len h (.ok data) counted h₁) (hshort : data.length ≠ len) :
    TurnLeaves len h (.ended (.error e)) h₁ := by
  obtain ⟨hcounted, body, callbacks, hattempt, hok, hlen, hcollect, _, hall⟩ := hleaves
  refine ⟨hcounted.covered, fun hroom => ?_⟩
  have hexact := hcounted.exact hroom
  have hslices := hall hroom
  have hzero := slicesOf_flatten body.pieces
  have hsame : DownloadBalances len h₁ ↔ slicesOf body.pieces = [] := by
    constructor
    · intro hbalances
      obtain hlength | hnone := (hbalances body callbacks hattempt).whole hok data hcollect
      · exact absurd hlength hshort
      · exact hnone
    · intro hnone body' callbacks' hlast
      cases hattempt.symm.trans hlast
      exact ⟨fun _ _ _ => hlen.le, fun _ _ _ => Or.inr hnone⟩
  rw [hsame, ← hzero]
  simp only [dueOf]
  omega

/-- A body of the right length is topped up to it, and the callback after that decides. -/
theorem topUp_leaves {len : Nat} {h₁ : BlockHistory} {data : List UInt8}
    (hleaves : AttemptLeaves len h (.ok data) counted h₁) (hlength : data.length = len) :
    Ensures (BlockProg.topUp counted data) (fun result h' => TurnLeaves len h (.ended result) h')
      h₁ := by
  obtain ⟨hcounted, body, callbacks, hattempt, hok, hlen, hcollect, hle, hall⟩ := hleaves
  unfold BlockProg.topUp
  split
  · next hless =>
    intro others answer
    have hroomBefore : ∀ answer, NeverSaturates (⟨.report, answer⟩ ::
        ⟨.addProgress (data.length - counted), others⟩ :: h₁) → NeverSaturates h₁ :=
      fun _ hroom => hroom.2
    have hattempt' : attemptOf (⟨.report, answer⟩ ::
        ⟨.addProgress (data.length - counted), others⟩ :: h₁) =
        some (body, answer :: callbacks) := by
      show (attemptOf h₁).map (fun last => (last.1, answer :: last.2)) = _
      rw [hattempt]
      rfl
    cases answer with
    | error m =>
        show TurnLeaves len h (.ended (.error (.js m))) _
        refine ⟨hcounted.covered, fun hroom => ?_⟩
        have hexact := hcounted.exact (hroomBefore _ hroom)
        constructor
        · intro hsame
          simp only [asked, dueOf] at hsame
          omega
        · intro hbalances
          have hreports : callbacks.length + 1 ≤ (slicesOf body.pieces).length :=
            (hbalances body _ hattempt').reports m callbacks rfl
          omega
    | ok u =>
        show TurnLeaves len h (.ended (.ok data)) _
        refine ⟨hcounted.covered, fun hroom => ?_⟩
        have hexact := hcounted.exact (hroomBefore _ hroom)
        constructor
        · intro _ body' callbacks' hlast
          cases hattempt'.symm.trans hlast
          refine ⟨nofun, fun _ data' hdata => Or.inl ?_⟩
          cases hcollect.symm.trans hdata
          exact hlength
        · intro _
          simp only [asked, dueOf]
          omega
  · next hnotless =>
    refine ⟨hcounted.covered, fun hroom => ?_⟩
    have hexact := hcounted.exact hroom
    have hslices := hall hroom
    constructor
    · intro _ body' callbacks' hlast
      cases hattempt.symm.trans hlast
      refine ⟨fun _ _ _ => hlen.le, fun _ data' hdata => Or.inl ?_⟩
      cases hcollect.symm.trans hdata
      exact hlength
    · intro _
      simp only [dueOf]
      omega

/-- A turn either ends the call, or takes back all that it has counted. -/
theorem chunkTurn_leaves (path : Text) (start stop : Nat) (hcovered : Covered h) :
    Ensures (BlockProg.chunkTurn path start stop) (TurnLeaves (stop - start) h) h := by
  intro go
  cases go with
  | false =>
      refine ⟨hcovered, fun _ => ?_⟩
      constructor
      · intro _ body callbacks hlast
        cases hlast
      · intro _
        simp [asked, dueOf]
  | true =>
      have hready : Covered (⟨.ready, true⟩ :: h) := hcovered
      apply ensures_bind (downloadChunkOnce_leaves (stop - start) hready)
      intro r h' hleaves
      obtain ⟨result, counted⟩ := r
      cases result with
      | error e =>
          obtain ⟨hcounted, hbalances, hrestart⟩ := hleaves
          dsimp only
          split
          · next hagain =>
            refine ⟨hcounted.covered, fun hroom => ?_⟩
            have hexact := hcounted.exact hroom
            rw [hrestart hagain] at hexact
            constructor
            · intro _
              exact hbalances
            · intro _
              simpa [dueOf, asked] using hexact
          · exact rollback_leaves hcovered hcounted hbalances
      | ok data =>
          dsimp only
          split
          · next hshort => exact short_leaves hleaves hshort
          · next hlength =>
            apply ensures_bind (topUp_leaves hleaves (not_not.1 hlength))
            intro result h₂ hturn
            exact hturn

/-- When a download of a block is exact. -/
theorem download_balances (path : Text) (start stop left : Nat) (hcovered : Covered h) :
    Ensures (BlockProg.downloadChunkWithRetry path start stop left) (fun result h' =>
      Covered h' ∧ (NeverSaturates h' → (asked h' = asked h + dueOf (stop - start) result ↔
        DownloadBalances (stop - start) h'))) h := by
  induction left generalizing h with
  | zero =>
      apply ensures_bind (chunkTurn_leaves path start stop hcovered)
      intro turn h₁ hturn
      cases turn with
      | ended result => exact hturn
      | retry e =>
          obtain ⟨hcovered₁, hbalances, hback⟩ := hturn
          refine ⟨hcovered₁, fun hroom => ?_⟩
          constructor
          · intro _
            exact hbalances
          · intro _
            simpa [dueOf] using hback hroom
  | succ left ih =>
      apply ensures_bind (chunkTurn_leaves path start stop hcovered)
      intro turn h₁ hturn
      cases turn with
      | ended result => exact hturn
      | retry e =>
          obtain ⟨hcovered₁, _, hback⟩ := hturn
          apply ensures_mono (ensures_and (ensures_isSuffix _ _) (ih hcovered₁))
          rintro result h' ⟨hs, hcovered', hiff⟩
          refine ⟨hcovered', fun hroom => ?_⟩
          rw [← hback (hroom.of_suffix hs)]
          exact hiff hroom

end Downloads

/-! ## When an upload is exact -/

/-- The furthest progress tick of all `POST`s. -/
def wire : BlockHistory → Nat
  | [] => 0
  | ⟨.post _, (ticks, _)⟩ :: h => max (wire h) (ticks.foldr max 0)
  | _ :: h => wire h

/-- The last `POST` was answered 201. -/
def accepted : BlockHistory → Bool
  | [] => false
  | ⟨.post _, (_, .ok status)⟩ :: _ => status = 201
  | ⟨.post _, (_, .error _)⟩ :: _ => false
  | _ :: h => accepted h

/-- The answer of the last progress callback. -/
def lastReport : BlockHistory → Except Text Unit
  | [] => .ok ()
  | ⟨.report, answer⟩ :: _ => answer
  | _ :: h => lastReport h

/-- No tick lies beyond the raw block where the upload is accepted, and there is none at
all where it is not.  The callback after an accepted one does not fail. -/
def UploadBalances (len : Nat) (h : BlockHistory) : Prop :=
  if accepted h then
    match lastReport h with
    | .ok _ => wire h ≤ len
    | .error _ => wire h = 0 ∧ len = 0
  else wire h = 0

/-- The upload has counted every byte up to the furthest tick. -/
structure Wired (lastLoaded : Nat) (h : BlockHistory) : Prop where
  covered : Covered h
  counted : asked h = lastLoaded
  furthest : wire h = lastLoaded

section Uploads

variable {lastLoaded : Nat} {h : BlockHistory}

/-- The ticks of a `POST` are counted up to the furthest of them. -/
theorem onProgress_counts (ticks : List Nat) (hcovered : Covered h)
    (hcounted : asked h = lastLoaded) :
    Ensures (BlockProg.onProgress ticks lastLoaded) (fun last h' =>
      last = max lastLoaded (ticks.foldr max 0) ∧ Covered h' ∧ asked h' = last ∧
      wire h' = wire h ∧ accepted h' = accepted h) h := by
  induction ticks generalizing lastLoaded h with
  | nil => exact ⟨by simp, hcovered, hcounted, rfl, rfl⟩
  | cons loaded rest ih =>
      unfold BlockProg.onProgress
      split
      · next hlt =>
        intro others answer
        have hnext : asked (⟨.report, answer⟩ ::
            ⟨.addProgress (loaded - lastLoaded), others⟩ :: h) = loaded := by
          simp only [asked]
          omega
        have hcovered' : Covered (⟨.report, answer⟩ ::
            ⟨.addProgress (loaded - lastLoaded), others⟩ :: h) := hcovered
        apply ensures_mono (ih hcovered' hnext)
        rintro last h' ⟨hlast, hrest⟩
        refine ⟨?_, hrest⟩
        rw [hlast, List.foldr_cons]
        omega
      · next hle =>
        apply ensures_mono (ih hcovered hcounted)
        rintro last h' ⟨hlast, hrest⟩
        refine ⟨?_, hrest⟩
        rw [hlast, List.foldr_cons]
        omega

theorem postChunk_counts (payload : List UInt8) (hwired : Wired lastLoaded h) :
    Ensures (BlockProg.postChunk payload lastLoaded) (fun r h' =>
      Wired r.2 h' ∧ accepted h' = r.1.toBool) h := by
  intro answer
  obtain ⟨ticks, outcome⟩ := answer
  have hcovered : Covered (⟨.post payload, (ticks, outcome)⟩ :: h) := hwired.covered
  apply ensures_bind (onProgress_counts ticks hcovered hwired.counted)
  rintro last h' ⟨hlast, hcovered', hcounted, hwire, haccepted⟩
  refine ⟨⟨hcovered', hcounted, ?_⟩, ?_⟩
  · rw [hwire, hlast]
    show max (wire h) (ticks.foldr max 0) = _
    rw [hwired.furthest]
  · rw [haccepted]
    cases outcome with
    | error m => rfl
    | ok status =>
        show decide (status = 201) = _
        by_cases h201 : status = 201
        · subst h201
          rfl
        · simp [h201, Except.toBool]

/-- However often the payload is sent, every byte on the wire is counted once. -/
theorem postWithRetry_counts (payload : List UInt8) (left : Nat) (hwired : Wired lastLoaded h)
    (hfailed : accepted h = false) :
    Ensures (BlockProg.postWithRetry payload left lastLoaded) (fun r h' =>
      Wired r.2 h' ∧ accepted h' = r.1.toBool) h := by
  induction left generalizing lastLoaded h with
  | zero =>
      intro go
      have hready : Wired lastLoaded (⟨.ready, go⟩ :: h) :=
        ⟨hwired.covered, hwired.counted, hwired.furthest⟩
      cases go with
      | false => exact ⟨hready, hfailed⟩
      | true => exact postChunk_counts payload hready
  | succ left ih =>
      intro go
      have hready : Wired lastLoaded (⟨.ready, go⟩ :: h) :=
        ⟨hwired.covered, hwired.counted, hwired.furthest⟩
      cases go with
      | false => exact ⟨hready, hfailed⟩
      | true =>
          apply ensures_bind (postChunk_counts payload hready)
          rintro r h₁ ⟨hposted, haccepted⟩
          obtain ⟨result, last⟩ := r
          cases result with
          | ok u => exact ⟨hposted, haccepted⟩
          | error e => exact ih hposted haccepted

/-- What a call leaves in a counter with room, and when that is right. -/
def UploadLeaves (len : Nat) (result : Except ClientError Nat) (h : BlockHistory) : Prop :=
  Covered h ∧ (asked h = dueOf len result ↔ UploadBalances len h)

theorem reconcile_leaves (len : Nat) (hwired : Wired lastLoaded h) (haccepted : accepted h) :
    Ensures (BlockProg.reconcile len lastLoaded) (UploadLeaves len) h := by
  have hcounted := hwired.counted
  have hfurthest := hwired.furthest
  -- whatever came before the last report, it has made the count the larger of the two
  have hreport : ∀ h₁, Covered h₁ → asked h₁ = max lastLoaded len → wire h₁ = lastLoaded →
      accepted h₁ = true → Ensures (BlockProg.report.bind fun a => .done (a.map fun _ => len))
        (UploadLeaves len) h₁ := by
    intro h₁ hcovered hasked hwire haccepted answer
    have hasked' : asked (⟨.report, answer⟩ :: h₁) = max lastLoaded len := hasked
    have hwire' : wire (⟨.report, answer⟩ :: h₁) = lastLoaded := hwire
    have haccepted' : accepted (⟨.report, answer⟩ :: h₁) = true := haccepted
    refine ⟨hcovered, ?_⟩
    rw [hasked', UploadBalances, if_pos haccepted', hwire']
    cases answer with
    | error m =>
        show ((max lastLoaded len : Nat) : Int) = 0 ↔ lastLoaded = 0 ∧ len = 0
        omega
    | ok u =>
        show ((max lastLoaded len : Nat) : Int) = len ↔ lastLoaded ≤ len
        omega
  unfold BlockProg.reconcile
  dsimp only
  split
  · next hless =>
    intro others
    apply hreport
    · exact hwired.covered
    · simp only [asked]
      omega
    · exact hfurthest
    · exact haccepted
  · next hnotless =>
    apply hreport
    · exact hwired.covered
    · omega
    · exact hfurthest
    · exact haccepted

/-- A failure leaves what the wire has counted. -/
theorem failed_leaves {len : Nat} {e : ClientError} (hwired : Wired lastLoaded h)
    (hnot : accepted h = false) : UploadLeaves len (.error e) h := by
  refine ⟨hwired.covered, ?_⟩
  rw [UploadBalances, hnot, hwired.counted, hwired.furthest]
  simp [dueOf]

/-- From the first `POST` on. -/
theorem posting_leaves (payload : List UInt8) (len maxRetries : Nat) (hwired : Wired 0 h)
    (hnot : accepted h = false) :
    Ensures ((BlockProg.postWithRetry payload maxRetries 0).bind fun
      | (.error e, _) => .done (.error e)
      | (.ok _, lastLoaded) => BlockProg.reconcile len lastLoaded) (UploadLeaves len) h := by
  apply ensures_bind (postWithRetry_counts payload maxRetries hwired hnot)
  rintro r h₁ ⟨hposted, haccepted⟩
  obtain ⟨result, last⟩ := r
  cases result with
  | error e => exact failed_leaves hposted haccepted
  | ok u => exact reconcile_leaves len hposted haccepted

/-- When an upload of a block is exact. -/
theorem upload_balances (path : Text) (start stop : Nat) (compress : Bool) (maxRetries : Nat) :
    Ensures (BlockProg.uploadOneChunk path start stop compress maxRetries)
      (UploadLeaves (stop - start)) [] := by
  intro go
  cases go with
  | false => exact failed_leaves ⟨trivial, rfl, rfl⟩ rfl
  | true =>
      intro answer
      cases answer with
      | error m => exact failed_leaves ⟨trivial, rfl, rfl⟩ rfl
      | ok raw =>
          show Ensures (if raw.length ≠ stop - start then _ else _) _ _
          split
          · exact failed_leaves ⟨trivial, rfl, rfl⟩ rfl
          · unfold BlockProg.payloadOf
            split
            · intro compressed
              cases compressed with
              | error m => exact failed_leaves ⟨trivial, rfl, rfl⟩ rfl
              | ok payload => exact posting_leaves payload _ maxRetries ⟨trivial, rfl, rfl⟩ rfl
            · exact posting_leaves raw _ maxRetries ⟨trivial, rfl, rfl⟩ rfl

end Uploads

/-! ## The same downloads without the counter -/

section Refining

variable {path : Text} {start stop : Nat}

theorem collectSlices_errors (pieces : List (Except BodyError (List UInt8)))
    (collected : List UInt8) (counted : Nat) (h : BlockHistory) :
    Ensures (BlockProg.collectSlices pieces collected counted) (fun r _ =>
      ∀ e, r.1 = .error e → ∃ cause : BodyError, cause.toClient = e) h := by
  induction pieces generalizing collected counted h with
  | nil => exact nofun
  | cons piece rest ih =>
      cases piece with
      | error cause =>
          intro e he
          cases he
          exact ⟨cause, rfl⟩
      | ok out =>
          unfold BlockProg.collectSlices
          split
          · intro others answer
            cases answer with
            | error m =>
                intro e he
                cases he
                exact ⟨.callback m, rfl⟩
            | ok u => exact ih _ _ _
          · exact ih _ _ h

/-- What is collected is what some body collects to without the callbacks. -/
theorem collectChunk_refines (body : StreamBody) (h : BlockHistory) :
    Ensures (BlockProg.collectChunk body) (fun r _ => ∃ sent : StreamBody, sent.collect = r.1)
      h := by
  have hfailed : ∀ cause : BodyError, ∃ sent : StreamBody,
      sent.collect = .error cause.toClient :=
    fun cause => ⟨⟨[.error cause], .ok []⟩, rfl⟩
  apply ensures_bind (collectSlices_errors body.pieces [] 0 h)
  intro r h₁ herrors
  obtain ⟨result, counted⟩ := r
  cases result with
  | error e =>
      obtain ⟨cause, hcause⟩ := herrors e rfl
      exact hcause ▸ hfailed cause
  | ok collected =>
      cases hfinish : body.finish with
      | error m => exact hfailed (.undecodable m)
      | ok tail =>
          refine ⟨⟨[.ok collected], .ok tail⟩, ?_⟩
          rfl

theorem topUp_refines (counted : Nat) (data : List UInt8) (h : BlockHistory) :
    Ensures (BlockProg.topUp counted data) (fun result _ => ∃ reported : Except Text Unit,
      result = (reported.mapError .js).map fun _ => data) h := by
  unfold BlockProg.topUp
  split
  · intro _ answer
    exact ⟨answer, rfl⟩
  · exact ⟨.ok (), rfl⟩

theorem rollback_refines (counted : Nat) (e : ClientError) (h : BlockHistory) :
    Ensures (BlockProg.rollback counted e) (fun turn _ => turn = .retry e) h := by
  unfold BlockProg.rollback
  split
  · exact fun _ => rfl
  · rfl

theorem chunkTurn_refines (h : BlockHistory) :
    Ensures (BlockProg.chunkTurn path start stop)
      (fun turn _ => ∃ reply, turn = chunkAttempt path start stop reply) h := by
  intro go
  cases go with
  | false => exact ⟨.cancelled, rfl⟩
  | true =>
      intro answer
      cases answer with
      | error m => exact ⟨.failed m, rfl⟩
      | ok sent =>
          obtain ⟨status, body⟩ := sent
          by_cases h206 : status = 206
          · subst h206
            apply ensures_bind (collectChunk_refines body _)
            rintro r h₁ ⟨sent, hsent⟩
            obtain ⟨result, counted⟩ := r
            cases result with
            | error e =>
                dsimp only
                rw [if_neg (by rw [collect_no_restart hsent]; exact Bool.false_ne_true)]
                apply ensures_mono (rollback_refines counted e h₁)
                intro turn _ hturn
                refine ⟨.answered 206 sent (.ok ()), ?_⟩
                simp only [chunkAttempt, if_true, hsent, hturn]
            | ok data =>
                dsimp only
                split
                · next hshort =>
                  refine ⟨.answered 206 sent (.ok ()), ?_⟩
                  simp only [chunkAttempt, if_true, hsent, if_pos hshort]
                · next hlength =>
                  apply ensures_bind (topUp_refines counted data h₁)
                  rintro result _ ⟨reported, hresult⟩
                  refine ⟨.answered 206 sent reported, ?_⟩
                  simp only [chunkAttempt, if_true, hsent, if_neg hlength, hresult]
          · show Ensures (.bind (if status = 206 then _ else _) _) _ _
            rw [if_neg h206]
            show Ensures (if isRestartErr (.http status) then _ else _) _ _
            split
            · next hrestart =>
              refine ⟨.answered status body (.ok ()), ?_⟩
              simp only [chunkAttempt, if_neg h206, if_pos hrestart]
            · next hother =>
              apply ensures_mono (rollback_refines 0 (.http status) _)
              intro turn _ hturn
              refine ⟨.answered status body (.ok ()), ?_⟩
              simp only [chunkAttempt, if_neg h206, if_neg hother, hturn]

/-- Only the attempts still to come matter. -/
theorem downloadChunkWithRetry_congr {replies replies' : Nat → ChunkReply} {left attempt : Nat}
    (hsame : ∀ n, attempt ≤ n → replies n = replies' n) :
    downloadChunkWithRetry path start stop replies left attempt =
      downloadChunkWithRetry path start stop replies' left attempt := by
  induction left generalizing attempt with
  | zero =>
      unfold downloadChunkWithRetry
      rw [hsame attempt (le_refl _)]
  | succ left ih =>
      unfold downloadChunkWithRetry
      rw [hsame attempt (le_refl _), ih fun n hn => hsame n (by omega)]

/-- Every result of a download that counts is one of the download that does not. -/
theorem downloadChunk_refines (left attempt : Nat) (h : BlockHistory) :
    Ensures (BlockProg.downloadChunkWithRetry path start stop left) (fun result _ =>
      ∃ replies, result = downloadChunkWithRetry path start stop replies left attempt) h := by
  induction left generalizing attempt h with
  | zero =>
      apply ensures_bind (chunkTurn_refines h)
      rintro turn h₁ ⟨reply, hreply⟩
      cases turn with
      | ended result =>
          refine ⟨fun _ => reply, ?_⟩
          unfold downloadChunkWithRetry
          rw [← hreply]
      | retry e =>
          refine ⟨fun _ => reply, ?_⟩
          unfold downloadChunkWithRetry
          rw [← hreply]
  | succ left ih =>
      apply ensures_bind (chunkTurn_refines h)
      rintro turn h₁ ⟨reply, hreply⟩
      cases turn with
      | ended result =>
          refine ⟨fun _ => reply, ?_⟩
          unfold downloadChunkWithRetry
          rw [← hreply]
      | retry e =>
          apply ensures_mono (ih (attempt + 1) h₁)
          rintro result _ ⟨replies, hresult⟩
          refine ⟨Function.update replies attempt reply, ?_⟩
          unfold downloadChunkWithRetry
          rw [Function.update_self, ← hreply, hresult]
          apply downloadChunkWithRetry_congr
          intro n hn
          exact (Function.update_of_ne (by omega) _ _).symm

end Refining

/-! ## Whole calls -/

/-- In a counter with room, whatever the other tasks do with it, and whatever is answered:
a download of a block leaves in it what it should exactly when its bodies and callbacks
balance, and an upload exactly when its ticks do. -/
theorem block_progress_exact_iff (answers : Strategy BlockOp BlockOp.Ans) (path : Text)
    (start stop maxRetries : Nat) (compress : Bool) :
    (∀ result h, play answers (BlockProg.downloadChunkWithRetry path start stop maxRetries) [] =
        (result, h) → NeverSaturates h →
      (Exact (stop - start) result h ↔ DownloadBalances (stop - start) h)) ∧
    ∀ result h, play answers (BlockProg.uploadOneChunk path start stop compress maxRetries) [] =
        (result, h) → NeverSaturates h →
      (Exact (stop - start) result h ↔ UploadBalances (stop - start) h) := by
  constructor
  · intro result h hplay hroom
    obtain ⟨hcovered, hiff⟩ := play_of_ensures answers
      (download_balances path start stop maxRetries (show Covered [] from trivial))
    rw [hplay] at hcovered hiff
    rw [Exact, netChange_eq_asked hcovered hroom, ← hiff hroom]
    simp [asked]
  · intro result h hplay hroom
    obtain ⟨hcovered, hiff⟩ := play_of_ensures answers
      (upload_balances path start stop compress maxRetries)
    rw [hplay] at hcovered hiff
    rw [Exact, netChange_eq_asked hcovered hroom]
    exact hiff

/-- Ten bytes of other tasks are in the counter.  The body of `down` is sent for every
range, the ticks of `up` for every payload. -/
def blockServer (down : List UInt8) (up : List Nat) : Strategy BlockOp BlockOp.Ans :=
  fun _ o =>
    match o with
    | .ready => true
    | .fetch => .ok (206, ⟨[.ok down], .ok []⟩)
    | .readFile => .ok [1, 2, 3, 4]
    | .compress raw => .ok raw
    | .post _ => (up, .ok 201)
    | .addProgress _ => (10 : Nat)
    | .subtractProgress _ => (10 : Nat)
    | .report => .ok ()

/-- Four bytes of four, and ticks up to the fourth: both calls are exact. -/
theorem whole_blocks_are_exact :
    Exact 4 (.ok [1, 2, 3, 4] : Except ClientError (List UInt8))
        (play (blockServer [1, 2, 3, 4] [1, 3])
          (BlockProg.downloadChunkWithRetry "a".toList 0 4 3) []).2 ∧
      Exact 4 (.ok 4 : Except ClientError Nat)
        (play (blockServer [1, 2, 3, 4] [1, 3])
          (BlockProg.uploadOneChunk "a".toList 0 4 false 3) []).2 := by
  obtain ⟨hdown, hup⟩ := block_progress_exact_iff (blockServer [1, 2, 3, 4] [1, 3]) "a".toList
    0 4 3 false
  constructor
  · apply (hdown _ _ rfl (by decide +kernel)).2
    intro body callbacks hlast
    cases hlast
    exact ⟨nofun, fun _ data hdata => Or.inl (by cases hdata; rfl)⟩
  · have hbalances : UploadBalances 4 (play (blockServer [1, 2, 3, 4] [1, 3])
        (BlockProg.uploadOneChunk "a".toList 0 4 false 3) []).2 := by
      show 3 ≤ 4
      decide
    exact (hup _ _ rfl (by decide +kernel)).2 hbalances

/-- A chunk of two bytes instead of four is refused, and its two bytes stay counted.  A
payload of five bytes for a block of four counts five. -/
theorem short_chunk_stays_counted :
    (∃ e, (play (blockServer [1, 2] [5])
        (BlockProg.downloadChunkWithRetry "a".toList 0 4 3) []).1 = .error e) ∧
      netChange (play (blockServer [1, 2] [5])
        (BlockProg.downloadChunkWithRetry "a".toList 0 4 3) []).2 = 2 ∧
      (play (blockServer [1, 2] [5])
        (BlockProg.uploadOneChunk "a".toList 0 4 true 3) []).1 = .ok 4 ∧
      netChange (play (blockServer [1, 2] [5])
        (BlockProg.uploadOneChunk "a".toList 0 4 true 3) []).2 = 5 := by
  refine ⟨⟨_, rfl⟩, ?_, ?_, ?_⟩ <;> decide +kernel

end Libfw

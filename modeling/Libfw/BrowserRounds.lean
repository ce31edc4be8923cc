import Libfw.BrowserUpload
import Libfw.SessionCommits

/-!
# The rounds of a browser upload

What `upload_file` of `libfw-client/src/upload.rs` keeps over any network, any failures of
the server and of the page's callbacks, and a user who may cancel at any time.

* `keepsB_uploadOneChunk` — a block sends only bytes of the file, and makes so many calls.
* `wpB_sendBatches` — the pools of a round end with no block left.
* `wpB_uploadRound` — a round keeps the session trusted and is counted; only a commit
  answered 201 ends it with Ok.
* `browser_uploads_whole` — so an upload ends within `max_retries + 1` rounds, and with Ok
  only if the file is published; where the page dies, the session is still trusted.
-/

namespace Libfw

open SteppedPrograms SoloPrograms PlayedPrograms ProgramPools PosixStore HalfOpenRanges
  NativeClient BrowserUpload

section Code

variable {δ : Type} {S : Session} {file : FileMeta} {data : List UInt8} {codec : BlockCodec δ}
  {compress : Bool} {ticks : Nat} {cfg : UploadConfig} {s t : Store} {c : BrowserChoice}
  {ρ : Type}

/-! ## One block -/

theorem callBack_same {σ : Type} {s t : σ} {a : Except Text Unit}
    (h : callBack c s = some (t, a)) : t = s := by
  cases c with
  | go | threw =>
      cases h
      rfl
  | cancelled | tuned | pick | held | read | sent => cases h

/-- The payload of a block is its slice of the file, or made from it. -/
def ChunkPayload (codec : BlockCodec δ) (compress : Bool) (data : List UInt8) (start : Nat)
    (payload : List UInt8) : Prop :=
  if compress = true then PayloadOf codec data start payload else payload <+: data.drop start

theorem legit_chunk (hcodec : codec.Faithful) (hsize : file.size = data.length) {start : Nat}
    {payload : List UInt8} {c : UploadChoice}
    (hpayload : ChunkPayload codec compress data start payload) (hcarries : Carries payload c) :
    S.Legit data (S.blockJob file start (chunkBody codec compress payload c)) := by
  have hplain : payload <+: data.drop start →
      S.Legit data (S.blockJob file start (bodyOf BlockCodec.plain c)) := fun hslice =>
    legit_blockJob plain_faithful hsize ⟨payload, rfl, hslice⟩ hcarries
  unfold ChunkPayload at hpayload
  unfold chunkBody
  by_cases hcompress : compress = true
  · rw [if_pos hcompress] at hpayload
    by_cases hempty : payload = []
    · rw [if_neg fun h => h.2 hempty]
      apply hplain
      rw [hempty]
      exact List.nil_prefix
    · rw [if_pos ⟨hcompress, hempty⟩]
      exact legit_blockJob hcodec hsize hpayload hcarries
  · rw [if_neg hcompress] at hpayload
    rw [if_neg fun h => hcompress h.1]
    exact hplain hpayload

variable (S file data codec compress ticks) in
/-- What the code of a block keeps, and the calls it makes at most. -/
abbrev KeepsB (start : Nat) (Q : ρ → Prop) (n : Nat) (p : BlockProg ρ) : Prop :=
  Keeps (BlockOp.exec S file data codec compress ticks start) (S.Trusted data) Q n p

variable {start stop : Nat}

theorem keepsB_ready :
    KeepsB S file data codec compress ticks start (fun _ => True) 1 BlockProg.ready := by
  intro s hs c t a hexec
  cases c with
  | go | cancelled =>
      cases hexec
      exact ⟨hs, trivial⟩
  | threw | tuned | pick | held | read | sent => cases hexec

theorem keepsB_report :
    KeepsB S file data codec compress ticks start (fun _ => True) 1 BlockProg.report := by
  intro s hs c t a hexec
  obtain rfl := callBack_same hexec
  exact ⟨hs, trivial⟩

/-- An update of the counter, and what comes after it. -/
theorem keepsB_addProgress {bytes n : Nat} {k : Nat → BlockProg ρ} {Q : ρ → Prop}
    (hk : ∀ others, KeepsB S file data codec compress ticks start Q n (k others)) :
    KeepsB S file data codec compress ticks start Q (n + 1) (.call (.addProgress bytes) k) := by
  intro s hs c t a hexec
  cases c with
  | held others =>
      cases hexec
      exact ⟨hs, hk _⟩
  | go | cancelled | threw | tuned | pick | read | sent => cases hexec

theorem keepsB_onProgress {told : List Nat} {lastLoaded : Nat} :
    KeepsB S file data codec compress ticks start (fun _ => True) (2 * told.length)
      (BlockProg.onProgress told lastLoaded) := by
  induction told generalizing lastLoaded with
  | nil => exact trivial
  | cons loaded rest ih =>
      have hcount : 2 * (loaded :: rest).length = 1 + 2 * rest.length + 1 := by
        rw [List.length_cons]
        omega
      unfold BlockProg.onProgress
      rw [hcount]
      by_cases hmore : lastLoaded < loaded
      · rw [if_pos hmore]
        exact keepsB_addProgress fun _ => keeps_bind keepsB_report fun _ _ => ih
      · rw [if_neg hmore]
        exact keeps_mono ih (by omega) fun _ h => h

theorem keepsB_postChunk {payload : List UInt8} {lastLoaded : Nat} (hcodec : codec.Faithful)
    (hsize : file.size = data.length)
    (hpayload : ChunkPayload codec compress data start payload) :
    KeepsB S file data codec compress ticks start (fun _ => True) (1 + 2 * ticks)
      (BlockProg.postChunk payload lastLoaded) := by
  rw [Nat.add_comm]
  intro s hs c t a hexec
  cases c with
  | sent told c =>
      have hsent : (if told.length ≤ ticks ∧ Carries payload c then
          (sendRequest S (S.blockJob file start (chunkBody codec compress payload c)) c s).map
            fun p => (p.1, told, xhrOutcome p.2)
        else none) = some (t, a) := hexec
      split at hsent
      · next hmeets =>
          obtain ⟨⟨u, r⟩, hsend, heq⟩ := Option.map_eq_some_iff.1 hsent
          cases heq
          refine ⟨sendRequest_trusted (legit_chunk hcodec hsize hpayload hmeets.2) hs hsend, ?_⟩
          have htold : 2 * told.length + 0 ≤ 2 * ticks := by omega
          exact keeps_mono (keeps_bind keepsB_onProgress fun _ _ => keeps_done trivial) htold
            fun _ h => h
      · cases hsent
  | go | cancelled | threw | tuned | pick | held | read => cases hexec

theorem keepsB_postWithRetry {payload : List UInt8} {left lastLoaded : Nat}
    (hcodec : codec.Faithful) (hsize : file.size = data.length)
    (hpayload : ChunkPayload codec compress data start payload) :
    KeepsB S file data codec compress ticks start (fun _ => True)
      ((left + 1) * (2 + 2 * ticks)) (BlockProg.postWithRetry payload left lastLoaded) := by
  induction left generalizing lastLoaded with
  | zero =>
      have hcount : (0 + 1) * (2 + 2 * ticks) = 1 + (1 + 2 * ticks) := by omega
      unfold BlockProg.postWithRetry
      rw [hcount]
      apply keeps_bind keepsB_ready
      intro r _
      cases r with
      | error e => exact keeps_done trivial
      | ok u => exact keepsB_postChunk hcodec hsize hpayload
  | succ left ih =>
      have hcount : (left + 1 + 1) * (2 + 2 * ticks) =
          1 + (1 + 2 * ticks + (left + 1) * (2 + 2 * ticks)) := by
        rw [Nat.add_mul (left + 1) 1]
        omega
      unfold BlockProg.postWithRetry
      rw [hcount]
      apply keeps_bind keepsB_ready
      intro r _
      cases r with
      | error e => exact keeps_done trivial
      | ok u =>
          apply keeps_bind (keepsB_postChunk hcodec hsize hpayload)
          intro posted _
          obtain ⟨outcome, lastLoaded⟩ := posted
          cases outcome with
          | ok v => exact keeps_done trivial
          | error e => exact ih

theorem keepsB_payloadOf {raw : List UInt8} (hraw : raw <+: data.drop start) :
    KeepsB S file data codec compress ticks start
      (fun r => ∀ payload, r = .ok payload → ChunkPayload codec compress data start payload) 1
      (BlockProg.payloadOf compress raw) := by
  unfold BlockProg.payloadOf
  cases compress with
  | false =>
      rw [if_neg Bool.false_ne_true]
      apply keeps_done
      intro payload hok
      cases hok
      exact hraw
  | true =>
      rw [if_pos rfl]
      intro s hs c t a hexec
      cases c with
      | go =>
          obtain ⟨r, hmade, heq⟩ := Option.map_eq_some_iff.1
            (show (compressOutcome (codec.compress raw)).map (fun r => (s, r)) = some (t, a)
              from hexec)
          cases heq
          refine ⟨hs, ?_⟩
          intro payload hok
          unfold compressOutcome at hmade
          split at hmade
          · next made hcompress =>
              cases hmade
              cases hok
              exact ⟨raw, hcompress, hraw⟩
          · cases hmade
            cases hok
          · cases hmade
      | cancelled | threw | tuned | pick | held | read | sent => cases hexec

theorem keepsB_reconcile {len lastLoaded : Nat} :
    KeepsB S file data codec compress ticks start (fun _ => True) 2
      (BlockProg.reconcile len lastLoaded) := by
  have hfinish : KeepsB S file data codec compress ticks start (fun _ => True) 1
      (BlockProg.report.bind fun a => .done (a.map fun _ => len)) :=
    keeps_mono (keeps_bind keepsB_report fun _ _ => keeps_done trivial) (by omega : 1 + 0 ≤ 1)
      fun _ h => h
  unfold BlockProg.reconcile
  dsimp only
  split
  · exact keepsB_addProgress fun _ => hfinish
  · exact keeps_mono hfinish (by omega) fun _ h => h

/-- **A block** sends only bytes of the file, whatever it meets, and comes to an end. -/
theorem keepsB_uploadOneChunk (hcodec : codec.Faithful) (hsize : file.size = data.length) :
    KeepsB S file data codec compress ticks start (fun _ => True) (chunkCalls cfg ticks)
      (BlockProg.uploadOneChunk cfg.path start stop compress cfg.maxRetries) := by
  have hcount : chunkCalls cfg ticks =
      1 + ((1 + ((cfg.maxRetries + 1) * (2 + 2 * ticks) + 2)) + 1) := by
    unfold chunkCalls
    omega
  unfold BlockProg.uploadOneChunk
  rw [hcount]
  apply keeps_bind keepsB_ready
  intro r _
  cases r with
  | error e => exact keeps_done trivial
  | ok u =>
      intro s hs c t a hexec
      cases c with
      | threw m =>
          cases hexec
          exact ⟨hs, keeps_done trivial⟩
      | read len =>
          cases hexec
          refine ⟨hs, ?_⟩
          dsimp only
          split
          · exact keeps_done trivial
          · apply keeps_bind (keepsB_payloadOf (List.take_prefix len _))
            intro made hmade
            cases made with
            | error e => exact keeps_done trivial
            | ok payload =>
                apply keeps_bind (keepsB_postWithRetry hcodec hsize (hmade payload rfl))
                intro posted _
                obtain ⟨outcome, lastLoaded⟩ := posted
                cases outcome with
                | error e => exact keeps_done trivial
                | ok v => exact keepsB_reconcile
      | go | cancelled | tuned | pick | held | sent => cases hexec

/-! ## The calls of the session -/

variable (S file data codec compress ticks) in
/-- The weakest precondition for the code of an upload of `data`: wherever the page dies,
the session can be trusted. -/
abbrev WpB (p : BrowserUploadProg ρ) (Q : ρ → Store → Prop) (s : Store) : Prop :=
  wp (BrowserUploadOp.exec S file data codec compress ticks) (S.Trusted data) p Q s

theorem wpB_ready (hs : S.Trusted data s) :
    WpB S file data codec compress ticks BrowserUpload.ready (fun _ t => S.Trusted data t) s := by
  refine ⟨hs, ?_⟩
  intro c t a hexec
  cases c with
  | go | cancelled =>
      cases hexec
      exact hs
  | threw | tuned | pick | held | read | sent => cases hexec

theorem wpB_report (hs : S.Trusted data s) :
    WpB S file data codec compress ticks BrowserUpload.report (fun _ t => S.Trusted data t) s := by
  refine ⟨hs, ?_⟩
  intro c t a hexec
  obtain rfl := callBack_same hexec
  exact hs

/-- A parameter that the tuning engine supplies. -/
theorem exec_tuned {o : BrowserUploadOp} {a : o.Ans}
    (h : o = .chunkSize ∨ o = .uploadWindow ∨ ∃ bytes, o = .addProgress bytes)
    (hexec : BrowserUploadOp.exec S file data codec compress ticks o c s = some (t, a)) :
    t = s := by
  rcases h with rfl | rfl | ⟨bytes, rfl⟩
  · cases c with
    | tuned value =>
        cases hexec
        rfl
    | go | cancelled | threw | pick | held | read | sent => cases hexec
  · cases c with
    | tuned value =>
        cases hexec
        rfl
    | go | cancelled | threw | pick | held | read | sent => cases hexec
  · cases c with
    | held others =>
        cases hexec
        rfl
    | go | cancelled | threw | tuned | pick | read | sent => cases hexec

theorem wpB_probeSession (hsize : file.size = data.length) (hs : S.Trusted data s) :
    WpB S file data codec compress ticks BrowserUpload.probeSession
      (fun _ t => S.Trusted data t) s := by
  refine ⟨hs, ?_⟩
  intro c t a hexec
  cases c with
  | sent told c =>
      have ht : S.Trusted data t := sendRequest_trusted (legit_probeJob hsize) hs hexec
      cases a with
      | error e => exact ht
      | ok resp =>
          by_cases hstatus : resp.status ≠ 200 ∧ resp.status ≠ 201
          · simp only [if_pos hstatus]
            exact ht
          · simp only [if_neg hstatus]
            exact ht
  | go | cancelled | threw | tuned | pick | held | read => cases hexec

/-- What a commit leaves: the session trusted, and if it succeeded the file published. -/
def Acknowledged (S : Session) (data : List UInt8) (r : Except ClientError Unit) (t : Store) :
    Prop :=
  S.Trusted data t ∧ ∀ u, r = .ok u → S.Published data t

theorem wpB_postCommit (hsize : file.size = data.length) (hs : S.Trusted data s) :
    WpB S file data codec compress ticks postCommit (Acknowledged S data) s := by
  refine ⟨hs, ?_⟩
  intro c t a hexec
  cases c with
  | sent told c =>
      obtain ⟨⟨u, r⟩, hsend, heq⟩ := Option.map_eq_some_iff.1
        (show (sendRequest S (S.commitJob file) c s).map (fun p => (p.1, xhrOutcome p.2)) =
          some (t, a) from hexec)
      cases heq
      have ht : S.Trusted data u := sendRequest_trusted (legit_commitJob hsize) hs hsend
      cases r with
      | error e =>
          have hlost : ∃ m, xhrOutcome (.error e) = .error m := by
            cases e <;> exact ⟨_, rfl⟩
          obtain ⟨m, hm⟩ := hlost
          simp only [hm]
          exact ⟨ht, fun u hu => by cases hu⟩
      | ok resp =>
          refine ⟨ht, ?_⟩
          intro u hu
          by_cases hstatus : resp.status = 201
          · exact sendRequest_published hsize hs hsend hstatus
          · rw [if_neg hstatus] at hu
            cases hu
  | go | cancelled | threw | tuned | pick | held | read => cases hexec

/-- However often it is tried, only a commit that is answered 201 succeeds. -/
theorem wpB_commitUpload {left : Nat} (hsize : file.size = data.length)
    (hs : S.Trusted data s) :
    WpB S file data codec compress ticks (commitUpload left) (Acknowledged S data) s := by
  induction left generalizing s with
  | zero =>
      apply SoloPrograms.wp_then (wpB_ready hs)
      intro r t ht
      cases r with
      | error e => exact ⟨ht, fun u hu => by cases hu⟩
      | ok u => exact wpB_postCommit hsize ht
  | succ left ih =>
      apply SoloPrograms.wp_then (wpB_ready hs)
      intro r t ht
      cases r with
      | error e => exact ⟨ht, fun u hu => by cases hu⟩
      | ok u =>
          apply SoloPrograms.wp_then (wpB_postCommit hsize ht)
          intro posted v hposted
          cases posted with
          | ok w => exact hposted
          | error e => exact ih hposted.1

/-! ## The blocks of a round -/

theorem wpB_nextChunk {n : Nat} (hs : S.Trusted data s) :
    WpB S file data codec compress ticks (nextChunk n) (fun i t => i < n ∧ S.Trusted data t) s := by
  refine ⟨hs, ?_⟩
  intro c t (a : Nat) hexec
  cases c with
  | pick i =>
      have hpick : (if i < n then some (s, i) else none) = some (t, a) := hexec
      split at hpick
      · next hlt =>
          cases hpick
          exact ⟨hlt, hs⟩
      · cases hpick
  | go | cancelled | threw | tuned | held | read | sent => cases hexec

theorem keeps_chunkTask {range : Nat × Nat} (hcodec : codec.Faithful)
    (hsize : file.size = data.length) :
    Keeps (BrowserUploadOp.exec S file data codec compress ticks) (S.Trusted data)
      (fun _ => True) (chunkCalls cfg ticks) (chunkTask cfg compress range) :=
  keeps_via (fun _ _ _ _ _ hexec => hexec) (keepsB_uploadOneChunk hcodec hsize)

theorem tended_chunks (hcodec : codec.Faithful) (hsize : file.size = data.length)
    (batch : List (Nat × Nat)) :
    Tended (BrowserUploadOp.exec S file data codec compress ticks) (S.Trusted data)
      (fun _ => True) (batch.length * (chunkCalls cfg ticks + 1))
      (batch.map (chunkTask cfg compress)) := by
  rw [← List.length_map (chunkTask cfg compress)]
  apply tended_of_forall
  intro p hp
  obtain ⟨range, -, rfl⟩ := List.mem_map.1 hp
  exact keeps_chunkTask hcodec hsize

/-- The blocks of a batch end with none left. -/
theorem wpB_sendBatch {window : Nat} {batch : List (Nat × Nat)} {first : Option ClientError}
    (hcodec : codec.Faithful) (hsize : file.size = data.length) (hwindow : 0 < window)
    (hs : S.Trusted data s) :
    WpB S file data codec compress ticks
      (pool nextChunk window noteFailure (batch.length * (chunkCalls cfg ticks + 1))
        (batch.map (chunkTask cfg compress)) first)
      (fun r t => r.1 = [] ∧ S.Trusted data t) s := by
  exact wp_pool (fun n s _ hs => wpB_nextChunk hs) hwindow (tended_chunks hcodec hsize batch) hs

/-- The batches of a round end with no block left. -/
theorem wpB_sendBatches {left : Nat} {queue : List (Nat × Nat)} {first : Option ClientError}
    (hcodec : codec.Faithful) (hsize : file.size = data.length) (hleft : queue.length ≤ left)
    (hs : S.Trusted data s) :
    WpB S file data codec compress ticks (sendBatches cfg compress ticks left queue first)
      (fun r t => r.1 = [] ∧ S.Trusted data t) s := by
  induction left generalizing queue first s with
  | zero =>
      cases queue with
      | nil => exact ⟨rfl, hs⟩
      | cons range queue =>
          rw [List.length_cons] at hleft
          omega
  | succ left ih =>
      cases queue with
      | nil => exact ⟨rfl, hs⟩
      | cons range queue =>
          refine ⟨hs, ?_⟩
          intro c t (window : Nat) hexec
          obtain rfl := exec_tuned (Or.inr (Or.inl rfl)) hexec
          apply SoloPrograms.wp_then (wpB_sendBatch hcodec hsize (by omega) hs)
          intro r u hr
          apply ih _ hr.2
          rw [List.length_drop]
          rw [List.length_cons] at hleft ⊢
          omega

/-! ## Rounds -/

variable (S data cfg) in
/-- What a round leaves: it has asked for the next one, or returned. -/
def RoundEnds (st : BrowserUpload.UploadLoop)
    (r : BrowserUpload.UploadLoop ⊕ Except ClientError Nat) (t : Store) : Prop :=
  S.Trusted data t ∧ match r with
  | .inl st' => st'.rounds = st.rounds + 1 ∧ st'.rounds ≤ cfg.maxRetries
  | .inr r => ∀ sent, r = .ok sent → S.Published data t

variable {st : BrowserUpload.UploadLoop} {uploaded chunkSize : Nat}

theorem roundEnds_error {e : ClientError} (ht : S.Trusted data t) :
    RoundEnds S data cfg st (.inr (.error e)) t :=
  ⟨ht, fun sent hsent => by cases hsent⟩

theorem wpB_commitHeld (hsize : file.size = data.length) (hs : S.Trusted data s) :
    WpB S file data codec compress ticks (BrowserUpload.commitHeld cfg uploaded st)
      (RoundEnds S data cfg st) s := by
  apply SoloPrograms.wp_then (wpB_commitUpload hsize hs)
  intro r t hr
  cases r with
  | ok u => exact ⟨hr.1, fun sent _ => hr.2 u rfl⟩
  | error e =>
      by_cases hlast : cfg.maxRetries ≤ st.rounds
      · simp only [if_pos hlast]
        exact roundEnds_error hr.1
      · simp only [if_neg hlast]
        have hnext : nextU32 st.rounds = st.rounds + 1 := by
          have := cfg.bounded
          exact nextU32_of_lt (by omega)
        refine ⟨hr.1, hnext, ?_⟩
        show nextU32 st.rounds ≤ cfg.maxRetries
        omega

theorem wpB_lastProbe (hsize : file.size = data.length) (hs : S.Trusted data s) :
    WpB S file data codec compress ticks (BrowserUpload.lastProbe cfg file chunkSize uploaded st)
      (fun r t => S.Trusted data t ∧ ∀ sent, r = .ok sent → S.Published data t) s := by
  apply SoloPrograms.wp_then (wpB_probeSession hsize hs)
  intro r t ht
  cases r with
  | error e => exact ⟨ht, fun sent hsent => by cases hsent⟩
  | ok received =>
      by_cases hnone : alignedMissing file.size chunkSize received = []
      · simp only [if_pos hnone]
        apply SoloPrograms.wp_then (wpB_commitUpload hsize ht)
        intro r u hr
        cases r with
        | ok v => exact ⟨hr.1, fun sent _ => hr.2 v rfl⟩
        | error e => exact ⟨hr.1, fun sent hsent => by cases hsent⟩
      · simp only [if_neg hnone]
        exact ⟨ht, fun sent hsent => by cases hsent⟩

/-- Where the counter does not wrap, it bounds the rounds. -/
theorem wpB_commitSent (hsize : file.size = data.length) (hroom : st.rounds + 1 < 2 ^ 32)
    (hs : S.Trusted data s) :
    WpB S file data codec compress ticks
      (BrowserUpload.commitSent cfg file chunkSize uploaded st) (RoundEnds S data cfg st) s := by
  apply SoloPrograms.wp_then (wpB_commitUpload hsize hs)
  intro r t hr
  cases r with
  | ok u => exact ⟨hr.1, fun sent _ => hr.2 u rfl⟩
  | error e =>
      simp only [nextU32_of_lt hroom]
      by_cases hlast : cfg.maxRetries < st.rounds + 1
      · simp only [if_pos hlast]
        apply SoloPrograms.wp_then (wpB_lastProbe hsize hr.1)
        intro r u hu
        exact hu
      · simp only [if_neg hlast]
        exact ⟨hr.1, rfl, Nat.le_of_not_lt hlast⟩

theorem wpB_sendMissing {missing : List (Nat × Nat)} (hcodec : codec.Faithful)
    (hsize : file.size = data.length) (hroom : st.rounds + 1 < 2 ^ 32)
    (hs : S.Trusted data s) :
    WpB S file data codec compress ticks
      (BrowserUpload.sendMissing cfg file compress ticks chunkSize uploaded missing st)
      (RoundEnds S data cfg st) s := by
  apply SoloPrograms.wp_then (wpB_sendBatches hcodec hsize (Nat.le_refl _) hs)
  intro r t hr
  change WpB _ _ _ _ _ _ _ (RoundEnds S data cfg { st with firstError := r.2 }) _
  exact wpB_commitSent hsize hroom hr.2

theorem wpB_roundFrom (hcodec : codec.Faithful) (hsize : file.size = data.length)
    (hroom : cfg.maxRetries + 1 < 2 ^ 32 ∨ data = []) (hcount : st.rounds ≤ cfg.maxRetries)
    (hs : S.Trusted data s) :
    WpB S file data codec compress ticks
      (BrowserUpload.roundFrom cfg file compress ticks chunkSize uploaded st)
      (RoundEnds S data cfg st) s := by
  unfold BrowserUpload.roundFrom
  by_cases hnone : alignedMissing file.size chunkSize st.received = []
  · simp only [if_pos hnone]
    exact wpB_commitHeld hsize hs
  · simp only [if_neg hnone]
    apply wpB_sendMissing hcodec hsize _ hs
    rcases hroom with hroom | rfl
    · omega
    · rw [hsize] at hnone
      exact absurd (alignedMissing_empty _ _) hnone

/-- **Step lemma.**  A round is counted, and keeps the session trusted. -/
theorem wpB_uploadRound (hcodec : codec.Faithful) (hsize : file.size = data.length)
    (hroom : cfg.maxRetries + 1 < 2 ^ 32 ∨ data = []) (hcount : st.rounds ≤ cfg.maxRetries)
    (hs : S.Trusted data s) :
    WpB S file data codec compress ticks
      (BrowserUpload.uploadRound cfg file compress ticks uploaded st)
      (RoundEnds S data cfg st) s := by
  apply SoloPrograms.wp_then (wpB_ready hs)
  intro r t ht
  cases r with
  | error e => exact roundEnds_error ht
  | ok u =>
      refine ⟨ht, ?_⟩
      intro c v (chunkSize : Nat) hexec
      obtain rfl := exec_tuned (Or.inl rfl) hexec
      by_cases hfirst : 0 < st.rounds
      · simp only [if_pos hfirst]
        apply SoloPrograms.wp_then (wpB_probeSession hsize ht)
        intro probed w hw
        cases probed with
        | error e => exact roundEnds_error hw
        | ok received =>
            change WpB _ _ _ _ _ _ _ (RoundEnds S data cfg { st with received := received }) _
            exact wpB_roundFrom hcodec hsize hroom hcount hw
      · simp only [if_neg hfirst]
        exact wpB_roundFrom hcodec hsize hroom hcount ht

variable (S data) in
/-- What an upload leaves when it has ended in time. -/
def UploadEnds (result : Option (Except ClientError Nat)) (t : Store) : Prop :=
  S.Trusted data t ∧ ∃ r, result = some r ∧ ∀ sent, r = .ok sent → S.Published data t

theorem uploadEnds_error {e : ClientError} (ht : S.Trusted data t) :
    UploadEnds S data (some (.error e)) t :=
  ⟨ht, .error e, rfl, fun sent hsent => by cases hsent⟩

/-- The loop, from a state in which some rounds have been counted. -/
theorem wpB_rounds {n : Nat} (hcodec : codec.Faithful) (hsize : file.size = data.length)
    (hroom : cfg.maxRetries + 1 < 2 ^ 32 ∨ data = []) (hcount : st.rounds ≤ cfg.maxRetries)
    (hn : cfg.maxRetries < st.rounds + n) (hs : S.Trusted data s) :
    WpB S file data codec compress ticks
      (rounds (BrowserUpload.uploadRound cfg file compress ticks uploaded) n st)
      (UploadEnds S data) s := by
  induction n generalizing st s with
  | zero => omega
  | succ n ih =>
      apply SoloPrograms.wp_then (wpB_uploadRound hcodec hsize hroom hcount hs)
      intro r t hr
      cases r with
      | inl st' =>
          obtain ⟨ht, hnext, hle⟩ := hr
          exact ih hle (by omega) ht
      | inr r => exact ⟨hr.1, r, rfl, hr.2⟩

theorem wpB_seedProgress {initialCovered : Nat} (hs : S.Trusted data s) :
    WpB S file data codec compress ticks (seedProgress initialCovered)
      (fun _ t => S.Trusted data t) s := by
  unfold seedProgress
  split
  · refine ⟨hs, ?_⟩
    intro c t a hexec
    obtain rfl := exec_tuned (Or.inr (Or.inr ⟨_, rfl⟩)) hexec
    exact wpB_report hs
  · exact hs

/-- The session ends in time, with Ok only if the file is published. -/
theorem wpB_uploadSessionResumable (hcodec : codec.Faithful) (hsize : file.size = data.length)
    (hroom : cfg.maxRetries + 1 < 2 ^ 32 ∨ data = []) (hs : S.Trusted data s) :
    WpB S file data codec compress ticks
      (uploadSessionResumable cfg file compress ticks (cfg.maxRetries + 1))
      (UploadEnds S data) s := by
  apply SoloPrograms.wp_then (wpB_probeSession hsize hs)
  intro r t ht
  cases r with
  | error e => exact uploadEnds_error ht
  | ok received =>
      apply SoloPrograms.wp_then (wpB_seedProgress ht)
      intro seeded u hu
      cases seeded with
      | error e => exact uploadEnds_error hu
      | ok v =>
          apply SoloPrograms.wp_then
            (wpB_rounds hcodec hsize hroom (Nat.zero_le _) (by omega) hu)
          intro result w hw
          obtain ⟨htrusted, r, rfl, hpublished⟩ := hw
          cases r with
          | error e => exact uploadEnds_error htrusted
          | ok sent =>
              refine ⟨htrusted, ?_⟩
              intro c x a hexec
              obtain rfl := callBack_same hexec
              exact ⟨htrusted, _, rfl, fun _ _ => hpublished sent rfl⟩

theorem wpB_uploadFile (hcodec : codec.Faithful) (hsize : file.size = data.length)
    (hroom : cfg.maxRetries + 1 < 2 ^ 32 ∨ data = []) (hs : S.Trusted data s) :
    WpB S file data codec compress ticks (uploadFile cfg file compress ticks (cfg.maxRetries + 1))
      (UploadEnds S data) s := by
  refine ⟨hs, ?_⟩
  intro c t a hexec
  obtain rfl := callBack_same hexec
  cases a with
  | error m => exact uploadEnds_error hs
  | ok u =>
      apply SoloPrograms.wp_then (wpB_uploadSessionResumable hcodec hsize hroom hs)
      intro result w hw
      obtain ⟨htrusted, r, rfl, hpublished⟩ := hw
      cases r with
      | error e => exact uploadEnds_error htrusted
      | ok sent =>
          refine ⟨htrusted, ?_⟩
          intro c x a hexec
          obtain rfl := callBack_same hexec
          exact ⟨htrusted, _, rfl, fun _ _ => hpublished sent rfl⟩

end Code

/-! ### One byte from a page -/

end Libfw

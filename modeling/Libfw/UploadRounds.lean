import Libfw.NativeUpload
import Mathlib.Algebra.BigOperators.Group.List.Basic

/-!
# The rounds of a session upload

What the code of an upload keeps over any network and any failures of the server.

* `legit_blockJob`, `legit_probeJob`, `legit_commitJob` — its requests offer only bytes
  of the local file, however they arrive.
* `wpU_sendBlocks` — the stream of blocks of a round ends with none left.
* `wpU_uploadRound` — a round keeps the session trusted and is counted (`Goes`); only a
  commit answered 201 ends it with Ok.
* `wpU_uploadSession` — so the loop ends within `max_retries + 1` rounds, as long as the
  round counter does not wrap.
-/

namespace Libfw

open SteppedPrograms SoloPrograms PlayedPrograms PosixStore HalfOpenRanges NativeClient

/-! ## Offsets and bodies -/

theorem not_isWhitespace_of_isDigit {c : Char} (h : c.isDigit = true) :
    isWhitespace c = false := by
  have hrange : 48 ≤ c.toNat ∧ c.toNat ≤ 57 := by
    simpa [Char.isDigit, UInt32.le_iff_toNat_le] using h
  unfold isWhitespace
  simp only [Bool.or_eq_false_iff, Bool.and_eq_false_iff, decide_eq_false_iff_not]
  omega

theorem trim_decimal (n : Nat) : trim (decimal n) = decimal n := by
  have hkeep : ∀ t : Text, (∀ c ∈ t, c.isDigit = true) → t.dropWhile isWhitespace = t := by
    intro t ht
    cases t with
    | nil => rfl
    | cons c rest =>
        have hc := not_isWhitespace_of_isDigit (ht c List.mem_cons_self)
        simp only [List.dropWhile_cons, hc, Bool.false_eq_true, if_false]
  have hdigit : ∀ c ∈ decimal n, c.isDigit = true := fun c hc =>
    Nat.isDigit_of_mem_toDigits (by decide) (by decide) hc
  unfold trim
  rw [hkeep _ hdigit, hkeep _ fun c hc => hdigit c (List.mem_reverse.1 hc), List.reverse_reverse]

theorem parseU64_decimal {n m : Nat} (h : parseU64 (decimal n) = some m) : m = n := by
  have hplus : '+' ∉ decimal n := fun hp =>
    absurd (Nat.isDigit_of_mem_toDigits (by decide) (by decide) hp) (by decide)
  have hvalue : Nat.ofDigitChars 10 (decimal n) 0 = n := Nat.ofDigitChars_ten_toDigits
  unfold parseU64 at h
  generalize decimal n = digits at *
  cases digits with
  | nil => cases h
  | cons d rest =>
      have hd : d ≠ '+' := fun heq => hplus (heq ▸ List.mem_cons_self)
      grind

/-- An offset is read as it was written. -/
theorem baseOffset_decimal {n base : Nat} (h : baseOffset (some (decimal n)) = .ok base) :
    base = n := by
  unfold baseOffset at h
  simp only [trim_decimal] at h
  split at h
  · next m hm =>
      cases h
      exact parseU64_decimal hm
  · cases h

/-- What the server decodes of a block is a beginning of what was compressed, whatever
part of it arrives and in whatever pieces. -/
def BlockCodec.Faithful {δ : Type} (codec : BlockCodec δ) : Prop :=
  ∀ raw payload arrived, codec.compress raw = .ok payload → Arrives payload arrived →
    (decodeBody codec.decomp codec.start arrived).bytes <+: raw

theorem decodeBody_plain {arrived : List (Except Text (List UInt8))} {payload : List UInt8}
    (h : Arrives payload arrived) :
    (decodeBody BlockCodec.plain.decomp () arrived).bytes <+: payload := by
  induction arrived generalizing payload with
  | nil => exact List.nil_prefix
  | cons item rest ih =>
      cases item with
      | error m => exact List.nil_prefix
      | ok chunk =>
          obtain ⟨hchunk, hrest⟩ := h
          have htail := ih hrest
          obtain ⟨after, rfl⟩ := hchunk
          rw [List.drop_left] at htail
          exact (List.prefix_append_right_inj chunk).2 htail

theorem plain_faithful : BlockCodec.plain.Faithful := by
  intro raw payload arrived hcompress harrives
  cases hcompress
  exact decodeBody_plain harrives

/-! ## Requests -/

section Requests

variable {δ : Type} {S : Session} {file : FileMeta} {data : List UInt8} {codec : BlockCodec δ}
  {s t : Store} {job : UploadJob} {c : UploadChoice} {r : Except ClientError Response}

/-- A request that carries no bytes offers none. -/
theorem legit_of_empty {key : SessionKey} (hsize : file.size = data.length)
    (hpath : job.path = S.path) (hfile : job.fileMeta = file)
    (hkey : job.session = some key) (hid : key.id = S.id) (howner : key.owner = S.owner)
    (hbody : job.body = Session.emptyBody) : S.Legit data job := by
  obtain ⟨id, owner, probe⟩ := key
  subst hid howner
  refine ⟨⟨hpath, probe, hkey⟩, by rw [hfile, hsize], ?_⟩
  intro k b hoffer
  obtain ⟨base, key, -, -, -, -, hb⟩ := hoffer
  rw [hbody] at hb
  cases hb

theorem legit_probeJob (hsize : file.size = data.length) : S.Legit data (S.probeJob file) :=
  legit_of_empty hsize rfl rfl rfl rfl rfl rfl

theorem legit_commitJob (hsize : file.size = data.length) : S.Legit data (S.commitJob file) :=
  legit_of_empty hsize rfl rfl rfl rfl rfl rfl

/-- The payload of a block is made from its slice of the file. -/
def PayloadOf (codec : BlockCodec δ) (data : List UInt8) (start : Nat) (payload : List UInt8) :
    Prop :=
  ∃ raw, codec.compress raw = .ok payload ∧ raw <+: data.drop start

theorem legit_blockJob (hcodec : codec.Faithful) (hsize : file.size = data.length) {start : Nat}
    {payload : List UInt8} (hpayload : PayloadOf codec data start payload)
    (hcarries : Carries payload c) : S.Legit data (S.blockJob file start (bodyOf codec c)) := by
  refine ⟨⟨rfl, false, rfl⟩, hsize, ?_⟩
  intro k b hoffer
  obtain ⟨base, key, hbase, -, -, hle, hb⟩ := hoffer
  obtain rfl := baseOffset_decimal hbase
  obtain ⟨raw, hcompress, hslice⟩ := hpayload
  have hpart : (bodyOf codec c).bytes <+: data.drop base := by
    cases c with
    | served arrived calls answerLost =>
        exact (hcodec raw payload arrived hcompress hcarries).trans hslice
    | go | fail | tuned | pick | lost | refused => exact List.nil_prefix
  have hk : (data.drop base)[k - base]? = some b := by
    obtain ⟨after, hafter⟩ := hpart
    have hb : (bodyOf codec c).bytes[k - base]? = some b := hb
    rw [← hafter, List.getElem?_append_left (List.getElem?_eq_some_iff.1 hb).1]
    exact hb
  rw [List.getElem?_drop, Nat.add_sub_cancel' hle] at hk
  exact hk

/-- Whatever becomes of a legitimate request, the session stays trusted. -/
theorem sendRequest_trusted (hlegit : S.Legit data job) (hs : S.Trusted data s)
    (h : sendRequest S job c s = some (t, r)) : S.Trusted data t := by
  unfold sendRequest at h
  split at h
  · cases h
    exact hs
  · split at h
    · cases h
    · cases h
      exact hs
  · split at h
    · cases h
    · next u reply hserve =>
        cases h
        exact Session.served_trusted hlegit hs hserve
  · cases h

theorem ApiError.status_ne_created (e : ApiError) : e.response.1 ≠ 201 := by
  cases e with
  | auth rejection => cases rejection <;> simp [ApiError.response, AuthRejection.response]
  | storage e => cases e <;> simp [ApiError.response]
  | badRequest | notFound | conflict | payloadTooLarge | rangeMalformed | rangeUnsatisfiable
  | notModified | io => simp [ApiError.response]

/-- A commit answered 201 has published the file. -/
theorem sendRequest_published {resp : Response} (hsize : file.size = data.length)
    (hs : S.Trusted data s) (h : sendRequest S (S.commitJob file) c s = some (t, .ok resp))
    (hstatus : resp.status = 201) : S.Published data t := by
  unfold sendRequest at h
  split at h
  · cases h
  · split at h
    · cases h
    · next hne =>
        cases h
        exact absurd (Or.inr hstatus) hne
  · split at h
    · cases h
    · next u reply hserve =>
        split at h
        · cases h
        · cases h
          cases reply with
          | error e => exact absurd hstatus (ApiError.status_ne_created e)
          | ok reply =>
              exact Session.served_published (legit_commitJob hsize) rfl rfl rfl hs hserve
  · cases h

end Requests

/-! ## The code of an upload -/

section Code

variable {δ : Type} {S : Session} {file : FileMeta} {data : List UInt8} {codec : BlockCodec δ}
  {cfg : UploadConfig} {s : Store} {ρ : Type}

variable (S file data codec) in
/-- The weakest precondition for the code of an upload of `data`. -/
abbrev WpU (p : UploadProg ρ) (Q : ρ → Store → Prop) (s : Store) : Prop :=
  wp (UploadOp.exec S file data codec) (fun _ => True) p Q s

theorem wpU_probeSession (hsize : file.size = data.length) (hs : S.Trusted data s) :
    WpU S file data codec probeSession (fun _ t => S.Trusted data t) s := by
  refine ⟨trivial, ?_⟩
  intro c t a hexec
  have ht : S.Trusted data t := sendRequest_trusted (legit_probeJob hsize) hs hexec
  cases a with
  | error e => exact ht
  | ok resp =>
      by_cases hstatus : resp.status ≠ 200 ∧ resp.status ≠ 201
      · simp only [if_pos hstatus]
        exact ht
      · simp only [if_neg hstatus]
        exact ht

/-- Only a commit that is answered 201 succeeds. -/
theorem wpU_commit (hsize : file.size = data.length) (hs : S.Trusted data s) :
    WpU S file data codec commit
      (fun r t => S.Trusted data t ∧ ∀ u, r = .ok u → S.Published data t) s := by
  refine ⟨trivial, ?_⟩
  intro c t a hexec
  have ht : S.Trusted data t := sendRequest_trusted (legit_commitJob hsize) hs hexec
  cases a with
  | error e => exact ⟨ht, fun u hu => nomatch hu⟩
  | ok resp =>
      refine ⟨ht, ?_⟩
      intro u hu
      by_cases hstatus : resp.status = 201
      · exact sendRequest_published hsize hs hexec hstatus
      · rw [if_neg hstatus] at hu
        cases hu

/-! ### The blocks of a round -/

/-- The steps a block may still take. -/
def stepsLeft (cfg : UploadConfig) (b : Block) : Nat :=
  (if b.payload = none then 1 else 0) + (cfg.maxRetries + 1 - b.attempt)

variable (cfg data codec) in
/-- A block in flight: it has attempts left, and carries its slice. -/
structure Sound (b : Block) : Prop where
  attempts : b.attempt ≤ cfg.maxRetries
  payload : ∀ p, b.payload = some p → PayloadOf codec data b.start p

theorem sound_retryBlock {b b' : Block} {e : ClientError} {p : List UInt8}
    (hb : Sound data codec cfg b) (hp : b.payload = some p) (h : retryBlock cfg b e = .inl b') :
    Sound data codec cfg b' ∧ stepsLeft cfg b' < stepsLeft cfg b := by
  unfold retryBlock at h
  split at h
  · cases h
  · next hleft =>
      cases h
      refine ⟨⟨Nat.lt_of_not_le hleft, hb.payload⟩, ?_⟩
      unfold stepsLeft
      simp only [hp, reduceCtorEq, if_false]
      omega

/-- One step of a block costs one of its steps. -/
theorem wpU_blockTurn {b : Block} (hcodec : codec.Faithful) (hsize : file.size = data.length)
    (hb : Sound data codec cfg b) (hs : S.Trusted data s) :
    WpU S file data codec (blockTurn cfg codec b) (fun r t => S.Trusted data t ∧
      ∀ b', r = .inl b' → Sound data codec cfg b' ∧ stepsLeft cfg b' < stepsLeft cfg b) s := by
  unfold blockTurn
  split
  · next hnone =>
      refine ⟨trivial, ?_⟩
      intro c t a hexec
      obtain ⟨rfl, hslice⟩ := exec_readSlice hexec
      cases a with
      | error e => exact ⟨hs, fun b' hb' => nomatch hb'⟩
      | ok raw =>
          cases hpayload : codec.compress raw with
          | error e =>
              simp only [hpayload]
              exact ⟨hs, fun b' hb' => nomatch hb'⟩
          | ok payload =>
              simp only [hpayload]
              refine ⟨hs, ?_⟩
              intro b' hb'
              cases hb'
              refine ⟨⟨hb.attempts, ?_⟩, ?_⟩
              · intro p hp
                cases hp
                exact ⟨raw, hpayload, hslice raw rfl⟩
              · unfold stepsLeft
                simp only [hnone, if_true, reduceCtorEq, if_false]
                omega
  · next payload hpayload =>
      refine ⟨trivial, ?_⟩
      intro c t a hexec
      obtain ⟨hcarries, hsend⟩ := exec_block hexec
      have ht : S.Trusted data t := sendRequest_trusted
        (legit_blockJob hcodec hsize (hb.payload payload hpayload) hcarries) hs hsend
      cases a with
      | error e => exact ⟨ht, fun b' hb' => sound_retryBlock hb hpayload hb'⟩
      | ok resp =>
          refine ⟨ht, ?_⟩
          intro b' hb'
          by_cases hstatus : resp.status = 201
          · rw [if_pos hstatus] at hb'
            cases hb'
          · rw [if_neg hstatus] at hb'
            exact sound_retryBlock hb hpayload hb'

/-- A list of blocks with one replaced by what is left of it. -/
theorem stepsLeft_set {pending : List Block} {i : Nat} {b b' : Block} (hi : pending[i]? = some b)
    (hlt : stepsLeft cfg b' < stepsLeft cfg b) :
    ((pending.set i b').map (stepsLeft cfg)).sum < (pending.map (stepsLeft cfg)).sum := by
  induction pending generalizing i with
  | nil => cases hi
  | cons x rest ih =>
      cases i with
      | zero =>
          cases hi
          simp only [List.set_cons_zero, List.map_cons, List.sum_cons]
          omega
      | succ i =>
          have := ih hi
          simp only [List.set_cons_succ, List.map_cons, List.sum_cons]
          omega

theorem stepsLeft_eraseIdx {pending : List Block} {i : Nat} {b : Block}
    (hi : pending[i]? = some b) (hb : Sound data codec cfg b) :
    ((pending.eraseIdx i).map (stepsLeft cfg)).sum < (pending.map (stepsLeft cfg)).sum := by
  have hpos : 0 < stepsLeft cfg b := by
    have := hb.attempts
    unfold stepsLeft
    omega
  induction pending generalizing i with
  | nil => cases hi
  | cons x rest ih =>
      cases i with
      | zero =>
          cases hi
          simp only [List.eraseIdx_cons_zero, List.map_cons, List.sum_cons]
          omega
      | succ i =>
          have := ih hi
          simp only [List.eraseIdx_cons_succ, List.map_cons, List.sum_cons]
          omega

/-- The stream of blocks ends with none left, within its bound. -/
theorem wpU_sendBlocks {window left : Nat} {pending : List Block} {p : Progress}
    (hcodec : codec.Faithful) (hsize : file.size = data.length)
    (hpending : ∀ b ∈ pending, Sound data codec cfg b)
    (hleft : (pending.map (stepsLeft cfg)).sum ≤ left) (hs : S.Trusted data s) :
    WpU S file data codec (sendBlocks cfg codec window left pending p)
      (fun r t => r.1 = [] ∧ S.Trusted data t) s := by
  induction left generalizing pending p s with
  | zero =>
      cases pending with
      | nil => exact ⟨rfl, hs⟩
      | cons b rest =>
          have := (hpending b List.mem_cons_self).attempts
          simp only [List.map_cons, List.sum_cons, stepsLeft] at hleft
          omega
  | succ left ih =>
      unfold sendBlocks
      by_cases hnil : pending = []
      · rw [if_pos hnil]
        exact ⟨rfl, hs⟩
      rw [if_neg hnil]
      refine ⟨trivial, ?_⟩
      intro c t (i : Nat) hexec
      obtain ⟨rfl, hi⟩ := exec_nextBlock hexec
      obtain ⟨b, hb⟩ : ∃ b, pending[i]? = some b :=
        ⟨_, List.getElem?_eq_getElem (Nat.lt_of_lt_of_le hi (Nat.min_le_right _ _))⟩
      have hmem : b ∈ pending := List.mem_of_getElem? hb
      simp only [hb]
      apply SoloPrograms.wp_then (wpU_blockTurn hcodec hsize (hpending b hmem) hs)
      intro r u hr
      cases r with
      | inl b' =>
          obtain ⟨hb', hcost⟩ := hr.2 b' rfl
          apply ih _ _ hr.1
          · intro x hx
            rcases List.mem_or_eq_of_mem_set hx with hx | rfl
            · exact hpending x hx
            · exact hb'
          · have := stepsLeft_set hb hcost
            omega
      | inr r =>
          apply ih _ _ hr.1
          · exact fun x hx => hpending x (List.mem_of_mem_eraseIdx hx)
          · have := stepsLeft_eraseIdx hb (hpending b hmem)
            omega

/-! ### Rounds -/

variable (S data cfg) in
/-- What a round leaves: it has asked for the next one, or returned. -/
def Goes (st : UploadLoop) (r : UploadLoop ⊕ Except ClientError Nat) (t : Store) : Prop :=
  match r with
  | .inl st' => S.Trusted data t ∧ st'.rounds = st.rounds + 1 ∧ st'.rounds ≤ cfg.maxRetries
  | .inr r => ∀ sent, r = .ok sent → S.Published data t

theorem nextU32_of_lt {n : Nat} (h : n + 1 < 2 ^ 32) : nextU32 n = n + 1 := Nat.mod_eq_of_lt h

theorem wpU_commitHeld {st : UploadLoop} (hsize : file.size = data.length)
    (hs : S.Trusted data s) :
    WpU S file data codec (commitHeld cfg st) (Goes S data cfg st) s := by
  apply SoloPrograms.wp_then (wpU_commit hsize hs)
  intro r t hr
  cases r with
  | ok u => exact fun sent _ => hr.2 u rfl
  | error e =>
      by_cases hlast : cfg.maxRetries ≤ st.rounds
      · simp only [if_pos hlast]
        exact fun sent hsent => nomatch hsent
      · simp only [if_neg hlast]
        have hnext : nextU32 st.rounds = st.rounds + 1 := by
          have := cfg.bounded
          exact nextU32_of_lt (by omega)
        refine ⟨hr.1, hnext, ?_⟩
        show nextU32 st.rounds ≤ cfg.maxRetries
        omega

theorem wpU_lastProbe {st : UploadLoop} {size chunkSize : Nat} (hsize : file.size = data.length)
    (hs : S.Trusted data s) :
    WpU S file data codec (lastProbe cfg size chunkSize st)
      (fun r t => ∀ sent, r = .ok sent → S.Published data t) s := by
  apply SoloPrograms.wp_then (wpU_probeSession hsize hs)
  intro r t ht
  cases r with
  | error e => exact fun sent hsent => nomatch hsent
  | ok received =>
      by_cases hnone : alignedMissing size chunkSize received = []
      · simp only [if_pos hnone]
        apply SoloPrograms.wp_then (wpU_commit hsize ht)
        intro r u hr
        cases r with
        | ok v => exact fun sent _ => hr.2 v rfl
        | error e => exact fun sent hsent => nomatch hsent
      · simp only [if_neg hnone]
        exact fun sent hsent => nomatch hsent

/-- Where the counter does not wrap, it bounds the rounds. -/
theorem wpU_commitSent {st : UploadLoop} {size chunkSize : Nat} (hsize : file.size = data.length)
    (hroom : st.rounds + 1 < 2 ^ 32) (hs : S.Trusted data s) :
    WpU S file data codec (commitSent cfg size chunkSize st) (Goes S data cfg st) s := by
  apply SoloPrograms.wp_then (wpU_commit hsize hs)
  intro r t hr
  cases r with
  | ok u => exact fun sent _ => hr.2 u rfl
  | error e =>
      simp only [nextU32_of_lt hroom]
      by_cases hlast : cfg.maxRetries < st.rounds + 1
      · simp only [if_pos hlast]
        apply SoloPrograms.wp_then (wpU_lastProbe hsize hr.1)
        exact fun r u hr => hr
      · simp only [if_neg hlast]
        exact ⟨hr.1, rfl, Nat.le_of_not_lt hlast⟩

theorem wpU_sendMissing {st : UploadLoop} {size window chunkSize : Nat}
    {missing : List (Nat × Nat)} (hcodec : codec.Faithful) (hsize : file.size = data.length)
    (hroom : st.rounds + 1 < 2 ^ 32) (hs : S.Trusted data s) :
    WpU S file data codec (sendMissing cfg codec size window chunkSize missing st)
      (Goes S data cfg st) s := by
  apply SoloPrograms.wp_then (wpU_sendBlocks hcodec hsize _ _ hs)
  · intro r t hr
    exact wpU_commitSent hsize hroom hr.2
  · intro b hb
    obtain ⟨range, -, rfl⟩ := List.mem_map.1 hb
    exact ⟨Nat.zero_le _, fun p hp => nomatch hp⟩
  · -- every block starts with all its attempts, and the slice to be read
    have hsteps : (stepsLeft cfg ∘ Block.waiting) = fun _ => cfg.maxRetries + 2 := by
      funext range
      simp only [Function.comp, stepsLeft, Block.waiting, if_true]
      omega
    rw [List.map_map, hsteps, List.map_const', List.sum_replicate_nat]

theorem wpU_roundFrom {st : UploadLoop} (hcodec : codec.Faithful)
    (hsize : file.size = data.length) (hroom : cfg.maxRetries + 1 < 2 ^ 32 ∨ data = [])
    (hcount : st.rounds ≤ cfg.maxRetries) (hs : S.Trusted data s) :
    WpU S file data codec (roundFrom cfg codec data.length st) (Goes S data cfg st) s := by
  refine ⟨trivial, ?_⟩
  intro c t (params : Nat × Nat) hexec
  obtain rfl := exec_liveParams hexec
  obtain ⟨window, chunkSize⟩ := params
  by_cases hnone : alignedMissing data.length (max chunkSize 1) st.received = []
  · simp only [if_pos hnone]
    exact wpU_commitHeld hsize hs
  · simp only [if_neg hnone]
    apply wpU_sendMissing hcodec hsize _ hs
    rcases hroom with hroom | rfl
    · omega
    · exact absurd (alignedMissing_empty _ _) hnone

/-- **Step lemma.**  A round is counted, and keeps the session trusted. -/
theorem wpU_uploadRound {st : UploadLoop} (hcodec : codec.Faithful)
    (hsize : file.size = data.length) (hroom : cfg.maxRetries + 1 < 2 ^ 32 ∨ data = [])
    (hcount : st.rounds ≤ cfg.maxRetries) (hs : S.Trusted data s) :
    WpU S file data codec (uploadRound cfg codec data.length st) (Goes S data cfg st) s := by
  unfold uploadRound
  by_cases hfirst : 0 < st.rounds
  · rw [if_pos hfirst]
    apply SoloPrograms.wp_then (wpU_probeSession hsize hs)
    intro r t ht
    cases r with
    | error e => exact fun sent hsent => nomatch hsent
    | ok received =>
        have hround : WpU S file data codec
            (roundFrom cfg codec data.length { st with received := received })
            (Goes S data cfg { st with received := received }) t :=
          wpU_roundFrom hcodec hsize hroom hcount ht
        exact hround
  · rw [if_neg hfirst]
    exact wpU_roundFrom hcodec hsize hroom hcount hs

/-- The loop, from a state in which some rounds have been counted. -/
theorem wpU_rounds {st : UploadLoop} {n : Nat} (hcodec : codec.Faithful)
    (hsize : file.size = data.length) (hroom : cfg.maxRetries + 1 < 2 ^ 32 ∨ data = [])
    (hcount : st.rounds ≤ cfg.maxRetries) (hn : cfg.maxRetries < st.rounds + n)
    (hs : S.Trusted data s) :
    WpU S file data codec (rounds (uploadRound cfg codec data.length) n st)
      (fun result t => ∃ r, result = some r ∧ ∀ sent, r = .ok sent → S.Published data t) s := by
  induction n generalizing st s with
  | zero => omega
  | succ n ih =>
      apply SoloPrograms.wp_then (wpU_uploadRound hcodec hsize hroom hcount hs)
      intro r t hr
      cases r with
      | inl st' =>
          obtain ⟨ht, hnext, hle⟩ := hr
          exact ih hle (by omega) ht
      | inr r => exact ⟨r, rfl, hr⟩

/-- **Run lemma.**  The upload ends in time, with Ok only if the file is published. -/
theorem wpU_uploadSession (hcodec : codec.Faithful) (hsize : file.size = data.length)
    (hroom : cfg.maxRetries + 1 < 2 ^ 32 ∨ data = []) (hs : S.Trusted data s) :
    WpU S file data codec
      (NativeClient.uploadSession cfg codec data.length (cfg.maxRetries + 1))
      (fun result t => ∃ r, result = some r ∧ ∀ sent, r = .ok sent → S.Published data t) s := by
  apply SoloPrograms.wp_then (wpU_probeSession hsize hs)
  intro r t ht
  cases r with
  | error e => exact ⟨.error e, rfl, fun sent hsent => nomatch hsent⟩
  | ok received =>
      apply wpU_rounds hcodec hsize hroom (Nat.zero_le _) _ ht
      omega

end Code

end Libfw

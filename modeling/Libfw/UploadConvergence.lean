import Libfw.UploadRounds

/-!
# Session uploads end, and end with the whole file

One upload from a session whose temporary holds the file as far as it reports
(`SoundTemp`), under any faults.

* `uploads_whole_iff` — every run ends within `max_retries + 1` rounds, and one that
  returns Ok has left the file's bytes under the target's name, exactly if
  `max_retries` is below `u32::MAX` or the file is empty.
* `round_counter_wraps` — at `u32::MAX` the counter of a round that has sent blocks
  wraps before it is compared, and the loop goes on: the run in which every block and
  every commit is lost (`reach_uploadSession`).
-/

namespace Libfw

open SteppedPrograms SoloPrograms PlayedPrograms PosixStore HalfOpenRanges NativeClient

/-! ## What the server may hold before -/

/-- The largest end of the ranges, 0 if there are none. -/
def largestEnd (ranges : List ChunkRange) : Nat := (ranges.map Span.stop).foldr max 0

/-- A temporary of the session holds bytes of the file at the ranges it reports, which
are as merging leaves them, and is as long as the largest of their ends. -/
def Session.SoundTemp (S : Session) (data : List UInt8) (s : Store) : Prop :=
  ∀ f, s.disk.entry S.tmp = .file f → ∃ cs, s.content f = .bytes cs ∧
    ∀ ranges, S.SidecarSays s ranges → Separated ranges ∧
      (∀ k, Covers ranges k → ∃ b, data[k]? = some b ∧ cs[k]? = some (some b)) ∧
      cs.length = largestEnd ranges

theorem Session.SoundTemp.trusted {S : Session} {data : List UInt8} {s : Store}
    (h : S.SoundTemp data s) : S.Trusted data s := by
  intro f hf
  obtain ⟨cs, hc, hsound⟩ := h f hf
  refine ⟨cs, hc, ?_⟩
  intro ranges hr
  obtain ⟨hsep, hright, hlen⟩ := hsound ranges hr
  refine ⟨hsep, hright, ?_⟩
  intro hnil hsize
  rw [hnil] at hlen
  have hzero : cs.length = 0 := hlen
  rw [List.eq_nil_of_length_eq_zero hzero, List.eq_nil_of_length_eq_zero (hsize.symm.trans hzero)]
  rfl

/-- Every upload of `data` to any server, from any sound session and under any faults,
ends within `max_retries + 1` rounds and a last probe and commit; and if it returns Ok
the target holds exactly `data`. -/
def UploadsWhole {δ : Type} (cfg : UploadConfig) (codec : BlockCodec δ) (data : List UInt8) :
    Prop :=
  ∀ (S : Session) (file : FileMeta) (s t : Store) (choices : List UploadChoice)
    (result : Option (Except ClientError Nat)),
    file.size = data.length → S.SoundTemp data s →
    runBy (UploadOp.exec S file data codec)
      (NativeClient.uploadSession cfg codec data.length (cfg.maxRetries + 1)) s choices =
        some (t, some result) →
    ∃ r, result = some r ∧ ∀ sent, r = .ok sent → S.Published data t

theorem uploadsWhole_of_room {δ : Type} {cfg : UploadConfig} {codec : BlockCodec δ}
    {data : List UInt8} (hcodec : codec.Faithful)
    (hroom : cfg.maxRetries + 1 < 2 ^ 32 ∨ data = []) : UploadsWhole cfg codec data := by
  intro S file s t choices result hsize hs hrun
  exact (runBy_of_wp (wpU_uploadSession hcodec hsize hroom hs.trusted) hrun).1 result rfl

/-! ## A counter that wraps -/

namespace Session

variable {S : Session} {s t : Store} {h : Held}

variable (S) in
/-- The session may have a temporary but has no sidecar, and nobody holds its lock. -/
structure Idle (s : Store) : Prop where
  dirs : ∀ parent, S.target.parent = some parent →
    ∀ q ∈ ancestors parent, (s.disk.entry q).isFile = false
  temp : s.disk.entry S.tmp ≠ .dir
  blocks : s.disk.entry S.blocks = .absent
  free : s.holder S.tmp = none

theorem Idle.prepared (hs : S.Idle s) : S.Idle (prepared S.target s) := by
  refine ⟨?_, ?_, ?_, ?_⟩
  · intro parent hparent q hq
    have hentry : (Libfw.prepared S.target s).disk.entry q =
        (s.mkdirs (ancestors parent)).disk.entry q := by
      unfold Libfw.prepared
      rw [hparent]
    cases hfile : (s.mkdirs (ancestors parent)).disk.entry q with
    | file i =>
        have hnot := hs.dirs parent hparent q hq
        rw [(Disk.mkdirs_entry_file _).1 hfile] at hnot
        cases hnot
    | dir | absent =>
        rw [hentry, hfile]
        rfl
  · rw [prepared_entry S.length_le_tmp]
    exact hs.temp
  · rw [prepared_entry S.length_le_blocks]
    exact hs.blocks
  · unfold Libfw.prepared
    split
    · exact hs.free
    · exact hs.free

theorem finishes_openSessionTemp (hs : S.Idle s) :
    ∃ t f, Finishes S.srv (FsStorage.openSessionTemp S.target S.tmp S.path .overwrite
      (s.disk.entry S.tmp ≠ .absent)) h s (.ok f) h t ∧ S.Idle t := by
  unfold FsStorage.openSessionTemp
  cases htemp : s.disk.entry S.tmp with
  | dir => exact absurd htemp hs.temp
  | file f =>
      have hexec : (Op.openExisting S.tmp).exec S.srv.serde 0 .go s = some (s, .ok f) := by
        simp only [Op.exec, htemp]
      exact ⟨s, f, finishes_await_then hexec finishes_ret, hs⟩
  | absent =>
      have hexec : (Op.createNew S.tmp).exec S.srv.serde 0 .go s =
          some (s.create S.tmp (.bytes []), .ok s.disk.next) := by
        simp only [Op.exec, htemp]
      refine ⟨_, s.disk.next, finishes_seq finishes_ret (finishes_await_then hexec finishes_ret), ?_⟩
      have hkeep : ∀ q, q ≠ S.tmp →
          (s.create S.tmp (.bytes [])).disk.entry q = s.disk.entry q := fun q hq =>
        Disk.create_entry_ne _ _ hq
      refine ⟨?_, ?_, ?_, hs.free⟩
      · intro parent hparent q hq
        rw [hkeep q fun heq => not_mem_ancestors hparent (heq ▸ S.length_le_tmp) hq]
        exact hs.dirs parent hparent q hq
      · have hself : (s.create S.tmp (.bytes [])).disk.entry S.tmp = .file s.disk.next :=
          Disk.create_entry_self _ _
        rw [hself]
        intro h
        cases h
      · rw [hkeep _ S.names.blocks_ne_tmp]
        exact hs.blocks

/-- An idle session is opened with nothing received. -/
theorem finishes_writeStreamSession (hresolve : resolve S.srv.root S.path = .ok S.target)
    (hs : S.Idle s) :
    ∃ t sink h', Finishes S.srv (FsStorage.writeStreamSession S.srv.serde S.srv.root S.path S.id
      S.owner .overwrite) h s (.ok sink) h' t ∧ h'.ranges = [] ∧ S.Idle (t.release 0) := by
  have hprepare := finishes_prepare hresolve hs.dirs (h := h)
  have hu := hs.prepared
  generalize Libfw.prepared S.target s = u at hprepare hu
  obtain ⟨v, f, hopen, hv⟩ := finishes_openSessionTemp hu (h := h)
  have hlock : (Op.lock S.tmp).exec S.srv.serde 0 .go v = some (v.acquire S.tmp 0, ()) :=
    if_pos hv.free
  have hidle : S.Idle ((v.acquire S.tmp 0).release 0) := by
    refine ⟨hv.dirs, hv.temp, hv.blocks, ?_⟩
    have hheld : (v.acquire S.tmp 0).holder S.tmp = some 0 := if_pos rfl
    unfold Store.release
    simp only [hheld, if_true]
  have hlook : (Op.tryExists S.tmp).exec S.srv.serde 0 .go u =
      some (u, .ok (decide (u.disk.entry S.tmp ≠ .absent))) := rfl
  have hhold : Finishes S.srv (FsStorage.holdFile f) h v (.ok ()) { h with file := some f } v :=
    canEnd_done
  have hsink : Finishes S.srv (FsStorage.openSink (S.sink f .overwrite) 0 [])
      { h with file := some f } (v.acquire S.tmp 0) (.ok (S.sink f .overwrite))
      ⟨some f, true, 0, []⟩ (v.acquire S.tmp 0) := canEnd_done
  unfold FsStorage.writeStreamSession
  by_cases hexists : u.disk.entry S.tmp ≠ .absent
  · have hread : (Op.readToString S.blocks).exec S.srv.serde 0 .go (v.acquire S.tmp 0) =
        some (v.acquire S.tmp 0, .error .noEntry) := by
      have hb : (v.acquire S.tmp 0).disk.entry S.blocks = .absent := hv.blocks
      simp only [Op.exec, hb]
    refine ⟨v.acquire S.tmp 0, S.sink f .overwrite,
      ⟨some f, true, 0, []⟩, ?_, rfl, hidle⟩
    apply finishes_seq hprepare
    apply finishes_await_then hlook
    apply finishes_seq finishes_ret
    apply finishes_seq hopen
    apply finishes_seq hhold
    apply finishes_await_then hlock
    dsimp only
    rw [if_pos (decide_eq_true hexists)]
    have hranges : Finishes S.srv (FsStorage.readRanges S.srv.serde S.blocks)
        { h with file := some f } (v.acquire S.tmp 0) (.ok []) { h with file := some f }
        (v.acquire S.tmp 0) := finishes_await_then hread finishes_ret
    apply finishes_seq hranges
    exact hsink
  · have hremove : (Op.removeFile S.blocks).exec S.srv.serde 0 .go (v.acquire S.tmp 0) =
        some (v.acquire S.tmp 0, .error .noEntry) := by
      have hb : (v.acquire S.tmp 0).disk.entry S.blocks = .absent := hv.blocks
      simp only [Op.exec, hb]
    refine ⟨v.acquire S.tmp 0, S.sink f .overwrite,
      ⟨some f, true, 0, []⟩, ?_, rfl, hidle⟩
    apply finishes_seq hprepare
    apply finishes_await_then hlook
    apply finishes_seq finishes_ret
    apply finishes_seq hopen
    apply finishes_seq hhold
    apply finishes_await_then hlock
    dsimp only
    rw [if_neg fun hold => hexists (of_decide_eq_true hold)]
    have hremoved : Finishes S.srv (FsStorage.removeBlocksSidecar (some S.blocks))
        { h with file := some f } (v.acquire S.tmp 0) (.ok ()) { h with file := some f }
        (v.acquire S.tmp 0) := finishes_await_then hremove finishes_ret
    apply finishes_seq hremoved
    exact finishes_seq finishes_ret hsink

/-- **A probe of an idle session finds nothing**, and leaves it idle. -/
theorem probe_served (file : FileMeta) (hresolve : resolve S.srv.root S.path = .ok S.target)
    (hs : S.Idle s) :
    ∃ calls t, serveAlone S.srv (S.probeJob file) calls s = some (t, .ok (.status [])) ∧
      S.Idle t := by
  obtain ⟨t, sink, h', hopen, hranges, ht⟩ :=
    finishes_writeStreamSession hresolve hs (h := Held.nothing)
  have hstatus : Finishes S.srv (serveSession S.srv (S.probeJob file) ⟨S.id, S.owner, true⟩ 0 sink)
      h' t (.ok (.status [])) h' t := by
    have hreceived : Finishes S.srv FsSink.receivedRanges h' t (.ok []) h' t :=
      hranges ▸ canEnd_done
    exact finishes_orElse_then hreceived finishes_ret
  have hserve : Finishes S.srv (uploadSession S.srv (S.probeJob file) ⟨S.id, S.owner, true⟩)
      Held.nothing s (.ok (.status [])) h' t := by
    have hzero : baseOffset (some "0".toList) = .ok 0 := by decide
    have hbase : baseOffset (S.probeJob file).offsetHdr = .ok 0 := hzero
    have hmode : createMode (S.probeJob file).offsetHdr = .overwrite := rfl
    unfold uploadSession
    rw [hbase, hmode]
    exact finishes_seq finishes_ret (finishes_orElse_then hopen hstatus)
  obtain ⟨calls, hrun⟩ := hserve
  refine ⟨calls, t.release 0, ?_, ht⟩
  have hrun' : runBy (atomicExec S.srv) (runUpload S.srv (S.probeJob file) Held.nothing) s calls =
      some (t, some (.ok (.status []), h')) := hrun
  unfold serveAlone
  rw [hrun']

end Session

section Wraps

variable {δ : Type} {S : Session} {file : FileMeta} {data : List UInt8} {codec : BlockCodec δ}
  {cfg : UploadConfig} {s t : Store} {ρ : Type}

variable (S file data codec) in
/-- A program of an upload that can end so. -/
abbrev CanReach (p : UploadProg ρ) (s : Store) (r : ρ) (t : Store) : Prop :=
  CanEnd (UploadOp.exec S file data codec) p s r t

theorem reach_probeSession (hresolve : resolve S.srv.root S.path = .ok S.target)
    (hs : S.Idle s) :
    ∃ t, CanReach S file data codec probeSession s (.ok []) t ∧ S.Idle t := by
  obtain ⟨calls, t, hserve, ht⟩ := Session.probe_served file hresolve hs
  have hexec : UploadOp.exec S file data codec .probe (.served [] calls none) s =
      some (t, .ok ⟨200, []⟩) := by
    have hsend : sendRequest S (S.probeJob file) (.served [] calls none) s =
        some (t, .ok ⟨200, []⟩) := by
      unfold sendRequest
      simp only [hserve]
      rfl
    exact hsend
  exact ⟨t, canEnd_call hexec canEnd_done, ht⟩

/-- A commit that is lost. -/
theorem reach_commit : CanReach S file data codec commit s (.error (.network [])) s := by
  have hexec : UploadOp.exec S file data codec .commit (.lost []) s =
      some (s, .error (.network [])) := rfl
  exact canEnd_call hexec canEnd_done

/-- A block all of whose attempts are lost. -/
theorem reach_sendBlocks {window left : Nat} {b : Block} {payload : List UInt8} {p : Progress}
    (hwindow : 0 < window) (hpayload : b.payload = some payload) :
    ∃ p' pending, CanReach S file data codec (sendBlocks cfg codec window left [b] p) s
      (pending, p') s := by
  induction left generalizing b p with
  | zero => exact ⟨p, [b], canEnd_done⟩
  | succ left ih =>
      have hpick : UploadOp.exec S file data codec (.nextBlock (min window [b].length)) (.pick 0) s =
          some (s, (0 : Nat)) := if_pos (Nat.lt_min.2 ⟨hwindow, Nat.one_pos⟩)
      have hlost : UploadOp.exec S file data codec (.block b.start payload) (.lost []) s =
          some (s, .error (.network [])) := rfl
      have hturn : CanReach S file data codec (blockTurn cfg codec b) s
          (retryBlock cfg b (.network [])) s := by
        unfold blockTurn
        simp only [hpayload]
        exact canEnd_call hlost canEnd_done
      cases hretry : retryBlock cfg b (.network []) with
      | inl b' =>
          have hpayload' : b'.payload = some payload := by
            unfold retryBlock at hretry
            split at hretry
            · cases hretry
            · cases hretry
              exact hpayload
          obtain ⟨p', pending, hrest⟩ := ih hpayload' (p := p)
          rw [hretry] at hturn
          exact ⟨p', pending, canEnd_call hpick (canEnd_bind hturn hrest)⟩
      | inr r =>
          rw [hretry] at hturn
          have hnone : CanReach S file data codec (sendBlocks cfg codec window left [] (p.account r))
              s ([], p.account r) s := by
            cases left with
            | zero => exact canEnd_done
            | succ left => exact canEnd_done
          exact ⟨p.account r, [], canEnd_call hpick (canEnd_bind hturn hnone)⟩

/-- The blocks of a round, none of which arrives. -/
theorem reach_sendBlocks_waiting {window left : Nat} {range : Nat × Nat} {p : Progress}
    (hwindow : 0 < window) :
    ∃ p' pending, CanReach S file data codec
      (sendBlocks cfg codec window left [Block.waiting range] p) s (pending, p') s := by
  cases left with
  | zero => exact ⟨p, _, canEnd_done⟩
  | succ left =>
      have hpick : UploadOp.exec S file data codec
          (.nextBlock (min window [Block.waiting range].length)) (.pick 0) s =
          some (s, (0 : Nat)) := if_pos (Nat.lt_min.2 ⟨hwindow, Nat.one_pos⟩)
      have hread : UploadOp.exec S file data codec (.readSlice range.1 range.2) .go s =
          some (s, readLocal data range.1 range.2) := rfl
      have hstop : ∀ e, CanReach S file data codec (blockTurn cfg codec (Block.waiting range)) s
          (.inr (.error e)) s → ∃ p' pending, CanReach S file data codec
            (sendBlocks cfg codec window (left + 1) [Block.waiting range] p) s (pending, p') s := by
        intro e hturn
        refine ⟨p.account (.error e), [], canEnd_call hpick (canEnd_bind hturn ?_)⟩
        cases left with
        | zero => exact canEnd_done
        | succ left => exact canEnd_done
      cases hraw : readLocal data range.1 range.2 with
      | error e =>
          rw [hraw] at hread
          exact hstop e (canEnd_call hread canEnd_done)
      | ok raw =>
          rw [hraw] at hread
          cases hcompress : codec.compress raw with
          | error e =>
              apply hstop e
              apply canEnd_call hread
              simp only [hcompress]
              exact canEnd_done
          | ok payload =>
              have hturn : CanReach S file data codec (blockTurn cfg codec (Block.waiting range)) s
                  (.inl { Block.waiting range with payload := some payload }) s := by
                apply canEnd_call hread
                simp only [hcompress]
                exact canEnd_done
              obtain ⟨p', pending, hrest⟩ : ∃ p' pending, CanReach S file data codec
                  (sendBlocks cfg codec window left
                    [{ Block.waiting range with payload := some payload }] p) s (pending, p') s :=
                reach_sendBlocks hwindow rfl
              exact ⟨p', pending, canEnd_call hpick (canEnd_bind hturn hrest)⟩

/-- The end of a round whose commit is lost, where the counter is back at 0 before it is
compared. -/
theorem reach_commitSent {st : UploadLoop} {size chunkSize : Nat}
    (hmax : cfg.maxRetries + 1 = 2 ^ 32) :
    CanReach S file data codec (commitSent cfg size chunkSize st) s
      (.inl { st with
        rounds := nextU32 st.rounds
        firstError := noteError st.firstError (.network []) }) s := by
  have hsmall : ¬ cfg.maxRetries < nextU32 st.rounds := by
    have : nextU32 st.rounds < 2 ^ 32 := Nat.mod_lt _ (Nat.two_pow_pos 32)
    omega
  apply canEnd_bind reach_commit
  simp only [if_neg hsmall]
  exact canEnd_done

/-- With nothing received, a round sends the file as one block, in vain. -/
theorem reach_roundFrom {st : UploadLoop} (hdata : data ≠ [])
    (hmax : cfg.maxRetries + 1 = 2 ^ 32) (hnone : st.received = []) :
    ∃ st', CanReach S file data codec (roundFrom cfg codec data.length st) s (.inl st') s ∧
      st'.received = [] := by
  have hpos : 0 < data.length := List.length_pos_of_ne_nil hdata
  have htuned : UploadOp.exec S file data codec .liveParams (.tuned 1 data.length) s =
      some (s, (1, data.length)) := rfl
  have hmissing : alignedMissing data.length (max data.length 1) st.received =
      [(0, data.length)] := by
    rw [hnone, Nat.max_eq_left hpos]
    exact alignedMissing_whole hpos
  obtain ⟨p, pending, hsend⟩ : ∃ p pending, CanReach S file data codec
      (sendBlocks cfg codec (max 1 1) (1 * (cfg.maxRetries + 2)) [Block.waiting (0, data.length)]
        ⟨st.sent, st.firstError⟩) s (pending, p) s := reach_sendBlocks_waiting Nat.one_pos
  obtain ⟨st', hround, hnone'⟩ : ∃ st', CanReach S file data codec
      (sendMissing cfg codec data.length (max 1 1) (max data.length 1) [(0, data.length)] st) s
      (.inl st') s ∧ st'.received = [] :=
    ⟨_, canEnd_bind hsend (reach_commitSent hmax), hnone⟩
  refine ⟨st', canEnd_call htuned ?_, hnone'⟩
  simp only [hmissing, reduceCtorEq, if_false]
  exact hround

/-- **A round that goes on**: its blocks and its commit are lost, and the counter, at
`u32::MAX`, is back at 0 before it is compared. -/
theorem reach_uploadRound {st : UploadLoop} (hresolve : resolve S.srv.root S.path = .ok S.target)
    (hdata : data ≠ []) (hmax : cfg.maxRetries + 1 = 2 ^ 32) (hnone : st.received = [])
    (hs : S.Idle s) :
    ∃ st' t, CanReach S file data codec (uploadRound cfg codec data.length st) s (.inl st') t ∧
      st'.received = [] ∧ S.Idle t := by
  unfold uploadRound
  by_cases hfirst : 0 < st.rounds
  · rw [if_pos hfirst]
    obtain ⟨t, hprobe, ht⟩ : ∃ t, CanReach S file data codec probeSession s (.ok []) t ∧
      S.Idle t := reach_probeSession hresolve hs
    obtain ⟨st', hround, hnone'⟩ : ∃ st', CanReach S file data codec
        (roundFrom cfg codec data.length { st with received := [] }) t (.inl st') t ∧
        st'.received = [] := reach_roundFrom hdata hmax rfl
    exact ⟨st', t, canEnd_bind hprobe hround, hnone', ht⟩
  · rw [if_neg hfirst]
    obtain ⟨st', hround, hnone'⟩ : ∃ st', CanReach S file data codec
        (roundFrom cfg codec data.length st) s (.inl st') s ∧ st'.received = [] :=
      reach_roundFrom hdata hmax hnone
    exact ⟨st', s, hround, hnone', hs⟩

/-- However many rounds there have been, the loop goes on. -/
theorem reach_rounds {st : UploadLoop} {n : Nat}
    (hresolve : resolve S.srv.root S.path = .ok S.target) (hdata : data ≠ [])
    (hmax : cfg.maxRetries + 1 = 2 ^ 32) (hnone : st.received = []) (hs : S.Idle s) :
    ∃ t, CanReach S file data codec (rounds (uploadRound cfg codec data.length) n st) s none t := by
  induction n generalizing st s with
  | zero => exact ⟨s, canEnd_done⟩
  | succ n ih =>
      obtain ⟨st', t, hround, hnone', ht⟩ : ∃ st' t, CanReach S file data codec
          (uploadRound cfg codec data.length st) s (.inl st') t ∧ st'.received = [] ∧
          S.Idle t := reach_uploadRound hresolve hdata hmax hnone hs
      obtain ⟨u, hrest⟩ := ih hnone' ht
      exact ⟨u, canEnd_bind hround hrest⟩

/-- At `u32::MAX` an upload of a file that is not empty need not end, after any number of
rounds. -/
theorem reach_uploadSession {n : Nat} (hresolve : resolve S.srv.root S.path = .ok S.target)
    (hdata : data ≠ []) (hmax : cfg.maxRetries + 1 = 2 ^ 32) (hs : S.Idle s) :
    ∃ t, CanReach S file data codec (NativeClient.uploadSession cfg codec data.length n) s
      none t := by
  obtain ⟨t, hprobe, ht⟩ : ∃ t, CanReach S file data codec probeSession s (.ok []) t ∧
    S.Idle t := reach_probeSession hresolve hs
  obtain ⟨u, hrest⟩ : ∃ u, CanReach S file data codec
      (rounds (uploadRound cfg codec data.length) n ⟨0, 0, none, []⟩) t none u :=
    reach_rounds hresolve hdata hmax rfl ht
  exact ⟨u, canEnd_bind hprobe hrest⟩

end Wraps

theorem sampleSession_idle : sampleSession.Idle sampleStore := by
  obtain ⟨htmp, hblocks, -, hfree⟩ := sampleSession_fresh
  refine ⟨?_, ?_, hblocks, hfree⟩
  · intro parent hparent q hq
    have hname : sampleSession.target.parent = some sampleServer.root := by decide +kernel
    cases hname.symm.trans hparent
    have hdirs : ∀ q ∈ ancestors sampleServer.root, (sampleStore.disk.entry q).isFile = false := by
      decide +kernel
    exact hdirs q hq
  · rw [htmp]
    exact fun h => nomatch h

theorem sampleSession_resolves :
    resolve sampleSession.srv.root sampleSession.path = .ok sampleSession.target := by
  decide +kernel

/-- The counter wraps: the loop has not ended after `max_retries + 1` rounds. -/
theorem not_uploadsWhole_of_wrap {δ : Type} {cfg : UploadConfig} {codec : BlockCodec δ}
    {data : List UInt8} (hdata : data ≠ []) (hmax : cfg.maxRetries + 1 = 2 ^ 32) :
    ¬ UploadsWhole cfg codec data := by
  intro hall
  let file : FileMeta := ⟨sampleSession.path, data.length, 0, []⟩
  obtain ⟨t, choices, hrun⟩ : ∃ t, CanReach sampleSession file data codec
      (NativeClient.uploadSession cfg codec data.length (cfg.maxRetries + 1)) sampleStore none t :=
    reach_uploadSession sampleSession_resolves hdata hmax sampleSession_idle
  have hsound : sampleSession.SoundTemp data sampleStore := by
    intro f hf
    cases sampleSession_fresh.no_tmp.symm.trans hf
  obtain ⟨r, hr, -⟩ := hall sampleSession file sampleStore t choices none rfl hsound hrun
  cases hr

/-- **Session uploads end in time, and with Ok only if the whole file is published**,
exactly where the round counter cannot wrap. -/
theorem uploads_whole_iff {δ : Type} (cfg : UploadConfig) (codec : BlockCodec δ)
    (data : List UInt8) (hcodec : codec.Faithful) :
    UploadsWhole cfg codec data ↔ cfg.maxRetries + 1 < 2 ^ 32 ∨ data = [] := by
  constructor
  · intro hall
    by_contra hwrap
    obtain ⟨hlarge, hdata⟩ := not_or.1 hwrap
    have hmax : cfg.maxRetries + 1 = 2 ^ 32 := by
      have := cfg.bounded
      omega
    exact not_uploadsWhole_of_wrap hdata hmax hall
  · exact uploadsWhole_of_room hcodec

/-- A file of three bytes, at the default of three retries. -/
theorem small_upload_whole : UploadsWhole ⟨"f".toList, 3, by decide⟩ BlockCodec.plain [1, 2, 3] :=
  (uploads_whole_iff ⟨"f".toList, 3, by decide⟩ BlockCodec.plain [1, 2, 3] plain_faithful).2
    (Or.inl (by decide))

/-- At `u32::MAX` retries an upload of one byte need not end in time. -/
theorem round_counter_wraps :
    ¬ UploadsWhole ⟨"f".toList, 2 ^ 32 - 1, by decide⟩ BlockCodec.plain [7] :=
  not_uploadsWhole_of_wrap (by decide) (by decide)

end Libfw

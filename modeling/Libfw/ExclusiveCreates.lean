import Libfw.CreateRaces

/-!
# At most one Create upload wins

Create mode is to fail where the target exists.  The upload looks twice: when its sink is
opened, and between the end of the body and the rename.

* `undisturbed_creates_exclusive` — while no file is moved onto the target by one upload
  when another one, in Create mode, has taken its last look, a Create upload that is
  answered 201 has published its own content where nothing was, and it is the only one.
* `racing_creates_both_commit` — two Create uploads that both take their last look before
  either moves its file are both answered 201, and the second replaces the first.
-/

namespace Libfw

open SteppedPrograms Fs FsStorage PosixStore GuardedRuns

/-- A step of a run. -/
abbrev UploadStep := Taken UploadState UploadAct

/-- The task is about to move a file onto the target. -/
def AtMove (target : FsPath) (s : UploadState) (i : Nat) : Prop :=
  ∃ job source held k, s.task i = .waiting job (.rename source target, held) k

/-- The task is a Create upload that has taken its last look at the target, and is about to
move its file there. -/
def CreateAtMove (target : FsPath) (s : UploadState) (i : Nat) : Prop :=
  ∃ job source held k, s.task i = .waiting job (.rename source target, held) k ∧ job.Creates

/-- The uploads of the run are to one target, and nothing else writes there. -/
def ToTarget (srv : Server) (target : FsPath) : UploadAct → Prop
  | .start _ job => resolve srv.root job.path = .ok target
  | .env (.place _ _) => False
  | _ => True

/-- No upload moves a file onto the target while another one, in Create mode, is between its
last look and its move. -/
def Undisturbed (target : FsPath) (s : UploadState) (a : UploadAct) : Prop :=
  ∀ j, a = .step j .go → AtMove target s j → ∀ i, i ≠ j → ¬ CreateAtMove target s i

/-- In the step, a Create upload moves the file it has open onto the target; the file holds
the bytes of the body, and nothing was there. -/
structure CreatePublishes (target : FsPath) (i : Nat) (job : UploadJob) (source : FsPath)
    (held : Held) (f : Nat) (step : UploadStep) : Prop where
  acts : ∃ c, step.action = .step i c
  waits : ∃ k, step.before.task i = .waiting job (.rename source target, held) k
  temp : step.before.shared.disk.entry source = .file f
  opened : held.file = some f
  absent : step.before.shared.disk.entry target = .absent
  there : step.after.shared.disk.entry target = .file f
  content : step.after.shared.content f = .bytes (job.body.bytes.map some)

/-- Create is exclusive in the run. -/
structure CreateExclusive (target : FsPath) (history : List UploadStep) (s : UploadState) :
    Prop where
  published : ∀ i job file held, job.Creates →
    s.task i = .finished job (.ok (.created file), held) →
      ∃ step ∈ history, ∃ source held f, CreatePublishes target i job source held f step
  keeps : ∀ step ∈ history, ∀ i c job, step.action = .step i c →
    (step.before.task i).request = some job → job.Creates →
      step.before.shared.disk.entry target ≠ .absent →
        step.after.shared.disk.entry target = step.before.shared.disk.entry target
  once : ∀ i j job job' file file' held held', job.Creates → job'.Creates →
    s.task i = .finished job (.ok (.created file), held) →
      s.task j = .finished job' (.ok (.created file'), held') → i = j

/-! ## The invariant -/

/-- Task `i` is a Create upload that has moved its file. -/
def HasMoved (stage : Nat → Stage) (s : UploadState) (i : Nat) (job : UploadJob) : Prop :=
  (s.task i).request = some job ∧ job.Creates ∧ (stage i).moved = true

/-- A Create upload about to move its file is right that nothing is there; one that has moved
it has published it, and is the only one. -/
structure Racing (target : FsPath) (stage : Nat → Stage) (history : List UploadStep)
    (s : UploadState) : Prop where
  clear : ∀ i, CreateAtMove target s i → s.shared.disk.entry target = .absent
  moved : ∀ i job, HasMoved stage s i job →
    (∃ step ∈ history, ∃ source held f, CreatePublishes target i job source held f step) ∧
      s.shared.disk.entry target ≠ .absent
  once : ∀ i j job job', HasMoved stage s i job → HasMoved stage s j job' → i = j
  keeps : ∀ step ∈ history, ∀ i c job, step.action = .step i c →
    (step.before.task i).request = some job → job.Creates →
      step.before.shared.disk.entry target ≠ .absent →
        step.after.shared.disk.entry target = step.before.shared.disk.entry target

section Racing

variable {srv : Server} {target : FsPath} {stage : Nat → Stage} {history : List UploadStep}
  {s : UploadState} {sh : Store} {j : Nat} {job : UploadJob}
  {p : Code (Except ApiError Reply × Held)} {g : Stage} {act : UploadAct}

theorem request_put_self : (((uploadSystem srv).put s sh j job p).task j).request = some job :=
  System.put_request_self _ _ _ _ _

/-- Task `j` is at a stage. -/
theorem racing_put (hs : Racing target stage history s)
    (hkept : s.shared.disk.entry target ≠ .absent → sh.disk.entry target ≠ .absent)
    (hclear : ∀ i, i ≠ j → CreateAtMove target s i → sh.disk.entry target = .absent)
    (hown : ∀ source held k, p = .call (.rename source target, held) k → job.Creates →
      sh.disk.entry target = .absent)
    (hmoved : job.Creates → g.moved = true → HasMoved stage s j job ∨
      (s.shared.disk.entry target = .absent ∧ sh.disk.entry target ≠ .absent ∧
        ∃ source held f, CreatePublishes target j job source held f
          ⟨s, act, (uploadSystem srv).put s sh j job p⟩))
    (hstep : ∀ i c job', act = .step i c → (s.task i).request = some job' → job'.Creates →
      s.shared.disk.entry target ≠ .absent →
        sh.disk.entry target = s.shared.disk.entry target) :
    Racing target (Function.update stage j g)
      (⟨s, act, (uploadSystem srv).put s sh j job p⟩ :: history)
      ((uploadSystem srv).put s sh j job p) := by
  -- who has moved now had moved before, or is task `j`, which has done so in this step
  have hcases : ∀ {i job'}, HasMoved (Function.update stage j g)
      ((uploadSystem srv).put s sh j job p) i job' →
      HasMoved stage s i job' ∨ (i = j ∧ s.shared.disk.entry target = .absent ∧
        sh.disk.entry target ≠ .absent ∧ ∃ source held f, CreatePublishes target i job' source held f
          ⟨s, act, (uploadSystem srv).put s sh j job p⟩) := by
    intro i job' h
    obtain ⟨hreq, hcreates, hmv⟩ := h
    by_cases hij : i = j
    · subst hij
      rw [request_put_self] at hreq
      cases hreq
      rw [Function.update_self] at hmv
      exact (hmoved hcreates hmv).imp_right fun h => ⟨rfl, h⟩
    · rw [System.put_task_ne _ _ _ _ hij] at hreq
      rw [Function.update_of_ne hij] at hmv
      exact Or.inl ⟨hreq, hcreates, hmv⟩
  constructor
  · intro i hi
    rw [put_disk]
    by_cases hij : i = j
    · subst hij
      obtain ⟨job', source, held, k, hwait, hcreates⟩ := hi
      cases p with
      | done r => rw [System.put, State.set_task_self] at hwait; cases hwait
      | call o k' =>
          rw [System.put, State.set_task_self] at hwait
          cases hwait
          exact hown source held k rfl hcreates
    · apply hclear i hij
      obtain ⟨job', source, held, k, hwait, hcreates⟩ := hi
      rw [System.put_task_ne _ _ _ _ hij] at hwait
      exact ⟨job', source, held, k, hwait, hcreates⟩
  · intro i job' hi
    rw [put_disk]
    rcases hcases hi with hold | ⟨-, -, hthere, hpublishes⟩
    · obtain ⟨⟨step, hmem, hpublishes⟩, hthere⟩ := hs.moved i job' hold
      exact ⟨⟨step, List.mem_cons_of_mem _ hmem, hpublishes⟩, hkept hthere⟩
    · exact ⟨⟨_, List.mem_cons_self, hpublishes⟩, hthere⟩
  · intro i i' job₁ job₂ hi hi'
    rcases hcases hi with hold | ⟨hij, habsent, -⟩
    · rcases hcases hi' with hold' | ⟨-, habsent, -⟩
      · exact hs.once i i' job₁ job₂ hold hold'
      · exact absurd habsent (hs.moved i job₁ hold).2
    · rcases hcases hi' with hold' | ⟨hij', -⟩
      · exact absurd habsent (hs.moved i' job₂ hold').2
      · exact hij.trans hij'.symm
  · intro step hmem i c job' hact hreq hcreates hthere
    rcases List.mem_cons.1 hmem with rfl | hmem
    · show ((uploadSystem srv).put s sh j job p).shared.disk.entry target = _
      rw [put_disk]
      exact hstep i c job' hact hreq hcreates hthere
    · exact hs.keeps step hmem i c job' hact hreq hcreates hthere

/-- A Create upload that is about to move its file has just looked. -/
theorem clear_of_staged {source : FsPath} {held : Held}
    {k : (Op.rename source target).Ans → Code (Except ApiError Reply × Held)}
    (hfull : resolve srv.root job.path = .ok target)
    (hstaged : StagedFrom srv target job (.call (.rename source target, held) k) g)
    (hcreates : job.Creates) : g.clear = true := by
  rcases hstaged.1.puts target (List.mem_singleton_self target) with hsess | ⟨hno, -⟩ |
    ⟨-, hcommits, -⟩
  · exact absurd rfl (hsess.ne_target hfull)
  · cases hno
  · exact (hcommits.2 hcreates).1

/-- What a Create upload moves onto the target is the file it has open, with its body. -/
theorem publishes_of_move {source : FsPath} {held : Held} {f : Nat}
    {k : (Op.rename source target).Ans → Code (Except ApiError Reply × Held)} {c : Choice}
    (hstaging : Staging srv target stage s) (hcontents : Contents srv target stage s)
    (hwait : s.task j = .waiting job (.rename source target, held) k) (hcreates : job.Creates)
    (habsent : s.shared.disk.entry target = .absent)
    (hf : s.shared.disk.entry source = .file f) :
    CreatePublishes target j job source held f ⟨s, .step j c,
      (uploadSystem srv).put s (s.shared.rename source target) j job p⟩ := by
  obtain ⟨hfull, hasked, -⟩ := hstaging.waits hwait
  -- the temporary is the one whose name the upload has drawn
  obtain ⟨d, hd, hsource⟩ : ∃ d ∈ (stage j).drawn, source = tempPathFor target d.1 d.2 := by
    cases hasked.takes source (List.mem_singleton_self source) with
    | session hs =>
        cases hs with
        | tmp _ hkey | blocks _ hkey | persist _ hkey =>
            rw [hcreates.1] at hkey
            cases hkey
    | attempt ha => exact ha
  have honce : ∀ e ∈ (stage j).drawn, e = d := by
    intro e he
    obtain ⟨x, hx⟩ := List.length_eq_one_iff.1 (Nat.le_antisymm (hstaging.once j)
      (List.length_pos_of_mem hd))
    rw [hx, List.mem_singleton] at hd he
    rw [hd, he]
  have howns := hcontents.owns hwait hcreates d honce fun i hij => hstaging.apart (Ne.symm hij) d hd
  obtain ⟨-, f', hopen, hentry, hcontent⟩ :=
    (howns s.shared (fun _ => SameAt.refl _ _) trivial).1 rfl source target rfl
  rw [← hsource, hf] at hentry
  cases hentry
  constructor
  · exact ⟨c, rfl⟩
  · exact ⟨k, hwait⟩
  · exact hf
  · exact hopen
  · exact habsent
  · show ((uploadSystem srv).put s _ j job p).shared.disk.entry target = _
    rw [put_disk]
    exact (Disk.rename_entry_target _ _ _).trans hf
  · show (((uploadSystem srv).put s _ j job p).shared.disk.content f).content = _
    rw [put_disk]
    exact hcontent

/-- Who starts has not looked at the target yet, so it is no racer, and the history gains an action
that moves nothing. -/
theorem racing_start (hs : Racing target stage history s)
    (hfull : resolve srv.root job.path = .ok target) :
    Racing target (Function.update stage j Stage.first)
      (⟨s, .start j job, (uploadSystem srv).put s s.shared j job
        (runUpload srv job Held.nothing)⟩ :: history)
      ((uploadSystem srv).put s s.shared j job (runUpload srv job Held.nothing)) := by
  apply racing_put hs id
  · exact fun i _ hi => hs.clear i hi
  · intro source held k hcode hcreates
    have hstaged : StagedFrom srv target job (runUpload srv job Held.nothing) Stage.first :=
      runUpload_staged (target_of_full hfull) Held.nothing
    rw [hcode] at hstaged
    cases clear_of_staged hfull hstaged hcreates
  · intro _ hmoved
    cases hmoved
  · intro i c job' hact
    cases hact

/-- A call of task `j` is answered. -/
theorem racing_step (hstaging : Staging srv target stage s) (hcontents : Contents srv target stage s)
    (hs : Racing target stage history s) {o : Call}
    {k : o.Ans → Code (Except ApiError Reply × Held)} (hwait : s.task j = .waiting job o k)
    {c : Choice} {a : o.Ans} (hexec : o.1.exec srv.serde j c s.shared = some (sh, a))
    (hundisturbed : Undisturbed target s (.step j c)) :
    Racing target (Function.update stage j ((stage j).after target o.1 a))
      (⟨s, .step j c, (uploadSystem srv).put s sh j job (k a)⟩ :: history)
      ((uploadSystem srv).put s sh j job (k a)) := by
  obtain ⟨op, held⟩ := o
  obtain ⟨hfull, hasked, hrest⟩ := hstaging.waits hwait
  have hreq : (s.task j).request = some job := by
    rw [hwait]
    rfl
  -- a Create upload that moves its file is right that nothing is there
  have habsent : ∀ source, op = .rename source target → job.Creates →
      s.shared.disk.entry target = .absent := by
    intro source hop hcreates
    subst hop
    exact hs.clear j ⟨job, source, held, k, hwait, hcreates⟩
  apply racing_put hs
  · exact target_there hfull hasked hexec
  · intro i hij hi
    rcases target_kept hfull hasked hexec with hsame | ⟨source, f, hop, hgo, -, -⟩
    · rw [hsame]
      exact hs.clear i hi
    · subst hop hgo
      exact absurd hi (hundisturbed j rfl ⟨job, source, held, k, hwait⟩ i hij)
  · intro source held' k' hnext hcreates
    have hstaged : StagedFrom srv target job (k a) ((stage j).after target op a) := hrest a
    rw [hnext] at hstaged
    obtain ⟨hsh, hnone⟩ := exec_misses hexec (clear_of_staged hfull hstaged hcreates)
    rw [hsh]
    exact hnone
  · intro hcreates hmoved
    rcases Bool.or_eq_true_iff.1 hmoved with hnew | hold
    · obtain ⟨source, f, hop, hf, hsh⟩ := exec_moves hexec hnew
      subst hop hsh
      have hnone := habsent source rfl hcreates
      have hthere : (s.shared.rename source target).disk.entry target = .file f :=
        (Disk.rename_entry_target _ _ _).trans hf
      right
      refine ⟨hnone, ?_, source, held, f,
        publishes_of_move hstaging hcontents hwait hcreates hnone hf⟩
      rw [hthere]
      exact fun h => nomatch h
    · exact Or.inl ⟨hreq, hcreates, hold⟩
  · intro i c' job' hact hreq' hcreates hthere
    cases hact
    obtain rfl : job = job' := Option.some.inj (hreq.symm.trans hreq')
    rcases target_kept hfull hasked hexec with hsame | ⟨source, f, hop, -, -, -⟩
    · exact hsame
    · exact absurd (habsent source hop hcreates) hthere

/-- A task leaves, or the surroundings move. -/
theorem Racing.of_same (hs : Racing target stage history s) {t : UploadState}
    (hact : ∀ i c, act ≠ .step i c) (hdisk : t.shared.disk = s.shared.disk)
    (htask : ∀ i, t.task i = s.task i ∨
      ∃ job, t.task i = .dropped job ∧ (s.task i).request = some job) :
    Racing target stage (⟨s, act, t⟩ :: history) t := by
  have hreq : ∀ {i job}, HasMoved stage t i job → HasMoved stage s i job := by
    intro i job h
    obtain ⟨hreq, hcreates, hmoved⟩ := h
    rcases htask i with hsame | ⟨job', hdrop, hwas⟩
    · rw [hsame] at hreq
      exact ⟨hreq, hcreates, hmoved⟩
    · rw [hdrop] at hreq
      cases hreq
      exact ⟨hwas, hcreates, hmoved⟩
  constructor
  · intro i hi
    obtain ⟨job, source, held, k, hwait, hcreates⟩ := hi
    rw [hdisk]
    rcases htask i with hsame | ⟨job', hdrop, -⟩
    · exact hs.clear i ⟨job, source, held, k, hsame.symm.trans hwait, hcreates⟩
    · rw [hdrop] at hwait
      cases hwait
  · intro i job hi
    rw [hdisk]
    obtain ⟨⟨step, hmem, hpublishes⟩, hthere⟩ := hs.moved i job (hreq hi)
    exact ⟨⟨step, List.mem_cons_of_mem _ hmem, hpublishes⟩, hthere⟩
  · intro i j job job' hi hj
    exact hs.once i j job job' (hreq hi) (hreq hj)
  · intro step hmem i c job hstep
    rcases List.mem_cons.1 hmem with rfl | hmem
    · exact absurd hstep (hact i c)
    · exact hs.keeps step hmem i c job hstep

end Racing

/-! ## Runs -/

/-- The three invariants, at some stages of the requests. -/
def Raced (srv : Server) (target : FsPath) (history : List UploadStep) (s : UploadState) : Prop :=
  ∃ stage, Staging srv target stage s ∧ Contents srv target stage s ∧
    Racing target stage history s

section Runs

variable {srv : Server} {target : FsPath}

theorem raced_atRest (s₀ : Store) : Raced srv target [] (atRest s₀) := by
  refine ⟨fun _ => Stage.first, ?_, ?_, ?_⟩
  · constructor
    · exact fun _ => rfl
    · intro i job o k hwait
      cases hwait
    · intro i job r hdone
      cases hdone
    · exact fun _ => Nat.zero_le 1
    · intro i d hd
      cases hd
    · intro i j _ d hd
      cases hd
    · intro i f hf
      cases hf
    · intro i f hf
      cases hf
  · constructor
    intro i job o k hwait
    cases hwait
  · constructor
    · intro i hi
      obtain ⟨job, source, held, k, hwait, -⟩ := hi
      cases hwait
    · intro i job hi
      cases hi.2.2
    · intro i j job job' hi
      cases hi.2.2
    · intro step hmem
      cases hmem

/-- A task that is dropped leaves the others as they are. -/
theorem drop_task {s : UploadState} {j : Nat} {job : UploadJob} {o : Call}
    {k : o.Ans → Code (Except ApiError Reply × Held)} (hwait : s.task j = .waiting job o k)
    (i : Nat) :
    (s.set ((uploadSystem srv).leave j s.shared) j (.dropped job)).task i = s.task i ∨
      ∃ job', (s.set ((uploadSystem srv).leave j s.shared) j (.dropped job)).task i =
        .dropped job' ∧ (s.task i).request = some job' := by
  by_cases hij : i = j
  · subst hij
    rw [State.set_task_self, hwait]
    exact Or.inr ⟨job, rfl, rfl⟩
  · rw [State.set_task_ne _ _ _ _ _ hij]
    exact Or.inl rfl

/-- **Step lemma.** -/
theorem raced_next {history : List UploadStep} {s t : UploadState} {act : UploadAct}
    (hs : Raced srv target history s) (hto : ToTarget srv target act)
    (hundisturbed : Undisturbed target s act) (hnext : (uploadSystem srv).next s act = some t) :
    Raced srv target (⟨s, act, t⟩ :: history) t := by
  obtain ⟨stage, hstaging, hcontents, hracing⟩ := hs
  rcases System.next_cases hnext with ⟨j, job, rfl, hidle, rfl⟩ |
    ⟨j, c, job, o, k, sh, a, rfl, hwait, hexec, rfl⟩ | ⟨j, job, o, k, rfl, hwait, rfl⟩ |
    ⟨e, rfl, rfl⟩
  · exact ⟨_, staging_start hstaging hto, contents_start hcontents hto (hstaging.idle hidle),
      racing_start hracing hto⟩
  · exact ⟨_, staging_step hstaging hwait hexec, contents_step hstaging hcontents hwait hexec,
      racing_step hstaging hcontents hracing hwait hexec hundisturbed⟩
  · have htask := fun i => @drop_task srv s j job o k hwait i
    have hleft : ∀ i, (s.set ((uploadSystem srv).leave j s.shared) j (.dropped job)).task i =
        s.task i ∨ ∃ job', (s.set ((uploadSystem srv).leave j s.shared) j (.dropped job)).task i =
          .dropped job' := by
      intro i
      rcases htask i with hsame | ⟨job', hdrop, -⟩
      · exact Or.inl hsame
      · exact Or.inr ⟨job', hdrop⟩
    exact ⟨stage, hstaging.of_same rfl rfl hleft, hcontents.of_same rfl hleft,
      hracing.of_same (fun i c h => nomatch h) rfl htask⟩
  · cases e with
    | place path cells => exact absurd hto id
    | tick n =>
        exact ⟨stage, hstaging.of_same rfl rfl fun _ => Or.inl rfl,
          hcontents.of_same rfl fun _ => Or.inl rfl,
          hracing.of_same (fun i c h => nomatch h) rfl fun _ => Or.inl rfl⟩

/-- **As long as no file is moved onto the target between a Create upload's last look and its
own move, Create is exclusive.** -/
theorem undisturbed_creates_exclusive {s₀ : Store} {history : List UploadStep} {s : UploadState}
    (hrun : Traced (uploadSystem srv).next
      (fun u a => ToTarget srv target a ∧ Undisturbed target u a) (atRest s₀) history s) :
    CreateExclusive target history s := by
  obtain ⟨stage, hstaging, -, hracing⟩ := hrun.invariant
    (fun history t a u h hok hnext => raced_next h hok.1 hok.2 hnext) (raced_atRest s₀)
  have hmoved : ∀ {i job file held}, job.Creates →
      s.task i = .finished job (.ok (.created file), held) → HasMoved stage s i job := by
    intro i job file held hcreates hdone
    refine ⟨?_, hcreates, hstaging.ended hdone hcreates _ rfl⟩
    rw [hdone]
    rfl
  constructor
  · intro i job file held hcreates hdone
    exact (hracing.moved i job (hmoved hcreates hdone)).1
  · exact hracing.keeps
  · intro i j job job' file file' held held' hcreates hcreates' hdone hdone'
    exact hracing.once i j job job' (hmoved hcreates hdone) (hmoved hcreates' hdone')

end Runs

instance (job : UploadJob) : Decidable job.Creates :=
  inferInstanceAs (Decidable (job.session = none ∧ writeMode job.offsetHdr = .ok .create))

/-- A Create upload has been answered 201. -/
def hasWon (s : UploadState) (i : Nat) : Bool :=
  match s.task i with
  | .finished job (.ok (.created _), _) => decide job.Creates
  | _ => false

theorem exists_of_hasWon {s : UploadState} {i : Nat} (h : hasWon s i = true) :
    ∃ job file held, job.Creates ∧ s.task i = .finished job (.ok (.created file), held) := by
  unfold hasWon at h
  split at h
  · next job file held heq => exact ⟨job, file, held, of_decide_eq_true h, heq⟩
  · cases h

/-- The upload was answered an error. -/
def hasFailed (s : UploadState) (i : Nat) : Bool :=
  match s.task i with
  | .finished _ (.error _, _) => true
  | _ => false

theorem exists_of_hasFailed {s : UploadState} {i : Nat} (h : hasFailed s i = true) :
    ∃ job e held, s.task i = .finished job (.error e, held) := by
  unfold hasFailed at h
  split at h
  · next job e held heq => exact ⟨job, e, held, heq⟩
  · cases h

/-- The target of the sample uploads. -/
def racedTarget : FsPath := sampleServer.root ++ [.normal "f".toList]

/-! ### A second Create upload that comes too late -/

/-- The task is about to move a file onto the sample target. -/
def isAtMove (s : UploadState) (i : Nat) : Bool :=
  match s.task i with
  | .waiting _ (.rename _ q, _) _ => decide (q = racedTarget)
  | _ => false

theorem isAtMove_of_atMove {s : UploadState} {i : Nat} (h : AtMove racedTarget s i) :
    isAtMove s i = true := by
  obtain ⟨job, source, held, k, hwait⟩ := h
  unfold isAtMove
  rw [hwait]
  exact decide_eq_true rfl

/-- Two sample uploads, and no move while the other one is about to move. -/
def isCalm (s : UploadState) : UploadAct → Bool
  | .start i job => decide (i < 2 ∧ resolve sampleServer.root job.path = .ok racedTarget)
  | .step j _ => !(isAtMove s j && isAtMove s (1 - j))
  | _ => false

/-- Where only two tasks ever start, the test is the condition. -/
theorem traced_of_calm {s₀ : Store} {history : List UploadStep} {s : UploadState}
    (h : Traced (uploadSystem sampleServer).next (fun u a => isCalm u a = true) (atRest s₀)
      history s) :
    Traced (uploadSystem sampleServer).next
      (fun u a => ToTarget sampleServer racedTarget a ∧ Undisturbed racedTarget u a) (atRest s₀)
      history s ∧ ∀ i, 2 ≤ i → s.task i = .idle := by
  induction h with
  | refl => exact ⟨.refl, fun _ _ => rfl⟩
  | @tail history t u a _ hok hnext ih =>
      obtain ⟨htraced, hidle⟩ := ih
      rcases System.next_cases hnext with ⟨j, job, rfl, -, hu⟩ |
        ⟨j, c, job, o, k, sh, ans, rfl, hwait, -, hu⟩ | ⟨j, job, o, k, rfl, -, -⟩ | ⟨e, rfl, -⟩
      · obtain ⟨hj, hres⟩ := of_decide_eq_true hok
        constructor
        · exact htraced.tail ⟨hres, fun i hact => nomatch hact⟩ hnext
        · intro i hi
          rw [hu, System.put_task_ne _ _ _ _ (by omega)]
          exact hidle i hi
      · have htwo : ∀ i, t.task i ≠ .idle → i < 2 := by
          intro i hi
          by_contra hge
          exact hi (hidle i (by omega))
        have hj : j < 2 := htwo j (by rw [hwait]; exact fun h => nomatch h)
        constructor
        · apply htraced.tail _ hnext
          refine ⟨trivial, ?_⟩
          intro j' hact hmove i hij hcreate
          cases hact
          obtain ⟨job', source, held, k', hwait', -⟩ := hcreate
          have hi : i < 2 := htwo i (by rw [hwait']; exact fun h => nomatch h)
          have hother : 1 - j = i := by omega
          have hboth := isAtMove_of_atMove hmove
          have hboth' := isAtMove_of_atMove ⟨job', source, held, k', hwait'⟩
          simp only [isCalm, hother, hboth, hboth', Bool.and_self, Bool.not_true,
            Bool.false_eq_true] at hok
        · intro i hi
          rw [hu, System.put_task_ne _ _ _ _ (by omega)]
          exact hidle i hi
      · cases hok
      · cases hok

/-- The second upload finds nothing at its first look, and the first upload's file at its
last. -/
def lateActs : List UploadAct :=
  .start 0 (plainJob "f".toList [1, 2]) :: .start 1 (plainJob "f".toList [3]) ::
    (List.replicate 5 (.step 1 .go) ++ List.replicate 14 (.step 0 .go) ++
      List.replicate 7 (.step 1 .go))

/-- The first of the two is answered 201, the second one an error. -/
theorem late_create_conflicts : ∃ history s,
    Traced (uploadSystem sampleServer).next
      (fun u a => ToTarget sampleServer racedTarget a ∧ Undisturbed racedTarget u a)
      (atRest sampleStore) history s ∧
    hasWon s 0 = true ∧ (∃ job e held, s.task 1 = .finished job (.error e, held)) ∧
    CreateExclusive racedTarget history s := by
  have hrun : ((traceIf (uploadSystem sampleServer).next isCalm [] (atRest sampleStore)
      lateActs).any fun r => hasWon r.2 0 && hasFailed r.2 1) = true := by
    decide +kernel
  obtain ⟨⟨history, s⟩, htrace, hend⟩ := (Option.any_eq_true _ _).1 hrun
  obtain ⟨hwon, hlost⟩ := Bool.and_eq_true_iff.1 hend
  have htraced := (traced_of_calm (traced_of_traceIf (fun _ _ => id) .refl htrace)).1
  exact ⟨history, s, htraced, hwon, exists_of_hasFailed hlost,
    undisturbed_creates_exclusive htraced⟩

/-! ### Two Create uploads that race -/

/-- Both uploads take their last look before either moves its file. -/
def racingActs : List UploadAct :=
  .start 0 (plainJob "f".toList [1, 2]) :: .start 1 (plainJob "f".toList [3]) ::
    (List.replicate 11 (.step 0 .go) ++ List.replicate 11 (.step 1 .go) ++
      List.replicate 3 (.step 0 .go) ++ List.replicate 3 (.step 1 .go))

/-- The acts of that run. -/
def isPlainAct : UploadAct → Bool
  | .start _ job => decide (resolve sampleServer.root job.path = .ok racedTarget)
  | .step _ _ => true
  | _ => false

/-- **Two Create uploads to an absent target are both answered 201.** -/
theorem racing_creates_both_commit :
    ¬ ∀ s₀ history s, Traced (uploadSystem sampleServer).next
      (fun _ a => ToTarget sampleServer racedTarget a) (atRest s₀) history s →
        CreateExclusive racedTarget history s := by
  intro hall
  have hrun : ((traceIf (uploadSystem sampleServer).next (fun _ a => isPlainAct a) []
      (atRest sampleStore) racingActs).any fun r => hasWon r.2 0 && hasWon r.2 1) = true := by
    decide +kernel
  obtain ⟨⟨history, s⟩, htrace, hend⟩ := (Option.any_eq_true _ _).1 hrun
  obtain ⟨hwon, hwon'⟩ := Bool.and_eq_true_iff.1 hend
  have hto : ∀ (t : UploadState) (a : UploadAct), isPlainAct a = true →
      ToTarget sampleServer racedTarget a := by
    intro t a ha
    cases a with
    | start i job =>
        have hres : resolve sampleServer.root job.path = .ok racedTarget := of_decide_eq_true ha
        exact hres
    | step i c => trivial
    | drop i => cases ha
    | env e => cases ha
  have hexclusive := hall sampleStore history s (traced_of_traceIf hto .refl htrace)
  obtain ⟨job, file, held, hcreates, hdone⟩ := exists_of_hasWon hwon
  obtain ⟨job', file', held', hcreates', hdone'⟩ := exists_of_hasWon hwon'
  exact absurd (hexclusive.once 0 1 job job' file file' held held' hcreates hcreates' hdone hdone')
    (by decide)

end Libfw

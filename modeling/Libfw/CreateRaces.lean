import Libfw.CreateRuns
import Libfw.GuardedRuns
import Libfw.StaleSessions

/-!
# Create uploads that race for one target

Any number of uploads to one target, interleaved call by call.
-/

namespace Libfw

open SteppedPrograms Fs FsStorage PosixStore GuardedRuns

/-! ## One call -/

theorem SessionFile.spelled {srv : Server} {job : UploadJob} {p : FsPath}
    (h : SessionFile srv job p) : Spelled p := by
  have htemp : ∀ (full : FsPath) (key : SessionKey),
      Spelled (sessionTempFor full key.id key.owner) := by
    intro full key
    refine ⟨_, FsPath.fileName_withFileName _ _, ?_⟩
    rw [List.append_assoc, List.append_assoc]
    exact List.prefix_append _ _
  cases h with
  | tmp _ _ => exact htemp _ _
  | blocks _ _ => exact spelled_blocksPathFor (htemp _ _)
  | persist _ _ =>
      obtain ⟨name, hname, hpre⟩ := spelled_blocksPathFor (htemp _ _)
      exact ⟨_, FsPath.fileName_pushExtension hname, hpre.trans (List.prefix_append _ _)⟩

theorem SessionFile.ne_temp {srv : Server} {job : UploadJob} {p : FsPath}
    (h : SessionFile srv job p) (target : FsPath) (nanos counter : Nat) :
    p ≠ tempPathFor target nanos counter := by
  intro heq
  apply not_spelled_tempPathFor target nanos counter
  rw [← heq]
  exact h.spelled

section Call

variable {srv : Server} {job : UploadJob} {target : FsPath} {g : Stage} {op : Op}
  (hfull : resolve srv.root job.path = .ok target) (hasked : AskedBy srv job (g.grant job target) op)
  {i : Nat} {c : Choice} {s t : Store} {a : op.Ans} (hexec : op.exec srv.serde i c s = some (t, a))
  {nanos counter : Nat}

/-- The stage has drawn the counter value. -/
def Stage.Drew (g : Stage) (counter : Nat) : Prop := ∃ d ∈ g.drawn, d.2 = counter

theorem drew_of_attempt
    (h : (g.grant job target).attempts (tempPathFor target nanos counter)) : g.Drew counter := by
  obtain ⟨d, hd, heq⟩ := h
  exact ⟨d, hd, (tempPathFor_counter heq).symm⟩

/-- The temporaries a request makes are those it has drawn. -/
theorem drew_of_made (h : MadeFile srv job (g.grant job target) (tempPathFor target nanos counter)) :
    g.Drew counter := by
  cases h with
  | session h => exact absurd rfl (h.ne_temp target nanos counter)
  | attempt h => exact drew_of_attempt h

include hasked

theorem drew_of_put (h : tempPathFor target nanos counter ∈ op.puts) (hfull' : ∀ full,
    resolve srv.root job.path = .ok full → full = target) : g.Drew counter := by
  rcases hasked.puts _ h with hs | ⟨-, ha⟩ | ⟨-, -, hres⟩
  · exact absurd rfl (hs.ne_temp target nanos counter)
  · exact drew_of_attempt ha
  · exact absurd (hfull' _ hres) (tempPathFor_ne_target _ _ _)

include hfull

/-- No directory that is made takes the target's name, or a temporary's. -/
theorem not_above {d p : FsPath} (hd : d ∈ op.dirs) (hp : target.length ≤ p.length) :
    p ∉ ancestors d := by
  intro hmem
  obtain ⟨full, hres, hparent⟩ := hasked.dirs d hd
  obtain rfl := target_of_full hfull full hres
  obtain ⟨hpre, hne⟩ := prefix_of_mem_ancestors hparent hmem
  exact hne (hpre.eq_of_length_le hp)

include hexec

/-- Only a move that goes changes what the target's name leads to. -/
theorem target_kept : t.disk.entry target = s.disk.entry target ∨
    ∃ source f, op = .rename source target ∧ c = .go ∧ s.disk.entry source = .file f ∧
      t = s.rename source target := by
  rcases (exec_effect hexec).entry target with hsame | hput | ⟨htake, -⟩ | ⟨-, -, d, hd, habove⟩
  · exact Or.inl hsame
  · rcases hasked.puts _ hput with hs | ⟨-, ha⟩ | ⟨hmoves, -, -⟩
    · exact absurd rfl (hs.ne_target hfull)
    · obtain ⟨d, -, heq⟩ := ha
      exact absurd heq.symm (tempPathFor_ne_target _ _ _)
    · cases op with
      | rename source q =>
          obtain rfl : target = q := List.mem_singleton.1 hput
          rcases exec_rename hexec with ⟨ht, -⟩ | ⟨f, hf, -, ha, ht⟩
          · rw [ht]
            exact Or.inl rfl
          · cases c with
            | go => exact Or.inr ⟨source, f, rfl, rfl, hf, ht⟩
            | fail n m =>
                subst ha
                cases hexec
      | _ => cases hmoves
  · cases hasked.takes _ htake with
    | session hs => exact absurd rfl (hs.ne_target hfull)
    | attempt ha =>
        obtain ⟨d, -, heq⟩ := ha
        exact absurd heq.symm (tempPathFor_ne_target _ _ _)
  · exact absurd habove (not_above hfull hasked hd (Nat.le_refl _))

/-- What stands at the target may be replaced, but does not go away. -/
theorem target_there (hthere : s.disk.entry target ≠ .absent) : t.disk.entry target ≠ .absent := by
  rcases target_kept hfull hasked hexec with hsame | ⟨source, f, -, -, hf, rfl⟩
  · rw [hsame]
    exact hthere
  · intro habsent
    have hmoved := (Disk.rename_entry_target s.disk source target).symm.trans habsent
    rw [hf] at hmoved
    cases hmoved

/-- A temporary that another request has drawn stays as it is, unless this request has it
open. -/
theorem temp_kept (hdrew : ¬ g.Drew counter)
    (hopen : ∀ f ∈ g.files, s.disk.entry (tempPathFor target nanos counter) ≠ .file f) :
    SameAt (tempPathFor target nanos counter) s t := by
  have heffect := exec_effect hexec
  have hput : tempPathFor target nanos counter ∉ op.puts :=
    fun h => hdrew (drew_of_put hasked h (target_of_full hfull))
  constructor
  · rcases heffect.entry (tempPathFor target nanos counter) with hsame | hput' | ⟨htake, -⟩ |
      ⟨-, -, d, hd, habove⟩
    · exact hsame
    · exact absurd hput' hput
    · exact absurd (drew_of_made (hasked.takes _ htake)) hdrew
    · exact absurd habove (not_above hfull hasked hd (FsPath.length_le_withFileName _ _))
  · intro f hf
    rcases heffect.content (s.disk.entry_lt hf) with hsame | hwrite | ⟨p, hp, hfile⟩
    · exact hsame
    · exact absurd hf (hopen f (hasked.writes f hwrite))
    · rw [s.disk.single hfile hf] at hp
      exact absurd hp hput

/-- No file is moved to a temporary's name. -/
theorem temp_file {f : Nat} (hf : f < s.disk.next)
    (hfile : t.disk.entry (tempPathFor target nanos counter) = .file f) :
    s.disk.entry (tempPathFor target nanos counter) = .file f := by
  rcases (exec_effect hexec).file hfile with hold | hnew | ⟨source, hop⟩
  · exact hold
  · rw [hnew] at hf
    exact absurd hf (Nat.lt_irrefl _)
  · subst hop
    rcases hasked.puts _ (List.mem_singleton_self _) with hs | ⟨hno, -⟩ | ⟨-, -, hres⟩
    · exact absurd rfl (hs.ne_temp target nanos counter)
    · cases hno
    · exact absurd (target_of_full hfull _ hres) (tempPathFor_ne_target _ _ _)

/-- What a request opens is no temporary that another one has drawn. -/
theorem drew_of_opened (hopen : ∀ f ∈ g.files,
      s.disk.entry (tempPathFor target nanos counter) = .file f → g.Drew counter)
    {f : Nat} (hf : f ∈ (g.after target op a).files)
    (hfile : t.disk.entry (tempPathFor target nanos counter) = .file f) :
    (g.after target op a).Drew counter := by
  by_contra hno
  have hdrew : ¬ g.Drew counter := by
    intro h
    obtain ⟨d, hd, hc⟩ := h
    exact hno ⟨d, List.mem_append_right _ hd, hc⟩
  rcases List.mem_append.1 hf with hnew | hold
  · obtain ⟨p, hp, hfile'⟩ := exec_opens hexec hnew
    rw [t.disk.single hfile' hfile] at hp
    cases hasked.files _ hp with
    | target hres =>
        exact tempPathFor_ne_target target nanos counter (target_of_full hfull _ hres)
    | made hmade => exact hdrew (drew_of_made hmade)
  · have hsame := temp_kept hfull hasked hexec hdrew fun f hf heq => hdrew (hopen f hf heq)
    exact hdrew (hopen f hold (hsame.1.symm.trans hfile))

end Call

/-! ## The stages of all requests -/

/-- The program of a request, from a stage on. -/
def StagedFrom (srv : Server) (target : FsPath) (job : UploadJob)
    (p : Code (Except ApiError Reply × Held)) (g : Stage) : Prop :=
  p.Staged (fun g call => AskedBy srv job (g.grant job target) call.1)
    (fun g call a => g.after target call.1 a) (fun g r => job.Creates → OnceMoved g r.1) g

/-- The requests stand at these stages.  Names are drawn by one request only, and no request
has a temporary open that another one has drawn. -/
structure Staging (srv : Server) (target : FsPath) (stage : Nat → Stage) (s : UploadState) :
    Prop where
  idle : ∀ {i}, s.task i = .idle → stage i = Stage.first
  waits : ∀ {i job o k}, s.task i = .waiting job o k →
    resolve srv.root job.path = .ok target ∧ StagedFrom srv target job (.call o k) (stage i)
  ended : ∀ {i job r}, s.task i = .finished job r → job.Creates → OnceMoved (stage i) r.1
  once : ∀ i, (stage i).drawn.length ≤ 1
  counters : ∀ i, ∀ d ∈ (stage i).drawn, d.2 < s.shared.counter
  apart : ∀ {i j}, i ≠ j → ∀ d ∈ (stage i).drawn, ¬ (stage j).Drew d.2
  opened : ∀ i, ∀ f ∈ (stage i).files, f < s.shared.disk.next
  own : ∀ i, ∀ f ∈ (stage i).files, ∀ nanos counter,
    s.shared.disk.entry (tempPathFor target nanos counter) = .file f → (stage i).Drew counter

section Put

variable {srv : Server} {target : FsPath} {stage : Nat → Stage} {s : UploadState} {sh : Store}
  {j : Nat} {job : UploadJob} {p : Code (Except ApiError Reply × Held)} {g : Stage}

theorem put_counter : ((uploadSystem srv).put s sh j job p).shared.counter = sh.counter := by
  cases p with
  | done r => rfl
  | call o k => rfl

/-- Task `j` is at a stage, and the others stay where they are. -/
theorem staging_put (hs : Staging srv target stage s)
    (hfull : resolve srv.root job.path = .ok target) (hp : StagedFrom srv target job p g)
    (hcounter : s.shared.counter ≤ sh.counter) (hnext : s.shared.disk.next ≤ sh.disk.next)
    (honce : g.drawn.length ≤ 1)
    (hdrawn : ∀ d ∈ g.drawn, d.2 < sh.counter ∧ ∀ i, i ≠ j → ¬ (stage i).Drew d.2)
    (hfiles : ∀ f ∈ g.files, f < sh.disk.next ∧ ∀ nanos counter,
      sh.disk.entry (tempPathFor target nanos counter) = .file f → g.Drew counter)
    (hothers : ∀ f nanos counter, f < s.shared.disk.next →
      sh.disk.entry (tempPathFor target nanos counter) = .file f →
        s.shared.disk.entry (tempPathFor target nanos counter) = .file f) :
    Staging srv target (Function.update stage j g) ((uploadSystem srv).put s sh j job p) := by
  have hself : Function.update stage j g j = g := Function.update_self j g stage
  have hother : ∀ i, i ≠ j → Function.update stage j g i = stage i :=
    fun i hij => Function.update_of_ne hij g stage
  constructor
  · intro i hidle
    by_cases hij : i = j
    · subst hij
      cases p with
      | done r => rw [System.put, State.set_task_self] at hidle; cases hidle
      | call o k => rw [System.put, State.set_task_self] at hidle; cases hidle
    · rw [System.put_task_ne _ _ _ _ hij] at hidle
      rw [hother i hij]
      exact hs.idle hidle
  · intro i job' o k hwait
    by_cases hij : i = j
    · subst hij
      cases p with
      | done r => rw [System.put, State.set_task_self] at hwait; cases hwait
      | call o' k' =>
          rw [System.put, State.set_task_self] at hwait
          cases hwait
          rw [hself]
          exact ⟨hfull, hp⟩
    · rw [System.put_task_ne _ _ _ _ hij] at hwait
      rw [hother i hij]
      exact hs.waits hwait
  · intro i job' r hdone hcreates
    by_cases hij : i = j
    · subst hij
      cases p with
      | done r' =>
          rw [System.put, State.set_task_self] at hdone
          cases hdone
          rw [hself]
          exact hp hcreates
      | call o' k' => rw [System.put, State.set_task_self] at hdone; cases hdone
    · rw [System.put_task_ne _ _ _ _ hij] at hdone
      rw [hother i hij]
      exact hs.ended hdone hcreates
  · intro i
    by_cases hij : i = j
    · rw [hij, hself]
      exact honce
    · rw [hother i hij]
      exact hs.once i
  · intro i d hd
    rw [put_counter]
    by_cases hij : i = j
    · rw [hij, hself] at hd
      exact (hdrawn d hd).1
    · rw [hother i hij] at hd
      exact Nat.lt_of_lt_of_le (hs.counters i d hd) hcounter
  · intro i i' hne d hd
    by_cases hij : i = j
    · have hij' : i' ≠ j := fun h => hne (hij.trans h.symm)
      rw [hij, hself] at hd
      rw [hother i' hij']
      exact (hdrawn d hd).2 i' hij'
    · rw [hother i hij] at hd
      by_cases hij' : i' = j
      · rw [hij', hself]
        intro hdrew
        obtain ⟨e, he, heq⟩ := hdrew
        exact (hdrawn e he).2 i hij ⟨d, hd, heq.symm⟩
      · rw [hother i' hij']
        exact hs.apart hne d hd
  · intro i f hf
    rw [put_disk]
    by_cases hij : i = j
    · rw [hij, hself] at hf
      exact (hfiles f hf).1
    · rw [hother i hij] at hf
      exact Nat.lt_of_lt_of_le (hs.opened i f hf) hnext
  · intro i f hf nanos counter hfile
    rw [put_disk] at hfile
    by_cases hij : i = j
    · rw [hij, hself] at hf ⊢
      exact (hfiles f hf).2 nanos counter hfile
    · rw [hother i hij] at hf ⊢
      exact hs.own i f hf nanos counter (hothers f nanos counter (hs.opened i f hf) hfile)

/-- A request that starts is in its first stage: it has drawn no name and opened no file. -/
theorem staging_start (hs : Staging srv target stage s)
    (hfull : resolve srv.root job.path = .ok target) :
    Staging srv target (Function.update stage j Stage.first)
      ((uploadSystem srv).put s s.shared j job (runUpload srv job Held.nothing)) := by
  have hstaged : StagedFrom srv target job (runUpload srv job Held.nothing) Stage.first :=
    runUpload_staged (target_of_full hfull) Held.nothing
  apply staging_put hs hfull hstaged (Nat.le_refl _) (Nat.le_refl _) (Nat.zero_le _)
  · intro d hd
    cases hd
  · intro f hf
    cases hf
  · intro f nanos counter _ hfile
    exact hfile

/-- A call of task `j` is answered. -/
theorem staging_step (hs : Staging srv target stage s) {o : Call}
    {k : o.Ans → Code (Except ApiError Reply × Held)} (hwait : s.task j = .waiting job o k)
    {c : Choice} {a : o.Ans} (hexec : o.1.exec srv.serde j c s.shared = some (sh, a)) :
    Staging srv target (Function.update stage j ((stage j).after target o.1 a))
      ((uploadSystem srv).put s sh j job (k a)) := by
  obtain ⟨hfull, hasked, hrest⟩ := hs.waits hwait
  have heffect := exec_effect hexec
  have hstaged : StagedFrom srv target job (k a) ((stage j).after target o.1 a) := hrest a
  apply staging_put hs hfull hstaged heffect.counter heffect.next
  · exact Stage.length_drawn_after (hs.once j) hasked.draws
  · intro d hd
    rcases List.mem_append.1 hd with hnew | hold
    · obtain ⟨-, rfl, hlt⟩ := exec_draws hexec hnew
      constructor
      · exact hlt
      · intro i _ hdrew
        obtain ⟨e, he, heq⟩ := hdrew
        exact absurd (hs.counters i e he) (by rw [heq]; exact Nat.lt_irrefl _)
    · constructor
      · exact Nat.lt_of_lt_of_le (hs.counters j d hold) heffect.counter
      · intro i hij
        exact hs.apart (Ne.symm hij) d hold
  · intro f hf
    constructor
    · rcases List.mem_append.1 hf with hnew | hold
      · obtain ⟨p, -, hfile⟩ := exec_opens hexec hnew
        exact sh.disk.entry_lt hfile
      · exact Nat.lt_of_lt_of_le (hs.opened j f hold) heffect.next
    · intro nanos counter hfile
      exact drew_of_opened hfull hasked hexec
        (fun f hf hfile => hs.own j f hf nanos counter hfile) hf hfile
  · intro f nanos counter hf hfile
    exact temp_file hfull hasked hexec hf hfile

/-- A task leaves, or the surroundings move: names, files and stages stay. -/
theorem Staging.of_same (hs : Staging srv target stage s) {t : UploadState}
    (hdisk : t.shared.disk = s.shared.disk) (hcounter : t.shared.counter = s.shared.counter)
    (htask : ∀ i, t.task i = s.task i ∨ ∃ job, t.task i = .dropped job) :
    Staging srv target stage t := by
  constructor
  · intro i hidle
    rcases htask i with hsame | ⟨job, hdrop⟩
    · exact hs.idle (hsame.symm.trans hidle)
    · rw [hdrop] at hidle
      cases hidle
  · intro i job o k hwait
    rcases htask i with hsame | ⟨job, hdrop⟩
    · exact hs.waits (hsame.symm.trans hwait)
    · rw [hdrop] at hwait
      cases hwait
  · intro i job r hdone
    rcases htask i with hsame | ⟨job, hdrop⟩
    · exact hs.ended (hsame.symm.trans hdone)
    · rw [hdrop] at hdone
      cases hdone
  · exact hs.once
  · intro i
    rw [hcounter]
    exact hs.counters i
  · exact hs.apart
  · intro i
    rw [hdisk]
    exact hs.opened i
  · intro i
    rw [hdisk]
    exact hs.own i

end Put

/-! ## What the Create uploads have written -/

/-- The rest of a program of task `i`, which has the temporary to itself. -/
def Owns (srv : Server) (target : FsPath) (i : Nat) (job : UploadJob) (d : Nat × Nat)
    (p : Code (Except ApiError Reply × Held)) (s : Store) : Prop :=
  wp (uploadSystem srv) (owning i (tempPathFor target d.1 d.2) d) i job p (fun _ _ => True) s

/-- Every Create upload that waits is right about the temporary that it has drawn or will
draw. -/
structure Contents (srv : Server) (target : FsPath) (stage : Nat → Stage) (s : UploadState) :
    Prop where
  owns : ∀ {i job o k}, s.task i = .waiting job o k → job.Creates →
    ∀ d, (∀ e ∈ (stage i).drawn, e = d) → (∀ j, j ≠ i → ¬ (stage j).Drew d.2) →
      Owns srv target i job d (.call o k) s.shared

section Contents

variable {srv : Server} {target : FsPath} {stage : Nat → Stage} {s : UploadState} {sh : Store}
  {j : Nat} {job : UploadJob} {p : Code (Except ApiError Reply × Held)} {g : Stage}

theorem Owns.of_same {i : Nat} {d : Nat × Nat} {o : Call}
    {k : o.Ans → Code (Except ApiError Reply × Held)} {s t : Store}
    (h : Owns srv target i job d (.call o k) s) (hst : SameAt (tempPathFor target d.1 d.2) s t) :
    Owns srv target i job d (.call o k) t := by
  intro s₁ hrely
  exact h s₁ fun hi => hst.trans (hrely hi)

/-- Task `j` is at a stage, and touches no temporary that another one has drawn. -/
theorem contents_put (hs : Contents srv target stage s)
    (hmono : ∀ d ∈ (stage j).drawn, d ∈ g.drawn)
    (hsame : ∀ nanos counter, ¬ g.Drew counter →
      SameAt (tempPathFor target nanos counter) s.shared sh)
    (hown : job.Creates → ∀ d, (∀ e ∈ g.drawn, e = d) → (∀ i, i ≠ j → ¬ (stage i).Drew d.2) →
      Owns srv target j job d p sh) :
    Contents srv target (Function.update stage j g) ((uploadSystem srv).put s sh j job p) := by
  constructor
  intro i job' o k hwait hcreates d hall hothers
  by_cases hij : i = j
  · subst hij
    rw [Function.update_self] at hall
    cases p with
    | done r => rw [System.put, State.set_task_self] at hwait; cases hwait
    | call o' k' =>
        rw [System.put, State.set_task_self] at hwait
        cases hwait
        apply hown hcreates d hall
        intro i' hne hdrew
        apply hothers i' hne
        rw [Function.update_of_ne hne]
        exact hdrew
  · rw [System.put_task_ne _ _ _ _ hij] at hwait
    rw [Function.update_of_ne hij] at hall
    have hj : ¬ g.Drew d.2 := by
      have hdrew := hothers j (Ne.symm hij)
      rw [Function.update_self] at hdrew
      exact hdrew
    have hbefore : Owns srv target i job' d (.call o k) s.shared := by
      apply hs.owns hwait hcreates d hall
      intro i' hne hdrew
      by_cases hij' : i' = j
      · rw [hij'] at hdrew
        obtain ⟨e, he, heq⟩ := hdrew
        exact hj ⟨e, hmono e he, heq⟩
      · apply hothers i' hne
        rw [Function.update_of_ne hij']
        exact hdrew
    have hkept := hsame d.1 d.2 hj
    cases p with
    | done r => exact hbefore.of_same hkept
    | call o' k' => exact hbefore.of_same hkept

theorem contents_start (hs : Contents srv target stage s)
    (hfull : resolve srv.root job.path = .ok target) (hidle : stage j = Stage.first) :
    Contents srv target (Function.update stage j Stage.first)
      ((uploadSystem srv).put s s.shared j job (runUpload srv job Held.nothing)) := by
  apply contents_put hs
  · rw [hidle]
    exact fun _ => id
  · intro nanos counter _
    exact SameAt.refl _ _
  · intro hcreates d _ _
    exact wp_create hfull hcreates rfl

/-- A call touches no temporary but the one that its own request has drawn, so every other
request is still right about its own. -/
theorem contents_step (hstaging : Staging srv target stage s) (hs : Contents srv target stage s)
    {o : Call} {k : o.Ans → Code (Except ApiError Reply × Held)}
    (hwait : s.task j = .waiting job o k) {c : Choice} {a : o.Ans}
    (hexec : o.1.exec srv.serde j c s.shared = some (sh, a)) :
    Contents srv target (Function.update stage j ((stage j).after target o.1 a))
      ((uploadSystem srv).put s sh j job (k a)) := by
  obtain ⟨hfull, hasked, -⟩ := hstaging.waits hwait
  apply contents_put hs
  · exact fun d hd => List.mem_append_right _ hd
  · intro nanos counter hdrew
    have hbefore : ¬ (stage j).Drew counter := by
      intro h
      obtain ⟨d, hd, hc⟩ := h
      exact hdrew ⟨d, List.mem_append_right _ hd, hc⟩
    apply temp_kept hfull hasked hexec hbefore
    intro f hf hfile
    exact hbefore (hstaging.own j f hf nanos counter hfile)
  · intro hcreates d hall hothers
    have hbefore := hs.owns hwait hcreates d (fun e he => hall e (List.mem_append_right _ he)) hothers
    apply ((hbefore s.shared (fun _ => SameAt.refl _ _) trivial).2 c sh a _ hexec).2
    -- the name that is drawn is the one in question
    intro job' h c' heq
    cases heq
    obtain ⟨-, ha⟩ := exec_uniqueName hexec
    have hdrawn := hall a List.mem_cons_self
    rw [← ha]
    exact hdrawn

theorem Contents.of_same (hs : Contents srv target stage s) {t : UploadState}
    (hdisk : t.shared.disk = s.shared.disk)
    (htask : ∀ i, t.task i = s.task i ∨ ∃ job, t.task i = .dropped job) :
    Contents srv target stage t := by
  constructor
  intro i job o k hwait hcreates d hall hothers
  rcases htask i with hsame | ⟨job', hdrop⟩
  · apply (hs.owns (hsame.symm.trans hwait) hcreates d hall hothers).of_same
    constructor
    · rw [hdisk]
    · intro f _
      unfold Store.content
      rw [hdisk]
  · rw [hdrop] at hwait
    cases hwait

end Contents

end Libfw

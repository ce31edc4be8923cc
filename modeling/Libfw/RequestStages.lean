import Libfw.RequestFootprints
import Libfw.TrackedCalls

/-!
# How far an upload request has come

What a request may use depends on the answers it has had: it uses the temporaries whose
names it has drawn and writes to the files it has opened.  In Create mode, moreover, it
moves a file onto its target only when its last call found nothing there, and only once;
and it does not answer with success unless it has done so.  `Stage` keeps count of the
answers, and `runUpload_staged` says all this of the whole request.
-/

namespace Libfw

open SteppedPrograms Fs FsStorage PosixStore

/-- The upload is a sequential one in Create mode. -/
def UploadJob.Creates (job : UploadJob) : Prop :=
  job.session = none ∧ writeMode job.offsetHdr = .ok .create

/-- The names a call has drawn for temporaries. -/
def Op.draws : (op : Op) → op.Ans → List (Nat × Nat)
  | .uniqueName, (nanos, counter) => [(nanos, counter)]
  | _, _ => []

/-- The files a call has opened. -/
def Op.opens : (op : Op) → op.Ans → List Nat
  | .create _, .ok f | .createNew _, .ok f | .openExisting _, .ok f => [f]
  | _, _ => []

/-- The call has found nothing under the name. -/
def Op.misses (target : FsPath) : (op : Op) → op.Ans → Bool
  | .tryExists p, .ok found => decide (p = target) && !found
  | _, _ => false

/-- The call has moved a file to the name. -/
def Op.moves (target : FsPath) : (op : Op) → op.Ans → Bool
  | .rename _ q, .ok _ => decide (q = target)
  | _, _ => false

theorem draws_eq_nil {op : Op} {a : op.Ans} (h : op ≠ .uniqueName) : op.draws a = [] := by
  unfold Op.draws
  split
  · exact absurd rfl h
  · rfl

/-- What is drawn is the time and the counter, which counts on. -/
theorem exec_draws {serde : Serde} {op : Op} {i : Nat} {c : Choice} {s t : Store} {a : op.Ans}
    (h : op.exec serde i c s = some (t, a)) {d : Nat × Nat} (hd : d ∈ op.draws a) :
    op = .uniqueName ∧ d = (s.now, s.counter) ∧ s.counter < t.counter := by
  by_cases hop : op = .uniqueName
  · subst hop
    obtain ⟨rfl, rfl⟩ := exec_uniqueName h
    exact ⟨rfl, List.mem_singleton.1 hd, Nat.lt_succ_self _⟩
  · rw [draws_eq_nil hop] at hd
    cases hd

/-- A file that a call opens stands under the name that the call was given. -/
theorem exec_opens {serde : Serde} {op : Op} {i : Nat} {c : Choice} {s t : Store} {a : op.Ans}
    (h : op.exec serde i c s = some (t, a)) {f : Nat} (hf : f ∈ op.opens a) :
    ∃ p ∈ op.files, t.disk.entry p = .file f := by
  unfold Op.opens at hf
  split at hf
  · next p f' =>
      rw [List.mem_singleton.1 hf]
      rcases exec_create h with (⟨-, e, he⟩ | ⟨-, ha, ht⟩) | ⟨g, hg, ha, ht⟩
      · cases he
      · cases ha
        rw [ht]
        exact ⟨p, List.mem_singleton_self p, Disk.create_entry_self _ _⟩
      · cases ha
        rw [ht]
        exact ⟨p, List.mem_singleton_self p, hg⟩
  · next p f' =>
      rw [List.mem_singleton.1 hf]
      rcases exec_createNew h with ⟨-, e, he⟩ | ⟨-, ha, ht⟩
      · cases he
      · cases ha
        rw [ht]
        exact ⟨p, List.mem_singleton_self p, Disk.create_entry_self _ _⟩
  · next p f' =>
      rw [List.mem_singleton.1 hf]
      obtain ⟨ht, ⟨e, he⟩ | ⟨g, hg, ha⟩⟩ := exec_openExisting h
      · cases he
      · cases ha
        rw [ht]
        exact ⟨p, List.mem_singleton_self p, hg⟩
  · cases hf

/-- A move to the name that succeeds. -/
theorem exec_moves {serde : Serde} {op : Op} {i : Nat} {c : Choice} {s t : Store} {a : op.Ans}
    {target : FsPath} (h : op.exec serde i c s = some (t, a)) (hmoves : op.moves target a = true) :
    ∃ source f, op = .rename source target ∧ s.disk.entry source = .file f ∧
      t = s.rename source target := by
  unfold Op.moves at hmoves
  split at hmoves
  · next source q _ =>
      have hq : q = target := of_decide_eq_true hmoves
      subst hq
      rcases exec_rename h with ⟨-, e, he⟩ | ⟨f, hf, -, -, ht⟩
      · cases he
      · exact ⟨source, f, rfl, hf, ht⟩
  · cases hmoves

/-- A look at the name that finds nothing. -/
theorem exec_misses {serde : Serde} {op : Op} {i : Nat} {c : Choice} {s t : Store} {a : op.Ans}
    {target : FsPath} (h : op.exec serde i c s = some (t, a)) (hmiss : op.misses target a = true) :
    t = s ∧ s.disk.entry target = .absent := by
  unfold Op.misses at hmiss
  split at hmiss
  · next p found =>
      obtain ⟨hp, hfound⟩ := Bool.and_eq_true_iff.1 hmiss
      obtain rfl : p = target := of_decide_eq_true hp
      obtain ⟨ht, hanswer⟩ := exec_tryExists h
      constructor
      · exact ht
      · by_contra hne
        rw [(hanswer found rfl).2 hne] at hfound
        cases hfound
  · cases hmiss

/-- What an upload request has got so far: the names it has drawn for temporaries, the files
it has opened, whether its last call found nothing at its target, and whether it has moved
a file there. -/
structure Stage where
  drawn : List (Nat × Nat)
  files : List Nat
  clear : Bool
  moved : Bool

namespace Stage

/-- A request has got nothing when it starts. -/
def first : Stage := ⟨[], [], false, false⟩

/-- A call is answered. -/
def after (target : FsPath) (g : Stage) (op : Op) (a : op.Ans) : Stage where
  drawn := op.draws a ++ g.drawn
  files := op.opens a ++ g.files
  clear := op.misses target a
  moved := op.moves target a || g.moved

/-- What the request may use apart from its target's name, and from new names. -/
def tools (g : Stage) (target : FsPath) : Grant where
  attempts := fun p => ∃ d ∈ g.drawn, p = tempPathFor target d.1 d.2
  handles := fun f => f ∈ g.files
  commits := False
  draws := False

/-- What the request may use at the stage. -/
def grant (g : Stage) (job : UploadJob) (target : FsPath) : Grant where
  attempts := (g.tools target).attempts
  handles := (g.tools target).handles
  commits := job.Commits ∧ (job.Creates → g.clear = true ∧ g.moved = false)
  draws := g.drawn = []

variable {target : FsPath} {job : UploadJob} {g g' : Stage}

theorem tools_within : (g.tools target).Within (g.grant job target) where
  attempts := fun _ h => h
  handles := fun _ h => h
  commits := False.elim
  draws := False.elim

/-- Files may have been opened in between, but no name drawn, and in Create mode nothing
moved. -/
structure Below (job : UploadJob) (g g' : Stage) : Prop where
  drawn : g'.drawn = g.drawn
  files : ∀ f ∈ g.files, f ∈ g'.files
  moved : job.Creates → g'.moved = g.moved

theorem Below.refl (job : UploadJob) (g : Stage) : Below job g g :=
  ⟨rfl, fun _ => id, fun _ => rfl⟩

theorem Below.trans {g'' : Stage} (h : Below job g g') (h' : Below job g' g'') :
    Below job g g'' where
  drawn := h'.drawn.trans h.drawn
  files := fun f hf => h'.files f (h.files f hf)
  moved := fun hc => (h'.moved hc).trans (h.moved hc)

theorem Below.tools (h : Below job g g') : (g.tools target).Within (g'.tools target) where
  attempts := by
    intro p hp
    obtain ⟨d, hd, hp⟩ := hp
    rw [← h.drawn] at hd
    exact ⟨d, hd, hp⟩
  handles := h.files
  commits := id
  draws := id

/-- An answer takes no tools away. -/
theorem tools_after (op : Op) (a : op.Ans) :
    (g.tools target).Within ((g.after target op a).tools target) where
  attempts := by
    intro p hp
    obtain ⟨d, hd, hp⟩ := hp
    exact ⟨d, List.mem_append_right _ hd, hp⟩
  handles := fun _ hf => List.mem_append_right _ hf
  commits := id
  draws := id

/-- An answer takes nothing away. -/
theorem below_after {op : Op} {a : op.Ans} (hdraws : op.draws a = [])
    (hmoves : job.Creates → op.moves target a = false) : Below job g (g.after target op a) where
  drawn := by
    unfold after
    rw [hdraws, List.nil_append]
  files := fun _ hf => List.mem_append_right _ hf
  moved := by
    intro hc
    unfold after
    rw [hmoves hc, Bool.false_or]

/-- A request that draws only where it has drawn nothing draws one name. -/
theorem length_drawn_after {op : Op} {a : op.Ans} (honce : g.drawn.length ≤ 1)
    (hdraws : op = .uniqueName → g.drawn = []) : (g.after target op a).drawn.length ≤ 1 := by
  unfold after
  by_cases hop : op = .uniqueName
  · rw [hdraws hop, List.append_nil]
    unfold Op.draws
    split
    · exact Nat.le_refl 1
    · exact Nat.zero_le 1
  · rw [draws_eq_nil hop]
    exact honce

end Stage

/-- A call that moves a file to the name puts one there. -/
theorem renames_of_moves {target : FsPath} {op : Op} {a : op.Ans}
    (h : op.moves target a = true) : op.renames = true ∧ target ∈ op.puts := by
  unfold Op.moves at h
  split at h
  · next source q _ =>
      rw [of_decide_eq_true h]
      exact ⟨rfl, List.mem_singleton_self target⟩
  · cases h

/-- An upload with files of a session has a path. -/
theorem SessionFile.resolves {srv : Server} {job : UploadJob} {p : FsPath}
    (h : SessionFile srv job p) : ∃ full, resolve srv.root job.path = .ok full := by
  cases h with
  | tmp hres _ => exact ⟨_, hres⟩
  | blocks hres _ => exact ⟨_, hres⟩
  | persist hres _ => exact ⟨_, hres⟩

theorem SessionFile.ne_target {srv : Server} {job : UploadJob} {p full : FsPath}
    (h : SessionFile srv job p) (hfull : resolve srv.root job.path = .ok full) : p ≠ full := by
  have hnames : ∀ {g : FsPath} (key : SessionKey), resolve srv.root job.path = .ok g →
      SessionNames full (sessionTempFor g key.id key.owner)
        (blocksPathFor (sessionTempFor g key.id key.owner))
        (persistPathFor (blocksPathFor (sessionTempFor g key.id key.owner))) := by
    intro g key hg
    rw [hfull] at hg
    cases hg
    exact sessionNames_distinct full key.id key.owner
  cases h with
  | tmp hg _ => exact (hnames _ hg).tmp_ne_target
  | blocks hg _ => exact (hnames _ hg).blocks_ne_target
  | persist hg _ => exact (hnames _ hg).persist_ne_target

/-! ## Programs and their stages -/

/-- From a stage on, the program asks for what its stages allow, and ends in `Q`. -/
def Fs.Staged {ε α : Type} (srv : Server) (job : UploadJob) (target : FsPath) (x : Fs ε α)
    (Q : Stage → Except ε α → Prop) (g : Stage) : Prop :=
  ∀ h, (x h).Staged (fun g c => AskedBy srv job (g.grant job target) c.1)
    (fun g c a => g.after target c.1 a) (fun g r => Q g r.1) g

section Rules

variable {srv : Server} {job : UploadJob} {target : FsPath} {ε ε' α β : Type} {g : Stage}

theorem staged_ret {a : α} {Q : Stage → Except ε α → Prop} (h : Q g (.ok a)) :
    Fs.Staged srv job target (ret a) Q g := tracked_ret h

theorem staged_fail {e : ε} {Q : Stage → Except ε α → Prop} (h : Q g (.error e)) :
    Fs.Staged srv job target (fail e) Q g := tracked_fail h

theorem Fs.Staged.mono {x : Fs ε α} {Q Q' : Stage → Except ε α → Prop}
    (hx : Fs.Staged srv job target x Q g) (h : ∀ g r, Q g r → Q' g r) :
    Fs.Staged srv job target x Q' g := Fs.Tracked.mono hx h

/-- Sequencing. -/
theorem staged_then {x : Fs ε α} {f : α → Fs ε β} {R : Stage → Except ε α → Prop}
    {Q : Stage → Except ε β → Prop} (hx : Fs.Staged srv job target x R g)
    (hok : ∀ g a, R g (.ok a) → Fs.Staged srv job target (f a) Q g)
    (herr : ∀ g e, R g (.error e) → Q g (.error e)) :
    Fs.Staged srv job target (x >>= f) Q g := tracked_then hx hok herr

theorem staged_attempt_then {x : Fs ε α} {f : Except ε α → Fs ε' β}
    {R : Stage → Except ε α → Prop} {Q : Stage → Except ε' β → Prop}
    (hx : Fs.Staged srv job target x R g)
    (hf : ∀ g r, R g r → Fs.Staged srv job target (f r) Q g) :
    Fs.Staged srv job target (attempt x >>= f) Q g := tracked_attempt_then hx hf

/-- `map_err` and `?` at the head of a `do` block. -/
theorem staged_orElse_then {f : ε → ε'} {x : Fs ε α} {k : α → Fs ε' β}
    {R : Stage → Except ε α → Prop} {Q : Stage → Except ε' β → Prop}
    (hx : Fs.Staged srv job target x R g)
    (hok : ∀ g a, R g (.ok a) → Fs.Staged srv job target (k a) Q g)
    (herr : ∀ g e, R g (.error e) → Q g (.error (f e))) :
    Fs.Staged srv job target (orElse f x >>= k) Q g := tracked_orElse_then hx hok herr

theorem staged_lift {r : Except ε α} {Q : Stage → Except ε α → Prop} (h : Q g r) :
    Fs.Staged srv job target (lift r) Q g := tracked_lift h

/-! The same at the head of a `do` block. -/

theorem staged_await_then {op : Op} {f : op.Ans → Fs ε β} {Q : Stage → Except ε β → Prop}
    (hop : AskedBy srv job (g.grant job target) op)
    (hf : ∀ a, Fs.Staged srv job target (f a) Q (g.after target op a)) :
    Fs.Staged srv job target (await op >>= f) Q g := tracked_await_then hop hf

theorem staged_other_then {r : Except IoError α} {f : α → Fs StorageError β}
    {Q : Stage → Except StorageError β → Prop}
    (hok : ∀ a, r = .ok a → Fs.Staged srv job target (f a) Q g)
    (herr : ∀ e, Q g (.error e)) : Fs.Staged srv job target (other r >>= f) Q g :=
  tracked_other_then hok fun _ _ => herr _

theorem staged_update_then {u : Held → Held} {f : Unit → Fs ε β} {Q : Stage → Except ε β → Prop}
    (hf : Fs.Staged srv job target (f ()) Q g) :
    Fs.Staged srv job target (update u >>= f) Q g := tracked_update_then hf

/-- A program whose calls are allowed at the stage where it begins, and move nothing to the
target. -/
theorem staged_of_asks {A : Grant} {x : Fs ε α} {R : α → Prop} {Q : Stage → Except ε α → Prop}
    (hx : Fs.Asks (AskedBy srv job A) R x) (hA : A.Within (g.grant job target))
    (hcalm : A.commits → ¬ job.Creates) (hdraws : ¬ A.draws)
    (hfull : ∀ full, resolve srv.root job.path = .ok full → full = target)
    (hQ : ∀ g' r, g.Below job g' → (∀ a, r = .ok a → R a) → Q g' r) :
    Fs.Staged srv job target x Q g := by
  intro held
  apply ((hx held).staged ?_ (Stage.Below.refl job g)).mono
  · intro g' r hr
    exact hQ g' r.1 hr.1 hr.2
  · intro g' c hbelow hop
    constructor
    · apply hop.mono
      constructor
      · exact fun p hp => hbelow.tools.attempts p (hA.attempts p hp)
      · exact fun f hf => hbelow.files f (hA.handles f hf)
      · intro hc
        exact ⟨(hA.commits hc).1, fun hcreates => absurd hcreates (hcalm hc)⟩
      · exact fun hd => absurd hd hdraws
    · intro a
      apply hbelow.trans
      apply Stage.below_after (draws_eq_nil fun heq => hdraws (hop.draws heq))
      intro hcreates
      by_contra hmoves
      obtain ⟨hrenames, hput⟩ := renames_of_moves (Bool.eq_true_of_not_eq_false hmoves)
      -- what the program moves goes onto a file of its session
      rcases hop.puts target hput with hs | ⟨hno, -⟩ | ⟨-, hc, -⟩
      · obtain ⟨full, hres⟩ := hs.resolves
        exact hs.ne_target hres (hfull full hres).symm
      · rw [hrenames] at hno
        cases hno
      · exact hcalm hc hcreates

end Rules

/-! ## The requests -/

theorem SinkOf.mono {srv : Server} {job : UploadJob} {A B : Grant} {sink : FsSink}
    (hsink : SinkOf srv job A sink) (h : A.Within B) : SinkOf srv job B sink where
  file := h.handles _ hsink.file
  target := hsink.target
  tmp := fun tmp htmp => (hsink.tmp tmp htmp).mono h
  blocks := hsink.blocks

/-- A sink at a stage.  In Create mode it has a temporary, which has not been moved. -/
structure Opened (srv : Server) (job : UploadJob) (target : FsPath) (mode : WriteMode)
    (g : Stage) (sink : FsSink) : Prop where
  sinkOf : SinkOf srv job (g.tools target) sink
  mode : sink.mode = mode
  fresh : job.Creates → g.moved = false ∧ ∃ tmp, sink.tmp = some tmp

theorem Opened.mono {srv : Server} {job : UploadJob} {target : FsPath} {mode : WriteMode}
    {g g' : Stage} {sink : FsSink} (h : Opened srv job target mode g sink)
    (hbelow : g.Below job g') : Opened srv job target mode g' sink where
  sinkOf := h.sinkOf.mono hbelow.tools
  mode := h.mode
  fresh := fun hc => ⟨(hbelow.moved hc).trans (h.fresh hc).1, (h.fresh hc).2⟩

/-- The last call found nothing at the target, and nothing has been moved there. -/
structure Cleared (target : FsPath) (g g' : Stage) : Prop where
  within : (g.tools target).Within (g'.tools target)
  clear : g'.clear = true
  moved : g'.moved = false

/-- A success comes after the move. -/
def OnceMoved {ε α : Type} (g : Stage) (r : Except ε α) : Prop := ∀ a, r = .ok a → g.moved = true

theorem onceMoved_error {ε α : Type} (g : Stage) (e : ε) :
    OnceMoved g (.error e : Except ε α) := by
  intro a ha
  cases ha

section Requests

variable {srv : Server} {job : UploadJob} {target : FsPath} {ε α : Type} {g : Stage}

/-- The program uses what the stage gives it, and leaves the target's name alone. -/
theorem staged_tools {x : Fs ε α} {R : α → Prop} {Q : Stage → Except ε α → Prop}
    (hfull : ∀ full, resolve srv.root job.path = .ok full → full = target)
    (hx : Fs.Asks (AskedBy srv job (g.tools target)) R x)
    (hQ : ∀ g' r, g.Below job g' → (∀ a, r = .ok a → R a) → Q g' r) :
    Fs.Staged srv job target x Q g :=
  staged_of_asks hx Stage.tools_within False.elim id hfull hQ

section Opening

variable (hfull : resolve srv.root job.path = .ok target)

include hfull

theorem target_of_full (full : FsPath) (h : resolve srv.root job.path = .ok full) :
    full = target := by
  rw [hfull] at h
  cases h
  rfl

theorem staged_writeStreamTemp (mode : WriteMode) (hdrawn : g.drawn = [])
    (hg : job.Creates → g.moved = false) :
    Fs.Staged srv job target (writeStreamTemp target job.path mode)
      (fun g r => ∀ sink, r = .ok sink → Opened srv job target mode g sink) g := by
  unfold writeStreamTemp
  apply staged_then (staged_tools (target_of_full hfull) (asks_refuseExisting hfull mode)
    fun g' r hbelow _ => (hbelow : g.Below job g'))
  · intro g' _ hbelow
    apply staged_await_then (askedBy_draw (hbelow.drawn.trans hdrawn))
    intro drawn
    obtain ⟨nanos, counter⟩ := drawn
    apply staged_await_then (askedBy_made rfl rfl ⟨rfl, rfl, rfl, rfl⟩
      (.attempt ⟨(nanos, counter), List.mem_cons_self, rfl⟩))
    intro r
    apply staged_other_then
    · intro file hfile
      subst hfile
      apply staged_update_then
      apply staged_update_then
      apply staged_ret
      intro sink hsink
      cases hsink
      constructor
      · constructor
        · exact List.mem_cons_self
        · exact hfull
        · intro tmp htmp
          cases htmp
          exact .attempt ⟨(nanos, counter), List.mem_cons_self, rfl⟩
        · intro b hb
          cases hb
      · rfl
      · intro hc
        exact ⟨(hbelow.moved hc).trans (hg hc), _, rfl⟩
    · intro e sink hsink
      cases hsink
  · intro g' e _ sink hsink
    cases hsink

theorem staged_writeStreamResume (offset : Nat) (hcreates : ¬ job.Creates) :
    Fs.Staged srv job target (writeStreamResume target job.path offset)
      (fun g r => ∀ sink, r = .ok sink → Opened srv job target (.resume offset) g sink) g := by
  unfold writeStreamResume
  apply staged_await_then (askedBy_file rfl ⟨rfl, rfl, rfl, rfl⟩ (.target hfull))
  intro _
  apply staged_await_then (askedBy_file rfl ⟨rfl, rfl, rfl, rfl⟩ (.target hfull))
  intro r
  apply staged_other_then
  · intro file hfile
    subst hfile
    apply staged_update_then
    apply staged_await_then (askedBy_idle rfl rfl rfl)
    intro r
    apply staged_other_then
    · intro current _
      split
      · apply staged_fail
        intro sink hsink
        cases hsink
      · apply staged_update_then
        apply staged_ret
        intro sink hsink
        cases hsink
        constructor
        · constructor
          · exact List.mem_append_right _ List.mem_cons_self
          · exact hfull
          · intro tmp htmp
            cases htmp
          · intro b hb
            cases hb
        · rfl
        · intro hc
          exact absurd hc hcreates
    · intro e sink hsink
      cases hsink
  · intro e sink hsink
    cases hsink

theorem staged_openSessionTemp {tmp : FsPath} (htmp : SessionFile srv job tmp)
    (mode : WriteMode) (tmpExists : Bool) :
    Fs.Staged srv job target (openSessionTemp target tmp job.path mode tmpExists)
      (fun g r => ∀ file, r = .ok file → file ∈ g.files) g := by
  -- what `create_new` answers is an open file
  have hcreate : ∀ m : WriteMode, Fs.Staged srv job target (do
      refuseExisting target job.path m
      other (← await (.createNew tmp))) (fun g r => ∀ file, r = .ok file → file ∈ g.files) g := by
    intro m
    apply staged_then (staged_tools (target_of_full hfull) (asks_refuseExisting hfull m)
      fun g' r hbelow _ => (hbelow : g.Below job g'))
    · intro g' _ _
      apply staged_await_then (askedBy_made rfl rfl ⟨rfl, rfl, rfl, rfl⟩ (.session htmp))
      intro r
      apply staged_lift
      intro file hfile
      cases r with
      | ok f =>
          cases hfile
          exact List.mem_cons_self
      | error e => cases hfile
    · intro g' e _ file hfile
      cases hfile
  unfold openSessionTemp
  split
  · apply staged_await_then (askedBy_file rfl ⟨rfl, rfl, rfl, rfl⟩ (.made (.session htmp)))
    intro r
    apply staged_lift
    intro file hfile
    cases r with
    | ok f =>
        cases hfile
        exact List.mem_cons_self
    | error e => cases hfile
  · cases mode with
    | resume offset =>
        apply staged_fail
        intro file hfile
        cases hfile
    | create => exact hcreate _
    | overwrite => exact hcreate _

end Opening

variable (htarget : ∀ full, resolve srv.root job.path = .ok full → full = target)

include htarget

theorem staged_writeStreamSession {key : SessionKey} (hkey : job.session = some key)
    (mode : WriteMode) :
    Fs.Staged srv job target
      (writeStreamSession srv.serde srv.root job.path key.id key.owner mode)
      (fun g r => ∀ sink, r = .ok sink → Opened srv job target mode g sink) g := by
  have hcreates : ¬ job.Creates := by
    intro hc
    rw [hc.1] at hkey
    cases hkey
  unfold writeStreamSession
  apply staged_then (staged_tools htarget asks_prepare
    fun g' r _ hr => (hr : ∀ full, r = .ok full → resolve srv.root job.path = .ok full))
  · intro g₁ full hres
    have hfull := hres full rfl
    obtain rfl := htarget full hfull
    have htmp : SessionFile srv job (sessionTempFor full key.id key.owner) := .tmp hfull hkey
    have hblocks := SessionFile.blocks hfull hkey
    apply staged_await_then (askedBy_file rfl ⟨rfl, rfl, rfl, rfl⟩ (.made (.session htmp)))
    intro r
    apply staged_other_then
    · intro tmpExists _
      apply staged_then (staged_openSessionTemp hfull htmp mode tmpExists)
      · intro g₂ file hfile
        apply staged_update_then
        apply staged_await_then (askedBy_file rfl ⟨rfl, rfl, rfl, rfl⟩ (.made (.session htmp)))
        intro _
        -- what is left uses no more than the file that is open
        have hopen : ∀ g₃ ranges, g₂.Below job g₃ → Fs.Staged srv job full
            (openSink ⟨file, some (sessionTempFor full key.id key.owner), full, job.path, mode,
              some (blocksPathFor (sessionTempFor full key.id key.owner))⟩ 0 ranges)
            (fun g r => ∀ sink, r = .ok sink → Opened srv job full mode g sink) g₃ := by
          intro g₃ ranges hbelow
          apply staged_update_then
          apply staged_ret
          intro sink hsink
          cases hsink
          constructor
          · constructor
            · exact hbelow.files file (hfile file rfl)
            · exact hfull
            · intro tmp h
              cases h
              exact .session htmp
            · intro b h
              cases h
              exact ⟨hblocks, .persist hfull hkey⟩
          · rfl
          · intro hc
            exact absurd hc hcreates
        have hlock : g₂.Below job (g₂.after full (.lock (sessionTempFor full key.id key.owner))
            ()) := Stage.below_after rfl fun _ => rfl
        cases tmpExists with
        | true =>
            apply staged_then (staged_tools htarget (asks_readRanges (.made (.session hblocks)))
              fun g' r hbelow _ => hlock.trans hbelow)
            · intro g₃ ranges hbelow
              exact hopen g₃ ranges hbelow
            · intro g₃ e _ sink hsink
              cases hsink
        | false =>
            have hremove : Fs.Asks (AskedBy srv job ((g₂.after full
                (.lock (sessionTempFor full key.id key.owner)) ()).tools full)) (fun _ => True)
                (removeBlocksSidecar (some (blocksPathFor
                  (sessionTempFor full key.id key.owner)))) := by
              apply asks_removeBlocksSidecar
              intro p hp
              cases hp
              exact hblocks
            apply staged_then (staged_tools htarget hremove fun g' r hbelow _ =>
              hlock.trans hbelow)
            · intro g₃ _ hbelow
              exact hopen g₃ [] hbelow
            · intro g₃ e _ sink hsink
              cases hsink
      · intro g₂ e _ sink hsink
        cases hsink
    · intro e sink hsink
      cases hsink
  · intro g₁ e _ sink hsink
    cases hsink

theorem staged_writeStream (mode : WriteMode) (hdrawn : g.drawn = [])
    (hg : job.Creates → g.moved = false) (hmode : job.Creates → mode = .create) :
    Fs.Staged srv job target (writeStream srv.root job.path mode)
      (fun g r => ∀ sink, r = .ok sink → Opened srv job target mode g sink) g := by
  unfold writeStream
  apply staged_then (staged_tools htarget asks_prepare
    fun g' r hbelow hr => (⟨hbelow, hr⟩ : g.Below job g' ∧
      ∀ full, r = .ok full → resolve srv.root job.path = .ok full))
  · intro g' full hres
    obtain ⟨hbelow, hres⟩ := hres
    have hfull := hres full rfl
    obtain rfl := htarget full hfull
    have hfresh : job.Creates → g'.moved = false := fun hc => (hbelow.moved hc).trans (hg hc)
    have hnone := hbelow.drawn.trans hdrawn
    cases mode with
    | create => exact staged_writeStreamTemp hfull _ hnone hfresh
    | overwrite => exact staged_writeStreamTemp hfull _ hnone hfresh
    | resume offset =>
        apply staged_writeStreamResume hfull
        intro hc
        cases hmode hc
  · intro g' e _ sink hsink
    cases hsink

/-! ### Commits in Create mode -/

variable (hcreates : job.Creates)

/-- A sink is aborted: the request does not succeed. -/
theorem staged_abortWith {sink : FsSink} (hsink : SinkOf srv job (g.tools target) sink)
    (e : ApiError) :
    Fs.Staged srv job target (abortWith sink e : Fs ApiError α) OnceMoved g := by
  apply staged_tools htarget (asks_abortWith hsink e : Fs.Asks _ (fun _ => False) _)
  intro g' r _ hr a ha
  exact absurd (hr a ha) id

include hcreates

/-- The last look at the target. -/
theorem staged_refuseAppeared {sink : FsSink} {tmp : FsPath}
    (hopened : Opened srv job target .create g sink) (htmp : sink.tmp = some tmp) :
    Fs.Staged srv job target (sink.refuseAppeared tmp)
      (fun g' r => ∀ a, r = .ok a → Cleared target g g') g := by
  have hfull := hopened.sinkOf.target
  have hmade := hopened.sinkOf.tmp tmp htmp
  unfold FsSink.refuseAppeared
  rw [if_pos hopened.mode]
  apply staged_await_then (askedBy_file rfl ⟨rfl, rfl, rfl, rfl⟩ (.target hfull))
  intro r
  apply staged_other_then
  · intro found hfound
    subst hfound
    have hbelow : g.Below job (g.after target (.tryExists sink.target) (.ok found)) :=
      Stage.below_after rfl fun _ => rfl
    cases found with
    | true =>
        apply staged_await_then (askedBy_removed ((hmade.mono hbelow.tools).mono
          Stage.tools_within))
        intro _
        apply staged_fail
        intro a ha
        cases ha
    | false =>
        apply staged_ret
        intro _ _
        have hmiss : Op.misses target (.tryExists sink.target) (.ok false) = true := by
          rw [htarget _ hfull]
          simp [Op.misses]
        exact ⟨hbelow.tools, hmiss, (hopened.fresh hcreates).1⟩
  · intro e a ha
    cases ha

/-- The move onto the target: only where the last call found nothing there. -/
theorem staged_publish {sink : FsSink} {tmp : FsPath}
    (hopened : Opened srv job target .create g sink) (htmp : sink.tmp = some tmp) :
    Fs.Staged srv job target (sink.publish tmp) OnceMoved g := by
  have hfull := hopened.sinkOf.target
  have hcommits : job.Commits := by
    intro key hkey
    rw [hcreates.1] at hkey
    cases hkey
  have hmade := hopened.sinkOf.tmp tmp htmp
  unfold FsSink.publish
  apply staged_then (staged_refuseAppeared htarget hcreates hopened htmp)
  · intro g' a hr
    obtain ⟨hwithin, hclear, hmoved⟩ := hr a rfl
    unfold FsSink.moveIntoPlace
    apply staged_await_then (askedBy_rename ((hmade.mono hwithin).mono Stage.tools_within)
      (Or.inr ⟨⟨hcommits, fun _ => ⟨hclear, hmoved⟩⟩, hfull⟩))
    intro r
    apply staged_other_then
    · intro done hdone
      subst hdone
      have hmoved' : (g'.after target (.rename tmp sink.target) (.ok done)).moved = true := by
        rw [htarget _ hfull]
        simp [Stage.after, Op.moves]
      apply staged_tools htarget (asks_syncParent (hopened.sinkOf.mono
        (hwithin.trans (Stage.tools_after _ _))))
      intro g'' r hbelow _ _ _
      exact (hbelow.moved hcreates).trans hmoved'
    · intro e
      exact onceMoved_error _ e
  · intro g' e _
    exact onceMoved_error _ e

theorem staged_commit {sink : FsSink} (hopened : Opened srv job target .create g sink)
    (etag : Nat → Nat → Text) :
    Fs.Staged srv job target (sink.commit etag) OnceMoved g := by
  have herror : ∀ g' (e : StorageError), OnceMoved g' (.error e : Except StorageError FileMeta) :=
    fun g' e => onceMoved_error g' e
  have hsync : ∀ g', Stage.Below job g' (g'.after target (.sync sink.file) (.ok ())) :=
    fun _ => Stage.below_after rfl fun _ => rfl
  obtain ⟨tmp, htmp⟩ := (hopened.fresh hcreates).2
  unfold FsSink.commit
  apply staged_then (staged_tools htarget (asks_removeBlocksSidecar fun p hp =>
    (hopened.sinkOf.blocks p hp).1) fun g' r hbelow _ => (hbelow : g.Below job g'))
  · intro g₁ _ hbelow₁
    apply staged_await_then (askedBy_idle rfl rfl rfl)
    intro r
    apply staged_other_then
    · intro _ _
      apply staged_await_then (askedBy_idle rfl rfl rfl)
      intro r
      apply staged_other_then
      · intro _ _
        have hopened₂ := ((hopened.mono hbelow₁).mono (hsync g₁)).mono (hsync _)
        rw [htmp]
        apply staged_then (staged_publish htarget hcreates hopened₂ htmp)
        · intro g₂ a hmoved
          apply staged_await_then (askedBy_file rfl ⟨rfl, rfl, rfl, rfl⟩
            (.target hopened.sinkOf.target))
          intro r
          apply staged_other_then
          · intro stat _
            apply staged_ret
            intro _ _
            exact hmoved a rfl
          · exact herror _
        · intro g' e _
          exact herror g' e
      · exact herror _
    · exact herror _
  · intro g₁ e _
    exact herror g₁ e

theorem staged_serveSequential {sink : FsSink}
    (hopened : Opened srv job target .create g sink) :
    Fs.Staged srv job target (serveSequential srv job .create sink) OnceMoved g := by
  unfold serveSequential
  apply staged_attempt_then (staged_tools htarget (asks_streamBody job.body fun count data =>
    asks_writeBatch hopened.sinkOf WriteMode.create.resumeOffset job.fileMeta.size count data)
      fun g' r hbelow _ => (hbelow : g.Below job g'))
  intro g' r hbelow
  have hopened' := hopened.mono hbelow
  cases r with
  | error e => exact staged_abortWith htarget hopened'.sinkOf e.error
  | ok appended =>
      dsimp only
      split
      · exact staged_abortWith htarget hopened'.sinkOf _
      · unfold commitReply
        apply staged_orElse_then (staged_commit htarget hcreates hopened' srv.etag)
        · intro g'' file hmoved
          apply staged_ret
          intro _ _
          exact hmoved file rfl
        · intro g'' e _
          exact onceMoved_error g'' _

end Requests

/-- **An upload request asks at each stage only for what it has got, and in Create mode
succeeds only once it has moved its file onto the target.** -/
theorem runUpload_staged {srv : Server} {job : UploadJob} {target : FsPath}
    (htarget : ∀ full, resolve srv.root job.path = .ok full → full = target) :
    Fs.Staged srv job target (runUpload srv job)
      (fun g r => job.Creates → OnceMoved g r) Stage.first := by
  have herror : ∀ (g : Stage) (e : ApiError),
      job.Creates → OnceMoved g (.error e : Except ApiError Reply) :=
    fun g e _ => onceMoved_error g e
  -- outside Create mode the commit needs no stage
  have hplain : ∀ {mode : WriteMode} {g : Stage} {sink : FsSink}, ¬ job.Creates →
      Opened srv job target mode g sink → ∀ {x : Fs ApiError Reply},
      (∀ A : Grant, (job.Commits → A.commits) → SinkOf srv job A sink →
        Fs.Asks (AskedBy srv job A) (fun _ => True) x) →
      Fs.Staged srv job target x (fun g r => job.Creates → OnceMoved g r) g := by
    intro mode g sink hnot hopened x hx
    have hsink : SinkOf srv job { g.tools target with commits := job.Commits } sink :=
      hopened.sinkOf.mono ⟨fun _ => id, fun _ => id, False.elim, False.elim⟩
    apply staged_of_asks (hx _ id hsink) ⟨fun _ => id, fun _ => id, ?_, False.elim⟩
      (fun _ => hnot) id htarget
    · intro g' r _ _ hc
      exact absurd hc hnot
    · intro hcommits
      exact ⟨hcommits, fun hc => absurd hc hnot⟩
  unfold runUpload
  cases hkey : job.session with
  | some key =>
      have hnot : ¬ job.Creates := by
        intro hc
        rw [hc.1] at hkey
        cases hkey
      unfold uploadSession
      have hbase : Fs.Staged srv job target (lift (baseOffset job.offsetHdr)) (fun _ _ => True)
          Stage.first := staged_lift trivial
      apply staged_then hbase
      · intro g base _
        apply staged_orElse_then (staged_writeStreamSession htarget hkey _)
        · intro g' sink hopened
          apply hplain hnot (hopened sink rfl)
          intro A hA hsink
          exact asks_serveSession hsink hkey hA base
        · intro g' e _
          exact herror g' _
      · intro g e _
        exact herror g e
  | none =>
      unfold uploadSequential
      have hlift : Fs.Staged srv job target (lift (writeMode job.offsetHdr))
          (fun g r => g = Stage.first ∧ r = writeMode job.offsetHdr) Stage.first :=
        staged_lift ⟨rfl, rfl⟩
      apply staged_then hlift
      · intro g mode hmode
        obtain ⟨rfl, hmode⟩ := hmode
        have hcreate : job.Creates → mode = .create := by
          intro hc
          rw [hc.2] at hmode
          exact Except.ok.inj hmode
        apply staged_orElse_then (staged_writeStream htarget mode rfl (fun _ => rfl) hcreate)
        · intro g sink hopened
          by_cases hc : job.Creates
          · obtain rfl := hcreate hc
            exact (staged_serveSequential htarget hc (hopened sink rfl)).mono fun g r h _ => h
          · apply hplain hc (hopened sink rfl)
            intro A hA hsink
            apply asks_serveSequential hsink
            apply hA
            intro key h
            rw [hkey] at h
            cases h
        · intro g e _
          exact herror g _
      · intro g e _
        exact herror g e

/-- **An upload request asks only for its own files, whatever it is answered.** -/
theorem runUpload_asks {srv : Server} {job : UploadJob} :
    Fs.Asks (AskedBy srv job (.whole srv job)) (fun _ => True) (runUpload srv job) := by
  cases hres : resolve srv.root job.path with
  | ok target =>
      intro held
      apply (runUpload_staged (target_of_full hres) held).along
      · intro g c hop
        apply hop.mono
        constructor
        · intro p hp
          obtain ⟨d, -, hp⟩ := hp
          exact ⟨target, d.1, d.2, hres, hp⟩
        · intro _ _
          trivial
        · exact fun hc => hc.1
        · exact fun _ => trivial
      · intro g r _ a _
        trivial
  | error e =>
      -- nothing is asked for where the path does not resolve
      have hnone : ∀ full, resolve srv.root job.path ≠ .ok full := by
        intro full hfull
        rw [hres] at hfull
        cases hfull
      unfold runUpload
      cases job.session with
      | some key =>
          unfold uploadSession writeStreamSession
          apply asks_then (asks_lift fun _ _ => trivial)
          intro base (_ : True)
          apply asks_then (asks_orElse (asks_then asks_prepare fun full hfull =>
            absurd hfull (hnone full)))
          intro sink (hsink : False)
          exact absurd hsink id
      | none =>
          unfold uploadSequential writeStream
          apply asks_then (asks_lift fun _ _ => trivial)
          intro mode (_ : True)
          apply asks_then (asks_orElse (asks_then asks_prepare fun full hfull =>
            absurd hfull (hnone full)))
          intro sink (hsink : False)
          exact absurd hsink id

end Libfw

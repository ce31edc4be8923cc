import Libfw.UploadHandlers

/-!
# Upload requests over one store

`uploadSystem` runs any number of upload requests over the shared store, one
awaited call a step; a request may be dropped wherever it waits, and its lock is
released when it ends either way.

`Fs.Wp` is the weakest precondition of the library for the `Fs` monad, with one
rule for each way of building a program.
-/

namespace Libfw

open SteppedPrograms Fs PosixStore

/-- What happens outside all requests: time passes, or another program puts a
complete file under a path. -/
inductive Outside where
  | tick (nanos : Nat)
  | place (path : FsPath) (cells : List (Option UInt8))

def Outside.apply : Outside → Store → Store
  | .tick nanos, s => { s with now := s.now + nanos }
  | .place path cells, s => s.create path (.bytes cells)

/-- The upload requests of a server, interleaved call by call. -/
def uploadSystem (srv : Server) :
    System Call Call.Ans UploadJob (Except ApiError Reply × Held) Choice Outside Store where
  code := fun job => runUpload srv job Held.nothing
  exec := fun i call c s => call.1.exec srv.serde i c s
  enter := fun _ _ s => s
  leave := fun i s => s.release i
  disturb := Outside.apply

abbrev UploadState :=
  State Call Call.Ans UploadJob (Except ApiError Reply × Held) Store

abbrev UploadAct := Act UploadJob Choice Outside

abbrev UploadDiscipline := Discipline Call UploadJob Choice Outside Store

/-- No request has started. -/
def atRest (s : Store) : UploadState := ⟨s, fun _ => .idle⟩

/-- Before any request the invariant is all there is to show. -/
theorem good_atRest {srv : Server} {D : UploadDiscipline}
    {Q : Nat → UploadJob → Except ApiError Reply × Held → Store → Prop} {s : Store}
    (hinv : D.inv s) : Good (uploadSystem srv) D Q (atRest s) :=
  ⟨hinv, fun _ _ _ _ hwait => nomatch hwait⟩

/-- A request that ends releases its locks; the disk stays. -/
theorem put_disk {srv : Server} {s : UploadState} {sh : Store} {j : Nat} {job : UploadJob}
    {p : Code (Except ApiError Reply × Held)} :
    ((uploadSystem srv).put s sh j job p).shared.disk = sh.disk := by
  cases p with
  | done r => rfl
  | call o k => rfl

/-- What `release` leaves is held by others. -/
theorem holder_release {s : Store} {p : FsPath} {i j : Nat}
    (h : (s.release j).holder p = some i) : i ≠ j ∧ s.holder p = some i := by
  unfold Store.release at h
  by_cases hj : s.holder p = some j
  · simp only [if_pos hj] at h
    cases h
  · simp only [if_neg hj] at h
    refine ⟨?_, h⟩
    rintro rfl
    exact hj h

theorem holder_put {srv : Server} {s : UploadState} {sh : Store} {i j : Nat}
    {job : UploadJob} {prog : Code (Except ApiError Reply × Held)} {p : FsPath}
    (h : ((uploadSystem srv).put s sh j job prog).shared.holder p = some i) :
    (i ≠ j ∧ sh.holder p = some i) ∨
      (i = j ∧ ∃ call k, ((uploadSystem srv).put s sh j job prog).task i =
        .waiting job call k) := by
  cases prog with
  | done r => exact Or.inl (holder_release h)
  | call o k =>
      by_cases hij : i = j
      · subst hij
        exact Or.inr ⟨rfl, o, k, State.set_task_self _ _ _ _⟩
      · exact Or.inl ⟨hij, h⟩

/-- A lock is held by a request that waits for a call. -/
theorem waiting_of_holder {srv : Server} {ok : UploadState → UploadAct → Prop} {s₀ : Store}
    {p : FsPath} (hfree : s₀.holder p = none) {s : UploadState}
    (hrun : (uploadSystem srv).Reaches ok (atRest s₀) s) {i : Nat}
    (hi : s.shared.holder p = some i) : ∃ job call k, s.task i = .waiting job call k := by
  induction hrun generalizing i with
  | refl =>
      rw [show (atRest s₀).shared.holder p = s₀.holder p from rfl, hfree] at hi
      cases hi
  | @tail u t a _ _ hnext ih =>
      rcases System.next_cases hnext with ⟨j, job, -, -, rfl⟩ |
        ⟨j, c, job, o, k, sh, ans, -, -, hexec, rfl⟩ | ⟨j, job, o, k, -, -, rfl⟩ |
        ⟨e, -, rfl⟩
      · rcases holder_put hi with ⟨hij, hi⟩ | ⟨rfl, call, k, hwait⟩
        · rw [System.put_task_ne _ _ _ _ hij]
          exact ih hi
        · exact ⟨job, call, k, hwait⟩
      · rcases holder_put hi with ⟨hij, hi⟩ | ⟨rfl, call, k', hwait⟩
        · rw [System.put_task_ne _ _ _ _ hij]
          have hu : u.shared.holder p = some i := by
            rcases exec_holder hexec with heq | ⟨path, rfl⟩
            · rw [← heq]
              exact hi
            · unfold Store.acquire at hi
              by_cases hp : p = path
              · simp only [if_pos hp] at hi
                cases hi
                exact absurd rfl hij
              · simp only [if_neg hp] at hi
                exact hi
          exact ih hu
        · exact ⟨job, call, k', hwait⟩
      · obtain ⟨hij, hi⟩ := holder_release hi
        rw [State.set_task_ne _ _ _ _ _ hij]
        exact ih hi
      · cases e with
        | tick n => exact ih hi
        | place path cs => exact ih hi

section Rules

variable {srv : Server} {D : UploadDiscipline} {i : Nat} {job : UploadJob}
  {ε ε' α β : Type} {h : Held} {s : Store}

/-- An `Fs` program respects the discipline and ends in `Q`, from what its sink
holds and from a store. -/
def Fs.Wp (srv : Server) (D : UploadDiscipline) (i : Nat) (job : UploadJob)
    (x : Fs ε α) (Q : Except ε α → Held → Store → Prop) (h : Held) (s : Store) : Prop :=
  wp (uploadSystem srv) D i job (x h) (fun r s => Q r.1 r.2 s) s

theorem wp_ret {a : α} {Q : Except ε α → Held → Store → Prop} :
    Fs.Wp srv D i job (ret a) Q h s ↔ Q (.ok a) h s := Iff.rfl

theorem wp_fail {e : ε} {Q : Except ε α → Held → Store → Prop} :
    Fs.Wp srv D i job (fail e) Q h s ↔ Q (.error e) h s := Iff.rfl

/-- What a program has to establish for the rest of a `do` block. -/
def Then (srv : Server) (D : UploadDiscipline) (i : Nat) (job : UploadJob)
    (f : α → Fs ε β) (Q : Except ε β → Held → Store → Prop) :
    Except ε α → Held → Store → Prop
  | .ok a, h, s => Fs.Wp srv D i job (f a) Q h s
  | .error e, h, s => Q (.error e) h s

theorem wp_seq {x : Fs ε α} {f : α → Fs ε β} {Q : Except ε β → Held → Store → Prop} :
    Fs.Wp srv D i job (x >>= f) Q h s ↔
      Fs.Wp srv D i job x (Then srv D i job f Q) h s := by
  show wp (uploadSystem srv) D i job ((x h).bind _) _ s ↔ _
  rw [SteppedPrograms.wp_bind]
  constructor
  · intro hx
    apply wp_mono hx
    rintro ⟨r, h'⟩ t hr
    cases r with
    | ok a => exact hr
    | error e => exact hr
  · intro hx
    apply wp_mono hx
    rintro ⟨r, h'⟩ t hr
    cases r with
    | ok a => exact hr
    | error e => exact hr

theorem wp_weaken {x : Fs ε α} {Q Q' : Except ε α → Held → Store → Prop}
    (hx : Fs.Wp srv D i job x Q h s) (hQ : ∀ r h s, Q r h s → Q' r h s) :
    Fs.Wp srv D i job x Q' h s :=
  wp_mono hx fun r t hr => hQ r.1 r.2 t hr

/-- Sequencing with a specification of the first part. -/
theorem wp_then {x : Fs ε α} {f : α → Fs ε β} {R : Except ε α → Held → Store → Prop}
    {Q : Except ε β → Held → Store → Prop} (hx : Fs.Wp srv D i job x R h s)
    (hok : ∀ a h s, R (.ok a) h s → Fs.Wp srv D i job (f a) Q h s)
    (herr : ∀ e h s, R (.error e) h s → Q (.error e) h s) :
    Fs.Wp srv D i job (x >>= f) Q h s := by
  rw [wp_seq]
  refine wp_weaken hx ?_
  intro r h s hr
  cases r with
  | ok a => exact hok a h s hr
  | error e => exact herr e h s hr

theorem wp_attempt {x : Fs ε α} {Q : Except ε' (Except ε α) → Held → Store → Prop} :
    Fs.Wp srv D i job (attempt x) Q h s ↔
      Fs.Wp srv D i job x (fun r => Q (.ok r)) h s :=
  SteppedPrograms.wp_bind

theorem wp_lift {r : Except ε α} {Q : Except ε α → Held → Store → Prop} :
    Fs.Wp srv D i job (lift r) Q h s ↔ Q r h s := by
  cases r with
  | ok a => exact Iff.rfl
  | error e => exact Iff.rfl

/-- `map_err`: the result with its error replaced. -/
theorem wp_orElse {f : ε → ε'} {x : Fs ε α} {Q : Except ε' α → Held → Store → Prop} :
    Fs.Wp srv D i job (orElse f x) Q h s ↔
      Fs.Wp srv D i job x (fun r => Q (r.mapError f)) h s := by
  unfold orElse
  rw [wp_seq, wp_attempt]
  constructor
  · intro hx
    refine wp_weaken hx ?_
    intro r h s hr
    cases r with
    | ok a => exact hr
    | error e => exact hr
  · intro hx
    refine wp_weaken hx ?_
    intro r h s hr
    cases r with
    | ok a => exact hr
    | error e => exact hr

theorem wp_orElse_then {f : ε → ε'} {x : Fs ε α} {g : α → Fs ε' β}
    {R : Except ε α → Held → Store → Prop} {Q : Except ε' β → Held → Store → Prop}
    (hx : Fs.Wp srv D i job x R h s)
    (hok : ∀ a h s, R (.ok a) h s → Fs.Wp srv D i job (g a) Q h s)
    (herr : ∀ e h s, R (.error e) h s → Q (.error (f e)) h s) :
    Fs.Wp srv D i job (orElse f x >>= g) Q h s := by
  refine wp_seq.2 (wp_orElse.2 (wp_weaken hx ?_))
  intro r h s hr
  cases r with
  | ok a => exact hok a h s hr
  | error e => exact herr e h s hr

theorem wp_update {f : Held → Held} {Q : Except ε Unit → Held → Store → Prop} :
    Fs.Wp srv D i job (update f) Q h s ↔ Q (.ok ()) (f h) s := Iff.rfl

theorem wp_other {r : Except IoError α} {Q : Except StorageError α → Held → Store → Prop} :
    Fs.Wp srv D i job (other r) Q h s ↔
      Q (r.mapError fun e => .other e.message) h s := wp_lift

/-! The same at the head of a `do` block. -/

theorem wp_held_then {f : Held → Fs ε β} {Q : Except ε β → Held → Store → Prop} :
    Fs.Wp srv D i job (held >>= f) Q h s ↔ Fs.Wp srv D i job (f h) Q h s := Iff.rfl

theorem wp_update_then {g : Held → Held} {f : Unit → Fs ε β}
    {Q : Except ε β → Held → Store → Prop} :
    Fs.Wp srv D i job (update g >>= f) Q h s ↔ Fs.Wp srv D i job (f ()) Q (g h) s := Iff.rfl

/-- `?` on a value. -/
theorem wp_lift_then {r : Except ε α} {f : α → Fs ε β}
    {Q : Except ε β → Held → Store → Prop}
    (hok : ∀ a, r = .ok a → Fs.Wp srv D i job (f a) Q h s)
    (herr : ∀ e, r = .error e → Q (.error e) h s) :
    Fs.Wp srv D i job (lift r >>= f) Q h s := by
  rw [wp_seq, wp_lift]
  cases r with
  | ok a => exact hok a rfl
  | error e => exact herr e rfl

/-- `?` on the result of a call. -/
theorem wp_other_then {r : Except IoError α} {f : α → Fs StorageError β}
    {Q : Except StorageError β → Held → Store → Prop}
    (hok : ∀ a, r = .ok a → Fs.Wp srv D i job (f a) Q h s)
    (herr : ∀ e, r = .error e → Q (.error (.other e.message)) h s) :
    Fs.Wp srv D i job (other r >>= f) Q h s := by
  refine wp_lift_then ?_ ?_
  · intro a ha
    cases r with
    | ok b =>
        cases ha
        exact hok a rfl
    | error e => cases ha
  · intro e he
    cases r with
    | ok b => cases he
    | error e' =>
        cases he
        exact herr e' rfl

/-- Awaiting a call: others may have moved, then the call is carried out. -/
theorem wp_await {op : Op} {Q : Except ε op.Ans → Held → Store → Prop} :
    Fs.Wp srv D i job (await op) Q h s ↔
      ∀ s₁, D.rely i s s₁ → D.inv s₁ → D.mark i job (op, h) s₁ ∧
        ∀ c s₂ a, D.allowed s₁ (.call i job (op, h) c) →
          op.exec srv.serde i c s₁ = some (s₂, a) →
            D.Kept i s₁ s₂ ∧ Q (.ok a) h s₂ := Iff.rfl

theorem wp_await_then {op : Op} {f : op.Ans → Fs ε β}
    {Q : Except ε β → Held → Store → Prop} :
    Fs.Wp srv D i job (await op >>= f) Q h s ↔
      ∀ s₁, D.rely i s s₁ → D.inv s₁ → D.mark i job (op, h) s₁ ∧
        ∀ c s₂ a, D.allowed s₁ (.call i job (op, h) c) →
          op.exec srv.serde i c s₁ = some (s₂, a) →
            D.Kept i s₁ s₂ ∧ Fs.Wp srv D i job (f a) Q h s₂ := by
  rw [wp_seq, wp_await]
  exact Iff.rfl

end Rules

end Libfw

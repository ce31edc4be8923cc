import Libfw.SteppedPrograms

/-!
# One program and its surroundings

A `Prog` that runs by itself over a state of its own.  The surroundings choose
the answer to every operation, and may leave the program standing at any of them.

* `runBy` — the run for given choices; it is interrupted where they end.
* `wp` — over all choices: an invariant holds wherever the program may be left
  standing, a postcondition where it ends (`wp_bind`, `wp_mono`).
* `runBy_of_wp` — so it is for every run; `runBy_keeps`, where every operation keeps the invariant.
* `CallsAtMost` — a bound on the calls, and `ends_of_callsAtMost`.
* `CanEnd` — there are choices for which the program ends so (`canEnd_call`,
  `canEnd_bind`); `MayAsk`, for which it comes to such an operation.
* `aloneDiscipline` — the rules for interleaved tasks, read for one task that runs
  with nobody beside it (`runBy_of_alone`).
-/

namespace SoloPrograms

open SteppedPrograms

variable {Op : Type} {Ans : Op → Type} {ρ τ Choice σ : Type}

/-- What an operation does under a choice; `none` where the choice is impossible. -/
abbrev Exec (Op : Type) (Ans : Op → Type) (Choice σ : Type) : Type :=
  (o : Op) → Choice → σ → Option (σ × Ans o)

/-- Go on with a success; an error ends the program, as `?` does. -/
def okThen {ε : Type} (p : Prog Op Ans (Except ε ρ)) (f : ρ → Prog Op Ans (Except ε τ)) :
    Prog Op Ans (Except ε τ) :=
  p.bind fun
    | .ok a => f a
    | .error e => .done (.error e)

/-- The state a run leaves, and its result; no result where it is interrupted. -/
def runBy (exec : Exec Op Ans Choice σ) : Prog Op Ans ρ → σ → List Choice →
    Option (σ × Option ρ)
  | .done r, s, _ => some (s, some r)
  | .call _ _, s, [] => some (s, none)
  | .call o k, s, c :: rest =>
      match exec o c s with
      | none => none
      | some (t, a) => runBy exec (k a) t rest

/-- What is done with the result makes no difference to the run. -/
theorem runBy_map {exec : Exec Op Ans Choice σ} (f : ρ → τ) (p : Prog Op Ans ρ) (s : σ)
    (choices : List Choice) : runBy exec (p.bind fun r => .done (f r)) s choices =
      (runBy exec p s choices).map fun after => (after.1, after.2.map f) := by
  induction p generalizing s choices with
  | done r => rfl
  | call o k ih =>
      cases choices with
      | nil => rfl
      | cons c rest =>
          simp only [Prog.call_bind, runBy]
          cases exec o c s with
          | none => rfl
          | some after => exact ih after.2 after.1 rest

/-- `I` wherever the program may be left standing, `Q` where it ends. -/
def wp (exec : Exec Op Ans Choice σ) (I : σ → Prop) : Prog Op Ans ρ → (ρ → σ → Prop) →
    σ → Prop
  | .done r, Q, s => Q r s
  | .call o k, Q, s => I s ∧ ∀ c t a, exec o c s = some (t, a) → wp exec I (k a) Q t

variable {exec : Exec Op Ans Choice σ} {I : σ → Prop}

theorem wp_mono {p : Prog Op Ans ρ} {Q Q' : ρ → σ → Prop} {s : σ}
    (h : wp exec I p Q s) (hQ : ∀ r t, Q r t → Q' r t) : wp exec I p Q' s := by
  induction p generalizing s with
  | done r => exact hQ r s h
  | call o k ih =>
      obtain ⟨hI, hstep⟩ := h
      constructor
      · exact hI
      · intro c t a hexec
        exact ih a (hstep c t a hexec)

theorem wp_bind {p : Prog Op Ans ρ} {f : ρ → Prog Op Ans τ} {Q : τ → σ → Prop} {s : σ} :
    wp exec I (p.bind f) Q s ↔ wp exec I p (fun r t => wp exec I (f r) Q t) s := by
  induction p generalizing s with
  | done r => exact Iff.rfl
  | call o k ih =>
      constructor
      · intro h
        obtain ⟨hI, hstep⟩ := h
        constructor
        · exact hI
        · intro c t a hexec
          exact (ih a).1 (hstep c t a hexec)
      · intro h
        obtain ⟨hI, hstep⟩ := h
        constructor
        · exact hI
        · intro c t a hexec
          exact (ih a).2 (hstep c t a hexec)

/-- A verified part, and what comes after it. -/
theorem wp_then {p : Prog Op Ans ρ} {f : ρ → Prog Op Ans τ} {Q : ρ → σ → Prop}
    {Q' : τ → σ → Prop} {s : σ} (hp : wp exec I p Q s)
    (hf : ∀ r t, Q r t → wp exec I (f r) Q' t) : wp exec I (p.bind f) Q' s :=
  wp_bind.2 (wp_mono hp hf)

/-- **Every run keeps to what is verified.** -/
theorem runBy_of_wp {p : Prog Op Ans ρ} {Q : ρ → σ → Prop} {s t : σ} {choices : List Choice}
    {result : Option ρ} (h : wp exec I p Q s)
    (hrun : runBy exec p s choices = some (t, result)) :
    (∀ r, result = some r → Q r t) ∧ (result = none → I t) := by
  induction p generalizing s choices with
  | done r =>
      cases hrun
      constructor
      · intro r' hr
        cases hr
        exact h
      · intro hnone
        cases hnone
  | call o k ih =>
      obtain ⟨hI, hstep⟩ := h
      cases choices with
      | nil =>
          cases hrun
          constructor
          · intro r hr
            cases hr
          · intro _
            exact hI
      | cons c rest =>
          unfold runBy at hrun
          cases hexec : exec o c s with
          | none =>
              rw [hexec] at hrun
              cases hrun
          | some answered =>
              obtain ⟨u, a⟩ := answered
              rw [hexec] at hrun
              exact ih a (hstep c u a hexec) hrun

/-- A run under fewer choices is a run. -/
theorem runBy_mono {exec' : Exec Op Ans Choice σ}
    (hexec : ∀ o c s r, exec' o c s = some r → exec o c s = some r) {p : Prog Op Ans ρ} {s : σ}
    {choices : List Choice} {r : σ × Option ρ} (hrun : runBy exec' p s choices = some r) :
    runBy exec p s choices = some r := by
  induction p generalizing s choices with
  | done r' => exact hrun
  | call o k ih =>
      cases choices with
      | nil => exact hrun
      | cons c rest =>
          unfold runBy at hrun ⊢
          cases hans : exec' o c s with
          | none =>
              rw [hans] at hrun
              cases hrun
          | some answered =>
              rw [hans] at hrun
              rw [hexec o c s answered hans]
              exact ih answered.2 hrun

/-! ## Programs that end -/

/-- Whatever is answered, the program makes no more calls than that. -/
def CallsAtMost : Nat → Prog Op Ans ρ → Prop
  | _, .done _ => True
  | 0, .call _ _ => False
  | n + 1, .call _ k => ∀ a, CallsAtMost n (k a)

theorem CallsAtMost.mono {p : Prog Op Ans ρ} {m n : Nat} (h : CallsAtMost m p) (hle : m ≤ n) :
    CallsAtMost n p := by
  induction p generalizing m n with
  | done r => cases n <;> trivial
  | call o k ih =>
      cases m with
      | zero => exact absurd h id
      | succ m =>
          cases n with
          | zero => omega
          | succ n => exact fun a => ih a (h a) (by omega)

/-- **A run that is not interrupted before comes to the end.** -/
theorem ends_of_callsAtMost {p : Prog Op Ans ρ} {n : Nat} (h : CallsAtMost n p) {s t : σ}
    {choices : List Choice} {result : Option ρ}
    (hrun : runBy exec p s choices = some (t, result)) (hlong : n ≤ choices.length) :
    ∃ r, result = some r := by
  induction p generalizing n s choices with
  | done r =>
      cases hrun
      exact ⟨r, rfl⟩
  | call o k ih =>
      cases n with
      | zero => exact absurd h id
      | succ n =>
          cases choices with
          | nil => exact absurd hlong (Nat.not_succ_le_zero n)
          | cons c rest =>
              unfold runBy at hrun
              cases hans : exec o c s with
              | none =>
                  rw [hans] at hrun
                  cases hrun
              | some answered =>
                  rw [hans] at hrun
                  exact ih answered.2 (h answered.2) hrun (Nat.le_of_succ_le_succ hlong)

/-! ## Ends that can be reached -/

/-- For some choices the program ends in this state with this result. -/
def CanEnd (exec : Exec Op Ans Choice σ) (p : Prog Op Ans ρ) (s : σ) (r : ρ) (t : σ) : Prop :=
  ∃ choices, runBy exec p s choices = some (t, some r)

theorem canEnd_done {r : ρ} {s : σ} : CanEnd exec (.done r) s r s := ⟨[], rfl⟩

theorem canEnd_call {o : Op} {k : Ans o → Prog Op Ans ρ} {s t u : σ} {c : Choice} {a : Ans o}
    {r : ρ} (hexec : exec o c s = some (t, a)) (hk : CanEnd exec (k a) t r u) :
    CanEnd exec (.call o k) s r u := by
  obtain ⟨choices, hrun⟩ := hk
  refine ⟨c :: choices, ?_⟩
  simp only [runBy, hexec]
  exact hrun

/-- One end after the other. -/
theorem canEnd_bind {p : Prog Op Ans ρ} {f : ρ → Prog Op Ans τ} {s t u : σ} {r : ρ} {r' : τ}
    (hp : CanEnd exec p s r t) (hf : CanEnd exec (f r) t r' u) :
    CanEnd exec (p.bind f) s r' u := by
  obtain ⟨choices, hrun⟩ := hp
  induction p generalizing s choices with
  | done r₀ =>
      cases hrun
      exact hf
  | call o k ih =>
      cases choices with
      | nil => cases hrun
      | cons c rest =>
          unfold runBy at hrun
          cases hexec : exec o c s with
          | none =>
              rw [hexec] at hrun
              cases hrun
          | some answered =>
              obtain ⟨v, a⟩ := answered
              rw [hexec] at hrun
              exact canEnd_call hexec (ih a rest hrun)

/-! ## Operations that can be come to -/

/-- For some choices the program comes to an operation with the property. -/
def MayAsk (exec : Exec Op Ans Choice σ) (P : Op → Prop) : Prog Op Ans ρ → σ → Prop
  | .done _, _ => False
  | .call o k, s => P o ∨ ∃ c t a, exec o c s = some (t, a) ∧ MayAsk exec P (k a) t

section MayAsk

variable {P : Op → Prop} {p : Prog Op Ans ρ} {f : ρ → Prog Op Ans τ} {s t : σ}

/-- What the first part comes to, the whole comes to. -/
theorem mayAsk_bind_left (h : MayAsk exec P p s) : MayAsk exec P (p.bind f) s := by
  induction p generalizing s with
  | done r => exact absurd h id
  | call o k ih =>
      rcases h with ho | ⟨c, t, a, hexec, hk⟩
      · exact Or.inl ho
      · exact Or.inr ⟨c, t, a, hexec, ih a hk⟩

/-- What is come to after the first part has ended. -/
theorem mayAsk_bind {r : ρ} (hp : CanEnd exec p s r t) (hf : MayAsk exec P (f r) t) :
    MayAsk exec P (p.bind f) s := by
  obtain ⟨choices, hrun⟩ := hp
  induction p generalizing s choices with
  | done r₀ =>
      cases hrun
      exact hf
  | call o k ih =>
      cases choices with
      | nil => cases hrun
      | cons c rest =>
          unfold runBy at hrun
          cases hexec : exec o c s with
          | none =>
              rw [hexec] at hrun
              cases hrun
          | some answered =>
              obtain ⟨u, a⟩ := answered
              rw [hexec] at hrun
              exact Or.inr ⟨c, u, a, hexec, ih a rest hrun⟩

/-- A task of a system comes to it too, where nothing comes between. -/
theorem reaches_of_mayAsk {Req Res Env : Type} {M : System Op Ans Req Res Choice Env σ} {i : Nat}
    {req : Req} {ok : State Op Ans Req Res σ → Act Req Choice Env → Prop}
    (hexec : ∀ o c s t a, exec o c s = some (t, a) → M.exec i o c s = some (t, a))
    (hok : ∀ u c, ok u (.step i c)) {p : Prog Op Ans Res} {s₀ u : State Op Ans Req Res σ}
    (hreach : M.Reaches ok s₀ (M.put u s i req p)) (h : MayAsk exec P p s) :
    ∃ v o k, M.Reaches ok s₀ v ∧ v.task i = .waiting req o k ∧ P o := by
  induction p generalizing s u with
  | done r => exact absurd h id
  | call o k ih =>
      have hwait : (M.put u s i req (.call o k)).task i = .waiting req o k :=
        State.set_task_self _ _ _ _
      rcases h with ho | ⟨c, t, a, hstep, hk⟩
      · exact ⟨_, o, k, hreach, hwait, ho⟩
      · have hnext : M.next (M.put u s i req (.call o k)) (.step i c) =
            some (M.put (M.put u s i req (.call o k)) t i req (k a)) := by
          have hshared : M.exec i o c (M.put u s i req (.call o k)).shared = some (t, a) :=
            hexec o c s t a hstep
          simp only [System.next, hwait, hshared]
        exact ih a (hreach.tail (hok _ c) hnext) hk

end MayAsk

/-! ## A task with nobody beside it -/

section Alone

variable {Req Res Env : Type}

/-- The discipline of task `i` when it runs by itself: no other step comes between
its own. -/
def aloneDiscipline (i : Nat) (allowed : σ → Event Op Req Choice Env → Prop) :
    Discipline Op Req Choice Env σ where
  inv := fun _ => True
  rely := fun j s t => j = i → t = s
  allowed := allowed
  mark := fun _ _ _ _ => True

theorem kept_alone {i : Nat} {allowed : σ → Event Op Req Choice Env → Prop} {s t : σ} :
    (aloneDiscipline i allowed).Kept i s t :=
  ⟨trivial, fun _ hj h => absurd h hj⟩

/-- The run of a task by itself, under choices that are allowed. -/
theorem runBy_of_alone {M : System Op Ans Req Res Choice Env σ} {i : Nat} {req : Req}
    {allowed : σ → Event Op Req Choice Env → Prop}
    (hexec : ∀ o c s t a, exec o c s = some (t, a) →
      allowed s (.call i req o c) ∧ M.exec i o c s = some (t, a))
    {p : Prog Op Ans ρ} {Q : ρ → σ → Prop} {s t : σ} {choices : List Choice} {r : ρ}
    (h : SteppedPrograms.wp M (aloneDiscipline i allowed) i req p Q s)
    (hrun : runBy exec p s choices = some (t, some r)) : Q r t := by
  induction p generalizing s choices with
  | done r' =>
      cases hrun
      exact h
  | call o k ih =>
      cases choices with
      | nil => cases hrun
      | cons c rest =>
          unfold runBy at hrun
          cases hans : exec o c s with
          | none =>
              rw [hans] at hrun
              cases hrun
          | some answered =>
              obtain ⟨u, a⟩ := answered
              rw [hans] at hrun
              obtain ⟨hallow, hstep⟩ := hexec o c s u a hans
              obtain ⟨-, hnext⟩ := h s (fun _ => rfl) trivial
              exact ih a (hnext c u a hallow hstep).2 hrun

end Alone

end SoloPrograms

import Libfw.WatchedPrograms

/-!
# Programs whose result is decided at one moment

A task among others that reads the shared state at several calls.  Its result is to be what
the state at one of these moments says, whatever the others do before, and as long as they
keep to what the later calls rely on.

* `decided` — on every path one call decides the result, and from there on the program is
  watched, and makes only calls the watch is about.
* `decided_of_reaches`, `moment_of_ended` — so a task that has ended has been decided at a
  state of the run in which it was waiting.
-/

namespace WatchedPrograms

open SteppedPrograms

variable {Op : Type} {Ans : Op → Type} {ρ τ Req Res Choice Env σ : Type}

/-- Whatever it is answered, the program makes only calls the watch is about. -/
def Late (W : Watch Op Req σ) (req : Req) (p : Prog Op Ans ρ) : Prop :=
  p.Along (W.asks req) fun _ => True

/-- The program ends undecided in `U`, or the state before one of its calls decides that it ends
in `D` of that state and its last.  The state is one in `I`; until it is decided, the program may
make any call and the others may do anything. -/
def decided (W : Watch Op Req σ) (I : σ → Prop)
    (exec : (o : Op) → Choice → σ → Option (σ × Ans o)) (req : Req) :
    Prog Op Ans ρ → (ρ → Prop) → (ρ → σ → σ → Prop) → Prop
  | .done r, U, _ => U r
  | .call o k, U, D => ∀ s, I s → ∀ c t a, exec o c s = some (t, a) →
      decided W I exec req (k a) U D ∨
        (Late W req (k a) ∧ watched W exec req (k a) (fun r e => D r s e) t)

variable {W : Watch Op Req σ} {I : σ → Prop} {exec : (o : Op) → Choice → σ → Option (σ × Ans o)}
  {req : Req}

theorem late_bind {p : Prog Op Ans ρ} {f : ρ → Prog Op Ans τ} (hp : Late W req p)
    (hf : ∀ r, Late W req (f r)) : Late W req (p.bind f) := by
  apply (Prog.along_bind _ _).2
  apply Prog.Along.mono hp fun _ => id
  intro r _
  exact hf r

theorem decided_mono {p : Prog Op Ans ρ} {U U' : ρ → Prop} {D D' : ρ → σ → σ → Prop}
    (h : decided W I exec req p U D) (hU : ∀ r, U r → U' r) (hD : ∀ r s e, D r s e → D' r s e) :
    decided W I exec req p U' D' := by
  induction p with
  | done r => exact hU r h
  | call o k ih =>
      intro s hs c t a hexec
      rcases h s hs c t a hexec with hlater | ⟨hlate, hnow⟩
      · exact Or.inl (ih a hlater)
      · exact Or.inr ⟨hlate, watched_mono hnow fun r e => hD r s e⟩

/-- A first part that may have been decided, and what comes after it. -/
theorem decided_bind {p : Prog Op Ans ρ} {f : ρ → Prog Op Ans τ} {U : τ → Prop}
    {D : τ → σ → σ → Prop} (hlate : ∀ r, Late W req (f r))
    (h : decided W I exec req p (fun r => decided W I exec req (f r) U D)
      fun r s e => watched W exec req (f r) (fun r' e' => D r' s e') e) :
    decided W I exec req (p.bind f) U D := by
  induction p with
  | done r => exact h
  | call o k ih =>
      intro s hs c t a hexec
      rcases h s hs c t a hexec with hlater | ⟨hfirst, hnow⟩
      · exact Or.inl (ih a hlater)
      · exact Or.inr ⟨late_bind hfirst hlate, watched_bind.2 hnow⟩

/-- A first part that decides nothing, and what comes after it. -/
theorem decided_after {p : Prog Op Ans ρ} {f : ρ → Prog Op Ans τ} {U : τ → Prop}
    {D : τ → σ → σ → Prop}
    (h : p.Along (fun _ => True) fun r => decided W I exec req (f r) U D) :
    decided W I exec req (p.bind f) U D := by
  induction p with
  | done r => exact h
  | call o k ih =>
      intro s _ c t a _
      exact Or.inl (ih a (h.2 a))

/-- A part that is never decided. -/
theorem decided_of_along {p : Prog Op Ans ρ} {U : ρ → Prop} {D : ρ → σ → σ → Prop}
    (h : p.Along (fun _ => True) U) : decided W I exec req p U D := by
  induction p with
  | done r => exact h
  | call o k ih =>
      intro s _ c t a _
      exact Or.inl (ih a (h.2 a))

/-! ## Runs -/

section Runs

variable {M : System Op Ans Req Res Choice Env σ} {i : Nat} {Q : Req → Res → σ → Prop}
  {ok : State Op Ans Req Res σ → Act Req Choice Env → Prop} {s₀ : State Op Ans Req Res σ}

/-- The task waits for a call. -/
def Waits (i : Nat) (req : Req) (s : State Op Ans Req Res σ) : Prop :=
  ∃ o k, s.task i = .waiting req o k

/-- A state of the run, between its beginning and here, in which the task was waiting. -/
def Moment (M : System Op Ans Req Res Choice Env σ)
    (ok : State Op Ans Req Res σ → Act Req Choice Env → Prop) (s₀ : State Op Ans Req Res σ)
    (i : Nat) (req : Req) (u s : State Op Ans Req Res σ) : Prop :=
  M.Reaches ok s₀ u ∧ M.Reaches ok u s ∧ Waits i req u

/-- The program is undecided, or has been decided at a moment of the run and is watched. -/
def Stands (W : Watch Op Req σ) (I : σ → Prop) (M : System Op Ans Req Res Choice Env σ) (i : Nat)
    (Q : Req → Res → σ → Prop) (ok : State Op Ans Req Res σ → Act Req Choice Env → Prop)
    (s₀ : State Op Ans Req Res σ) (req : Req) (p : Prog Op Ans Res)
    (s : State Op Ans Req Res σ) : Prop :=
  decided W I (M.exec i) req p (fun r => ∀ e, Q req r e) (fun r m _ => Q req r m) ∨
    Late W req p ∧ ∃ u, Moment M ok s₀ i req u s ∧
      watched W (M.exec i) req p (fun r _ => Q req r u.shared) s.shared

/-- Where the task waits, it stands so. -/
def OnCourse (W : Watch Op Req σ) (I : σ → Prop) (M : System Op Ans Req Res Choice Env σ) (i : Nat)
    (Q : Req → Res → σ → Prop) (ok : State Op Ans Req Res σ → Act Req Choice Env → Prop)
    (s₀ s : State Op Ans Req Res σ) : Prop :=
  ∀ req o k, s.task i = .waiting req o k → Stands W I M i Q ok s₀ req (.call o k) s

/-- What a call of the task itself leads to. -/
theorem stands_step {s t : State Op Ans Req Res σ} {req : Req} {o : Op}
    {k : Ans o → Prog Op Ans Res} (hreach : M.Reaches ok s₀ s) {c : Choice} (hok : ok s (.step i c))
    (hinv : I s.shared) (hnext : M.next s (.step i c) = some t)
    (hwait : s.task i = .waiting req o k) (hs : Stands W I M i Q ok s₀ req (.call o k) s) :
    ∃ sh a, M.exec i o c s.shared = some (sh, a) ∧ t = M.put s sh i req (k a) ∧
      (decided W I (M.exec i) req (k a) (fun r => ∀ e, Q req r e) (fun r m _ => Q req r m) ∨
        Late W req (k a) ∧ ∃ u, Moment M ok s₀ i req u s ∧ M.Reaches ok u t ∧
          watched W (M.exec i) req (k a) (fun r _ => Q req r u.shared) sh) := by
  rcases System.next_cases hnext with ⟨j, req', h, -⟩ |
    ⟨j, c', req', o', k', sh, ans, h, hwait', hexec, ht⟩ | ⟨j, req', o', k', h, -⟩ | ⟨e, h, -⟩
  · cases h
  · cases h
    rw [hwait] at hwait'
    cases hwait'
    refine ⟨sh, ans, hexec, ht, ?_⟩
    rcases hs with hlater | ⟨hlate, u, hu, hwatched⟩
    · rcases hlater s.shared hinv c sh ans hexec with hlater | ⟨hlate, hnow⟩
      · exact Or.inl hlater
      · exact Or.inr ⟨hlate, s, ⟨hreach, .refl, o, k, hwait⟩, .tail .refl hok hnext, hnow⟩
    · refine Or.inr ⟨hlate.2 ans, u, hu, hu.2.1.tail hok hnext, ?_⟩
      exact hwatched.2 s.shared (W.refl o s.shared) c sh ans hexec
  · cases h
  · cases h

/-- **Step lemma.**  A step of the task itself is what its call leads to; a step of another one
has to keep to what the task relies on only once the task makes late calls only. -/
theorem onCourse_next
    (hcode : ∀ req, decided W I (M.exec i) req (M.code req) (fun r => ∀ e, Q req r e)
      fun r m _ => Q req r m)
    {s t : State Op Ans Req Res σ} {a : Act Req Choice Env}
    (hothers : ∀ req o k, s.task i = .waiting req o k → Late W req (.call o k) →
      (∀ c, a ≠ .step i c) → W.rely o s.shared t.shared)
    (hinv : I s.shared) (hreach : M.Reaches ok s₀ s) (hs : OnCourse W I M i Q ok s₀ s)
    (hok : ok s a) (hnext : M.next s a = some t) : OnCourse W I M i Q ok s₀ t := by
  have hkeep : t.task i = s.task i → (∀ c, a ≠ .step i c) → OnCourse W I M i Q ok s₀ t := by
    intro htask hother req o k hwait
    rw [htask] at hwait
    rcases hs req o k hwait with hlater | ⟨hlate, u, hu, hwatched⟩
    · exact Or.inl hlater
    · refine Or.inr ⟨hlate, u, ⟨hu.1, hu.2.1.tail hok hnext, hu.2.2⟩, ?_⟩
      exact watched_stable hwatched (hothers req o k hwait hlate hother)
  have hstep : ∀ c, a = .step i c → OnCourse W I M i Q ok s₀ t := by
    rintro c rfl
    cases htask : s.task i with
    | waiting req o k =>
        obtain ⟨sh, ans, -, ht, hcase⟩ :=
          stands_step hreach hok hinv hnext htask (hs req o k htask)
        intro req' o' k' hwait'
        rw [ht] at hwait'
        cases hprog : k ans with
        | done r =>
            rw [hprog, System.put, State.set_task_self] at hwait'
            cases hwait'
        | call o'' k'' =>
            rw [hprog, System.put, State.set_task_self] at hwait'
            cases hwait'
            rw [hprog] at hcase
            rcases hcase with hlater | ⟨hlate, u, hu, hut, hwatched⟩
            · exact Or.inl hlater
            · refine Or.inr ⟨hlate, u, ⟨hu.1, hut, hu.2.2⟩, ?_⟩
              rw [ht, hprog]
              exact hwatched
    | _ =>
        simp only [System.next, htask] at hnext
        cases hnext
  rcases System.next_cases hnext with ⟨j, req, rfl, -, rfl⟩ |
    ⟨j, c, req, o, k, sh, ans, rfl, hwait, hexec, rfl⟩ | ⟨j, req, o, k, rfl, hwait, rfl⟩ |
    ⟨e, rfl, rfl⟩
  · by_cases hij : i = j
    · subst hij
      intro req' o' k' hwait'
      have hprogram := hcode req
      cases hprog : M.code req with
      | done r =>
          rw [hprog, System.put, State.set_task_self] at hwait'
          cases hwait'
      | call o'' k'' =>
          rw [hprog, System.put, State.set_task_self] at hwait'
          cases hwait'
          rw [hprog] at hprogram
          exact Or.inl hprogram
    · exact hkeep (System.put_task_ne _ _ _ _ hij) (by intro c h; cases h)
  · by_cases hij : i = j
    · subst hij
      exact hstep c rfl
    · apply hkeep (System.put_task_ne _ _ _ _ hij)
      intro c' h
      cases h
      exact hij rfl
  · by_cases hij : i = j
    · subst hij
      intro req' o' k' hwait'
      rw [State.set_task_self] at hwait'
      cases hwait'
    · exact hkeep (State.set_task_ne _ _ _ _ _ hij) (by intro c h; cases h)
  · exact hkeep rfl (by intro c h; cases h)

/-- **Run lemma.** -/
theorem decided_of_reaches
    (hcode : ∀ req, decided W I (M.exec i) req (M.code req) (fun r => ∀ e, Q req r e)
      fun r m _ => Q req r m)
    (hothers : ∀ s a t, ok s a → M.next s a = some t → ∀ req o k,
      s.task i = .waiting req o k → Late W req (.call o k) → (∀ c, a ≠ .step i c) →
        W.rely o s.shared t.shared)
    (hinv : ∀ s a, ok s a → I s.shared) (hidle : s₀.task i = .idle)
    {s : State Op Ans Req Res σ} (hrun : M.Reaches ok s₀ s) : OnCourse W I M i Q ok s₀ s := by
  induction hrun with
  | refl =>
      intro req o k hwait
      rw [hidle] at hwait
      cases hwait
  | @tail u v a hreach hok hnext ih =>
      exact onCourse_next hcode (hothers u a v hok hnext) (hinv u a hok) hreach ih hok hnext

/-- **A task that has ended has been decided at a moment of its run.** -/
theorem moment_of_ended {s t : State Op Ans Req Res σ} (hreach : M.Reaches ok s₀ s)
    (hs : OnCourse W I M i Q ok s₀ s) {c : Choice} (hok : ok s (.step i c)) (hinv : I s.shared)
    (hnext : M.next s (.step i c) = some t) {req : Req} {r : Res}
    (hend : t.task i = .finished req r) :
    ∃ u, Moment M ok s₀ i req u s ∧ Q req r u.shared := by
  cases htask : s.task i with
  | waiting req' o k =>
      obtain ⟨sh, ans, -, rfl, hcase⟩ := stands_step hreach hok hinv hnext htask (hs req' o k htask)
      cases hprog : k ans with
      | call o' k' =>
          rw [hprog, System.put, State.set_task_self] at hend
          cases hend
      | done r' =>
          rw [hprog] at hcase
          rw [hprog, System.put, State.set_task_self] at hend
          cases hend
          rcases hcase with hany | ⟨-, u, hu, -, hdone⟩
          · exact ⟨s, ⟨hreach, .refl, o, k, htask⟩, hany s.shared⟩
          · exact ⟨u, hu, hdone⟩
  | _ =>
      simp only [System.next, htask] at hnext
      cases hnext

end Runs

end WatchedPrograms

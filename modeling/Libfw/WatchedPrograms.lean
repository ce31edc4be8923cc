import Libfw.SteppedPrograms

/-!
# Programs that are watched while they wait

One task among others, followed from call to call.  What the others may do to the shared
state depends on the call that the task waits for, and so on what it has in its hands.

* `watched` — on every path the calls are allowed and the result satisfies a postcondition,
  while the others keep to what each call relies on.
* `watched_of_reaches`, `post_of_ended` — what a watched task does in a run.
-/

namespace WatchedPrograms

open SteppedPrograms

variable {Op : Type} {Ans : Op → Type} {ρ τ Req Res Choice Env σ : Type}

/-- The calls a task may ask for, and what it relies on while it waits for one. -/
structure Watch (Op Req σ : Type) where
  asks : Req → Op → Prop
  rely : Op → σ → σ → Prop
  refl : ∀ o s, rely o s s
  trans : ∀ o s t u, rely o s t → rely o t u → rely o s u

/-- The program asks for allowed calls only and ends in `Q`, from a state on.  Before every
call the others may have moved. -/
def watched (W : Watch Op Req σ) (exec : (o : Op) → Choice → σ → Option (σ × Ans o)) (req : Req) :
    Prog Op Ans ρ → (ρ → σ → Prop) → σ → Prop
  | .done r, Q, s => Q r s
  | .call o k, Q, s => W.asks req o ∧ ∀ s₁, W.rely o s s₁ → ∀ c s₂ a,
      exec o c s₁ = some (s₂, a) → watched W exec req (k a) Q s₂

variable {W : Watch Op Req σ} {exec : (o : Op) → Choice → σ → Option (σ × Ans o)} {req : Req}

theorem watched_mono {p : Prog Op Ans ρ} {Q Q' : ρ → σ → Prop} {s : σ}
    (h : watched W exec req p Q s) (hQ : ∀ r t, Q r t → Q' r t) : watched W exec req p Q' s := by
  induction p generalizing s with
  | done r => exact hQ r s h
  | call o k ih =>
      obtain ⟨hasks, hstep⟩ := h
      refine ⟨hasks, ?_⟩
      intro s₁ hrely c s₂ a hexec
      exact ih a (hstep s₁ hrely c s₂ a hexec)

theorem watched_bind {p : Prog Op Ans ρ} {f : ρ → Prog Op Ans τ} {Q : τ → σ → Prop} {s : σ} :
    watched W exec req (p.bind f) Q s ↔
      watched W exec req p (fun r t => watched W exec req (f r) Q t) s := by
  induction p generalizing s with
  | done r => exact Iff.rfl
  | call o k ih =>
      constructor
      · intro h
        obtain ⟨hasks, hstep⟩ := h
        refine ⟨hasks, ?_⟩
        intro s₁ hrely c s₂ a hexec
        exact (ih a).1 (hstep s₁ hrely c s₂ a hexec)
      · intro h
        obtain ⟨hasks, hstep⟩ := h
        refine ⟨hasks, ?_⟩
        intro s₁ hrely c s₂ a hexec
        exact (ih a).2 (hstep s₁ hrely c s₂ a hexec)

/-- What holds along a program, whatever the answers, holds of it while it is watched. -/
theorem watched_of_along {p : Prog Op Ans ρ} {Q : ρ → Prop} {s : σ} (h : p.Along (W.asks req) Q) :
    watched W exec req p (fun r _ => Q r) s := by
  induction p generalizing s with
  | done r => exact h
  | call o k ih =>
      refine ⟨h.1, ?_⟩
      intro s₁ _ c s₂ a _
      exact ih a (h.2 a)

theorem watched_stable {o : Op} {k : Ans o → Prog Op Ans ρ} {Q : ρ → σ → Prop} {s t : σ}
    (h : watched W exec req (.call o k) Q s) (hrely : W.rely o s t) :
    watched W exec req (.call o k) Q t := by
  refine ⟨h.1, ?_⟩
  intro s₁ hrely₁
  exact h.2 s₁ (W.trans o s t s₁ hrely hrely₁)

/-! ## Runs -/

section Runs

variable {M : System Op Ans Req Res Choice Env σ} {i : Nat} {Q : Req → Res → σ → Prop}
  {ok : State Op Ans Req Res σ → Act Req Choice Env → Prop}

/-- Where the task waits, it is verified. -/
def OnWatch (W : Watch Op Req σ) (M : System Op Ans Req Res Choice Env σ) (i : Nat)
    (Q : Req → Res → σ → Prop) (s : State Op Ans Req Res σ) : Prop :=
  ∀ req o k, s.task i = .waiting req o k → watched W (M.exec i) req (.call o k) (Q req) s.shared

theorem onWatch_put {s : State Op Ans Req Res σ} {sh : σ} {req : Req} {p : Prog Op Ans Res}
    (hp : watched W (M.exec i) req p (Q req) sh) : OnWatch W M i Q (M.put s sh i req p) := by
  intro req' o k hwait
  cases p with
  | done r =>
      rw [System.put, State.set_task_self] at hwait
      cases hwait
  | call o' k' =>
      rw [System.put, State.set_task_self] at hwait
      cases hwait
      exact hp

/-- **Step lemma.** -/
theorem onWatch_next
    (hcode : ∀ req sh, watched W (M.exec i) req (M.code req) (Q req) (M.enter i req sh))
    {s t : State Op Ans Req Res σ} {a : Act Req Choice Env}
    (hothers : ∀ req o k, s.task i = .waiting req o k → (∀ c, a ≠ .step i c) →
      W.rely o s.shared t.shared)
    (hs : OnWatch W M i Q s) (hnext : M.next s a = some t) : OnWatch W M i Q t := by
  have hkeep : t.task i = s.task i → (∀ c, a ≠ .step i c) → OnWatch W M i Q t := by
    intro htask hother req o k hwait
    rw [htask] at hwait
    exact watched_stable (hs req o k hwait) (hothers req o k hwait hother)
  rcases System.next_cases hnext with ⟨j, req, rfl, -, rfl⟩ |
    ⟨j, c, req, o, k, sh, ans, rfl, hwait, hexec, rfl⟩ | ⟨j, req, o, k, rfl, hwait, rfl⟩ |
    ⟨e, rfl, rfl⟩
  · by_cases hij : i = j
    · subst hij
      exact onWatch_put (hcode req s.shared)
    · exact hkeep (System.put_task_ne _ _ _ _ hij) (fun _ h => nomatch h)
  · by_cases hij : i = j
    · subst hij
      exact onWatch_put ((hs req o k hwait).2 s.shared (W.refl o s.shared) c sh ans hexec)
    · apply hkeep (System.put_task_ne _ _ _ _ hij)
      intro c' h
      cases h
      exact hij rfl
  · by_cases hij : i = j
    · subst hij
      intro req' o' k' hwait'
      rw [State.set_task_self] at hwait'
      cases hwait'
    · exact hkeep (State.set_task_ne _ _ _ _ _ hij) (fun _ h => nomatch h)
  · exact hkeep rfl (fun _ h => nomatch h)

/-- **Run lemma.** -/
theorem watched_of_reaches
    (hcode : ∀ req sh, watched W (M.exec i) req (M.code req) (Q req) (M.enter i req sh))
    (hothers : ∀ s a t, ok s a → M.next s a = some t → ∀ req o k,
      s.task i = .waiting req o k → (∀ c, a ≠ .step i c) → W.rely o s.shared t.shared)
    {s t : State Op Ans Req Res σ} (hs : OnWatch W M i Q s) (hrun : M.Reaches ok s t) :
    OnWatch W M i Q t := by
  induction hrun with
  | refl => exact hs
  | @tail u v a _ hok hnext ih => exact onWatch_next hcode (hothers u a v hok hnext) ih hnext

/-- A watched task ends as verified, just before it leaves. -/
theorem post_of_ended {s t : State Op Ans Req Res σ} (hs : OnWatch W M i Q s) {c : Choice}
    (hnext : M.next s (.step i c) = some t) {req : Req} {r : Res}
    (hend : t.task i = .finished req r) : ∃ sh, Q req r sh ∧ t.shared = M.leave i sh := by
  rcases System.next_cases hnext with ⟨j, req', h, -⟩ |
    ⟨j, c', req', o, k, sh, ans, h, hwait, hexec, rfl⟩ | ⟨j, req', o, k, h, -⟩ | ⟨e, h, -⟩
  · cases h
  · cases h
    have hstep := (hs req' o k hwait).2 s.shared (W.refl o s.shared) c sh ans hexec
    cases hprog : k ans with
    | done r' =>
        rw [hprog] at hend hstep
        rw [System.put, State.set_task_self] at hend
        cases hend
        exact ⟨sh, hstep, by rw [System.put]; rfl⟩
    | call o' k' =>
        rw [hprog, System.put, State.set_task_self] at hend
        cases hend
  · cases h
  · cases h

end Runs

end WatchedPrograms

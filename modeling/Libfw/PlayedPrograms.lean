import Libfw.SteppedPrograms

/-!
# Programs against an adversary

The surroundings of a program as one strategy: for every moment a function from
operations to answers.  Nothing is assumed of them, so a program played against
all strategies has met every sequence of answers, however they were chosen.

* `play` — the result, and the history of what was asked and answered.
* `Ensures` — a postcondition on result and history for all answers;
  `play_of_ensures`, `ensures_bind`.
* `rounds` — a loop that may go on for ever, cut after a number of rounds;
  `rounds_isSuffix`: once it has ended, more rounds change nothing, and fewer leave
  an earlier history.
-/

namespace PlayedPrograms

open SteppedPrograms

/-- An operation and its answer. -/
structure Asked (Op : Type) (Ans : Op → Type) where
  op : Op
  ans : Ans op

/-- What has been asked and answered, the last first. -/
abbrev History (Op : Type) (Ans : Op → Type) := List (Asked Op Ans)

/-- A strategy: the answers to give at each moment. -/
abbrev Strategy (Op : Type) (Ans : Op → Type) := Nat → (o : Op) → Ans o

variable {Op : Type} {Ans : Op → Type} {ι ρ τ : Type}

/-- The result and the history of a program played against a strategy. -/
def play (answers : Strategy Op Ans) : Prog Op Ans ρ → History Op Ans → ρ × History Op Ans
  | .done r, h => (r, h)
  | .call o k, h => play answers (k (answers h.length o)) (⟨o, answers h.length o⟩ :: h)

theorem play_bind (answers : Strategy Op Ans) (p : Prog Op Ans ρ) (f : ρ → Prog Op Ans τ)
    (h : History Op Ans) :
    play answers (p.bind f) h = play answers (f (play answers p h).1) (play answers p h).2 := by
  induction p generalizing h with
  | done r => rfl
  | call o k ih => exact ih _ _

/-- Whatever is answered, result and history satisfy `Q`. -/
def Ensures : Prog Op Ans ρ → (ρ → History Op Ans → Prop) → History Op Ans → Prop
  | .done r, Q, h => Q r h
  | .call o k, Q, h => ∀ a, Ensures (k a) Q (⟨o, a⟩ :: h)

theorem ensures_mono {p : Prog Op Ans ρ} {Q Q' : ρ → History Op Ans → Prop}
    {h : History Op Ans} (hp : Ensures p Q h) (hQ : ∀ r h', Q r h' → Q' r h') :
    Ensures p Q' h := by
  induction p generalizing h with
  | done r => exact hQ r h hp
  | call o k ih =>
      intro a
      exact ih a (hp a)

theorem ensures_true (p : Prog Op Ans ρ) (h : History Op Ans) :
    Ensures p (fun _ _ => True) h := by
  induction p generalizing h with
  | done r => trivial
  | call o k ih => exact fun a => ih a _

/-- A verified part, and what comes after it. -/
theorem ensures_bind {p : Prog Op Ans ρ} {f : ρ → Prog Op Ans τ}
    {Q : ρ → History Op Ans → Prop} {Q' : τ → History Op Ans → Prop} {h : History Op Ans}
    (hp : Ensures p Q h) (hf : ∀ r h', Q r h' → Ensures (f r) Q' h') :
    Ensures (p.bind f) Q' h := by
  induction p generalizing h with
  | done r => exact hf r h hp
  | call o k ih =>
      intro a
      exact ih a (hp a)

/-- Both of two postconditions. -/
theorem ensures_and {p : Prog Op Ans ρ} {Q Q' : ρ → History Op Ans → Prop}
    {h : History Op Ans} (hQ : Ensures p Q h) (hQ' : Ensures p Q' h) :
    Ensures p (fun r h' => Q r h' ∧ Q' r h') h := by
  induction p generalizing h with
  | done r => exact ⟨hQ, hQ'⟩
  | call o k ih =>
      intro a
      exact ih a (hQ a) (hQ' a)

theorem play_of_ensures (answers : Strategy Op Ans) {p : Prog Op Ans ρ}
    {Q : ρ → History Op Ans → Prop} {h : History Op Ans} (hp : Ensures p Q h) :
    Q (play answers p h).1 (play answers p h).2 := by
  induction p generalizing h with
  | done r => exact hp
  | call o k ih => exact ih _ (hp _)

/-- Histories only grow. -/
theorem ensures_isSuffix (p : Prog Op Ans ρ) (h : History Op Ans) :
    Ensures p (fun _ h' => h <:+ h') h := by
  induction p generalizing h with
  | done r => exact List.suffix_refl h
  | call o k ih =>
      intro a
      apply ensures_mono (ih a (⟨o, a⟩ :: h))
      intro r h' hs
      exact (List.suffix_cons _ h).trans hs

theorem play_isSuffix (answers : Strategy Op Ans) (p : Prog Op Ans ρ) (h : History Op Ans) :
    h <:+ (play answers p h).2 :=
  play_of_ensures answers (ensures_isSuffix p h)

/-- What is true of every answer of a strategy is true of all that has been answered. -/
theorem play_answered {answers : Strategy Op Ans} {P : Asked Op Ans → Prop}
    (hall : ∀ n o, P ⟨o, answers n o⟩) (p : Prog Op Ans ρ) {h : History Op Ans}
    (hh : ∀ a ∈ h, P a) : ∀ a ∈ (play answers p h).2, P a := by
  induction p generalizing h with
  | done r => exact hh
  | call o k ih => exact ih _ (List.forall_mem_cons.2 ⟨hall h.length o, hh⟩)

/-! ## Loops -/

/-- At most so many rounds of a loop: a round asks for another one, or ends it. -/
def rounds (round : ι → Prog Op Ans (ι ⊕ ρ)) : Nat → ι → Prog Op Ans (Option ρ)
  | 0, _ => .done none
  | n + 1, i => (round i).bind fun
      | .inl j => rounds round n j
      | .inr r => .done (some r)

variable {round : ι → Prog Op Ans (ι ⊕ ρ)} {answers : Strategy Op Ans}

/-- A round that asks for another one. -/
theorem play_rounds_inl {n : Nat} {i j : ι} {h : History Op Ans}
    (hround : (play answers (round i) h).1 = .inl j) :
    play answers (rounds round (n + 1) i) h =
      play answers (rounds round n j) (play answers (round i) h).2 := by
  apply (play_bind answers (round i) _ h).trans
  rw [hround]

/-- A round that ends the loop. -/
theorem play_rounds_inr {n : Nat} {i : ι} {r : ρ} {h : History Op Ans}
    (hround : (play answers (round i) h).1 = .inr r) :
    play answers (rounds round (n + 1) i) h = (some r, (play answers (round i) h).2) := by
  apply (play_bind answers (round i) _ h).trans
  rw [hround]
  rfl

/-- Once the loop has ended, every other number of rounds leaves a part of its
history. -/
theorem rounds_isSuffix {n m : Nat} {i : ι} {r : ρ} {h : History Op Ans}
    (hend : (play answers (rounds round n i) h).1 = some r) :
    (play answers (rounds round m i) h).2 <:+ (play answers (rounds round n i) h).2 := by
  induction n generalizing m i h with
  | zero => cases hend
  | succ n ih =>
      cases m with
      | zero => exact play_isSuffix answers _ h
      | succ m =>
          cases hround : (play answers (round i) h).1 with
          | inl j =>
              rw [play_rounds_inl hround] at hend ⊢
              rw [play_rounds_inl hround]
              exact ih hend
          | inr r' =>
              simp only [play_rounds_inr hround, List.suffix_refl]

end PlayedPrograms

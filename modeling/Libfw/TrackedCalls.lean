import Libfw.FsStorage

/-!
# Storage code followed with a stage

`Fs.Tracked` follows a function of the storage with a stage that every answer moves on: at
each stage it asks only for calls allowed there, and it ends in a postcondition.  The rules
are one for each way in which the code is put together.
-/

namespace Libfw

open SteppedPrograms Fs

variable {γ : Type}

/-- From a stage on, the code asks for what is allowed at its stages, and ends in `Q`. -/
def Fs.Tracked {ε α : Type} (P : γ → Op → Prop) (after : γ → (op : Op) → op.Ans → γ)
    (x : Fs ε α) (Q : γ → Except ε α → Prop) (g : γ) : Prop :=
  ∀ h, (x h).Staged (fun g c => P g c.1) (fun g c a => after g c.1 a) (fun g r => Q g r.1) g

section Rules

variable {P : γ → Op → Prop} {after : γ → (op : Op) → op.Ans → γ} {ε ε' α β : Type} {g : γ}

theorem tracked_ret {a : α} {Q : γ → Except ε α → Prop} (h : Q g (.ok a)) :
    Fs.Tracked P after (ret a) Q g := fun _ => h

theorem tracked_fail {e : ε} {Q : γ → Except ε α → Prop} (h : Q g (.error e)) :
    Fs.Tracked P after (fail e) Q g := fun _ => h

theorem Fs.Tracked.mono {x : Fs ε α} {Q Q' : γ → Except ε α → Prop}
    (hx : Fs.Tracked P after x Q g) (h : ∀ g r, Q g r → Q' g r) : Fs.Tracked P after x Q' g :=
  fun held => (hx held).mono fun g r => h g r.1

/-- Sequencing. -/
theorem tracked_then {x : Fs ε α} {f : α → Fs ε β} {R : γ → Except ε α → Prop}
    {Q : γ → Except ε β → Prop} (hx : Fs.Tracked P after x R g)
    (hok : ∀ g a, R g (.ok a) → Fs.Tracked P after (f a) Q g)
    (herr : ∀ g e, R g (.error e) → Q g (.error e)) : Fs.Tracked P after (x >>= f) Q g := by
  intro held
  apply (Prog.staged_bind _ _ _).2
  apply (hx held).mono
  intro g r hr
  obtain ⟨r, held'⟩ := r
  cases r with
  | ok a => exact hok g a hr held'
  | error e => exact herr g e hr

theorem tracked_attempt_then {x : Fs ε α} {f : Except ε α → Fs ε' β} {R : γ → Except ε α → Prop}
    {Q : γ → Except ε' β → Prop} (hx : Fs.Tracked P after x R g)
    (hf : ∀ g r, R g r → Fs.Tracked P after (f r) Q g) :
    Fs.Tracked P after (attempt x >>= f) Q g := by
  have hattempt : Fs.Tracked P after (attempt x : Fs ε' (Except ε α))
      (fun g r => ∃ r', r = .ok r' ∧ R g r') g := by
    intro held
    apply (Prog.staged_bind _ _ _).2
    apply (hx held).mono
    intro g r hr
    exact ⟨r.1, rfl, hr⟩
  apply tracked_then hattempt
  · intro g r hr
    obtain ⟨r', hr', hr⟩ := hr
    cases hr'
    exact hf g r hr
  · intro g e he
    obtain ⟨r', hr', -⟩ := he
    cases hr'

/-- `map_err`. -/
theorem tracked_orElse {f : ε → ε'} {x : Fs ε α} {R : γ → Except ε α → Prop}
    (hx : Fs.Tracked P after x R g) :
    Fs.Tracked P after (orElse f x) (fun g r => ∃ r', r = r'.mapError f ∧ R g r') g := by
  unfold orElse
  apply tracked_attempt_then hx
  intro g r hr
  cases r with
  | ok a => exact tracked_ret ⟨.ok a, rfl, hr⟩
  | error e => exact tracked_fail ⟨.error e, rfl, hr⟩

/-- `map_err` and `?` at the head of a `do` block. -/
theorem tracked_orElse_then {f : ε → ε'} {x : Fs ε α} {k : α → Fs ε' β}
    {R : γ → Except ε α → Prop} {Q : γ → Except ε' β → Prop} (hx : Fs.Tracked P after x R g)
    (hok : ∀ g a, R g (.ok a) → Fs.Tracked P after (k a) Q g)
    (herr : ∀ g e, R g (.error e) → Q g (.error (f e))) :
    Fs.Tracked P after (orElse f x >>= k) Q g := by
  apply tracked_then (tracked_orElse hx)
  · intro g a hr
    obtain ⟨r', heq, hr⟩ := hr
    cases r' with
    | ok b =>
        cases heq
        exact hok g a hr
    | error e => cases heq
  · intro g e hr
    obtain ⟨r', heq, hr⟩ := hr
    cases r' with
    | ok b => cases heq
    | error e' =>
        cases heq
        exact herr g e' hr

theorem tracked_lift {r : Except ε α} {Q : γ → Except ε α → Prop} (h : Q g r) :
    Fs.Tracked P after (lift r) Q g := by
  cases r with
  | ok a => exact tracked_ret h
  | error e => exact tracked_fail h

/-! The same at the head of a `do` block. -/

theorem tracked_await_then {op : Op} {f : op.Ans → Fs ε β} {Q : γ → Except ε β → Prop}
    (hop : P g op) (hf : ∀ a, Fs.Tracked P after (f a) Q (after g op a)) :
    Fs.Tracked P after (await op >>= f) Q g := fun held => ⟨hop, fun a => hf a held⟩

theorem tracked_other_then {r : Except IoError α} {f : α → Fs StorageError β}
    {Q : γ → Except StorageError β → Prop}
    (hok : ∀ a, r = .ok a → Fs.Tracked P after (f a) Q g)
    (herr : ∀ e, r = .error e → Q g (.error (.other e.message))) :
    Fs.Tracked P after (other r >>= f) Q g := by
  cases r with
  | ok a => exact hok a rfl
  | error e => exact fun _ => herr e rfl

theorem tracked_update_then {u : Held → Held} {f : Unit → Fs ε β} {Q : γ → Except ε β → Prop}
    (hf : Fs.Tracked P after (f ()) Q g) : Fs.Tracked P after (update u >>= f) Q g :=
  fun held => hf (u held)

theorem tracked_held_then {f : Held → Fs ε β} {Q : γ → Except ε β → Prop}
    (hf : ∀ h, Fs.Tracked P after (f h) Q g) : Fs.Tracked P after (held >>= f) Q g :=
  fun h => hf h h

end Rules

end Libfw

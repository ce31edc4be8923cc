import Libfw.SoloPrograms

/-!
# Tasks that see their own part of a shared state

Tasks that run beside each other, each of which sees a part of the shared state that no
other one changes.  What a task does is then what its program does by itself, over a
state of its own.

* `Asking` — over all choices: the program asks only for some operations, and ends as
  promised (`asking_of_wp`, `asking_bind`).
* `Views` — what each task sees, and the rules that keep the views apart.
* `Views.allStand_next`, `Views.allStand_of_reaches` — what is proved of a program by itself
  holds of its task in every interleaving (`Views.post_of_finished`).
-/

namespace PrivateViews

open SteppedPrograms SoloPrograms

variable {Op : Type} {Ans : Op → Type} {ρ υ Req Res Choice Env C σ τ : Type}

/-! ## A program that asks only for some operations -/

/-- The program asks only for operations in `P`, and `Q` holds where it ends. -/
def Asking (exec : Exec Op Ans C τ) (P : Op → Prop) : Prog Op Ans ρ → (ρ → τ → Prop) → τ → Prop
  | .done r, Q, s => Q r s
  | .call o k, Q, s => P o ∧ ∀ c t a, exec o c s = some (t, a) → Asking exec P (k a) Q t

section Asking

variable {exec : Exec Op Ans C τ} {P : Op → Prop}

/-- Where every operation is allowed; each step is one that the proof knows. -/
theorem asking_of_wp {C' : Type} {exec' : Exec Op Ans C' τ}
    (hexec' : ∀ o c s t a, exec o c s = some (t, a) → ∃ c', exec' o c' s = some (t, a))
    (hP : ∀ o, P o) {I : τ → Prop} {p : Prog Op Ans ρ} {Q : ρ → τ → Prop} {s : τ}
    (h : wp exec' I p Q s) : Asking exec P p Q s := by
  induction p generalizing s with
  | done r => exact h
  | call o k ih =>
      obtain ⟨-, hstep⟩ := h
      constructor
      · exact hP o
      · intro c t a hexec
        obtain ⟨c', hknown⟩ := hexec' o c s t a hexec
        exact ih a (hstep c' t a hknown)

theorem asking_mono {p : Prog Op Ans ρ} {Q Q' : ρ → τ → Prop} {s : τ}
    (h : Asking exec P p Q s) (hQ : ∀ r t, Q r t → Q' r t) : Asking exec P p Q' s := by
  induction p generalizing s with
  | done r => exact hQ r s h
  | call o k ih =>
      obtain ⟨hask, hstep⟩ := h
      constructor
      · exact hask
      · intro c t a hexec
        exact ih a (hstep c t a hexec)

theorem asking_bind {p : Prog Op Ans ρ} {f : ρ → Prog Op Ans υ} {Q : ρ → τ → Prop}
    {Q' : υ → τ → Prop} {s : τ} (hp : Asking exec P p Q s)
    (hf : ∀ r t, Q r t → Asking exec P (f r) Q' t) : Asking exec P (p.bind f) Q' s := by
  induction p generalizing s with
  | done r => exact hf r s hp
  | call o k ih =>
      obtain ⟨hask, hstep⟩ := hp
      constructor
      · exact hask
      · intro c t a hexec
        exact ih a (hstep c t a hexec)

end Asking

/-! ## Views -/

/-- What the tasks of a system see: task `i` is to work on `plan i`; the program of a request
may ask for some operations, and carries them out on its own state as `exec` says. -/
structure Views (M : System Op Ans Req Res Choice Env σ) (C τ : Type) where
  plan : Nat → Option Req
  exec : Req → Exec Op Ans C τ
  asks : Req → Op → Prop
  sees : Req → σ → τ → Prop
  post : Req → Res → τ → Prop

variable {M : System Op Ans Req Res Choice Env σ}

namespace Views

variable (V : Views M C τ)

/-- Each step of a task is one of its program's, and changes no other task's view. -/
structure Apart : Prop where
  single : ∀ {i j : Nat} {req : Req}, V.plan i = some req → V.plan j = some req → i = j
  enter : ∀ {i : Nat} {req r : Req} {sh : σ} {s : τ}, V.sees r sh s → V.sees r (M.enter i req sh) s
  leave : ∀ {i : Nat} {r : Req} {sh : σ} {s : τ}, V.sees r sh s → V.sees r (M.leave i sh) s
  own : ∀ {i : Nat} {req : Req} {o : Op} {c : Choice} {sh sh' : σ} {a : Ans o} {s : τ},
    V.plan i = some req → V.asks req o → V.sees req sh s → M.exec i o c sh = some (sh', a) →
      ∃ c' s', V.exec req o c' s = some (s', a) ∧ V.sees req sh' s'
  other : ∀ {i j : Nat} {req r : Req} {o : Op} {c : Choice} {sh sh' : σ} {a : Ans o} {s : τ},
    V.plan i = some req → V.plan j = some r → i ≠ j → V.asks req o → V.sees r sh s →
      M.exec i o c sh = some (sh', a) → V.sees r sh' s

/-- A program over its own state, from what its request sees. -/
def Verified (req : Req) (sh : σ) (p : Prog Op Ans Res) : Prop :=
  ∃ s, V.sees req sh s ∧ Asking (V.exec req) (V.asks req) p (V.post req) s

/-- Where a task of the plan stands. -/
def Stands (req : Req) (sh : σ) : Task Op Ans Req Res → Prop
  | .idle => V.Verified req sh (M.code req)
  | .waiting r o k => r = req ∧ V.Verified req sh (.call o k)
  | .finished r res => r = req ∧ V.Verified req sh (.done res)
  | .dropped _ => True

/-- Every task of the plan stands well, and there are no others. -/
structure AllStand (s : State Op Ans Req Res σ) : Prop where
  stands : ∀ {i : Nat} {req : Req}, V.plan i = some req → V.Stands req s.shared (s.task i)
  rest : ∀ {i : Nat}, V.plan i = none → s.task i = .idle

/-- Only tasks of the plan start, and nothing happens outside all tasks. -/
def Planned : Act Req Choice Env → Prop
  | .start i req => V.plan i = some req
  | .env _ => False
  | _ => True

variable {V}

/-- Where a task stands depends on what it sees only. -/
theorem Stands.of_sees {req : Req} {sh sh' : σ} {t : Task Op Ans Req Res}
    (h : V.Stands req sh t) (hsees : ∀ s, V.sees req sh s → V.sees req sh' s) :
    V.Stands req sh' t := by
  have hverified : ∀ p, V.Verified req sh p → V.Verified req sh' p := by
    intro p hp
    obtain ⟨s, hs, hp⟩ := hp
    exact ⟨s, hsees s hs, hp⟩
  cases t with
  | idle => exact hverified _ h
  | waiting r o k => exact ⟨h.1, hverified _ h.2⟩
  | finished r res => exact ⟨h.1, hverified _ h.2⟩
  | dropped r => trivial

/-- A verified program is put back, and the others see what they saw. -/
theorem allStand_put (hapart : V.Apart) {s : State Op Ans Req Res σ} {sh : σ} {i : Nat}
    {req : Req} {p : Prog Op Ans Res} (hs : V.AllStand s) (hplan : V.plan i = some req)
    (hp : V.Verified req sh p)
    (hothers : ∀ j r, V.plan j = some r → i ≠ j → ∀ v, V.sees r s.shared v → V.sees r sh v) :
    V.AllStand (M.put s sh i req p) := by
  constructor
  · intro j r hr
    by_cases hij : j = i
    · subst hij
      obtain rfl : req = r := Option.some.inj (hplan.symm.trans hr)
      cases p with
      | done res =>
          obtain ⟨v, hv, hp⟩ := hp
          rw [System.put, State.set_task_self, State.set_shared]
          exact ⟨rfl, v, hapart.leave hv, hp⟩
      | call o k =>
          rw [System.put, State.set_task_self, State.set_shared]
          exact ⟨rfl, hp⟩
    · rw [System.put_task_ne _ _ _ _ hij]
      apply (hs.stands hr).of_sees
      intro v hv
      have hkept := hothers j r hr (Ne.symm hij) v hv
      cases p with
      | done res => exact hapart.leave hkept
      | call o k => exact hkept
  · intro j hj
    have hij : j ≠ i := by
      rintro rfl
      rw [hplan] at hj
      cases hj
    rw [System.put_task_ne _ _ _ _ hij]
    exact hs.rest hj

/-- **Step lemma.** -/
theorem allStand_next (hapart : V.Apart) {s t : State Op Ans Req Res σ} {a : Act Req Choice Env}
    (hs : V.AllStand s) (ha : V.Planned a) (hnext : M.next s a = some t) : V.AllStand t := by
  rcases System.next_cases hnext with ⟨i, req, rfl, hidle, rfl⟩ |
    ⟨i, c, req, o, k, sh, ans, rfl, hwait, hexec, rfl⟩ | ⟨i, req, o, k, rfl, hwait, rfl⟩ |
    ⟨e, rfl, -⟩
  · have hstands := hs.stands ha
    rw [hidle] at hstands
    obtain ⟨v, hv, hcode⟩ := hstands
    exact allStand_put hapart hs ha ⟨v, hapart.enter hv, hcode⟩ fun _ _ _ _ _ => hapart.enter
  · cases hplan : V.plan i with
    | none =>
        rw [hs.rest hplan] at hwait
        cases hwait
    | some r =>
        have hstands := hs.stands hplan
        rw [hwait] at hstands
        obtain ⟨rfl, v, hv, hask, hstep⟩ := hstands
        obtain ⟨c', v', hown, hv'⟩ := hapart.own hplan hask hv hexec
        exact allStand_put hapart hs hplan ⟨v', hv', hstep c' v' ans hown⟩
          fun j r' hr hij _ hseen => hapart.other hplan hr hij hask hseen hexec
  · constructor
    · intro j r hr
      by_cases hij : j = i
      · subst hij
        rw [State.set_task_self]
        trivial
      · rw [State.set_task_ne _ _ _ _ _ hij]
        exact (hs.stands hr).of_sees fun _ => hapart.leave
    · intro j hj
      have hij : j ≠ i := by
        rintro rfl
        rw [hs.rest hj] at hwait
        cases hwait
      rw [State.set_task_ne _ _ _ _ _ hij]
      exact hs.rest hj
  · exact absurd ha id

/-- **Run lemma.** -/
theorem allStand_of_reaches (hapart : V.Apart)
    {ok : State Op Ans Req Res σ → Act Req Choice Env → Prop} (hok : ∀ s a, ok s a → V.Planned a)
    {s t : State Op Ans Req Res σ} (hs : V.AllStand s) (hrun : M.Reaches ok s t) :
    V.AllStand t := by
  induction hrun with
  | refl => exact hs
  | tail _ ha hnext ih => exact allStand_next hapart ih (hok _ _ ha) hnext

/-- What holds where a program ends by itself holds where the task ends. -/
theorem post_of_finished {s : State Op Ans Req Res σ} (hs : V.AllStand s) {i : Nat}
    {req r : Req} {res : Res} (hplan : V.plan i = some req) (hdone : s.task i = .finished r res) :
    ∃ v, V.sees req s.shared v ∧ V.post req res v := by
  have hstands := hs.stands hplan
  rw [hdone] at hstands
  exact hstands.2

end Views

end PrivateViews

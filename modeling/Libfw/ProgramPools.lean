import Libfw.SoloPrograms
import Mathlib.Algebra.BigOperators.Group.List.Basic

/-!
# Programs that run programs beside each other

One program that holds several others, of which a scheduler picks the one to go on, as
a stream of buffered futures does.

* `via` — the operations of a program, read as operations of a larger set (`keeps_via`).
* `Keeps` — whatever happens between its calls, a program keeps an invariant with each of
  them, makes at most so many, and ends as promised (`keeps_bind`).
* `pool` — the programs of a list beside each other, the first `window` of them begun;
  `wp_pool`: it ends with none left, and keeps what each of them keeps.
-/

namespace ProgramPools

open SteppedPrograms SoloPrograms

variable {Op Op' : Type} {Ans : Op → Type} {Ans' : Op' → Type} {ρ τ β Choice σ : Type}

/-- The program with its operations read as others. -/
def via (f : Op → Op') (g : (o : Op) → Ans' (f o) → Ans o) : Prog Op Ans ρ → Prog Op' Ans' ρ
  | .done r => .done r
  | .call o k => .call (f o) fun a => via f g (k (g o a))

/-! ## What a program keeps -/

/-- Each of at most `n` calls keeps `I`, whatever has happened since the one before; the
result satisfies `Q`. -/
def Keeps (exec : Exec Op Ans Choice σ) (I : σ → Prop) (Q : ρ → Prop) :
    Nat → Prog Op Ans ρ → Prop
  | _, .done r => Q r
  | 0, .call _ _ => False
  | n + 1, .call o k =>
      ∀ s, I s → ∀ c t a, exec o c s = some (t, a) → I t ∧ Keeps exec I Q n (k a)

variable {exec : Exec Op Ans Choice σ} {I : σ → Prop} {Q : ρ → Prop}

theorem keeps_mono {Q' : ρ → Prop} {p : Prog Op Ans ρ} {m n : Nat} (h : Keeps exec I Q m p)
    (hle : m ≤ n) (hQ : ∀ r, Q r → Q' r) : Keeps exec I Q' n p := by
  induction p generalizing m n with
  | done r => cases m <;> cases n <;> exact hQ r h
  | call o k ih =>
      cases m with
      | zero => exact absurd h id
      | succ m =>
          cases n with
          | zero => omega
          | succ n =>
              intro s hs c t a hexec
              obtain ⟨ht, hk⟩ := h s hs c t a hexec
              exact ⟨ht, ih a hk (by omega)⟩

theorem keeps_done {r : ρ} {n : Nat} (h : Q r) : Keeps exec I Q n (.done r) := by
  cases n <;> exact h

/-- A verified part, and what comes after it. -/
theorem keeps_bind {Q' : τ → Prop} {p : Prog Op Ans ρ} {f : ρ → Prog Op Ans τ} {m n : Nat}
    (hp : Keeps exec I Q m p) (hf : ∀ r, Q r → Keeps exec I Q' n (f r)) :
    Keeps exec I Q' (m + n) (p.bind f) := by
  induction p generalizing m with
  | done r =>
      have hr : Q r := by cases m <;> exact hp
      exact keeps_mono (hf r hr) (by omega) fun _ h => h
  | call o k ih =>
      cases m with
      | zero => exact absurd hp id
      | succ m =>
          have hcount : m + 1 + n = m + n + 1 := by omega
          rw [hcount]
          intro s hs c t a hexec
          obtain ⟨ht, hk⟩ := hp s hs c t a hexec
          exact ⟨ht, ih a hk⟩

/-- What a program keeps under its own operations, it keeps under those they are read as. -/
theorem keeps_via {exec' : Exec Op' Ans' Choice σ} {f : Op → Op'}
    {g : (o : Op) → Ans' (f o) → Ans o}
    (hexec : ∀ o c s t a, exec' (f o) c s = some (t, a) → exec o c s = some (t, g o a))
    {p : Prog Op Ans ρ} {n : Nat} (h : Keeps exec I Q n p) : Keeps exec' I Q n (via f g p) := by
  induction p generalizing n with
  | done r =>
      have hr : Q r := by cases n <;> exact h
      exact keeps_done hr
  | call o k ih =>
      cases n with
      | zero => exact absurd h id
      | succ n =>
          intro s hs c t a hstep
          obtain ⟨ht, hk⟩ := h s hs c t (g o a) (hexec o c s t a hstep)
          exact ⟨ht, ih _ hk⟩

/-! ## Pools -/

/-- The programs beside each other: the scheduler picks one of the first `window`, which
makes its next call or hands over its result.  `left` bounds the picks. -/
def pool (choose : Nat → Prog Op Ans Nat) (window : Nat) (account : β → ρ → β) :
    Nat → List (Prog Op Ans ρ) → β → Prog Op Ans (List (Prog Op Ans ρ) × β)
  | _, [], acc => .done ([], acc)
  | 0, p :: rest, acc => .done (p :: rest, acc)
  | left + 1, p :: rest, acc =>
      (choose (min window (rest.length + 1))).bind fun i =>
        match (p :: rest)[i]? with
        | none => .done (p :: rest, acc)
        | some (.done r) =>
            pool choose window account left ((p :: rest).eraseIdx i) (account acc r)
        | some (.call o k) =>
            .call o fun a => pool choose window account left ((p :: rest).set i (k a)) acc

/-- The programs of a pool: each keeps the invariant and has its number of calls left,
and all together, with their ends, come to no more than `left`. -/
def Tended (exec : Exec Op Ans Choice σ) (I : σ → Prop) (Q : ρ → Prop) (left : Nat)
    (tasks : List (Prog Op Ans ρ)) : Prop :=
  ∃ calls : List Nat, List.Forall₂ (Keeps exec I Q) calls tasks ∧
    calls.sum + tasks.length ≤ left

theorem tended_of_forall {tasks : List (Prog Op Ans ρ)} {n : Nat}
    (h : ∀ p ∈ tasks, Keeps exec I Q n p) :
    Tended exec I Q (tasks.length * (n + 1)) tasks := by
  refine ⟨List.replicate tasks.length n, ?_, ?_⟩
  · induction tasks with
    | nil => exact List.Forall₂.nil
    | cons p rest ih =>
        rw [List.length_cons, List.replicate_succ]
        refine List.Forall₂.cons (h p List.mem_cons_self) ?_
        exact ih fun q hq => h q (List.mem_cons_of_mem p hq)
  · have hsum : (List.replicate tasks.length n).sum + tasks.length = tasks.length * (n + 1) := by
      rw [List.sum_replicate_nat, Nat.mul_succ]
    exact Nat.le_of_eq hsum

/-- A program of the pool has ended. -/
theorem Tended.ended {left i : Nat} {tasks : List (Prog Op Ans ρ)} {r : ρ}
    (h : Tended exec I Q (left + 1) tasks) (hi : tasks[i]? = some (.done r)) :
    Tended exec I Q left (tasks.eraseIdx i) := by
  obtain ⟨calls, hkeeps, hcount⟩ := h
  suffices hall : ∃ calls' : List Nat,
      List.Forall₂ (Keeps exec I Q) calls' (tasks.eraseIdx i) ∧
        calls'.sum + (tasks.eraseIdx i).length + 1 ≤ calls.sum + tasks.length by
    obtain ⟨calls', hkeeps', hcount'⟩ := hall
    exact ⟨calls', hkeeps', by omega⟩
  clear hcount
  induction hkeeps generalizing i with
  | nil => cases hi
  | @cons n p calls rest hp hrest ih =>
      cases i with
      | zero =>
          refine ⟨calls, hrest, ?_⟩
          simp only [List.eraseIdx_cons_zero, List.sum_cons, List.length_cons]
          omega
      | succ i =>
          obtain ⟨calls', hkeeps', hcount'⟩ := ih hi
          refine ⟨n :: calls', List.Forall₂.cons hp hkeeps', ?_⟩
          simp only [List.eraseIdx_cons_succ, List.sum_cons, List.length_cons]
          omega

/-- A program of the pool makes a call. -/
theorem Tended.called {left i : Nat} {tasks : List (Prog Op Ans ρ)} {o : Op}
    {k : Ans o → Prog Op Ans ρ} {s : σ} (h : Tended exec I Q (left + 1) tasks)
    (hi : tasks[i]? = some (.call o k)) (hs : I s) {c : Choice} {t : σ} {a : Ans o}
    (hexec : exec o c s = some (t, a)) : I t ∧ Tended exec I Q left (tasks.set i (k a)) := by
  obtain ⟨calls, hkeeps, hcount⟩ := h
  suffices hall : I t ∧ ∃ calls' : List Nat,
      List.Forall₂ (Keeps exec I Q) calls' (tasks.set i (k a)) ∧
        calls'.sum + 1 ≤ calls.sum by
    obtain ⟨ht, calls', hkeeps', hcount'⟩ := hall
    refine ⟨ht, calls', hkeeps', ?_⟩
    rw [List.length_set]
    omega
  clear hcount
  induction hkeeps generalizing i with
  | nil => cases hi
  | @cons n p calls rest hp hrest ih =>
      cases i with
      | zero =>
          cases hi
          cases n with
          | zero => exact absurd hp id
          | succ n =>
              obtain ⟨ht, hk⟩ := hp s hs c t a hexec
              refine ⟨ht, n :: calls, List.Forall₂.cons hk hrest, ?_⟩
              simp only [List.sum_cons]
              omega
      | succ i =>
          obtain ⟨ht, calls', hkeeps', hcount'⟩ := ih hi
          refine ⟨ht, n :: calls', List.Forall₂.cons hp hkeeps', ?_⟩
          simp only [List.sum_cons]
          omega

/-- **A pool ends with none left**, if the scheduler picks of what it is offered, and keeps
what its programs keep. -/
theorem wp_pool {choose : Nat → Prog Op Ans Nat} {window left : Nat} {account : β → ρ → β}
    {tasks : List (Prog Op Ans ρ)} {acc : β} {s : σ}
    (hchoose : ∀ n s, 0 < n → I s → wp exec I (choose n) (fun i t => i < n ∧ I t) s)
    (hwindow : 0 < window) (htasks : Tended exec I Q left tasks) (hs : I s) :
    wp exec I (pool choose window account left tasks acc) (fun r t => r.1 = [] ∧ I t) s := by
  induction left generalizing tasks acc s with
  | zero =>
      cases tasks with
      | nil => exact ⟨rfl, hs⟩
      | cons p rest =>
          obtain ⟨calls, -, hcount⟩ := htasks
          simp only [List.length_cons] at hcount
          omega
  | succ left ih =>
      cases tasks with
      | nil => exact ⟨rfl, hs⟩
      | cons p rest =>
          unfold pool
          apply SoloPrograms.wp_then (hchoose _ s (by omega) hs)
          intro i t hpick
          obtain ⟨hi, ht⟩ := hpick
          have hlt : i < (p :: rest).length := by
            simp only [List.length_cons]
            omega
          obtain ⟨q, hq⟩ : ∃ q, (p :: rest)[i]? = some q := ⟨_, List.getElem?_eq_getElem hlt⟩
          cases q with
          | done r =>
              simp only [hq]
              exact ih (htasks.ended hq) ht
          | call o k =>
              simp only [hq]
              refine ⟨ht, ?_⟩
              intro c u a hexec
              obtain ⟨hu, hrest⟩ := htasks.called hq ht hexec
              exact ih hrest hu

end ProgramPools

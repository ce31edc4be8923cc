import Mathlib.Algebra.GroupWithZero.Nat
import Mathlib.Logic.Function.Basic

/-!
# Programs that stop at every operation

A `Prog` is the code of one task, cut at its operations: it has ended with a
result, or it asks for an operation and goes on with the answer.  What happens
inside an operation is not its business, so the same program can be followed in
three ways.

* `Along P Q` — over all answers whatsoever: every operation asked for satisfies
  `P`, every result satisfies `Q`; `Staged`, the same with a stage that the answers
  move on.
* `System.next` — interleaved with other tasks over a shared state, one
  operation a step; a task may be dropped wherever it waits.
* `wp` — the same, seen by one task: a *discipline* says what the task may
  assume about the steps of the others (`rely`), which events a run contains
  (`allowed`) and which invariant holds throughout (`inv`).  In exchange each of
  its own steps must respect what the others assume.

`Sound.good_next` puts the tasks together: if the code of every request is
verified against the discipline, each step of the system keeps the invariant
and keeps every waiting task verified; `Sound.good_of_reaches` is the same for
runs, and `Sound.post_of_finish` says what holds when a task ends.
-/

namespace SteppedPrograms

/-- Code cut at its operations. -/
inductive Prog (Op : Type) (Ans : Op → Type) (ρ : Type) : Type where
  | done (r : ρ)
  | call (o : Op) (k : Ans o → Prog Op Ans ρ)

variable {Op : Type} {Ans : Op → Type} {ρ τ : Type}

namespace Prog

/-- Sequencing. -/
def bind : Prog Op Ans ρ → (ρ → Prog Op Ans τ) → Prog Op Ans τ
  | .done r, f => f r
  | .call o k, f => .call o fun a => (k a).bind f

@[simp] theorem done_bind (r : ρ) (f : ρ → Prog Op Ans τ) : (done r).bind f = f r := rfl

@[simp] theorem call_bind (o : Op) (k : Ans o → Prog Op Ans ρ)
    (f : ρ → Prog Op Ans τ) :
    (call o k).bind f = call o fun a => (k a).bind f := rfl

theorem bind_assoc {υ : Type} (p : Prog Op Ans ρ) (f : ρ → Prog Op Ans τ)
    (g : τ → Prog Op Ans υ) : (p.bind f).bind g = p.bind fun r => (f r).bind g := by
  induction p with
  | done r => rfl
  | call o k ih => exact congrArg (call o) (funext ih)

/-- On every path, whatever the answers, the operations satisfy `P` and the
result satisfies `Q`. -/
def Along (P : Op → Prop) (Q : ρ → Prop) : Prog Op Ans ρ → Prop
  | .done r => Q r
  | .call o k => P o ∧ ∀ a, (k a).Along P Q

theorem along_bind {P : Op → Prop} {Q : τ → Prop} (p : Prog Op Ans ρ)
    (f : ρ → Prog Op Ans τ) :
    (p.bind f).Along P Q ↔ p.Along P fun r => (f r).Along P Q := by
  induction p with
  | done r => exact Iff.rfl
  | call o k ih =>
      constructor
      · rintro ⟨ho, hk⟩
        exact ⟨ho, fun a => (ih a).1 (hk a)⟩
      · rintro ⟨ho, hk⟩
        exact ⟨ho, fun a => (ih a).2 (hk a)⟩

theorem Along.mono {P P' : Op → Prop} {Q Q' : ρ → Prop} {p : Prog Op Ans ρ}
    (h : p.Along P Q) (hP : ∀ o, P o → P' o) (hQ : ∀ r, Q r → Q' r) : p.Along P' Q' := by
  induction p with
  | done r => exact hQ r h
  | call o k ih => exact ⟨hP o h.1, fun a => ih a (h.2 a)⟩

/-- The program, followed with a stage that every answer moves on: on every path the
operations are allowed at their stage, and the result satisfies `Q` at the last one. -/
def Staged {γ : Type} (P : γ → Op → Prop) (after : γ → (o : Op) → Ans o → γ)
    (Q : γ → ρ → Prop) : Prog Op Ans ρ → γ → Prop
  | .done r, g => Q g r
  | .call o k, g => P g o ∧ ∀ a, (k a).Staged P after Q (after g o a)

section Staged

variable {γ : Type} {P : γ → Op → Prop} {after : γ → (o : Op) → Ans o → γ}

theorem staged_bind {Q : γ → τ → Prop} (p : Prog Op Ans ρ) (f : ρ → Prog Op Ans τ) (g : γ) :
    (p.bind f).Staged P after Q g ↔
      p.Staged P after (fun g r => (f r).Staged P after Q g) g := by
  induction p generalizing g with
  | done r => exact Iff.rfl
  | call o k ih =>
      constructor
      · intro h
        exact ⟨h.1, fun a => (ih a _).1 (h.2 a)⟩
      · intro h
        exact ⟨h.1, fun a => (ih a _).2 (h.2 a)⟩

theorem Staged.mono {Q Q' : γ → ρ → Prop} {p : Prog Op Ans ρ} {g : γ}
    (h : p.Staged P after Q g) (hQ : ∀ g r, Q g r → Q' g r) : p.Staged P after Q' g := by
  induction p generalizing g with
  | done r => exact hQ g r h
  | call o k ih => exact ⟨h.1, fun a => ih a (h.2 a)⟩

/-- Operations that are allowed at every stage they can lead to. -/
theorem Along.staged {P' : Op → Prop} {Q : ρ → Prop} {I : γ → Prop} {p : Prog Op Ans ρ} {g : γ}
    (h : p.Along P' Q) (hI : ∀ g o, I g → P' o → P g o ∧ ∀ a, I (after g o a)) (hg : I g) :
    p.Staged P after (fun g r => I g ∧ Q r) g := by
  induction p generalizing g with
  | done r => exact ⟨hg, h⟩
  | call o k ih =>
      obtain ⟨hallowed, hnext⟩ := hI g o hg h.1
      exact ⟨hallowed, fun a => ih a (h.2 a) (hnext a)⟩

/-- A coarser stage. -/
theorem Staged.map {γ' : Type} (φ : γ → γ') {P' : γ' → Op → Prop}
    {after' : γ' → (o : Op) → Ans o → γ'} {Q : γ → ρ → Prop} {Q' : γ' → ρ → Prop}
    {p : Prog Op Ans ρ} {g : γ} (h : p.Staged P after Q g)
    (hP : ∀ g o, P g o → P' (φ g) o) (hafter : ∀ g o a, φ (after g o a) = after' (φ g) o a)
    (hQ : ∀ g r, Q g r → Q' (φ g) r) : p.Staged P' after' Q' (φ g) := by
  induction p generalizing g with
  | done r => exact hQ g r h
  | call o k ih =>
      refine ⟨hP g o h.1, ?_⟩
      intro a
      rw [← hafter]
      exact ih a (h.2 a)

theorem Staged.along {P' : Op → Prop} {Q : γ → ρ → Prop} {Q' : ρ → Prop} {p : Prog Op Ans ρ}
    {g : γ} (h : p.Staged P after Q g) (hP : ∀ g o, P g o → P' o)
    (hQ : ∀ g r, Q g r → Q' r) : p.Along P' Q' := by
  induction p generalizing g with
  | done r => exact hQ g r h
  | call o k ih => exact ⟨hP g o h.1, fun a => ih a (h.2 a)⟩

end Staged

end Prog

/-! ## Interleaving -/

/-- Tasks over a shared state.  `exec` is `none` where the operation must wait;
`Choice` is what the surroundings decide about it (success, failure).  `enter`
and `leave` are what starting a task and ending it (finished or dropped) does to
the shared state, `disturb` what happens outside all tasks. -/
structure System (Op : Type) (Ans : Op → Type) (Req Res Choice Env σ : Type) where
  code : Req → Prog Op Ans Res
  exec : Nat → (o : Op) → Choice → σ → Option (σ × Ans o)
  enter : Nat → Req → σ → σ
  leave : Nat → σ → σ
  disturb : Env → σ → σ

/-- Where a task stands. -/
inductive Task (Op : Type) (Ans : Op → Type) (Req Res : Type) : Type where
  | idle
  | waiting (req : Req) (o : Op) (k : Ans o → Prog Op Ans Res)
  | finished (req : Req) (r : Res)
  | dropped (req : Req)

/-- The request a task works on, or has worked on. -/
def Task.request : Task Op Ans Req Res → Option Req
  | .idle => none
  | .waiting req _ _ | .finished req _ | .dropped req => some req

structure State (Op : Type) (Ans : Op → Type) (Req Res σ : Type) : Type where
  shared : σ
  task : Nat → Task Op Ans Req Res

/-- One event of a run. -/
inductive Act (Req Choice Env : Type) : Type where
  | start (i : Nat) (req : Req)
  | step (i : Nat) (c : Choice)
  | drop (i : Nat)
  | env (e : Env)

variable {Req Res Choice Env σ : Type}

namespace State

def set (s : State Op Ans Req Res σ) (sh : σ) (i : Nat) (t : Task Op Ans Req Res) :
    State Op Ans Req Res σ := ⟨sh, fun j => if j = i then t else s.task j⟩

variable (s : State Op Ans Req Res σ) (sh : σ) (i j : Nat) (t : Task Op Ans Req Res)

@[simp] theorem set_shared : (s.set sh i t).shared = sh := rfl

@[simp] theorem set_task_self : (s.set sh i t).task i = t := if_pos rfl

theorem set_task_ne (h : j ≠ i) : (s.set sh i t).task j = s.task j := if_neg h

end State

namespace System

variable (M : System Op Ans Req Res Choice Env σ)

/-- Put a program that has just stopped back: a task that ends leaves. -/
def put (s : State Op Ans Req Res σ) (sh : σ) (i : Nat) (req : Req) :
    Prog Op Ans Res → State Op Ans Req Res σ
  | .done r => s.set (M.leave i sh) i (.finished req r)
  | .call o k => s.set sh i (.waiting req o k)

/-- One event; `none` where it cannot happen. -/
def next (s : State Op Ans Req Res σ) :
    Act Req Choice Env → Option (State Op Ans Req Res σ)
  | .start i req =>
      match s.task i with
      | .idle => some (M.put s (M.enter i req s.shared) i req (M.code req))
      | _ => none
  | .step i c =>
      match s.task i with
      | .waiting req o k =>
          match M.exec i o c s.shared with
          | some (sh, a) => some (M.put s sh i req (k a))
          | none => none
      | _ => none
  | .drop i =>
      match s.task i with
      | .waiting req _ _ => some (s.set (M.leave i s.shared) i (.dropped req))
      | _ => none
  | .env e => some { s with shared := M.disturb e s.shared }

/-- A run of given events. -/
def run (s : State Op Ans Req Res σ) :
    List (Act Req Choice Env) → Option (State Op Ans Req Res σ)
  | [] => some s
  | a :: rest => (M.next s a).bind fun t => run t rest

/-- The same, with a test before every event. -/
def runIf (test : State Op Ans Req Res σ → Act Req Choice Env → Bool)
    (s : State Op Ans Req Res σ) :
    List (Act Req Choice Env) → Option (State Op Ans Req Res σ)
  | [] => some s
  | a :: rest => if test s a then (M.next s a).bind fun t => runIf test t rest else none

/-- Reachability by events that meet a condition on the state before them. -/
inductive Reaches (ok : State Op Ans Req Res σ → Act Req Choice Env → Prop)
    (s : State Op Ans Req Res σ) : State Op Ans Req Res σ → Prop where
  | refl : Reaches ok s s
  | tail {t u : State Op Ans Req Res σ} {a : Act Req Choice Env} :
      Reaches ok s t → ok t a → M.next t a = some u → Reaches ok s u

variable {M}

theorem Reaches.trans {ok : State Op Ans Req Res σ → Act Req Choice Env → Prop}
    {s t u : State Op Ans Req Res σ} (hst : M.Reaches ok s t) (htu : M.Reaches ok t u) :
    M.Reaches ok s u := by
  induction htu with
  | refl => exact hst
  | tail _ hok hnext ih => exact ih.tail hok hnext

theorem Reaches.mono {ok ok' : State Op Ans Req Res σ → Act Req Choice Env → Prop}
    (h : ∀ s a, ok s a → ok' s a) {s t : State Op Ans Req Res σ}
    (hst : M.Reaches ok s t) : M.Reaches ok' s t := by
  induction hst with
  | refl => exact .refl
  | tail _ hok hnext ih => exact ih.tail (h _ _ hok) hnext

/-- A computed run is a run. -/
theorem reaches_of_run {s t : State Op Ans Req Res σ} {acts : List (Act Req Choice Env)}
    {ok : State Op Ans Req Res σ → Act Req Choice Env → Prop}
    (hok : ∀ a ∈ acts, ∀ u, ok u a) (h : M.run s acts = some t) : M.Reaches ok s t := by
  induction acts generalizing s with
  | nil =>
      cases h
      exact .refl
  | cons a rest ih =>
      obtain ⟨u, hu, hrest⟩ := Option.bind_eq_some_iff.1 h
      have hfirst : M.Reaches ok s u := Reaches.refl.tail (hok a List.mem_cons_self s) hu
      exact hfirst.trans (ih (fun b hb => hok b (List.mem_cons_of_mem a hb)) hrest)

theorem reaches_of_runIf {s t : State Op Ans Req Res σ} {acts : List (Act Req Choice Env)}
    {test : State Op Ans Req Res σ → Act Req Choice Env → Bool}
    {ok : State Op Ans Req Res σ → Act Req Choice Env → Prop}
    (hok : ∀ u a, test u a = true → ok u a) (h : M.runIf test s acts = some t) :
    M.Reaches ok s t := by
  induction acts generalizing s with
  | nil =>
      cases h
      exact .refl
  | cons a rest ih =>
      unfold runIf at h
      split at h
      · next htest =>
          obtain ⟨u, hu, hrest⟩ := Option.bind_eq_some_iff.1 h
          exact (Reaches.refl.tail (hok s a htest) hu).trans (ih hrest)
      · cases h

/-- What can happen in one event. -/
theorem next_cases {s t : State Op Ans Req Res σ} {a : Act Req Choice Env}
    (h : M.next s a = some t) :
    (∃ i req, a = .start i req ∧ s.task i = .idle ∧
      t = M.put s (M.enter i req s.shared) i req (M.code req)) ∨
    (∃ i c req o k sh ans, a = .step i c ∧ s.task i = .waiting req o k ∧
      M.exec i o c s.shared = some (sh, ans) ∧ t = M.put s sh i req (k ans)) ∨
    (∃ i req o k, a = .drop i ∧ s.task i = .waiting req o k ∧
      t = s.set (M.leave i s.shared) i (.dropped req)) ∨
    (∃ e, a = .env e ∧ t = { s with shared := M.disturb e s.shared }) := by
  cases a with
  | start i req =>
      left
      simp only [next] at h
      split at h
      · next hidle =>
          cases h
          exact ⟨i, req, rfl, hidle, rfl⟩
      · cases h
  | step i c =>
      right; left
      simp only [next] at h
      split at h
      · next req o k hwait =>
          split at h
          · next sh ans hexec =>
              cases h
              exact ⟨i, c, req, o, k, sh, ans, rfl, hwait, hexec, rfl⟩
          · cases h
      · cases h
  | drop i =>
      right; right; left
      simp only [next] at h
      split at h
      · next req o k hwait =>
          cases h
          exact ⟨i, req, o, k, rfl, hwait, rfl⟩
      · cases h
  | env e =>
      right; right; right
      cases h
      exact ⟨e, rfl, rfl⟩

theorem put_task_ne (s : State Op Ans Req Res σ) (sh : σ) {i j : Nat} (req : Req)
    (p : Prog Op Ans Res) (h : j ≠ i) : (M.put s sh i req p).task j = s.task j := by
  cases p with
  | done r => exact State.set_task_ne _ _ _ _ _ h
  | call o k => exact State.set_task_ne _ _ _ _ _ h

theorem put_request_self (s : State Op Ans Req Res σ) (sh : σ) (i : Nat) (req : Req)
    (p : Prog Op Ans Res) : ((M.put s sh i req p).task i).request = some req := by
  cases p with
  | done r => simp only [put, State.set_task_self, Task.request]
  | call o k => simp only [put, State.set_task_self, Task.request]

/-- A task that has just moved on has ended only if its code has. -/
theorem finished_of_put {s : State Op Ans Req Res σ} {sh : σ} {i : Nat} {req req' : Req}
    {p : Prog Op Ans Res} {r : Res} (h : (M.put s sh i req p).task i = .finished req' r) :
    req' = req ∧ p = .done r := by
  cases p with
  | done r' =>
      simp only [put, State.set_task_self] at h
      cases h
      exact ⟨rfl, rfl⟩
  | call o k =>
      simp only [put, State.set_task_self] at h
      cases h

/-- It waits where its code does. -/
theorem waiting_of_put {s : State Op Ans Req Res σ} {sh : σ} {i : Nat} {req req' : Req}
    {p : Prog Op Ans Res} {o : Op} {k : Ans o → Prog Op Ans Res}
    (h : (M.put s sh i req p).task i = .waiting req' o k) : req' = req ∧ p = .call o k := by
  cases p with
  | done r' =>
      simp only [put, State.set_task_self] at h
      cases h
  | call o' k' =>
      simp only [put, State.set_task_self] at h
      cases h
      exact ⟨rfl, rfl⟩

/-- A request that has entered is never forgotten. -/
theorem next_request {s t : State Op Ans Req Res σ} {a : Act Req Choice Env}
    (h : M.next s a = some t) {i : Nat} {req : Req}
    (hreq : (s.task i).request = some req) : (t.task i).request = some req := by
  rcases next_cases h with ⟨j, req', -, hidle, rfl⟩ |
    ⟨j, c, req', o, k, sh, ans, -, hwait, -, rfl⟩ | ⟨j, req', o, k, -, hwait, rfl⟩ |
    ⟨e, -, rfl⟩
  · by_cases hij : i = j
    · subst hij
      rw [hidle] at hreq
      cases hreq
    · rw [put_task_ne _ _ _ _ hij]
      exact hreq
  · by_cases hij : i = j
    · subst hij
      rw [hwait] at hreq
      rw [put_request_self]
      exact hreq
    · rw [put_task_ne _ _ _ _ hij]
      exact hreq
  · by_cases hij : i = j
    · subst hij
      rw [hwait] at hreq
      rw [State.set_task_self]
      exact hreq
    · rw [State.set_task_ne _ _ _ _ _ hij]
      exact hreq
  · exact hreq

/-- A request that enters is known. -/
theorem next_start_request {s t : State Op Ans Req Res σ} {i : Nat} {req : Req}
    (h : M.next s (.start i req) = some t) : (t.task i).request = some req := by
  rcases next_cases h with ⟨j, req', hact, -, rfl⟩ |
    ⟨j, c, req', o, k, sh, ans, hact, -⟩ | ⟨j, req', o, k, hact, -⟩ | ⟨e, hact, -⟩
  · cases hact
    exact put_request_self _ _ _ _ _
  · cases hact
  · cases hact
  · cases hact

theorem Reaches.request {ok : State Op Ans Req Res σ → Act Req Choice Env → Prop}
    {s t : State Op Ans Req Res σ} (h : M.Reaches ok s t) {i : Nat} {req : Req}
    (hreq : (s.task i).request = some req) : (t.task i).request = some req := by
  induction h with
  | refl => exact hreq
  | tail _ _ hnext ih => exact next_request hnext ih

/-- A computed run works on the request it starts with. -/
theorem request_of_runIf {s t : State Op Ans Req Res σ} {i : Nat} {req : Req}
    {acts : List (Act Req Choice Env)} {test : State Op Ans Req Res σ → Act Req Choice Env → Bool}
    (h : M.runIf test s (.start i req :: acts) = some t) : (t.task i).request = some req := by
  unfold runIf at h
  split at h
  · obtain ⟨u, hu, hrest⟩ := Option.bind_eq_some_iff.1 h
    have hreach : M.Reaches (fun _ _ => True) u t := reaches_of_runIf (fun _ _ _ => trivial) hrest
    exact hreach.request (next_start_request hu)
  · cases h

/-- Along a run, every request that enters is one of those in its last state. -/
theorem Reaches.entered {ok : State Op Ans Req Res σ → Act Req Choice Env → Prop}
    {s t : State Op Ans Req Res σ} (h : M.Reaches ok s t) :
    M.Reaches (fun u a => ok u a ∧
      ∀ i req, a = .start i req → (t.task i).request = some req) s t := by
  induction h with
  | refl => exact .refl
  | @tail t u a _ hok hnext ih =>
      refine Reaches.tail (ih.mono ?_) ⟨hok, ?_⟩ hnext
      · intro v b hb
        exact ⟨hb.1, fun i req hi => next_request hnext (hb.2 i req hi)⟩
      · rintro i req rfl
        exact next_start_request hnext

/-- The request of a task after an event entered with it, or was there before. -/
theorem request_of_next {s t : State Op Ans Req Res σ} {a : Act Req Choice Env}
    (h : M.next s a = some t) {i : Nat} {req : Req} (hreq : (t.task i).request = some req) :
    a = .start i req ∨ (s.task i).request = some req := by
  rcases next_cases h with ⟨j, req', rfl, -, rfl⟩ |
    ⟨j, c, req', o, k, sh, ans, -, hwait, -, rfl⟩ | ⟨j, req', o, k, -, hwait, rfl⟩ |
    ⟨e, -, rfl⟩
  · by_cases hij : i = j
    · subst hij
      rw [put_request_self] at hreq
      cases hreq
      exact Or.inl rfl
    · rw [put_task_ne _ _ _ _ hij] at hreq
      exact Or.inr hreq
  · by_cases hij : i = j
    · subst hij
      rw [put_request_self] at hreq
      rw [hwait]
      exact Or.inr hreq
    · rw [put_task_ne _ _ _ _ hij] at hreq
      exact Or.inr hreq
  · by_cases hij : i = j
    · subst hij
      rw [State.set_task_self] at hreq
      rw [hwait]
      exact Or.inr hreq
    · rw [State.set_task_ne _ _ _ _ _ hij] at hreq
      exact Or.inr hreq
  · exact Or.inr hreq

/-- What holds of every request that may start holds of every request of a run. -/
theorem Reaches.started {K : Req → Prop}
    {ok : State Op Ans Req Res σ → Act Req Choice Env → Prop}
    (hstart : ∀ s i req, ok s (.start i req) → K req)
    {s t : State Op Ans Req Res σ} (hidle : ∀ i, s.task i = .idle) (h : M.Reaches ok s t)
    {i : Nat} {req : Req} (hreq : (t.task i).request = some req) : K req := by
  induction h with
  | refl =>
      rw [hidle i] at hreq
      cases hreq
  | @tail u v a _ hok hnext ih =>
      rcases request_of_next hnext hreq with rfl | hreq
      · exact hstart u i req hok
      · exact ih hreq

/-- A task that waits, waits as the verification of its code says. -/
def Keeping (W : Nat → Req → Prog Op Ans Res → Prop) (s : State Op Ans Req Res σ) : Prop :=
  ∀ i req o k, s.task i = .waiting req o k → W i req (.call o k)

/-- Who has acted goes on with `p`; the others wait for what they waited for. -/
theorem keeping_put {W : Nat → Req → Prog Op Ans Res → Prop} {s : State Op Ans Req Res σ}
    (hs : Keeping W s) (sh : σ) {i : Nat} {req : Req} {p : Prog Op Ans Res} (hp : W i req p) :
    Keeping W (M.put s sh i req p) := by
  intro j req' o k hwait
  by_cases hij : j = i
  · subst hij
    cases p with
    | done r =>
        rw [put, State.set_task_self] at hwait
        cases hwait
    | call o' k' =>
        rw [put, State.set_task_self] at hwait
        cases hwait
        exact hp
  · rw [put_task_ne _ _ _ _ hij] at hwait
    exact hs j req' o k hwait

/-- **What every operation of every task keeps, a run keeps.** -/
theorem Reaches.keeping {W : Nat → Req → Prog Op Ans Res → Prop} {I : σ → Prop}
    {ok : State Op Ans Req Res σ → Act Req Choice Env → Prop}
    (hcode : ∀ s i req, ok s (.start i req) → W i req (M.code req))
    (henter : ∀ i req sh, I sh → I (M.enter i req sh)) (hleave : ∀ i sh, I sh → I (M.leave i sh))
    (hexec : ∀ i c req o k sh sh' a, W i req (.call o k) → I sh →
      M.exec i o c sh = some (sh', a) → I sh' ∧ W i req (k a))
    (hdisturb : ∀ s e, ok s (.env e) → I s.shared → I (M.disturb e s.shared))
    {s t : State Op Ans Req Res σ} (hidle : ∀ i, s.task i = .idle) (hs : I s.shared)
    (hrun : M.Reaches ok s t) : I t.shared ∧ Keeping W t := by
  have hput : ∀ (u : State Op Ans Req Res σ) (sh : σ) (i : Nat) (req : Req)
      (p : Prog Op Ans Res), I sh → I (M.put u sh i req p).shared := by
    intro u sh i req p hsh
    cases p with
    | done r => exact hleave i sh hsh
    | call o k => exact hsh
  induction hrun with
  | refl =>
      refine ⟨hs, ?_⟩
      intro i req o k hwait
      rw [hidle i] at hwait
      cases hwait
  | @tail u v a _ hok hnext ih =>
      obtain ⟨hinv, hkeeping⟩ := ih
      rcases next_cases hnext with ⟨i, req, rfl, -, rfl⟩ |
        ⟨i, c, req, o, k, sh, ans, rfl, hwait, hx, rfl⟩ | ⟨i, req, o, k, rfl, -, rfl⟩ |
        ⟨e, rfl, rfl⟩
      · exact ⟨hput u _ i req _ (henter i req _ hinv), keeping_put hkeeping _ (hcode u i req hok)⟩
      · obtain ⟨hinv', hrest⟩ := hexec i c req o k _ sh ans (hkeeping i req o k hwait) hinv hx
        exact ⟨hput u _ i req _ hinv', keeping_put hkeeping _ hrest⟩
      · refine ⟨hleave i _ hinv, ?_⟩
        intro j req' o' k' hwait
        by_cases hij : j = i
        · subst hij
          rw [State.set_task_self] at hwait
          cases hwait
        · rw [State.set_task_ne _ _ _ _ _ hij] at hwait
          exact hkeeping j req' o' k' hwait
      · exact ⟨hdisturb u e hok hinv, hkeeping⟩

/-- A task that waits stands to the shared state as its verification says. -/
def Standing (W : Req → Prog Op Ans Res → σ → Prop) (s : State Op Ans Req Res σ) : Prop :=
  ∀ i req o k, s.task i = .waiting req o k → W req (.call o k) s.shared

/-- **What a task's own steps and the steps of the others keep, a run keeps.** -/
theorem Reaches.standing {W : Req → Prog Op Ans Res → σ → Prop}
    {ok : State Op Ans Req Res σ → Act Req Choice Env → Prop}
    (hcode : ∀ s i req, ok s (.start i req) → W req (M.code req) (M.enter i req s.shared))
    (hown : ∀ i c req o k sh sh' a, W req (.call o k) sh → M.exec i o c sh = some (sh', a) →
      W req (k a) sh')
    (hothers : ∀ s a t, ok s a → Standing W s → M.next s a = some t → ∀ req p,
      W req p s.shared → W req p t.shared)
    {s t : State Op Ans Req Res σ} (hidle : ∀ i, s.task i = .idle) (hrun : M.Reaches ok s t) :
    Standing W t := by
  induction hrun with
  | refl =>
      intro i req o k hwait
      rw [hidle i] at hwait
      cases hwait
  | @tail u v a _ hok hnext ih =>
      have hother := hothers u a v hok ih hnext
      -- the task that moves stands by its own step, the others by what the step leaves them
      have hput : ∀ (sh : σ) (i : Nat) (req : Req) (p : Prog Op Ans Res),
          v = M.put u sh i req p → W req p sh → Standing W v := by
        intro sh i req p hv hp j req' o k hwait
        by_cases hji : j = i
        · rw [hji] at hwait
          rw [hv] at hwait ⊢
          cases p with
          | done r =>
              rw [put, State.set_task_self] at hwait
              cases hwait
          | call o' k' =>
              rw [put, State.set_task_self] at hwait
              cases hwait
              exact hp
        · apply hother
          apply ih j
          rw [hv, put_task_ne _ _ _ _ hji] at hwait
          exact hwait
      rcases next_cases hnext with ⟨i, req, rfl, -, hv⟩ |
        ⟨i, c, req, o, k, sh, ans, rfl, hwait, hx, hv⟩ | ⟨i, req, o, k, rfl, -, hv⟩ |
        ⟨e, rfl, hv⟩
      · exact hput _ i req _ hv (hcode u i req hok)
      · exact hput sh i req _ hv (hown i c req o k _ sh ans (ih i req o k hwait) hx)
      · intro j req' o' k' hwait
        apply hother
        apply ih j
        rw [hv] at hwait
        by_cases hji : j = i
        · rw [hji, State.set_task_self] at hwait
          cases hwait
        · rw [State.set_task_ne _ _ _ _ _ hji] at hwait
          exact hwait
      · intro j req' o' k' hwait
        apply hother
        apply ih j
        rw [hv] at hwait
        exact hwait

/-- A task that waits asks for what its request may ask for. -/
def Bounded (P : Req → Op → Prop) (K : Req → Prop) (s : State Op Ans Req Res σ) : Prop :=
  ∀ i req o k, s.task i = .waiting req o k →
    K req ∧ (Prog.call o k).Along (P req) fun _ => True

/-- The same where the operations are known from the code, whatever the answers. -/
theorem Reaches.along {P : Req → Op → Prop} {K : Req → Prop} {I : σ → Prop}
    {ok : State Op Ans Req Res σ → Act Req Choice Env → Prop}
    (hcode : ∀ req, K req → (M.code req).Along (P req) fun _ => True)
    (hstart : ∀ s i req, ok s (.start i req) → K req)
    (henter : ∀ i req sh, I sh → I (M.enter i req sh)) (hleave : ∀ i sh, I sh → I (M.leave i sh))
    (hexec : ∀ i c req o sh sh' a, K req → P req o → I sh → M.exec i o c sh = some (sh', a) →
      I sh')
    (hdisturb : ∀ s e, ok s (.env e) → I s.shared → I (M.disturb e s.shared))
    {s t : State Op Ans Req Res σ} (hidle : ∀ i, s.task i = .idle) (hs : I s.shared)
    (hrun : M.Reaches ok s t) : I t.shared ∧ Bounded P K t := by
  apply Reaches.keeping (W := fun _ req p => K req ∧ p.Along (P req) fun _ => True) _ henter
    hleave _ hdisturb hidle hs hrun
  · intro u i req hok
    have hreq := hstart u i req hok
    exact ⟨hreq, hcode req hreq⟩
  · intro i c req o k sh sh' a hwait hsh hx
    obtain ⟨hreq, hask, hrest⟩ := hwait
    exact ⟨hexec i c req o sh sh' a hreq hask hsh hx, hreq, hrest a⟩

end System

/-! ## Disciplines -/

/-- What a run consists of, as a discipline sees it: a task begins, asks for an
operation that is then carried out, or is dropped; or something happens outside
all tasks. -/
inductive Event (Op Req Choice Env : Type) : Type where
  | enter (i : Nat) (req : Req)
  | call (i : Nat) (req : Req) (o : Op) (c : Choice)
  | drop (i : Nat) (req : Req)
  | env (e : Env)

/-- What holds throughout (`inv`), what a task may assume of the steps of others
(`rely`), which events the runs contain (`allowed`), and what holds while a task
waits for an operation (`mark`). -/
structure Discipline (Op Req Choice Env σ : Type) where
  inv : σ → Prop
  rely : Nat → σ → σ → Prop
  allowed : σ → Event Op Req Choice Env → Prop
  mark : Nat → Req → Op → σ → Prop

/-- A condition on events, as one on the acts of a system. -/
def Permits (allowed : σ → Event Op Req Choice Env → Prop) (s : State Op Ans Req Res σ) :
    Act Req Choice Env → Prop
  | .start i req => allowed s.shared (.enter i req)
  | .step i c =>
      match s.task i with
      | .waiting req o _ => allowed s.shared (.call i req o c)
      | _ => True
  | .drop i =>
      match s.task i with
      | .waiting req _ _ => allowed s.shared (.drop i req)
      | _ => True
  | .env e => allowed s.shared (.env e)

/-- From one condition to another, with what is known of the tasks that start. -/
theorem Permits.weaken {allowed allowed' : σ → Event Op Req Choice Env → Prop}
    {s : State Op Ans Req Res σ} {a : Act Req Choice Env} (ha : Permits allowed s a)
    (hstart : ∀ i req, a = .start i req → allowed s.shared (.enter i req) →
      allowed' s.shared (.enter i req))
    (hrest : ∀ e, (∀ i req, e ≠ .enter i req) → allowed s.shared e →
      allowed' s.shared e) : Permits allowed' s a := by
  cases a with
  | start i req => exact hstart i req rfl ha
  | step i c =>
      cases hi : s.task i with
      | waiting req o k =>
          simp only [Permits, hi] at ha ⊢
          exact hrest _ (fun _ _ h => nomatch h) ha
      | idle | finished | dropped => simp only [Permits, hi]
  | drop i =>
      cases hi : s.task i with
      | waiting req o k =>
          simp only [Permits, hi] at ha ⊢
          exact hrest _ (fun _ _ h => nomatch h) ha
      | idle | finished | dropped => simp only [Permits, hi]
  | env e => exact hrest _ (fun _ _ h => nomatch h) ha

/-- Steps and drops are permitted where no call and no drop is refused. -/
theorem permits_step {allowed : σ → Event Op Req Choice Env → Prop}
    {s : State Op Ans Req Res σ} {i : Nat} {c : Choice}
    (h : ∀ req o, allowed s.shared (.call i req o c)) :
    Permits allowed s (.step i c) := by
  cases hi : s.task i with
  | waiting req o k =>
      simp only [Permits, hi]
      exact h req o
  | idle | finished | dropped => simp only [Permits, hi]

section Discipline

variable (M : System Op Ans Req Res Choice Env σ)
  (D : Discipline Op Req Choice Env σ)

/-- A step every other task can live with, back into the invariant. -/
def Discipline.Kept (i : Nat) (s t : σ) : Prop :=
  D.inv t ∧ ∀ j, j ≠ i → D.rely j s t

/-- The discipline allows this event in this state. -/
def Discipline.Allows : State Op Ans Req Res σ → Act Req Choice Env → Prop :=
  Permits D.allowed

/-- The code of task `i`, working on `req`, respects the discipline from `s` on
and ends in `Q`.  Before every operation the others may have moved. -/
def wp (i : Nat) (req : Req) : Prog Op Ans ρ → (ρ → σ → Prop) → σ → Prop
  | .done r, Q, s => Q r s
  | .call o k, Q, s =>
      ∀ s₁, D.rely i s s₁ → D.inv s₁ → D.mark i req o s₁ ∧
        ∀ c s₂ a, D.allowed s₁ (.call i req o c) → M.exec i o c s₁ = some (s₂, a) →
          D.Kept i s₁ s₂ ∧ wp i req (k a) Q s₂

variable {M D} {i : Nat} {req : Req}

theorem wp_mono {p : Prog Op Ans ρ} {Q Q' : ρ → σ → Prop} {s : σ}
    (h : wp M D i req p Q s) (hQ : ∀ r s, Q r s → Q' r s) : wp M D i req p Q' s := by
  induction p generalizing s with
  | done r => exact hQ r s h
  | call o k ih =>
      intro s₁ hrely hinv
      obtain ⟨hmark, hstep⟩ := h s₁ hrely hinv
      refine ⟨hmark, ?_⟩
      intro c s₂ a hallow hexec
      obtain ⟨hkept, hrest⟩ := hstep c s₂ a hallow hexec
      exact ⟨hkept, ih a hrest⟩

theorem wp_bind {p : Prog Op Ans ρ} {f : ρ → Prog Op Ans τ}
    {Q : τ → σ → Prop} {s : σ} :
    wp M D i req (p.bind f) Q s ↔
      wp M D i req p (fun r s => wp M D i req (f r) Q s) s := by
  induction p generalizing s with
  | done r => exact Iff.rfl
  | call o k ih =>
      constructor
      · intro h s₁ hrely hinv
        obtain ⟨hmark, hstep⟩ := h s₁ hrely hinv
        refine ⟨hmark, ?_⟩
        intro c s₂ a hallow hexec
        obtain ⟨hkept, hrest⟩ := hstep c s₂ a hallow hexec
        exact ⟨hkept, (ih a).1 hrest⟩
      · intro h s₁ hrely hinv
        obtain ⟨hmark, hstep⟩ := h s₁ hrely hinv
        refine ⟨hmark, ?_⟩
        intro c s₂ a hallow hexec
        obtain ⟨hkept, hrest⟩ := hstep c s₂ a hallow hexec
        exact ⟨hkept, (ih a).2 hrest⟩

variable (M D)

/-- The discipline fits the system, and the code of every request that may enter
is verified against it with the postcondition `Q`. -/
structure Sound (Q : Nat → Req → Res → σ → Prop) : Prop where
  rely_refl : ∀ i s, D.rely i s s
  rely_trans : ∀ i s t u, D.rely i s t → D.rely i t u → D.rely i s u
  enter : ∀ i req s, D.inv s → D.allowed s (.enter i req) →
    D.Kept i s (M.enter i req s) ∧
      wp M D i req (M.code req) (Q i req) (M.enter i req s)
  leave : ∀ i req r s, D.inv s → Q i req r s → D.Kept i s (M.leave i s)
  drop : ∀ i req o s, D.inv s → D.mark i req o s → D.allowed s (.drop i req) →
    D.Kept i s (M.leave i s)
  disturb : ∀ e s, D.inv s → D.allowed s (.env e) →
    D.inv (M.disturb e s) ∧ ∀ j, D.rely j s (M.disturb e s)

/-- The invariant holds and every waiting task is verified. -/
structure Good (Q : Nat → Req → Res → σ → Prop) (s : State Op Ans Req Res σ) :
    Prop where
  inv : D.inv s.shared
  waiting : ∀ i req o k, s.task i = .waiting req o k →
    wp M D i req (.call o k) (Q i req) s.shared

variable {M D} {i : Nat} {req : Req} {Q : Nat → Req → Res → σ → Prop}

/-- A waiting task stays verified while the others move. -/
theorem Sound.wp_stable (hD : Sound M D Q) {o : Op}
    {k : Ans o → Prog Op Ans Res} {Q' : Res → σ → Prop} {s t : σ}
    (h : wp M D i req (.call o k) Q' s) (hrely : D.rely i s t) :
    wp M D i req (.call o k) Q' t := by
  intro s₁ hrely₁
  exact h s₁ (hD.rely_trans i s t s₁ hrely hrely₁)

/-- Tasks at rest with respect to a move of task `i` stay verified. -/
theorem Sound.good_of_kept (hD : Sound M D Q) {s t : State Op Ans Req Res σ}
    (hgood : Good M D Q s) (hinv : D.inv t.shared)
    (hrely : ∀ j, j ≠ i → D.rely j s.shared t.shared)
    (htask : ∀ j, j ≠ i → t.task j = s.task j)
    (hself : ∀ req o k, t.task i = .waiting req o k →
      wp M D i req (.call o k) (Q i req) t.shared) : Good M D Q t := by
  refine ⟨hinv, ?_⟩
  intro j req o k hwait
  by_cases hj : j = i
  · subst hj
    exact hself req o k hwait
  · rw [htask j hj] at hwait
    exact hD.wp_stable (hgood.waiting j req o k hwait) (hrely j hj)

/-- Putting a verified program back is a step the others can live with. -/
theorem Sound.kept_put (hD : Sound M D Q) {s : State Op Ans Req Res σ} {sh : σ}
    {p : Prog Op Ans Res} (hkept : D.Kept i s.shared sh)
    (hwp : wp M D i req p (Q i req) sh) :
    D.Kept i s.shared (M.put s sh i req p).shared := by
  cases p with
  | done r =>
      obtain ⟨hinv, hrely⟩ := hD.leave i req r sh hkept.1 hwp
      exact ⟨hinv, fun j hj => hD.rely_trans j _ _ _ (hkept.2 j hj) (hrely j hj)⟩
  | call o k => exact hkept

/-- A step that keeps what the others rely on, after which the request that acted goes on with a
program that is good from there, leaves every request good. -/
theorem Sound.good_put (hD : Sound M D Q) {s : State Op Ans Req Res σ} {sh : σ}
    {p : Prog Op Ans Res} (hgood : Good M D Q s)
    (hkept : D.Kept i s.shared sh) (hwp : wp M D i req p (Q i req) sh) :
    Good M D Q (M.put s sh i req p) := by
  obtain ⟨hinv, hrely⟩ := hD.kept_put hkept hwp
  refine hD.good_of_kept hgood hinv hrely (fun j hj => System.put_task_ne _ _ _ _ hj) ?_
  intro req' o' k' hwait
  cases p with
  | done r => simp only [System.put, State.set_task_self, reduceCtorEq] at hwait
  | call o k =>
      simp only [System.put, State.set_task_self, Task.waiting.injEq] at hwait
      obtain ⟨rfl, rfl, hk⟩ := hwait
      cases hk
      exact hwp

/-- What an event does to the shared state: one task moves, or the
surroundings do. -/
theorem Sound.kept_next (hD : Sound M D Q) {s t : State Op Ans Req Res σ}
    {a : Act Req Choice Env} (hgood : Good M D Q s) (hallow : D.Allows s a)
    (hnext : M.next s a = some t) : ∃ i, D.Kept i s.shared t.shared := by
  rcases System.next_cases hnext with ⟨i, req, rfl, -, rfl⟩ |
    ⟨i, c, req, o, k, sh, ans, rfl, hwait, hexec, rfl⟩ |
    ⟨i, req, o, k, rfl, hwait, rfl⟩ | ⟨e, rfl, rfl⟩
  · obtain ⟨hkept, hwp⟩ := hD.enter i req s.shared hgood.inv hallow
    exact ⟨i, hD.kept_put hkept hwp⟩
  · simp only [Discipline.Allows, Permits, hwait] at hallow
    obtain ⟨hkept, hwp⟩ := (hgood.waiting i req o k hwait s.shared
      (hD.rely_refl i _) hgood.inv).2 c sh ans hallow hexec
    exact ⟨i, hD.kept_put hkept hwp⟩
  · simp only [Discipline.Allows, Permits, hwait] at hallow
    have hmark := (hgood.waiting i req o k hwait s.shared (hD.rely_refl i _) hgood.inv).1
    exact ⟨i, hD.drop i req o s.shared hgood.inv hmark hallow⟩
  · obtain ⟨hinv, hrely⟩ := hD.disturb e s.shared hgood.inv hallow
    exact ⟨0, hinv, fun j _ => hrely j⟩

/-- **Step lemma.** -/
theorem Sound.good_next (hD : Sound M D Q) {s t : State Op Ans Req Res σ}
    {a : Act Req Choice Env} (hgood : Good M D Q s) (hallow : D.Allows s a)
    (hnext : M.next s a = some t) : Good M D Q t := by
  rcases System.next_cases hnext with ⟨i, req, rfl, -, rfl⟩ |
    ⟨i, c, req, o, k, sh, ans, rfl, hwait, hexec, rfl⟩ |
    ⟨i, req, o, k, rfl, hwait, rfl⟩ | ⟨e, rfl, rfl⟩
  · obtain ⟨hkept, hwp⟩ := hD.enter i req s.shared hgood.inv hallow
    exact hD.good_put hgood hkept hwp
  · simp only [Discipline.Allows, Permits, hwait] at hallow
    obtain ⟨hkept, hwp⟩ := (hgood.waiting i req o k hwait s.shared
      (hD.rely_refl i _) hgood.inv).2 c sh ans hallow hexec
    exact hD.good_put hgood hkept hwp
  · simp only [Discipline.Allows, Permits, hwait] at hallow
    have hmark := (hgood.waiting i req o k hwait s.shared (hD.rely_refl i _) hgood.inv).1
    obtain ⟨hinv, hrely⟩ := hD.drop i req o s.shared hgood.inv hmark hallow
    refine hD.good_of_kept hgood hinv hrely
      (fun j hj => State.set_task_ne _ _ _ _ _ hj) ?_
    intro req' o' k' hwait
    simp only [State.set_task_self, reduceCtorEq] at hwait
  · obtain ⟨hinv, hrely⟩ := hD.disturb e s.shared hgood.inv hallow
    refine ⟨hinv, ?_⟩
    intro j req o k hwait
    exact hD.wp_stable (hgood.waiting j req o k hwait) (hrely j)

/-- **Run lemma.** -/
theorem Sound.good_of_reaches (hD : Sound M D Q) {s t : State Op Ans Req Res σ}
    (hgood : Good M D Q s) (hrun : M.Reaches D.Allows s t) : Good M D Q t := by
  induction hrun with
  | refl => exact hgood
  | tail _ hallow hnext ih => exact hD.good_next ih hallow hnext

/-- While a task waits, its mark holds. -/
theorem Sound.mark_of_waiting (hD : Sound M D Q) {s : State Op Ans Req Res σ} {o : Op}
    {k : Ans o → Prog Op Ans Res} (hgood : Good M D Q s)
    (hwait : s.task i = .waiting req o k) : D.mark i req o s.shared :=
  (hgood.waiting i req o k hwait s.shared (hD.rely_refl i _) hgood.inv).1

/-- When an event ends a task, its postcondition holds just before the task
leaves. -/
theorem Sound.post_of_finish (hD : Sound M D Q) {s t : State Op Ans Req Res σ}
    {a : Act Req Choice Env} {r : Res} (hgood : Good M D Q s)
    (hallow : D.Allows s a) (hnext : M.next s a = some t)
    (hbefore : s.task i ≠ .finished req r) (hfin : t.task i = .finished req r) :
    ∃ sh, Q i req r sh ∧ D.inv sh ∧ t.shared = M.leave i sh := by
  -- a program that has stopped as task `j` and is put back as finished
  have hput : ∀ {j req' sh} {p : Prog Op Ans Res}, D.inv sh →
      wp M D j req' p (Q j req') sh → t = M.put s sh j req' p →
      ∃ sh, Q i req r sh ∧ D.inv sh ∧ t.shared = M.leave i sh := by
    rintro j req' sh p hinv hwp rfl
    by_cases hij : i = j
    · subst hij
      cases p with
      | done r' =>
          simp only [System.put, State.set_task_self, Task.finished.injEq] at hfin
          obtain ⟨rfl, rfl⟩ := hfin
          exact ⟨sh, hwp, hinv, rfl⟩
      | call o' k' => simp only [System.put, State.set_task_self, reduceCtorEq] at hfin
    · rw [System.put_task_ne _ _ _ _ hij] at hfin
      exact absurd hfin hbefore
  rcases System.next_cases hnext with ⟨j, req', rfl, -, ht⟩ |
    ⟨j, c, req', o, k, sh, ans, rfl, hwait, hexec, ht⟩ |
    ⟨j, req', o, k, rfl, -, rfl⟩ | ⟨e, rfl, rfl⟩
  · obtain ⟨hkept, hwp⟩ := hD.enter j req' s.shared hgood.inv hallow
    exact hput hkept.1 hwp ht
  · simp only [Discipline.Allows, Permits, hwait] at hallow
    obtain ⟨hkept, hwp⟩ := (hgood.waiting j req' o k hwait s.shared
      (hD.rely_refl j _) hgood.inv).2 c sh ans hallow hexec
    exact hput hkept.1 hwp ht
  · by_cases hij : i = j
    · subst hij
      simp only [State.set_task_self, reduceCtorEq] at hfin
    · rw [State.set_task_ne _ _ _ _ _ hij] at hfin
      exact absurd hfin hbefore
  · exact absurd hfin hbefore

/-- What every task may rely on holds along the run. -/
theorem Sound.preserved (hD : Sound M D Q) {K : σ → Prop}
    (hK : ∀ j s t, D.rely j s t → K s → K t) {s t : State Op Ans Req Res σ}
    {a : Act Req Choice Env} (hgood : Good M D Q s) (hallow : D.Allows s a)
    (hnext : M.next s a = some t) (hs : K s.shared) : K t.shared := by
  obtain ⟨i, -, hrely⟩ := hD.kept_next hgood hallow hnext
  exact hK (i + 1) _ _ (hrely (i + 1) (Nat.succ_ne_self i)) hs

/-- What tasks end with stays, where the others respect it. -/
theorem Sound.of_finished (hD : Sound M D Q) {R : Nat → Req → Res → σ → Prop}
    (hR : ∀ i req r j s t, D.rely j s t → R i req r s → R i req r t)
    (hQ : ∀ i req r s, Q i req r s → R i req r s) {s t : State Op Ans Req Res σ}
    (hgood : Good M D Q s) (hrun : M.Reaches D.Allows s t)
    (hs : ∀ i req r, s.task i = .finished req r → R i req r s.shared) :
    ∀ i req r, t.task i = .finished req r → R i req r t.shared := by
  induction hrun with
  | refl => exact hs
  | @tail u t a hreach hallow hnext ih =>
      intro i req r hfin
      have hgood' : Good M D Q u := hD.good_of_reaches hgood hreach
      by_cases hbefore : u.task i = .finished req r
      · exact hD.preserved (hR i req r) hgood' hallow hnext (ih i req r hbefore)
      · obtain ⟨sh, hpost, hinv, ht⟩ := hD.post_of_finish hgood' hallow hnext hbefore hfin
        obtain ⟨-, hrely⟩ := hD.leave i req r sh hinv hpost
        rw [ht]
        exact hR i req r (i + 1) _ _ (hrely (i + 1) (Nat.succ_ne_self i)) (hQ i req r sh hpost)

/-- A task seen alone: it will end in `Q'`, or has done so. -/
inductive Follows (M : System Op Ans Req Res Choice Env σ)
    (D : Discipline Op Req Choice Env σ) (i : Nat) (req : Req) (Q' : Res → σ → Prop)
    (s : State Op Ans Req Res σ) : Prop where
  | waiting (o : Op) (k : Ans o → Prog Op Ans Res) (htask : s.task i = .waiting req o k)
      (hwp : wp M D i req (.call o k) Q' s.shared)
  | finished (r : Res) (sh : σ) (htask : s.task i = .finished req r) (hpost : Q' r sh)
  | dropped (htask : s.task i = .dropped req)

theorem follows_put {Q' : Res → σ → Prop} {s : State Op Ans Req Res σ} {sh : σ}
    {p : Prog Op Ans Res} (hwp : wp M D i req p Q' sh) :
    Follows M D i req Q' (M.put s sh i req p) := by
  cases p with
  | done r => exact .finished r sh (State.set_task_self _ _ _ _) hwp
  | call o k => exact .waiting o k (State.set_task_self _ _ _ _) hwp

/-- Another task, or the surroundings, move: the task stays as it is. -/
theorem Sound.follows_of_rely (hD : Sound M D Q) {Q' : Res → σ → Prop}
    {s t : State Op Ans Req Res σ} (hfollows : Follows M D i req Q' s)
    (htask : t.task i = s.task i) (hrely : D.rely i s.shared t.shared) :
    Follows M D i req Q' t := by
  cases hfollows with
  | waiting o k hwait hwp =>
      exact .waiting o k (htask.trans hwait) (hD.wp_stable hwp hrely)
  | finished r sh hfin hpost => exact .finished r sh (htask.trans hfin) hpost
  | dropped hdrop => exact .dropped (htask.trans hdrop)

/-- A task whose own code is verified for `Q'` keeps to it in every event. -/
theorem Sound.follows_next (hD : Sound M D Q) {Q' : Res → σ → Prop}
    {s t : State Op Ans Req Res σ} {a : Act Req Choice Env} (hgood : Good M D Q s)
    (hfollows : Follows M D i req Q' s) (hallow : D.Allows s a)
    (hnext : M.next s a = some t) : Follows M D i req Q' t := by
  rcases System.next_cases hnext with ⟨j, req', rfl, hidle, rfl⟩ |
    ⟨j, c, req', o, k, sh, ans, rfl, hwait, hexec, rfl⟩ |
    ⟨j, req', o, k, rfl, hwait, rfl⟩ | ⟨e, rfl, rfl⟩
  · have hij : i ≠ j := by
      rintro rfl
      cases hfollows with
      | waiting o k hwait => rw [hwait] at hidle; cases hidle
      | finished r sh hfin => rw [hfin] at hidle; cases hidle
      | dropped hdrop => rw [hdrop] at hidle; cases hidle
    obtain ⟨hkept, hwp⟩ := hD.enter j req' s.shared hgood.inv hallow
    exact hD.follows_of_rely hfollows (System.put_task_ne _ _ _ _ hij)
      ((hD.kept_put hkept hwp).2 i hij)
  · simp only [Discipline.Allows, Permits, hwait] at hallow
    by_cases hij : i = j
    · subst hij
      cases hfollows with
      | waiting o' k' hwait' hwp =>
          rw [hwait] at hwait'
          cases hwait'
          obtain ⟨-, hrest⟩ := (hwp s.shared (hD.rely_refl i _) hgood.inv).2 c sh ans
            hallow hexec
          exact follows_put hrest
      | finished r sh hfin => rw [hwait] at hfin; cases hfin
      | dropped hdrop => rw [hwait] at hdrop; cases hdrop
    · obtain ⟨hkept, hwp⟩ := (hgood.waiting j req' o k hwait s.shared
        (hD.rely_refl j _) hgood.inv).2 c sh ans hallow hexec
      exact hD.follows_of_rely hfollows (System.put_task_ne _ _ _ _ hij)
        ((hD.kept_put hkept hwp).2 i hij)
  · simp only [Discipline.Allows, Permits, hwait] at hallow
    by_cases hij : i = j
    · subst hij
      cases hfollows with
      | waiting o' k' hwait' =>
          rw [hwait] at hwait'
          cases hwait'
          exact .dropped (State.set_task_self _ _ _ _)
      | finished r sh hfin => rw [hwait] at hfin; cases hfin
      | dropped hdrop => rw [hwait] at hdrop; cases hdrop
    · have hmark := (hgood.waiting j req' o k hwait s.shared (hD.rely_refl j _) hgood.inv).1
      exact hD.follows_of_rely hfollows (State.set_task_ne _ _ _ _ _ hij)
        ((hD.drop j req' o s.shared hgood.inv hmark hallow).2 i hij)
  · obtain ⟨-, hrely⟩ := hD.disturb e s.shared hgood.inv hallow
    exact hD.follows_of_rely hfollows rfl (hrely i)

theorem Sound.follows_reaches (hD : Sound M D Q) {Q' : Res → σ → Prop}
    {s t : State Op Ans Req Res σ} (hgood : Good M D Q s)
    (hfollows : Follows M D i req Q' s) (hrun : M.Reaches D.Allows s t) :
    Follows M D i req Q' t := by
  induction hrun with
  | refl => exact hfollows
  | tail hreach hallow hnext ih =>
      exact hD.follows_next (hD.good_of_reaches hgood hreach) ih hallow hnext

end Discipline

end SteppedPrograms

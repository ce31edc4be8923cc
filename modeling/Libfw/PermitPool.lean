import Libfw.GuardedRuns
import Libfw.TuneParams

/-!
# The pool of request permits

`Semaphore` of `libfw-client/src/state.rs`, with the permits that are out beside
it.  A task polls for a permit, holds it and drops it; tuning sets the cap.

A dropped permit goes back into the pool up to the cap, and lowering the cap
takes nothing from the permits that are out, so these come back into a pool that
was cut already.

* `drained_runs_respect_cap`: where the cap is lowered only while no permit is
  out, every permit is granted below the cap, and free and outstanding permits
  together are the cap; and lowering it at any other time lets polls and drops
  alone lead to a permit beyond the cap.
* `lowered_cap_is_exceeded`: a run in which that happens.
-/

namespace Libfw

open GuardedRuns

/-- A waker stands for the task that left it. -/
abbrev Waker := Nat

/-- `SemaphoreInner`. -/
structure Semaphore where
  max : Nat
  available : Nat
  waiters : List Waker
  deriving DecidableEq

namespace Semaphore

/-- `new`. -/
def new (max : Nat) : Semaphore := ⟨Nat.max max 1, Nat.max max 1, []⟩

/-- `reset`. -/
def reset (s : Semaphore) : Semaphore := { s with available := s.max, waiters := [] }

/-- `set_max`, and the tasks it wakes. -/
def setMax (s : Semaphore) (max : Nat) : Semaphore × List Waker :=
  let max := Nat.max max 1
  let available :=
    if s.max < max then Nat.min (s.available + (max - s.max)) max else Nat.min s.available max
  (⟨max, available, []⟩, s.waiters)

/-- `try_acquire`. -/
def tryAcquire (s : Semaphore) : Bool × Semaphore :=
  if 0 < s.available then (true, { s with available := s.available - 1 }) else (false, s)

/-- `Acquire::poll` by a task: granted, or queued. -/
def poll (s : Semaphore) (task : Waker) : Bool × Semaphore :=
  match s.tryAcquire with
  | (true, s) => (true, s)
  | (false, s) => (false, { s with waiters := s.waiters ++ [task] })

/-- `release`, the drop of a permit, and the tasks it wakes. -/
def release (s : Semaphore) : Semaphore × List Waker :=
  ({ s with available := Nat.min (s.available + 1) s.max, waiters := [] }, s.waiters)

theorem poll_of_available {s : Semaphore} (h : 0 < s.available) (task : Waker) :
    s.poll task = (true, { s with available := s.available - 1 }) := by
  unfold poll tryAcquire
  rw [if_pos h]

theorem poll_of_empty {s : Semaphore} (h : s.available = 0) (task : Waker) :
    s.poll task = (false, { s with waiters := s.waiters ++ [task] }) := by
  unfold poll tryAcquire
  rw [if_neg (by omega)]

end Semaphore

/-! ## The pool -/

/-- A semaphore with the permits that are out, and how many were out when the cap
was last lowered. -/
structure PermitPool where
  sem : Semaphore
  outstanding : Nat
  lowered : Nat
  deriving DecidableEq

inductive PoolAct where
  | poll (task : Waker)
  | drop
  | setMax (max : Nat)
  deriving DecidableEq

namespace PermitPool

def new (max : Nat) : PermitPool := ⟨.new max, 0, 0⟩

/-- A permit can be dropped only where one is out. -/
def next (s : PermitPool) : PoolAct → Option PermitPool
  | .poll task =>
      match s.sem.poll task with
      | (true, sem) => some { s with sem := sem, outstanding := s.outstanding + 1 }
      | (false, sem) => some { s with sem := sem }
  | .drop =>
      if s.outstanding = 0 then none
      else some { s with sem := s.sem.release.1, outstanding := s.outstanding - 1 }
  | .setMax max =>
      some
        { sem := (s.sem.setMax max).1
          outstanding := s.outstanding
          lowered := if Nat.max max 1 < s.sem.max then s.outstanding else s.lowered }

/-- The task is granted a permit by this poll. -/
def Granted (s : PermitPool) (task : Waker) : Prop := (s.sem.poll task).1 = true

instance (s : PermitPool) (task : Waker) : Decidable (s.Granted task) :=
  inferInstanceAs (Decidable (_ = true))

/-- The cap is lowered only while no permit is out. -/
def LowersDrained (s : PermitPool) : PoolAct → Prop
  | .setMax max => Nat.max max 1 < s.sem.max → s.outstanding = 0
  | _ => True

instance (s : PermitPool) (a : PoolAct) : Decidable (s.LowersDrained a) := by
  cases a <;> unfold LowersDrained <;> infer_instance

/-- Polls and drops, no change of the cap. -/
def KeepsCap (_ : PermitPool) : PoolAct → Prop
  | .setMax _ => False
  | _ => True

/-- What a pool promises in its runs: permits are granted below the cap only; free
and outstanding permits are no more than the cap, or than the permits that were out
when it was last lowered; and after the cap is set to the budget of some parameters
no permit is granted beyond that. -/
structure RespectsCap (ok : PermitPool → PoolAct → Prop) : Prop where
  granted : ∀ max s task, Reaches next ok (new max) s → ok s (.poll task) → s.Granted task →
    s.outstanding < s.sem.max
  conserved : ∀ max s, Reaches next ok (new max) s →
    s.sem.available + s.outstanding ≤ Nat.max s.sem.max s.lowered
  budget : ∀ max s t u (p : TuneParams) task, Reaches next ok (new max) s →
    ok s (.setMax p.requestBudget) → next s (.setMax p.requestBudget) = some t →
    Reaches next (fun s a => ok s a ∧ KeepsCap s a) t u → ok u (.poll task) →
    u.Granted task → u.outstanding + 1 ≤ p.requestBudget

/-! ## One step -/

section Step

variable {s t : PermitPool} {task : Waker} {max : Nat}

theorem granted_iff : s.Granted task ↔ 0 < s.sem.available := by
  unfold Granted
  by_cases h : 0 < s.sem.available
  · rw [Semaphore.poll_of_available h]
    exact iff_of_true rfl h
  · rw [Semaphore.poll_of_empty (by omega)]
    exact iff_of_false Bool.false_ne_true h

theorem next_poll (h : next s (.poll task) = some t) :
    (0 < s.sem.available ∧
      t = { s with
        sem := { s.sem with available := s.sem.available - 1 }
        outstanding := s.outstanding + 1 }) ∨
    (s.sem.available = 0 ∧
      t = { s with sem := { s.sem with waiters := s.sem.waiters ++ [task] } }) := by
  unfold next at h
  dsimp only at h
  by_cases havailable : 0 < s.sem.available
  · rw [Semaphore.poll_of_available havailable] at h
    cases h
    exact Or.inl ⟨havailable, rfl⟩
  · have hempty : s.sem.available = 0 := by omega
    rw [Semaphore.poll_of_empty hempty] at h
    cases h
    exact Or.inr ⟨hempty, rfl⟩

theorem next_drop (h : next s .drop = some t) :
    0 < s.outstanding ∧
      t = { s with
        sem := { s.sem with available := Nat.min (s.sem.available + 1) s.sem.max, waiters := [] }
        outstanding := s.outstanding - 1 } := by
  unfold next at h
  dsimp only at h
  split at h
  · cases h
  · next hout =>
      cases h
      exact ⟨Nat.pos_of_ne_zero hout, rfl⟩

/-- Lowering the cap cuts what is free, and nothing else. -/
theorem next_lower (hlower : Nat.max max 1 < s.sem.max)
    (h : next s (.setMax max) = some t) :
    t.sem.available = Nat.min s.sem.available (Nat.max max 1) ∧ t.sem.max = Nat.max max 1 ∧
      t.outstanding = s.outstanding := by
  cases h
  refine ⟨?_, rfl, rfl⟩
  exact if_neg (by omega)

end Step

/-! ## Balanced pools -/

/-- Free and outstanding permits together are the cap. -/
def Balanced (s : PermitPool) : Prop := s.sem.available + s.outstanding = s.sem.max

/-- **Step lemma.**  A balanced pool stays balanced, as long as the cap is lowered
only while no permit is out. -/
theorem balanced_next {s t : PermitPool} {a : PoolAct} (hb : s.Balanced)
    (hok : s.LowersDrained a) (hnext : next s a = some t) : t.Balanced := by
  unfold Balanced at hb ⊢
  cases a with
  | poll task =>
      rcases next_poll hnext with ⟨havailable, rfl⟩ | ⟨hempty, rfl⟩
      · dsimp only
        omega
      · exact hb
  | drop =>
      obtain ⟨hout, rfl⟩ := next_drop hnext
      have hroom : Nat.min (s.sem.available + 1) s.sem.max = s.sem.available + 1 :=
        Nat.min_eq_left (by omega)
      dsimp only
      omega
  | setMax max =>
      cases hnext
      unfold LowersDrained at hok
      unfold Semaphore.setMax
      dsimp only
      by_cases hgrow : s.sem.max < Nat.max max 1
      · rw [if_pos hgrow]
        have hroom : Nat.min (s.sem.available + (Nat.max max 1 - s.sem.max)) (Nat.max max 1) =
            s.sem.available + (Nat.max max 1 - s.sem.max) := Nat.min_eq_left (by omega)
        omega
      · rw [if_neg hgrow]
        by_cases hlower : Nat.max max 1 < s.sem.max
        · have hdrained := hok hlower
          have hcut : Nat.min s.sem.available (Nat.max max 1) = Nat.max max 1 :=
            Nat.min_eq_right (by omega)
          omega
        · have hsame : Nat.min s.sem.available (Nat.max max 1) = s.sem.available :=
            Nat.min_eq_left (by omega)
          omega

/-- **Run lemma.** -/
theorem balanced_of_reaches {max : Nat} {s : PermitPool}
    (hrun : Reaches next LowersDrained (new max) s) : s.Balanced := by
  apply hrun.invariant
  · intro t a u hb hok hnext
    exact balanced_next hb hok hnext
  · rfl

/-! ## Beyond the cap -/

/-- Polls and drops alone lead to a permit granted at or beyond the cap. -/
def CanExceed (s : PermitPool) : Prop :=
  ∃ t task, Reaches next KeepsCap s t ∧ t.Granted task ∧ t.sem.max ≤ t.outstanding

/-- More permits than the cap, some of them free: the free ones are granted one
after another. -/
theorem canExceed_of_excess {s : PermitPool} (free : Nat) (hfree : s.sem.available = free + 1)
    (hexcess : s.sem.max ≤ free + s.outstanding) : s.CanExceed := by
  induction free generalizing s with
  | zero =>
      refine ⟨s, 0, .refl, ?_, by omega⟩
      rw [granted_iff]
      omega
  | succ free ih =>
      have hstep : next s (.poll 0) = some
          { s with
            sem := { s.sem with available := s.sem.available - 1 }
            outstanding := s.outstanding + 1 } := by
        unfold next
        dsimp only
        rw [Semaphore.poll_of_available (by omega)]
      obtain ⟨t, task, hreach, hgranted, hbeyond⟩ := ih
        (s := { s with
          sem := { s.sem with available := s.sem.available - 1 }
          outstanding := s.outstanding + 1 })
        (by dsimp only; omega) (by dsimp only; omega)
      exact ⟨t, task, (Reaches.refl.tail trivial hstep).trans hreach, hgranted, hbeyond⟩

/-- More permits out than the cap, none of them free: the next one that comes back
is free at once. -/
theorem canExceed_of_full {s : PermitPool} (hcap : 1 ≤ s.sem.max) (hempty : s.sem.available = 0)
    (hexcess : s.sem.max < s.outstanding) : s.CanExceed := by
  have hback : Nat.min (s.sem.available + 1) s.sem.max = 1 := by
    rw [hempty]
    exact Nat.min_eq_left hcap
  have hdrop : next s .drop = some
      { s with
        sem := { s.sem with available := 1, waiters := [] }
        outstanding := s.outstanding - 1 } := by
    unfold next
    dsimp only
    rw [if_neg (by omega)]
    unfold Semaphore.release
    rw [hback]
  obtain ⟨t, task, hreach, hgranted, hbeyond⟩ := canExceed_of_excess
    (s := { s with
      sem := { s.sem with available := 1, waiters := [] }
      outstanding := s.outstanding - 1 }) 0 rfl (by dsimp only; omega)
  exact ⟨t, task, (Reaches.refl.tail trivial hdrop).trans hreach, hgranted, hbeyond⟩

/-- **Lowering the cap of a balanced pool while permits are out.** -/
theorem canExceed_of_lowered {s t : PermitPool} {max : Nat} (hb : s.Balanced)
    (hlower : Nat.max max 1 < s.sem.max) (hout : 0 < s.outstanding)
    (hnext : next s (.setMax max) = some t) : t.CanExceed := by
  obtain ⟨havailable, hmax, hsame⟩ := next_lower hlower hnext
  have hpos : 1 ≤ Nat.max max 1 := Nat.le_max_right max 1
  unfold Balanced at hb
  rw [← hmax] at hlower hpos havailable
  by_cases hfree : 0 < s.sem.available
  · have hsome : 0 < t.sem.available := by
      rw [havailable]
      exact Nat.lt_min.2 ⟨hfree, hpos⟩
    apply canExceed_of_excess (t.sem.available - 1)
    · omega
    · rcases Nat.le_total s.sem.available t.sem.max with hle | hle
      · have hkept : t.sem.available = s.sem.available := havailable.trans (Nat.min_eq_left hle)
        omega
      · have hcut : t.sem.available = t.sem.max := havailable.trans (Nat.min_eq_right hle)
        omega
  · have hempty : t.sem.available = 0 := by
      rw [havailable, show s.sem.available = 0 by omega]
      exact Nat.zero_min _
    apply canExceed_of_full hpos hempty
    omega

end PermitPool

/-! ## The cap -/

open PermitPool

/-- The cap stays as it is without a change of it. -/
theorem max_of_keepsCap {ok : PermitPool → PoolAct → Prop} {t u : PermitPool}
    (hrun : Reaches PermitPool.next (fun s a => ok s a ∧ KeepsCap s a) t u) :
    u.sem.max = t.sem.max := by
  apply hrun.invariant (I := fun v => v.sem.max = t.sem.max)
  · intro v a w hv hok hnext
    cases a with
    | poll task =>
        rcases next_poll hnext with ⟨-, rfl⟩ | ⟨-, rfl⟩
        · exact hv
        · exact hv
    | drop =>
        obtain ⟨-, rfl⟩ := next_drop hnext
        exact hv
    | setMax max => exact absurd hok.2 id
  · rfl

/-- A permit is granted by a balanced pool below its cap only. -/
theorem PermitPool.Balanced.granted {s : PermitPool} {task : Waker} (hb : s.Balanced)
    (hgranted : s.Granted task) : s.outstanding < s.sem.max := by
  have havailable := granted_iff.1 hgranted
  unfold Balanced at hb
  omega

/-- **Pools drained before the cap is lowered respect the cap; after any other
lowering polls and drops alone can exceed it.** -/
theorem drained_runs_respect_cap (max n : Nat) (s t : PermitPool) :
    RespectsCap LowersDrained ∧
      (Reaches PermitPool.next LowersDrained (.new max) s →
        ¬ s.LowersDrained (.setMax n) → s.next (.setMax n) = some t → t.CanExceed) := by
  constructor
  · constructor
    · intro max s task hrun _ hgranted
      exact (balanced_of_reaches hrun).granted hgranted
    · intro max s hrun
      exact (balanced_of_reaches hrun).le.trans (Nat.le_max_left _ _)
    · intro max s t u p task hrun hok hset hafter _ hgranted
      have hb : u.Balanced := (hafter.invariant (I := Balanced)
        (fun _ _ _ hI hok hnext => balanced_next hI hok.1 hnext)
        (balanced_next (balanced_of_reaches hrun) hok hset))
      have hbudget : t.sem.max = p.requestBudget := by
        cases hset
        exact Nat.max_eq_left (TuneParams.requestBudget_pos p)
      have hbelow := hb.granted hgranted
      rw [max_of_keepsCap hafter, hbudget] at hbelow
      exact hbelow
  · intro hrun hnot hnext
    have hlowers : Nat.max n 1 < s.sem.max ∧ 0 < s.outstanding := by
      unfold LowersDrained at hnot
      omega
    exact canExceed_of_lowered (balanced_of_reaches hrun) hlowers.1 hlowers.2 hnext

/-- A pool that is drained, cut to two and grown to three grants its third permit
below the cap. -/
theorem drained_run_respects_cap :
    ∃ s, Reaches PermitPool.next LowersDrained (.new 4) s ∧ s.Granted 2 ∧ s.outstanding = 2 ∧
      s.outstanding < s.sem.max := by
  have hrun : ((runIf PermitPool.next (fun s a => s.LowersDrained a) (.new 4)
      [.poll 0, .drop, .setMax 2, .poll 0, .poll 1, .poll 2, .setMax 3]).any fun s =>
        s.Granted 2 ∧ s.outstanding = 2) = true := by
    decide
  obtain ⟨s, hs, hend⟩ := (Option.any_eq_true _ _).1 hrun
  obtain ⟨hgranted, hout⟩ := of_decide_eq_true hend
  have hreach : Reaches PermitPool.next LowersDrained (.new 4) s :=
    reaches_of_runIf (fun _ _ h => of_decide_eq_true h) hs
  exact ⟨s, hreach, hgranted, hout,
    (drained_runs_respect_cap 4 3 s s).1.granted 4 s 2 hreach trivial hgranted⟩

/-! ### A cap that is exceeded -/

/-- **Four permits are out when the cap is set to two; one comes back and is granted
again, beside three others.** -/
theorem lowered_cap_is_exceeded : ¬ RespectsCap fun _ _ => True := by
  intro hall
  have hrun : ((runIf PermitPool.next (fun _ _ => true) (.new 4)
      [.poll 0, .poll 1, .poll 2, .poll 3, .setMax 2, .drop]).any fun s =>
        s.Granted 4 ∧ s.outstanding = 3 ∧ s.sem.max = 2) = true := by
    decide
  obtain ⟨s, hs, hend⟩ := (Option.any_eq_true _ _).1 hrun
  obtain ⟨hgranted, hout, hmax⟩ := of_decide_eq_true hend
  have hbelow := hall.granted 4 s 4 (reaches_of_runIf (fun _ _ _ => trivial) hs) trivial hgranted
  rw [hout, hmax] at hbelow
  exact absurd hbelow (by decide)

end Libfw

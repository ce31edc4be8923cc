import Libfw.PermitPool

/-!
# The acquirers parked on the permit pool

`Semaphore` of `libfw-client/src/state.rs` shared by several transfers.  An acquire
future that finds the pool empty leaves the waker of its task in the queue and is
parked; it is woken by a permit that comes back or a cap that is set.  The start of
a transfer resets the pool: that fills it up and clears the queue, and wakes nobody,
where `set_max` and `release` take the queue and wake all of it.

* `roused_resets_wake_all`: where a reset finds no acquirer parked unwoken, no
  wake-up is lost; and a reset at any other time leaves an acquirer pending that is
  neither queued nor woken, beside a full pool.
* `reset_loses_wakeup`: a run in which that happens.
-/

namespace Libfw

open GuardedRuns

/-- An acquire future that is pending: the task of its last poll, and whether that
task has been woken since. -/
structure ParkedAcquire where
  acquire : Nat
  task : Waker
  woken : Bool
  deriving DecidableEq

namespace ParkedAcquire

/-- The tasks are woken. -/
def wake (p : ParkedAcquire) (tasks : List Waker) : ParkedAcquire :=
  { p with woken := p.woken || tasks.contains p.task }

theorem wake_of_woken {p : ParkedAcquire} (h : p.woken = true) (tasks : List Waker) :
    (p.wake tasks).woken = true := by
  unfold wake
  rw [h]
  rfl

theorem wake_of_mem {p : ParkedAcquire} {tasks : List Waker} (h : p.task ∈ tasks) :
    (p.wake tasks).woken = true := by
  unfold wake
  dsimp only
  rw [List.contains_iff_mem.2 h, Bool.or_true]

end ParkedAcquire

/-- A semaphore with the permits that are out and the acquirers that are parked. -/
structure SharedPool where
  sem : Semaphore
  outstanding : Nat
  parked : List ParkedAcquire
  deriving DecidableEq

/-- What is done to a shared semaphore: an acquire future is polled by a task or is
dropped unfinished, a permit is dropped, the cap is set, a transfer starts. -/
inductive SharedAct where
  | poll (acquire : Nat) (task : Waker)
  | abandon (acquire : Nat)
  | drop
  | setMax (max : Nat)
  | reset
  deriving DecidableEq

namespace SharedPool

def new (max : Nat) : SharedPool := ⟨.new max, 0, []⟩

/-- The acquirers parked but for one. -/
def without (s : SharedPool) (acquire : Nat) : List ParkedAcquire :=
  s.parked.filter (·.acquire != acquire)

/-- The tasks are woken. -/
def wake (s : SharedPool) (tasks : List Waker) : SharedPool :=
  { s with parked := s.parked.map (·.wake tasks) }

/-- A permit can be dropped only where one is out. -/
def next (s : SharedPool) : SharedAct → Option SharedPool
  | .poll acquire task =>
      match s.sem.poll task with
      | (true, sem) =>
          some { sem := sem, outstanding := s.outstanding + 1, parked := s.without acquire }
      | (false, sem) =>
          some { s with sem := sem, parked := ⟨acquire, task, false⟩ :: s.without acquire }
  | .abandon acquire => some { s with parked := s.without acquire }
  | .drop =>
      if s.outstanding = 0 then none
      else
        let (sem, tasks) := s.sem.release
        some (wake { s with sem := sem, outstanding := s.outstanding - 1 } tasks)
  | .setMax max =>
      let (sem, tasks) := s.sem.setMax max
      some (wake { s with sem := sem } tasks)
  | .reset => some { s with sem := s.sem.reset }

/-- The queue holds the task of this acquirer. -/
def Registered (s : SharedPool) (p : ParkedAcquire) : Prop := p.task ∈ s.sem.waiters

instance (s : SharedPool) (p : ParkedAcquire) : Decidable (s.Registered p) :=
  inferInstanceAs (Decidable (_ ∈ _))

/-- A transfer starts only when every acquirer that is parked has been woken. -/
def ResetsRoused (s : SharedPool) : SharedAct → Prop
  | .reset => ∀ p ∈ s.parked, p.woken = true
  | _ => True

instance (s : SharedPool) (a : SharedAct) : Decidable (s.ResetsRoused a) := by
  cases a <;> unfold ResetsRoused <;> infer_instance

/-- No wake-up is lost: an acquirer that is pending is in the queue or has been woken
since its last poll, and while permits are free every pending acquirer has been. -/
structure WakesAll (ok : SharedPool → SharedAct → Prop) : Prop where
  registered : ∀ max s p, Reaches next ok (new max) s → p ∈ s.parked →
    s.Registered p ∨ p.woken = true
  roused : ∀ max s p, Reaches next ok (new max) s → 0 < s.sem.available → p ∈ s.parked →
    p.woken = true

/-! ## One step -/

/-- Every pending acquirer is queued or woken, and woken if permits are free. -/
structure Attentive (s : SharedPool) : Prop where
  registered : ∀ p ∈ s.parked, s.Registered p ∨ p.woken = true
  roused : 0 < s.sem.available → ∀ p ∈ s.parked, p.woken = true

section Step

variable {s t : SharedPool} {p : ParkedAcquire} {acquire : Nat} {task : Waker} {max : Nat}

theorem mem_of_mem_without (h : p ∈ s.without acquire) : p ∈ s.parked :=
  List.mem_of_mem_filter h

theorem next_poll (h : next s (.poll acquire task) = some t) :
    (0 < s.sem.available ∧
      t = { sem := { s.sem with available := s.sem.available - 1 }
            outstanding := s.outstanding + 1
            parked := s.without acquire }) ∨
    (s.sem.available = 0 ∧
      t = { s with
            sem := { s.sem with waiters := s.sem.waiters ++ [task] }
            parked := ⟨acquire, task, false⟩ :: s.without acquire }) := by
  unfold next at h
  dsimp only at h
  by_cases havailable : 0 < s.sem.available
  · rw [Semaphore.poll_of_available havailable] at h
    cases h
    exact Or.inl ⟨havailable, rfl⟩
  · have hempty : s.sem.available = 0 := by omega
    rw [Semaphore.poll_of_empty hempty] at h
    cases h
    exact Or.inr ⟨hempty, rfl⟩

theorem next_drop (h : next s .drop = some t) :
    t = wake { s with sem := s.sem.release.1, outstanding := s.outstanding - 1 }
      s.sem.waiters := by
  unfold next at h
  dsimp only at h
  split at h
  · cases h
  · cases h
    rfl

/-- Where the queue is taken and all of it woken, nobody that is parked is left
unwoken. -/
theorem woken_of_wake (hs : s.Attentive) {sem : Semaphore} {outstanding : Nat}
    (hp : p ∈ (wake { s with sem := sem, outstanding := outstanding } s.sem.waiters).parked) :
    p.woken = true := by
  obtain ⟨q, hq, rfl⟩ := List.mem_map.1 hp
  rcases hs.registered q hq with hqueued | hwoken
  · exact ParkedAcquire.wake_of_mem hqueued
  · exact ParkedAcquire.wake_of_woken hwoken _

theorem Attentive.wake (hs : s.Attentive) (sem : Semaphore) (outstanding : Nat) :
    Attentive (wake { s with sem := sem, outstanding := outstanding } s.sem.waiters) := by
  constructor
  · intro p hp
    exact Or.inr (woken_of_wake hs hp)
  · intro _ p hp
    exact woken_of_wake hs hp

/-- **Step lemma.** -/
theorem attentive_next {a : SharedAct} (hs : s.Attentive) (hok : s.ResetsRoused a)
    (hnext : next s a = some t) : t.Attentive := by
  cases a with
  | poll acquire task =>
      rcases next_poll hnext with ⟨havailable, rfl⟩ | ⟨hempty, rfl⟩
      · have hwoken := hs.roused havailable
        constructor
        · intro p hp
          exact Or.inr (hwoken p (mem_of_mem_without hp))
        · intro _ p hp
          exact hwoken p (mem_of_mem_without hp)
      · constructor
        · intro p hp
          rcases List.mem_cons.1 hp with rfl | hp
          · exact Or.inl (List.mem_append_right _ List.mem_cons_self)
          · rcases hs.registered p (mem_of_mem_without hp) with hqueued | hwoken
            · exact Or.inl (List.mem_append_left _ hqueued)
            · exact Or.inr hwoken
        · intro havailable
          exact absurd havailable (by dsimp only; omega)
  | abandon acquire =>
      cases hnext
      constructor
      · intro p hp
        exact hs.registered p (mem_of_mem_without hp)
      · intro havailable p hp
        exact hs.roused havailable p (mem_of_mem_without hp)
  | drop =>
      rw [next_drop hnext]
      exact hs.wake _ _
  | setMax max =>
      cases hnext
      exact hs.wake _ _
  | reset =>
      cases hnext
      constructor
      · intro p hp
        exact Or.inr (hok p hp)
      · intro _ p hp
        exact hok p hp

end Step

/-- **Run lemma.** -/
theorem attentive_of_reaches {max : Nat} {s : SharedPool}
    (hrun : Reaches next ResetsRoused (new max) s) : s.Attentive := by
  apply hrun.invariant
  · intro t a u hI hok hnext
    exact attentive_next hI hok hnext
  · constructor
    · intro p hp
      cases hp
    · intro _ p hp
      cases hp

/-! ## Lost wake-ups -/

/-- The cap is never zero. -/
theorem max_pos {ok : SharedPool → SharedAct → Prop} {max : Nat} {s : SharedPool}
    (hrun : Reaches next ok (new max) s) : 0 < s.sem.max := by
  apply hrun.invariant (I := fun t => 0 < t.sem.max)
  · intro t a u hpos _ hnext
    cases a with
    | poll acquire task =>
        rcases next_poll hnext with ⟨-, rfl⟩ | ⟨-, rfl⟩
        · exact hpos
        · exact hpos
    | abandon acquire =>
        cases hnext
        exact hpos
    | drop =>
        rw [next_drop hnext]
        exact hpos
    | setMax n =>
        cases hnext
        exact Nat.le_max_right n 1
    | reset =>
        cases hnext
        exact hpos
  · exact Nat.le_max_right max 1

/-- An acquirer is pending that nobody will wake, though permits are free. -/
def LosesWakeup (s : SharedPool) : Prop :=
  ∃ p ∈ s.parked, ¬ s.Registered p ∧ p.woken = false ∧ 0 < s.sem.available

/-- A reset that finds an acquirer parked unwoken. -/
theorem losesWakeup_of_reset {ok : SharedPool → SharedAct → Prop} {max : Nat} {s t : SharedPool}
    (hrun : Reaches next ok (new max) s) (hnot : ¬ s.ResetsRoused .reset)
    (hnext : next s .reset = some t) : t.LosesWakeup := by
  have hparked : ∃ p ∈ s.parked, p.woken = false := by
    by_contra hnone
    apply hnot
    intro p hp
    cases hwoken : p.woken with
    | true => rfl
    | false => exact absurd ⟨p, hp, hwoken⟩ hnone
  obtain ⟨p, hp, hunwoken⟩ := hparked
  cases hnext
  exact ⟨p, hp, List.not_mem_nil, hunwoken, max_pos hrun⟩

end SharedPool

/-! ## The wake-ups of a shared pool -/

open SharedPool

/-- **Resets that find every parked acquirer woken lose no wake-up; every other reset
loses one.** -/
theorem roused_resets_wake_all (max : Nat) (s t : SharedPool) :
    WakesAll ResetsRoused ∧
      (Reaches SharedPool.next ResetsRoused (.new max) s →
        ¬ s.ResetsRoused .reset → s.next .reset = some t → t.LosesWakeup) := by
  constructor
  · constructor
    · intro max s p hrun hp
      exact (attentive_of_reaches hrun).registered p hp
    · intro max s p hrun havailable hp
      exact (attentive_of_reaches hrun).roused havailable p hp
  · intro hrun hnot hnext
    exact losesWakeup_of_reset hrun hnot hnext

/-- Two are parked when the permit comes back, so both are woken; a reset then finds
nobody to forget, one of the two is granted the permit and the other is queued. -/
theorem roused_reset_queues :
    ∃ s, Reaches SharedPool.next ResetsRoused (.new 1) s ∧ ⟨2, 2, false⟩ ∈ s.parked ∧
      (s.Registered ⟨2, 2, false⟩ ∨ (⟨2, 2, false⟩ : ParkedAcquire).woken = true) := by
  have hrun : ((runIf SharedPool.next (fun s a => s.ResetsRoused a) (.new 1)
      [.poll 0 0, .poll 1 1, .poll 2 2, .drop, .reset, .poll 1 1, .poll 2 2]).any fun s =>
        ⟨2, 2, false⟩ ∈ s.parked) = true := by
    decide
  obtain ⟨s, hs, hend⟩ := (Option.any_eq_true _ _).1 hrun
  have hparked := of_decide_eq_true hend
  have hreach : Reaches SharedPool.next ResetsRoused (.new 1) s :=
    reaches_of_runIf (fun _ _ h => of_decide_eq_true h) hs
  exact ⟨s, hreach, hparked,
    (roused_resets_wake_all 1 s s).1.registered 1 s _ hreach hparked⟩

/-! ### A wake-up that is lost -/

/-- **One task holds the only permit and another is parked for it when the next
transfer starts: the pool is full again, and the parked one is forgotten.** -/
theorem reset_loses_wakeup : ¬ WakesAll fun _ _ => True := by
  intro hall
  have hrun : ((runIf SharedPool.next (fun _ _ => true) (.new 1)
      [.poll 0 0, .poll 1 1, .reset]).any fun s =>
        ⟨1, 1, false⟩ ∈ s.parked ∧ s.sem.waiters = []) = true := by
    decide
  obtain ⟨s, hs, hend⟩ := (Option.any_eq_true _ _).1 hrun
  obtain ⟨hparked, hqueue⟩ := of_decide_eq_true hend
  have hreach : Reaches SharedPool.next (fun _ _ => True) (.new 1) s :=
    reaches_of_runIf (fun _ _ _ => trivial) hs
  rcases hall.registered 1 s _ hreach hparked with hqueued | hwoken
  · unfold Registered at hqueued
    rw [hqueue] at hqueued
    exact absurd hqueued List.not_mem_nil
  · exact Bool.false_ne_true hwoken

end Libfw

import Mathlib.Algebra.GroupWithZero.Nat
import Mathlib.Algebra.Order.BigOperators.Group.List
import Mathlib.Algebra.Order.Group.Nat
import Mathlib.Data.List.Nodup
import Libfw.GuardedRuns
import Libfw.UploadStore

/-!
# The registry of per-target locks

`FsStorage::lock_for` of `libfw-server/src/storage.rs`, and what its callers do with
the mutex they get.

The registry maps a path to an `Arc` of its mutex.  A caller of `lock_for` gets a
further `Arc`, may clone it, queues for the mutex with one of its `Arc`s, and holds
a guard that owns that one.  When the registry has grown beyond its limit the next
call drops the entries no caller has an `Arc` of.

* `per_target_locks_exclusive`: in every reachable state the holders of a path are
  one, and everybody waiting for it waits on the mutex of the holder.
* `acquire_iff_free`: a caller that waits gets its guard exactly where nobody holds
  its path.
* `shows_of_reaches`: the registry refines the holders that the uploads' store keeps
  for their locks, over whole runs.
-/

namespace Libfw

open GuardedRuns

/-- A caller has not asked for its mutex (or is done with it), is in its queue, or
holds its guard. -/
inductive LockStage where
  | idle
  | waiting
  | holding
  deriving DecidableEq

/-- A caller of `lock_for`: the path, the mutex it got, and its `Arc`s of it. -/
structure LockCaller where
  path : FsPath
  mutex : Nat
  stage : LockStage
  handles : Nat
  deriving DecidableEq

namespace LockCaller

/-- The `Arc` in the queue or in the guard. -/
def tied (c : LockCaller) : Nat := if c.stage = .idle then 0 else 1

theorem not_idle_of_waiting {c : LockCaller} (h : c.stage = .waiting) : c.stage ≠ .idle := by
  rw [h]
  exact LockStage.noConfusion

theorem not_idle_of_holding {c : LockCaller} (h : c.stage = .holding) : c.stage ≠ .idle := by
  rw [h]
  exact LockStage.noConfusion

end LockCaller

/-- `FsStorage::locks` with every mutex it ever made, each locked or not, and its
callers. -/
structure LockRegistry where
  entries : List (FsPath × Nat)
  locked : List Bool
  callers : List LockCaller
  deriving DecidableEq

/-- What callers do: call `lock_for`, clone or drop an `Arc`, queue, leave the queue,
get the guard, drop the guard. -/
inductive LockAct where
  | lockFor (path : FsPath)
  | clone (caller : Nat)
  | dropArc (caller : Nat)
  | ask (caller : Nat)
  | giveUp (caller : Nat)
  | acquire (caller : Nat)
  | release (caller : Nat)
  deriving DecidableEq

/-- The registry is searched for unused entries beyond this many. -/
def MAX_LOCKS : Nat := 1024

namespace LockRegistry

def new : LockRegistry := ⟨[], [], []⟩

/-- `Arc::strong_count`. -/
def strongCount (r : LockRegistry) (mutex : Nat) : Nat :=
  r.entries.countP (·.2 == mutex) +
    ((r.callers.filter (·.mutex == mutex)).map LockCaller.handles).sum

/-- Entries that only the registry has an `Arc` of are dropped. -/
def evict (r : LockRegistry) : LockRegistry :=
  if MAX_LOCKS < r.entries.length then
    { r with entries := r.entries.filter fun e => 1 < r.strongCount e.2 }
  else r

/-- The entry of a path, made where there is none. -/
def enter (r : LockRegistry) (path : FsPath) : LockRegistry :=
  match r.entries.lookup path with
  | some mutex => { r with callers := r.callers ++ [⟨path, mutex, .idle, 1⟩] }
  | none =>
      { entries := r.entries ++ [(path, r.locked.length)]
        locked := r.locked ++ [false]
        callers := r.callers ++ [⟨path, r.locked.length, .idle, 1⟩] }

/-- `lock_for`. -/
def lockFor (r : LockRegistry) (path : FsPath) : LockRegistry := r.evict.enter path

/-- The caller is as given from now on. -/
def put (r : LockRegistry) (i : Nat) (c : LockCaller) : LockRegistry :=
  { r with callers := r.callers.set i c }

/-- The mutex is locked or unlocked. -/
def setLocked (r : LockRegistry) (mutex : Nat) (b : Bool) : LockRegistry :=
  { r with locked := r.locked.set mutex b }

/-- A mutex that is not locked may be given to any caller in its queue. -/
def next (r : LockRegistry) : LockAct → Option LockRegistry
  | .lockFor path => some (r.lockFor path)
  | .clone i =>
      r.callers[i]?.bind fun c =>
        if 0 < c.handles then some (r.put i { c with handles := c.handles + 1 }) else none
  | .dropArc i =>
      r.callers[i]?.bind fun c =>
        if c.tied < c.handles then some (r.put i { c with handles := c.handles - 1 }) else none
  | .ask i =>
      r.callers[i]?.bind fun c =>
        if c.stage = .idle ∧ 0 < c.handles then some (r.put i { c with stage := .waiting })
        else none
  | .giveUp i =>
      r.callers[i]?.bind fun c =>
        if c.stage = .waiting then
          some (r.put i { c with stage := .idle, handles := c.handles - 1 })
        else none
  | .acquire i =>
      r.callers[i]?.bind fun c =>
        if c.stage = .waiting ∧ r.locked[c.mutex]? = some false then
          some ((r.put i { c with stage := .holding }).setLocked c.mutex true)
        else none
  | .release i =>
      r.callers[i]?.bind fun c =>
        if c.stage = .holding then
          some ((r.put i { c with stage := .idle, handles := c.handles - 1 }).setLocked
            c.mutex false)
        else none

/-- The caller waits for the path on this mutex. -/
def WaitsOn (r : LockRegistry) (i : Nat) (path : FsPath) (mutex : Nat) : Prop :=
  ∃ c, r.callers[i]? = some c ∧ c.path = path ∧ c.stage = .waiting ∧ c.mutex = mutex

/-- The caller holds this mutex as the guard for the path. -/
def HoldsMutex (r : LockRegistry) (i : Nat) (path : FsPath) (mutex : Nat) : Prop :=
  ∃ c, r.callers[i]? = some c ∧ c.path = path ∧ c.stage = .holding ∧ c.mutex = mutex

/-- The caller holds a guard for the path. -/
def Guards (r : LockRegistry) (i : Nat) (path : FsPath) : Prop :=
  ∃ mutex, r.HoldsMutex i path mutex

/-! ## The invariant -/

/-- A mutex is locked exactly while a caller holds it, and one caller at most. -/
structure HeldOnce (r : LockRegistry) : Prop where
  single : ∀ (i j : Nat) (c d : LockCaller), r.callers[i]? = some c →
    r.callers[j]? = some d → c.stage = .holding → d.stage = .holding → c.mutex = d.mutex → i = j
  held : ∀ (i : Nat) (c : LockCaller), r.callers[i]? = some c → c.stage = .holding →
    r.locked[c.mutex]? = some true
  busy : ∀ m : Nat, r.locked[m]? = some true →
    ∃ (i : Nat) (c : LockCaller), r.callers[i]? = some c ∧ c.stage = .holding ∧ c.mutex = m

/-- What ties the entries to the `Arc`s that are out: a path has one entry and a
mutex one path, and a caller that has an `Arc` has the one that is registered for
its path. -/
structure Tied (r : LockRegistry) : Prop extends HeldOnce r where
  paths : (r.entries.map Prod.fst).Nodup
  mutexes : (r.entries.map Prod.snd).Nodup
  made : ∀ e ∈ r.entries, e.2 < r.locked.length
  live : ∀ (i : Nat) (c : LockCaller), r.callers[i]? = some c → 0 < c.handles →
    (c.path, c.mutex) ∈ r.entries
  owned : ∀ (i : Nat) (c : LockCaller), r.callers[i]? = some c → c.tied ≤ c.handles

theorem tied_new : new.Tied := by
  constructor
  · constructor
    · intro i j c d hc
      cases hc
    · intro i c hc
      cases hc
    · intro m hm
      cases hm
  · exact List.nodup_nil
  · exact List.nodup_nil
  · intro e he
    cases he
  · intro i c hc
    cases hc
  · intro i c hc
    cases hc

namespace Tied

variable {r t : LockRegistry} {i j : Nat} {c d : LockCaller}

/-- A caller that waits or holds has an `Arc`, which is the registered one. -/
theorem registered (hr : r.Tied) (hc : r.callers[i]? = some c) (hstage : c.stage ≠ .idle) :
    (c.path, c.mutex) ∈ r.entries := by
  have howned := hr.owned i c hc
  unfold LockCaller.tied at howned
  rw [if_neg hstage] at howned
  exact hr.live i c hc howned

/-- Callers that wait for or hold one path share its mutex. -/
theorem same_mutex (hr : r.Tied) (hc : r.callers[i]? = some c) (hd : r.callers[j]? = some d)
    (hcstage : c.stage ≠ .idle) (hdstage : d.stage ≠ .idle) (hpath : c.path = d.path) :
    c.mutex = d.mutex := by
  have heq := List.inj_on_of_nodup_map hr.paths (hr.registered hc hcstage)
    (hr.registered hd hdstage) hpath
  exact congrArg Prod.snd heq

/-- Callers that wait for or hold one mutex do so for one path. -/
theorem same_path (hr : r.Tied) (hc : r.callers[i]? = some c) (hd : r.callers[j]? = some d)
    (hcstage : c.stage ≠ .idle) (hdstage : d.stage ≠ .idle) (hmutex : c.mutex = d.mutex) :
    c.path = d.path := by
  have heq := List.inj_on_of_nodup_map hr.mutexes (hr.registered hc hcstage)
    (hr.registered hd hdstage) hmutex
  exact congrArg Prod.fst heq

end Tied

/-! ## Eviction -/

section Evict

variable {r : LockRegistry}

/-- The `Arc`s of one caller are counted. -/
theorem handles_lt_strongCount {i : Nat} {c : LockCaller} {path : FsPath}
    (hc : r.callers[i]? = some c) (hentry : (path, c.mutex) ∈ r.entries) :
    c.handles < r.strongCount c.mutex := by
  have hregistry : 0 < r.entries.countP (·.2 == c.mutex) :=
    List.countP_pos_iff.2 ⟨_, hentry, beq_self_eq_true _⟩
  have hcaller : c ∈ r.callers.filter (·.mutex == c.mutex) :=
    List.mem_filter.2 ⟨List.mem_of_getElem? hc, beq_self_eq_true _⟩
  have hcounted := List.le_sum_of_mem (List.mem_map_of_mem (f := LockCaller.handles) hcaller)
  unfold strongCount
  omega

/-- **An entry whose mutex a caller has an `Arc` of is never dropped.** -/
theorem mem_evict {i : Nat} {c : LockCaller} (hc : r.callers[i]? = some c)
    (hhandles : 0 < c.handles) (hentry : (c.path, c.mutex) ∈ r.entries) :
    (c.path, c.mutex) ∈ r.evict.entries := by
  have hcount := handles_lt_strongCount hc hentry
  unfold evict
  split
  · exact List.mem_filter.2 ⟨hentry, decide_eq_true (by dsimp only; omega)⟩
  · exact hentry

theorem evict_sublist (r : LockRegistry) : r.evict.entries.Sublist r.entries := by
  unfold evict
  split
  · exact List.filter_sublist
  · exact List.Sublist.refl _

theorem evict_callers (r : LockRegistry) : r.evict.callers = r.callers := by
  unfold evict
  split <;> rfl

theorem evict_locked (r : LockRegistry) : r.evict.locked = r.locked := by
  unfold evict
  split <;> rfl

theorem Tied.evict (hr : r.Tied) : r.evict.Tied := by
  have hsub := evict_sublist r
  constructor
  · constructor
    · rw [evict_callers]
      exact hr.single
    · rw [evict_callers, evict_locked]
      exact hr.held
    · rw [evict_callers, evict_locked]
      exact hr.busy
  · exact hr.paths.sublist (hsub.map _)
  · exact hr.mutexes.sublist (hsub.map _)
  · intro e he
    rw [evict_locked]
    exact hr.made e (hsub.subset he)
  · intro i c hc hhandles
    rw [evict_callers] at hc
    exact mem_evict hc hhandles (hr.live i c hc hhandles)
  · rw [evict_callers]
    exact hr.owned

end Evict

/-! ## A call of `lock_for` -/

section Enter

variable {r : LockRegistry} {path : FsPath} {mutex : Nat}

theorem mem_of_lookup {entries : List (FsPath × Nat)} (h : entries.lookup path = some mutex) :
    (path, mutex) ∈ entries := by
  obtain ⟨before, after, rfl, -⟩ := List.lookup_eq_some_iff.1 h
  exact List.mem_append_right _ List.mem_cons_self

theorem getElem?_append_of_some {l : List LockCaller} {i : Nat} {c x : LockCaller}
    (h : l[i]? = some c) : (l ++ [x])[i]? = some c := by
  rw [List.getElem?_append_left (List.getElem?_eq_some_iff.1 h).1]
  exact h

theorem of_getElem?_append {α : Type} {l : List α} {i : Nat} {c x : α}
    (h : (l ++ [x])[i]? = some c) : l[i]? = some c ∨ c = x := by
  rw [List.getElem?_append] at h
  split at h
  · exact Or.inl h
  · exact Or.inr (List.mem_singleton.1 (List.mem_of_getElem? h))

/-- A further caller gets an `Arc` of a registered mutex. -/
theorem Tied.join (hr : r.Tied) (hentry : (path, mutex) ∈ r.entries) :
    Tied { r with callers := r.callers ++ [⟨path, mutex, .idle, 1⟩] } := by
  constructor
  · constructor
    · intro i j c d hc hd hcholds hdholds
      rcases of_getElem?_append hc with hc | rfl
      · rcases of_getElem?_append hd with hd | rfl
        · exact hr.single i j c d hc hd hcholds hdholds
        · cases hdholds
      · cases hcholds
    · intro i c hc hholds
      rcases of_getElem?_append hc with hc | rfl
      · exact hr.held i c hc hholds
      · cases hholds
    · intro m hm
      obtain ⟨i, c, hc, hholds⟩ := hr.busy m hm
      exact ⟨i, c, getElem?_append_of_some hc, hholds⟩
  · exact hr.paths
  · exact hr.mutexes
  · exact hr.made
  · intro i c hc hhandles
    rcases of_getElem?_append hc with hc | rfl
    · exact hr.live i c hc hhandles
    · exact hentry
  · intro i c hc
    rcases of_getElem?_append hc with hc | rfl
    · exact hr.owned i c hc
    · exact Nat.zero_le 1

/-- A mutex is made for a path that has none. -/
theorem Tied.make (hr : r.Tied) (hnew : r.entries.lookup path = none) :
    Tied { r with
      entries := r.entries ++ [(path, r.locked.length)], locked := r.locked ++ [false] } := by
  constructor
  · constructor
    · exact hr.single
    · intro i c hc hholds
      have hheld := hr.held i c hc hholds
      dsimp only
      rw [List.getElem?_append_left (List.getElem?_eq_some_iff.1 hheld).1]
      exact hheld
    · intro m hm
      rcases of_getElem?_append hm with hm | hm
      · exact hr.busy m hm
      · cases hm
  · rw [List.map_append]
    apply List.nodup_append.2 ⟨hr.paths, List.nodup_singleton _, ?_⟩
    intro p hp q hq heq
    obtain ⟨e, he, rfl⟩ := List.mem_map.1 hp
    have hother := List.lookup_eq_none_iff.1 hnew e he
    rw [heq, List.mem_singleton.1 hq] at hother
    exact bne_iff_ne.1 hother rfl
  · rw [List.map_append]
    apply List.nodup_append.2 ⟨hr.mutexes, List.nodup_singleton _, ?_⟩
    intro m hm n hn heq
    obtain ⟨e, he, rfl⟩ := List.mem_map.1 hm
    have hmade := hr.made e he
    rw [heq, List.mem_singleton.1 hn] at hmade
    exact absurd hmade (Nat.lt_irrefl _)
  · intro e he
    rw [List.length_append]
    rcases List.mem_append.1 he with he | he
    · exact Nat.lt_add_right 1 (hr.made e he)
    · rw [List.mem_singleton.1 he]
      exact Nat.lt_succ_self _
  · intro i c hc hhandles
    exact List.mem_append_left _ (hr.live i c hc hhandles)
  · exact hr.owned

theorem Tied.enter (hr : r.Tied) (path : FsPath) : (r.enter path).Tied := by
  unfold LockRegistry.enter
  split
  · next mutex hfound => exact hr.join (mem_of_lookup hfound)
  · next hnew => exact (hr.make hnew).join (List.mem_append_right _ List.mem_cons_self)

theorem Tied.lockFor (hr : r.Tied) (path : FsPath) : (r.lockFor path).Tied :=
  hr.evict.enter path

end Enter

/-! ## The steps of a caller -/

/-- One caller has moved, its path and mutex are as before. -/
structure Moved (r t : LockRegistry) (i : Nat) (c d : LockCaller) : Prop where
  caller : r.callers[i]? = some c
  callers : t.callers = r.callers.set i d
  entries : t.entries = r.entries
  made : t.locked.length = r.locked.length
  path : d.path = c.path
  mutex : d.mutex = c.mutex
  handles : 0 < d.handles → 0 < c.handles
  owned : c.tied ≤ c.handles → d.tied ≤ d.handles

/-- What the move does to the mutex: nothing, lock it, unlock it. -/
inductive Switched (r t : LockRegistry) (c d : LockCaller) : Prop where
  | kept (locked : t.locked = r.locked) (stage : d.stage = .holding ↔ c.stage = .holding)
  | taken (free : r.locked[c.mutex]? = some false) (waits : c.stage = .waiting)
      (holds : d.stage = .holding) (locked : t.locked = r.locked.set c.mutex true)
  | freed (holds : c.stage = .holding) (stage : d.stage ≠ .holding)
      (locked : t.locked = r.locked.set c.mutex false)

section Step

variable {r t : LockRegistry} {i j : Nat} {c d x : LockCaller} {a : LockAct}

theorem moved_put (hc : r.callers[i]? = some c) (hpath : d.path = c.path)
    (hmutex : d.mutex = c.mutex) (hhandles : 0 < d.handles → 0 < c.handles)
    (howned : c.tied ≤ c.handles → d.tied ≤ d.handles) : Moved r (r.put i d) i c d :=
  ⟨hc, rfl, rfl, rfl, hpath, hmutex, hhandles, howned⟩

theorem moved_setLocked {mutex : Nat} {b : Bool} (h : Moved r t i c d) :
    Moved r (t.setLocked mutex b) i c d :=
  ⟨h.caller, h.callers, h.entries, (List.length_set).trans h.made, h.path, h.mutex, h.handles,
    h.owned⟩

/-- A step of one caller under a condition. -/
theorem of_guarded {p : LockCaller → Prop} [DecidablePred p] {f : LockCaller → LockRegistry}
    (h : (r.callers[i]?.bind fun c => if p c then some (f c) else none) = some t) :
    ∃ c, r.callers[i]? = some c ∧ p c ∧ t = f c := by
  obtain ⟨c, hc, hstep⟩ := Option.bind_eq_some_iff.1 h
  obtain ⟨hp, ht⟩ := Option.ite_none_right_eq_some.1 hstep
  exact ⟨c, hc, hp, (Option.some.inj ht).symm⟩

/-- **What a step can do.** -/
theorem step_cases (h : next r a = some t) :
    (∃ path, t = r.lockFor path) ∨ ∃ i c d, Moved r t i c d ∧ Switched r t c d := by
  cases a with
  | lockFor path =>
      cases h
      exact Or.inl ⟨path, rfl⟩
  | clone i =>
      obtain ⟨c, hc, hhas, rfl⟩ := of_guarded h
      refine Or.inr ⟨i, c, _, moved_put hc rfl rfl (fun _ => hhas) ?_, .kept rfl Iff.rfl⟩
      exact Nat.le_succ_of_le
  | dropArc i =>
      obtain ⟨c, hc, hspare, rfl⟩ := of_guarded h
      refine Or.inr ⟨i, c, _, moved_put hc rfl rfl ?_ ?_, .kept rfl Iff.rfl⟩
      · intro _
        exact Nat.zero_lt_of_lt hspare
      · intro _
        exact Nat.le_sub_one_of_lt hspare
  | ask i =>
      obtain ⟨c, hc, ⟨hidle, hhas⟩, rfl⟩ := of_guarded h
      refine Or.inr ⟨i, c, _, moved_put hc rfl rfl (fun _ => hhas) (fun _ => hhas), .kept rfl ?_⟩
      rw [hidle]
      exact iff_of_false LockStage.noConfusion LockStage.noConfusion
  | giveUp i =>
      obtain ⟨c, hc, hwaits, rfl⟩ := of_guarded h
      refine Or.inr ⟨i, c, _, moved_put hc rfl rfl ?_ (fun _ => Nat.zero_le _), .kept rfl ?_⟩
      · intro hhas
        exact Nat.lt_of_lt_of_le hhas (Nat.sub_le _ _)
      · rw [hwaits]
        exact iff_of_false LockStage.noConfusion LockStage.noConfusion
  | acquire i =>
      obtain ⟨c, hc, ⟨hwaits, hfree⟩, rfl⟩ := of_guarded h
      refine Or.inr ⟨i, c, _, moved_setLocked (moved_put hc rfl rfl id ?_),
        .taken hfree hwaits rfl rfl⟩
      unfold LockCaller.tied
      rw [hwaits]
      exact id
  | release i =>
      obtain ⟨c, hc, hholds, rfl⟩ := of_guarded h
      refine Or.inr ⟨i, c, _, moved_setLocked (moved_put hc rfl rfl ?_ fun _ => Nat.zero_le _),
        .freed hholds LockStage.noConfusion rfl⟩
      intro hhas
      exact Nat.lt_of_lt_of_le hhas (Nat.sub_le _ _)

namespace Moved

theorem lt (h : Moved r t i c d) : i < r.callers.length :=
  (List.getElem?_eq_some_iff.1 h.caller).1

theorem self (h : Moved r t i c d) : t.callers[i]? = some d := by
  rw [h.callers]
  exact List.getElem?_set_self h.lt

theorem other (h : Moved r t i c d) (hj : j ≠ i) : t.callers[j]? = r.callers[j]? := by
  rw [h.callers]
  exact List.getElem?_set_ne (Ne.symm hj)

theorem callers_cases (h : Moved r t i c d) (hx : t.callers[j]? = some x) :
    (j = i ∧ x = d) ∨ (j ≠ i ∧ r.callers[j]? = some x) := by
  by_cases hj : j = i
  · rw [hj, h.self] at hx
    exact Or.inl ⟨hj, (Option.some.inj hx).symm⟩
  · rw [h.other hj] at hx
    exact Or.inr ⟨hj, hx⟩

end Moved

end Step

/-! ## The invariant is kept -/

section Kept

variable {r t : LockRegistry} {i : Nat} {c d : LockCaller}

/-- The mutexes keep their holders where a caller moves that holds before as after. -/
theorem Moved.lock_kept (h : Moved r t i c d) (hr : r.Tied) (hlocked : t.locked = r.locked)
    (hstage : d.stage = .holding ↔ c.stage = .holding) : HeldOnce t := by
  have hback : ∀ (j : Nat) (x : LockCaller), t.callers[j]? = some x → x.stage = .holding →
      ∃ y, r.callers[j]? = some y ∧ y.stage = .holding ∧ y.mutex = x.mutex := by
    intro j x hx hholds
    rcases h.callers_cases hx with ⟨rfl, rfl⟩ | ⟨-, hx⟩
    · exact ⟨c, h.caller, hstage.1 hholds, h.mutex.symm⟩
    · exact ⟨x, hx, hholds, rfl⟩
  constructor
  · intro j k x y hx hy hxholds hyholds hsame
    obtain ⟨x', hx', hx'holds, hx'mutex⟩ := hback j x hx hxholds
    obtain ⟨y', hy', hy'holds, hy'mutex⟩ := hback k y hy hyholds
    exact hr.single j k x' y' hx' hy' hx'holds hy'holds
      (hx'mutex.trans (hsame.trans hy'mutex.symm))
  · intro j x hx hholds
    obtain ⟨x', hx', hx'holds, hx'mutex⟩ := hback j x hx hholds
    rw [hlocked, ← hx'mutex]
    exact hr.held j x' hx' hx'holds
  · intro m hm
    rw [hlocked] at hm
    obtain ⟨j, x, hx, hholds, hmutex⟩ := hr.busy m hm
    by_cases hj : j = i
    · rw [hj, h.caller] at hx
      cases hx
      exact ⟨i, d, h.self, hstage.2 hholds, h.mutex.trans hmutex⟩
    · exact ⟨j, x, (h.other hj).trans hx, hholds, hmutex⟩

/-- A free mutex gets its holder. -/
theorem Moved.lock_taken (h : Moved r t i c d) (hr : r.Tied)
    (hfree : r.locked[c.mutex]? = some false) (hwaits : c.stage = .waiting)
    (hholds : d.stage = .holding) (hlocked : t.locked = r.locked.set c.mutex true) :
    HeldOnce t := by
  have hnobody : ∀ (j : Nat) (x : LockCaller), r.callers[j]? = some x → x.stage = .holding →
      x.mutex ≠ c.mutex := by
    intro j x hx hxholds hsame
    have hheld := hr.held j x hx hxholds
    rw [hsame, hfree] at hheld
    cases hheld
  constructor
  · intro j k x y hx hy hxholds hyholds hsame
    rcases h.callers_cases hx with ⟨rfl, rfl⟩ | ⟨-, hx⟩
    · rcases h.callers_cases hy with ⟨rfl, -⟩ | ⟨-, hy⟩
      · rfl
      · exact absurd (hsame.symm.trans h.mutex) (hnobody k y hy hyholds)
    · rcases h.callers_cases hy with ⟨rfl, rfl⟩ | ⟨-, hy⟩
      · exact absurd (hsame.trans h.mutex) (hnobody j x hx hxholds)
      · exact hr.single j k x y hx hy hxholds hyholds hsame
  · intro j x hx hxholds
    rw [hlocked]
    rcases h.callers_cases hx with ⟨rfl, rfl⟩ | ⟨-, hx⟩
    · rw [h.mutex]
      exact List.getElem?_set_self (List.getElem?_eq_some_iff.1 hfree).1
    · rw [List.getElem?_set_ne (Ne.symm (hnobody j x hx hxholds))]
      exact hr.held j x hx hxholds
  · intro m hm
    rw [hlocked] at hm
    by_cases hmutex : c.mutex = m
    · exact ⟨i, d, h.self, hholds, h.mutex.trans hmutex⟩
    · rw [List.getElem?_set_ne hmutex] at hm
      obtain ⟨j, x, hx, hxholds, hxmutex⟩ := hr.busy m hm
      have hj : j ≠ i := by
        intro hj
        rw [hj, h.caller] at hx
        cases hx
        rw [hwaits] at hxholds
        cases hxholds
      exact ⟨j, x, (h.other hj).trans hx, hxholds, hxmutex⟩

/-- The holder lets its mutex go. -/
theorem Moved.lock_freed (h : Moved r t i c d) (hr : r.Tied) (hholds : c.stage = .holding)
    (hstage : d.stage ≠ .holding) (hlocked : t.locked = r.locked.set c.mutex false) :
    HeldOnce t := by
  have hothers : ∀ (j : Nat) (x : LockCaller), t.callers[j]? = some x → x.stage = .holding →
      j ≠ i ∧ r.callers[j]? = some x := by
    intro j x hx hxholds
    rcases h.callers_cases hx with ⟨-, rfl⟩ | hother
    · exact absurd hxholds hstage
    · exact hother
  constructor
  · intro j k x y hx hy hxholds hyholds hsame
    exact hr.single j k x y (hothers j x hx hxholds).2 (hothers k y hy hyholds).2 hxholds
      hyholds hsame
  · intro j x hx hxholds
    obtain ⟨hj, hx⟩ := hothers j x hx hxholds
    have hother : c.mutex ≠ x.mutex := by
      intro hsame
      exact hj (hr.single j i x c hx h.caller hxholds hholds hsame.symm)
    rw [hlocked, List.getElem?_set_ne hother]
    exact hr.held j x hx hxholds
  · intro m hm
    rw [hlocked] at hm
    by_cases hmutex : c.mutex = m
    · have hlt : m < r.locked.length :=
        hmutex ▸ (List.getElem?_eq_some_iff.1 (hr.held i c h.caller hholds)).1
      rw [hmutex, List.getElem?_set_self hlt] at hm
      cases hm
    · rw [List.getElem?_set_ne hmutex] at hm
      obtain ⟨j, x, hx, hxholds, hxmutex⟩ := hr.busy m hm
      have hj : j ≠ i := by
        intro hj
        rw [hj, h.caller] at hx
        cases hx
        exact hmutex hxmutex
      exact ⟨j, x, (h.other hj).trans hx, hxholds, hxmutex⟩

theorem Moved.heldOnce (h : Moved r t i c d) (hr : r.Tied) (hswitch : Switched r t c d) :
    HeldOnce t := by
  cases hswitch with
  | kept hlocked hstage => exact h.lock_kept hr hlocked hstage
  | taken hfree hwaits hholds hlocked => exact h.lock_taken hr hfree hwaits hholds hlocked
  | freed hholds hstage hlocked => exact h.lock_freed hr hholds hstage hlocked

theorem Tied.moved (hr : r.Tied) (h : Moved r t i c d) (hswitch : Switched r t c d) :
    t.Tied := by
  constructor
  · exact h.heldOnce hr hswitch
  · rw [h.entries]
    exact hr.paths
  · rw [h.entries]
    exact hr.mutexes
  · rw [h.entries, h.made]
    exact hr.made
  · intro j x hx hhandles
    rw [h.entries]
    rcases h.callers_cases hx with ⟨rfl, rfl⟩ | ⟨-, hx⟩
    · rw [h.path, h.mutex]
      exact hr.live j c h.caller (h.handles hhandles)
    · exact hr.live j x hx hhandles
  · intro j x hx
    rcases h.callers_cases hx with ⟨rfl, rfl⟩ | ⟨-, hx⟩
    · exact h.owned (hr.owned j c h.caller)
    · exact hr.owned j x hx

/-- **Step lemma.** -/
theorem tied_next {a : LockAct} (hr : r.Tied) (hnext : next r a = some t) : t.Tied := by
  rcases step_cases hnext with ⟨path, rfl⟩ | ⟨i, c, d, hmoved, hswitch⟩
  · exact hr.lockFor path
  · exact hr.moved hmoved hswitch

/-- **Run lemma.** -/
theorem tied_of_reaches {ok : LockRegistry → LockAct → Prop}
    (hrun : Reaches next ok new r) : r.Tied := by
  apply hrun.invariant
  · intro t a u hI _ hnext
    exact tied_next hI hnext
  · exact tied_new

end Kept

/-! ## Guards -/

section Guards

variable {r t : LockRegistry} {i j : Nat} {path : FsPath}

/-- A path has one holder. -/
theorem Tied.guards_unique (hr : r.Tied) (hi : r.Guards i path) (hj : r.Guards j path) :
    i = j := by
  obtain ⟨-, c, hc, hcpath, hcholds, -⟩ := hi
  obtain ⟨-, d, hd, hdpath, hdholds, -⟩ := hj
  have hmutex : c.mutex = d.mutex :=
    hr.same_mutex hc hd (LockCaller.not_idle_of_holding hcholds)
      (LockCaller.not_idle_of_holding hdholds) (hcpath.trans hdpath.symm)
  exact hr.single i j c d hc hd hcholds hdholds hmutex

/-- Who waits for a path waits on the mutex of its holder. -/
theorem Tied.waitsOn_holder (hr : r.Tied) {m n : Nat} (hi : r.WaitsOn i path m)
    (hj : r.HoldsMutex j path n) : m = n := by
  obtain ⟨c, hc, hcpath, hwaits, rfl⟩ := hi
  obtain ⟨d, hd, hdpath, hholds, rfl⟩ := hj
  exact hr.same_mutex hc hd (LockCaller.not_idle_of_waiting hwaits)
    (LockCaller.not_idle_of_holding hholds) (hcpath.trans hdpath.symm)

/-- **The guard is to be had exactly where nobody holds the path.** -/
theorem acquire_iff_free (hr : r.Tied) {c : LockCaller} (hc : r.callers[i]? = some c)
    (hwaits : c.stage = .waiting) :
    (∃ t, next r (.acquire i) = some t) ↔ ∀ j, ¬ r.Guards j c.path := by
  have hstage := LockCaller.not_idle_of_waiting hwaits
  have hstep : (∃ t, next r (.acquire i) = some t) ↔ r.locked[c.mutex]? = some false := by
    constructor
    · rintro ⟨t, ht⟩
      obtain ⟨x, hx, ⟨-, hfree⟩, -⟩ := of_guarded ht
      rw [hc] at hx
      cases hx
      exact hfree
    · intro hfree
      refine ⟨(r.put i { c with stage := .holding }).setLocked c.mutex true, ?_⟩
      unfold next
      dsimp only
      rw [hc, Option.bind_some, if_pos ⟨hwaits, hfree⟩]
  rw [hstep]
  constructor
  · intro hfree j hguards
    obtain ⟨-, d, hd, hpath, hholds, -⟩ := hguards
    have hdstage := LockCaller.not_idle_of_holding hholds
    have hheld := hr.held j d hd hholds
    rw [hr.same_mutex hd hc hdstage hstage hpath, hfree] at hheld
    cases hheld
  · intro hnobody
    have hmade := hr.made _ (hr.registered hc hstage)
    cases hlocked : r.locked[c.mutex]? with
    | none => exact absurd (List.getElem?_eq_none_iff.1 hlocked) (by dsimp only at hmade; omega)
    | some b =>
        cases b with
        | false => rfl
        | true =>
            obtain ⟨j, d, hd, hholds, hmutex⟩ := hr.busy c.mutex hlocked
            have hdstage := LockCaller.not_idle_of_holding hholds
            exact absurd ⟨d.mutex, d, hd, hr.same_path hd hc hdstage hstage hmutex, hholds, rfl⟩
              (hnobody j)

end Guards

/-! ## The locks the uploads ask for -/

/-- The holders of a store that requests share are those of the registry. -/
def Shows (r : LockRegistry) (s : Store) : Prop :=
  ∀ path i, s.holder path = some i ↔ r.Guards i path

/-- What a step does to the holders of a store: nothing, or a free path gets one, or
one lets go of what it holds. -/
inductive HolderStep (s : Store) : Store → Prop where
  | same : HolderStep s s
  | acquire (path : FsPath) (i : Nat) (hfree : s.holder path = none) :
      HolderStep s (s.acquire path i)
  | release (i : Nat) : HolderStep s (s.release i)

section Shows

variable {r t : LockRegistry} {s : Store} {i j : Nat} {c d : LockCaller} {path : FsPath}

theorem guards_iff : r.Guards i path ↔
    ∃ c, r.callers[i]? = some c ∧ c.path = path ∧ c.stage = .holding := by
  constructor
  · intro hguards
    obtain ⟨-, c, hc, hpath, hholds, -⟩ := hguards
    exact ⟨c, hc, hpath, hholds⟩
  · intro hguards
    obtain ⟨c, hc, hpath, hholds⟩ := hguards
    exact ⟨c.mutex, c, hc, hpath, hholds, rfl⟩

/-- A call of `lock_for` gives nobody a guard and takes none. -/
theorem guards_lockFor {called : FsPath} :
    (r.lockFor called).Guards i path ↔ r.Guards i path := by
  have hcallers : ∃ x : LockCaller, x.stage = .idle ∧
      (r.lockFor called).callers = r.callers ++ [x] := by
    unfold lockFor enter
    split
    · exact ⟨_, rfl, congrArg (· ++ _) (evict_callers r)⟩
    · exact ⟨_, rfl, congrArg (· ++ _) (evict_callers r)⟩
  obtain ⟨x, hidle, hcallers⟩ := hcallers
  rw [guards_iff, guards_iff, hcallers]
  constructor
  · intro hguards
    obtain ⟨c, hc, hpath, hholds⟩ := hguards
    rcases of_getElem?_append hc with hc | rfl
    · exact ⟨c, hc, hpath, hholds⟩
    · exact absurd hidle (LockCaller.not_idle_of_holding hholds)
  · intro hguards
    obtain ⟨c, hc, hpath, hholds⟩ := hguards
    exact ⟨c, getElem?_append_of_some hc, hpath, hholds⟩

theorem Moved.guards_other (h : Moved r t i c d) (hj : j ≠ i) :
    t.Guards j path ↔ r.Guards j path := by
  rw [guards_iff, guards_iff, h.other hj]

theorem Moved.guards_self (h : Moved r t i c d) :
    t.Guards i path ↔ c.path = path ∧ d.stage = .holding := by
  rw [guards_iff, h.self]
  constructor
  · intro hguards
    obtain ⟨x, hx, hpath, hholds⟩ := hguards
    cases hx
    exact ⟨h.path.symm.trans hpath, hholds⟩
  · intro hguards
    exact ⟨d, rfl, h.path.trans hguards.1, hguards.2⟩

theorem Moved.guarded_self (h : Moved r t i c d) :
    r.Guards i path ↔ c.path = path ∧ c.stage = .holding := by
  rw [guards_iff, h.caller]
  constructor
  · intro hguards
    obtain ⟨x, hx, hpath, hholds⟩ := hguards
    cases hx
    exact ⟨hpath, hholds⟩
  · intro hguards
    exact ⟨c, rfl, hguards⟩

/-- **The registry refines the holders of the store**: whatever it does, a path gets a
holder only where it has none. -/
theorem Tied.shows_next {a : LockAct} (hr : r.Tied) (hs : r.Shows s)
    (hnext : next r a = some t) : ∃ u, HolderStep s u ∧ t.Shows u := by
  rcases step_cases hnext with ⟨called, rfl⟩ | ⟨i, c, d, hmoved, hswitch⟩
  · refine ⟨s, .same, ?_⟩
    intro path j
    rw [guards_lockFor]
    exact hs path j
  · cases hswitch with
    | kept hlocked hstage =>
        refine ⟨s, .same, ?_⟩
        intro path j
        rw [hs path j]
        by_cases hj : j = i
        · rw [hj, hmoved.guards_self, hmoved.guarded_self, hstage]
        · rw [hmoved.guards_other hj]
    | taken hfree hwaits hholds hlocked =>
        have hnobody : s.holder c.path = none := by
          cases hholder : s.holder c.path with
          | none => rfl
          | some j =>
              obtain ⟨-, x, hx, hpath, hxholds, -⟩ := (hs c.path j).1 hholder
              have hheld := hr.held j x hx hxholds
              rw [hr.same_mutex hx hmoved.caller (LockCaller.not_idle_of_holding hxholds)
                (LockCaller.not_idle_of_waiting hwaits) hpath, hfree] at hheld
              cases hheld
        refine ⟨s.acquire c.path i, .acquire c.path i hnobody, ?_⟩
        intro path j
        unfold Store.acquire
        dsimp only
        by_cases hpath : path = c.path
        · rw [if_pos hpath]
          by_cases hj : j = i
          · rw [hj, hmoved.guards_self]
            exact iff_of_true rfl ⟨hpath.symm, hholds⟩
          · rw [hmoved.guards_other hj, ← hs path j, hpath, hnobody]
            exact iff_of_false (fun h => hj (Option.some.inj h).symm) (fun h => nomatch h)
        · rw [if_neg hpath, hs path j]
          by_cases hj : j = i
          · rw [hj, hmoved.guards_self, hmoved.guarded_self]
            exact iff_of_false (fun h => hpath h.1.symm) (fun h => hpath h.1.symm)
          · rw [hmoved.guards_other hj]
    | freed hholds hstage hlocked =>
        refine ⟨s.release i, .release i, ?_⟩
        intro path j
        unfold Store.release
        dsimp only
        by_cases hj : j = i
        · rw [hj, hmoved.guards_self]
          refine iff_of_false ?_ fun h => hstage h.2
          split
          · exact fun h => nomatch h
          · next hother => exact hother
        · rw [hmoved.guards_other hj, ← hs path j]
          split
          · next hholder =>
              rw [hholder]
              exact iff_of_false (fun h => nomatch h) fun h => hj (Option.some.inj h).symm
          · exact Iff.rfl

/-- **Run lemma.**  Every run of the registry is one of the holders of a store. -/
theorem shows_of_reaches {ok : LockRegistry → LockAct → Prop} (hrun : Reaches next ok new r)
    (hs : ∀ path, s.holder path = none) :
    ∃ u, Relation.ReflTransGen HolderStep s u ∧ r.Shows u := by
  have hsteps : r.Tied ∧ ∃ u, Relation.ReflTransGen HolderStep s u ∧ r.Shows u := by
    apply hrun.invariant
    · rintro t a v ⟨htied, u, hu, hshows⟩ _ hnext
      obtain ⟨w, hstep, hshows⟩ := htied.shows_next hshows hnext
      exact ⟨tied_next htied hnext, w, hu.tail hstep, hshows⟩
    · refine ⟨tied_new, s, .refl, ?_⟩
      intro path i
      rw [hs path, guards_iff]
      constructor
      · intro h
        cases h
      · intro hguards
        obtain ⟨c, hc, -⟩ := hguards
        cases hc
  exact hsteps.2

end Shows

end LockRegistry

open LockRegistry

/-- **Per-target locks are exclusive, whatever the registry evicts.** -/
theorem per_target_locks_exclusive {r : LockRegistry}
    (hrun : Reaches LockRegistry.next (fun _ _ => True) .new r) :
    (∀ path i j, r.Guards i path → r.Guards j path → i = j) ∧
      ∀ path i j m n, r.WaitsOn i path m → r.HoldsMutex j path n → m = n := by
  have htied := tied_of_reaches hrun
  constructor
  · intro path i j hi hj
    exact htied.guards_unique hi hj
  · intro path i j m n hi hj
    exact htied.waitsOn_holder hi hj

/-! ### A path that is held while the registry is swept -/

/-- Paths of any depth. -/
def deepPath (n : Nat) : FsPath := List.replicate n (.normal "d".toList)

theorem deepPath_inj {m n : Nat} (h : deepPath m = deepPath n) : m = n := by
  have hlength := congrArg List.length h
  unfold deepPath at hlength
  rw [List.length_replicate, List.length_replicate] at hlength
  exact hlength

/-- Caller 0 holds its path, and `n` callers have asked for others and gone. -/
def crowded (n : Nat) : LockRegistry where
  entries := (List.range (n + 1)).map fun k => (deepPath k, k)
  locked := true :: List.replicate n false
  callers := ⟨[], 0, .holding, 1⟩ ::
    (List.range n).map fun k => ⟨deepPath (k + 1), k + 1, .idle, 0⟩

theorem length_crowded_entries (n : Nat) : (crowded n).entries.length = n + 1 := by
  unfold crowded
  rw [List.length_map, List.length_range]

theorem length_crowded_callers (n : Nat) : (crowded n).callers.length = n + 1 := by
  unfold crowded
  rw [List.length_cons, List.length_map, List.length_range]

/-- One more comes and goes; the registry is not beyond its limit yet. -/
theorem crowded_succ {n : Nat} (hn : n < MAX_LOCKS) :
    (next (crowded n) (.lockFor (deepPath (n + 1)))).bind (next · (.dropArc (n + 1))) =
      some (crowded (n + 1)) := by
  have hroom : (crowded n).evict = crowded n := by
    unfold evict
    rw [if_neg (by rw [length_crowded_entries]; omega)]
  have hnew : (crowded n).entries.lookup (deepPath (n + 1)) = none := by
    apply List.lookup_eq_none_iff.2
    intro e he
    obtain ⟨k, hk, rfl⟩ := List.mem_map.1 he
    apply bne_iff_ne.2
    intro h
    have hlt := List.mem_range.1 hk
    have heq := deepPath_inj h
    omega
  have hlocked : (crowded n).locked.length = n + 1 := by
    unfold crowded
    rw [List.length_cons, List.length_replicate]
  have hcalled : (crowded n).lockFor (deepPath (n + 1)) =
      { entries := (crowded n).entries ++ [(deepPath (n + 1), n + 1)]
        locked := (crowded n).locked ++ [false]
        callers := (crowded n).callers ++ [⟨deepPath (n + 1), n + 1, .idle, 1⟩] } := by
    unfold lockFor enter
    rw [hroom, hnew, hlocked]
  have hcaller : ((crowded n).callers ++
      [(⟨deepPath (n + 1), n + 1, .idle, 1⟩ : LockCaller)])[n + 1]? =
        some ⟨deepPath (n + 1), n + 1, .idle, 1⟩ := by
    rw [List.getElem?_append_right (by rw [length_crowded_callers]), length_crowded_callers,
      Nat.sub_self]
    rfl
  show next ((crowded n).lockFor (deepPath (n + 1))) (.dropArc (n + 1)) = _
  rw [hcalled]
  unfold next
  dsimp only
  have hheld : LockCaller.tied ⟨deepPath (n + 1), n + 1, .idle, 1⟩ < 1 := Nat.one_pos
  rw [hcaller, Option.bind_some, if_pos hheld]
  unfold put crowded
  dsimp only
  congr 2
  · rw [List.range_succ (n := n + 1), List.map_append]
    rfl
  · rw [List.cons_append, ← List.replicate_succ']
  · rw [List.cons_append, List.set_cons_succ, List.set_append_right _ _ (by simp),
      List.range_succ (n := n), List.map_append]
    simp

theorem crowded_reached {n : Nat} (hn : n ≤ MAX_LOCKS) :
    Reaches next (fun _ _ => True) new (crowded n) := by
  induction n with
  | zero =>
      have hfirst : runIf next (fun _ _ => true) new [.lockFor [], .ask 0, .acquire 0] =
          some (crowded 0) := by decide
      exact reaches_of_runIf (fun _ _ _ => trivial) hfirst
  | succ n ih =>
      obtain ⟨t, ht, hdrop⟩ := Option.bind_eq_some_iff.1 (crowded_succ (Nat.lt_of_succ_le hn))
      exact ((ih (Nat.le_of_succ_le hn)).tail trivial ht).tail trivial hdrop

/-- Only the registry has an `Arc` of what has been asked for and let go. -/
theorem strongCount_crowded {n k : Nat} : (crowded n).strongCount (k + 1) ≤ 1 := by
  have hentries : (crowded n).entries.countP (·.2 == k + 1) ≤ 1 := by
    unfold crowded
    rw [List.countP_map]
    exact List.nodup_iff_count_le_one.1 List.nodup_range (k + 1)
  have hcallers : (((crowded n).callers.filter (·.mutex == k + 1)).map LockCaller.handles).sum =
      0 := by
    apply List.sum_eq_zero
    intro x hx
    obtain ⟨c, hc, rfl⟩ := List.mem_map.1 hx
    obtain ⟨hmem, hmutex⟩ := List.mem_filter.1 hc
    unfold crowded at hmem
    rcases List.mem_cons.1 hmem with rfl | hmem
    · cases hmutex
    · obtain ⟨j, -, rfl⟩ := List.mem_map.1 hmem
      rfl
  unfold strongCount
  omega

/-- **The next call sweeps them all out**, and keeps the path that is held. -/
theorem evict_crowded {n : Nat} (hn : MAX_LOCKS ≤ n) : (crowded n).evict.entries = [([], 0)] := by
  have hlimit : MAX_LOCKS < (crowded n).entries.length := by
    rw [length_crowded_entries]
    omega
  have hfirst : (crowded n).entries = ([], 0) ::
      (List.range n).map fun k => (deepPath (k + 1), k + 1) := by
    unfold crowded
    rw [List.range_succ_eq_map, List.map_cons, List.map_map]
    rfl
  have hheld : 1 < (crowded n).strongCount 0 := by
    have hcaller : (crowded n).callers[0]? = some ⟨[], 0, .holding, 1⟩ := rfl
    have hentry : (([] : FsPath), 0) ∈ (crowded n).entries := by
      rw [hfirst]
      exact List.mem_cons_self
    exact handles_lt_strongCount hcaller hentry
  have hothers : ((List.range n).map fun k => (deepPath (k + 1), k + 1)).filter
      (fun e => 1 < (crowded n).strongCount e.2) = [] := by
    apply List.filter_eq_nil_iff.2
    intro e he
    obtain ⟨k, -, rfl⟩ := List.mem_map.1 he
    have hcount := @strongCount_crowded n k
    rw [decide_eq_true_eq]
    exact Nat.not_lt.2 hcount
  unfold evict
  rw [if_pos hlimit]
  show (crowded n).entries.filter (fun e => 1 < (crowded n).strongCount e.2) = _
  rw [hfirst]
  have hkept : decide (1 < (crowded n).strongCount (([], 0) : FsPath × Nat).2) = true :=
    decide_eq_true hheld
  rw [List.filter_cons, if_pos hkept, hothers]

/-- The registry is swept while a path is held: its next caller waits on the same mutex. -/
theorem second_caller_waits_on_holder :
    ∃ r, Reaches LockRegistry.next (fun _ _ => True) .new r ∧ r.entries = [([], 0)] ∧
      r.locked.length = MAX_LOCKS + 1 ∧ r.HoldsMutex 0 [] 0 ∧
      r.WaitsOn (MAX_LOCKS + 1) [] 0 ∧ ∀ i, r.Guards i [] → i = 0 := by
  have hcrowded := crowded_reached (Nat.le_refl MAX_LOCKS)
  have hswept := evict_crowded (Nat.le_refl MAX_LOCKS)
  generalize MAX_LOCKS = n at hcrowded hswept ⊢
  have hcalled : (crowded n).lockFor [] =
      { entries := [([], 0)]
        locked := (crowded n).locked
        callers := (crowded n).callers ++ [⟨[], 0, .idle, 1⟩] } := by
    have hfound : (crowded n).evict.entries.lookup [] = some 0 := by
      rw [hswept]
      rfl
    unfold lockFor enter
    rw [hfound]
    dsimp only
    rw [hswept, evict_locked, evict_callers]
  have hcaller : ∀ c : LockCaller, ((crowded n).callers ++ [c])[n + 1]? = some c := by
    intro c
    rw [List.getElem?_append_right (Nat.le_of_eq (length_crowded_callers n)),
      length_crowded_callers, Nat.sub_self]
    rfl
  have hasked : LockRegistry.next ((crowded n).lockFor []) (.ask (n + 1)) =
      some (((crowded n).lockFor []).put (n + 1) ⟨[], 0, .waiting, 1⟩) := by
    rw [hcalled]
    unfold LockRegistry.next
    dsimp only
    rw [hcaller, Option.bind_some, if_pos ⟨rfl, Nat.one_pos⟩]
  have hreach : Reaches LockRegistry.next (fun _ _ => True) .new
      (((crowded n).lockFor []).put (n + 1) ⟨[], 0, .waiting, 1⟩) :=
    (hcrowded.tail (a := .lockFor []) trivial rfl).tail trivial hasked
  have hfirst : (((crowded n).lockFor []).put (n + 1) ⟨[], 0, .waiting, 1⟩).HoldsMutex 0 [] 0 := by
    refine ⟨⟨[], 0, .holding, 1⟩, ?_, rfl, rfl, rfl⟩
    rw [hcalled]
    rfl
  refine ⟨_, hreach, ?_, ?_, hfirst, ?_, ?_⟩
  · rw [hcalled]
    rfl
  · rw [hcalled]
    show (true :: List.replicate n false).length = n + 1
    rw [List.length_cons, List.length_replicate]
  · refine ⟨⟨[], 0, .waiting, 1⟩, ?_, rfl, rfl, rfl⟩
    rw [hcalled]
    unfold put
    dsimp only
    rw [List.getElem?_set_self]
    rw [List.length_append, length_crowded_callers]
    exact Nat.lt_succ_self _
  · intro i hi
    exact (per_target_locks_exclusive hreach).1 [] i 0 hi ⟨0, hfirst⟩

end Libfw

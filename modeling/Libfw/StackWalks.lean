import Mathlib.Data.Set.Finite.Basic
import Mathlib.Data.Fintype.Pigeonhole
import Mathlib.Logic.Relation
import Mathlib.Order.RelClasses
import Mathlib.Data.List.Nodup
import Mathlib.Data.List.Perm.Basic

/-!
# Depth-first walks that keep no record

A walk with an explicit stack: the top node is expanded, its children are pushed, what it
holds is kept.  Nothing remembers where the walk has been.

* `ends_iff`: over finitely many nodes the walk ends exactly when no node below its root lies
  below itself, or a node that cannot be expanded comes first;
* `ends_of_acyclic`: where no node lies below itself it ends;
* `walk_of_tree`: over a tree it visits every node once.
-/

namespace StackWalk

variable {α β ε : Type}

/-- The walk, for a number of turns of its loop. -/
def walk (expand : α → Except ε (List α × List β)) :
    Nat → List α → List β → Option (Except ε (List β))
  | 0, _, _ => none
  | _ + 1, [], out => some (.ok out)
  | fuel + 1, node :: stack, out =>
      match expand node with
      | .error e => some (.error e)
      | .ok (children, held) => walk expand fuel (children.reverse ++ stack) (out ++ held)

/-! ## What a node leads to -/

/-- The nodes a node names. -/
def children (expand : α → Except ε (List α × List β)) (node : α) : List α :=
  match expand node with
  | .error _ => []
  | .ok (children, _) => children

/-- What a node holds. -/
def held (expand : α → Except ε (List α × List β)) (node : α) : List β :=
  match expand node with
  | .error _ => []
  | .ok (_, held) => held

variable (expand : α → Except ε (List α × List β))

/-- The node cannot be expanded. -/
def Stuck (node : α) : Prop := ∃ e, expand node = .error e

def Child (node child : α) : Prop := child ∈ children expand node

/-- The node is the root, or lies below it. -/
def Reach (root node : α) : Prop := Relation.ReflTransGen (Child expand) root node

/-- The node lies below the other. -/
def Below (node other : α) : Prop := Relation.TransGen (Child expand) node other

/-- Every node that can be reached can be expanded, and none lies below itself. -/
def Sound (root : α) : Prop :=
  ∀ node, Reach expand root node → ¬ Stuck expand node ∧ ¬ Below expand node node

/-- A node that cannot be expanded comes before any descent without end: children are
walked from the last to the first. -/
inductive FailsFirst : α → Prop
  | stuck {node : α} (h : Stuck expand node) : FailsFirst node
  | deeper {node child : α} {before after : List α}
      (hchildren : children expand node = before ++ child :: after)
      (hafter : ∀ x ∈ after, Sound expand x) (hchild : FailsFirst child) : FailsFirst node

/-- The nodes below a root form a tree: all can be expanded, each is named once, and the root
is named nowhere. -/
structure IsTree (root : α) : Prop where
  expands : ∀ node, Reach expand root node → ¬ Stuck expand node
  once : ∀ node, Reach expand root node → (children expand node).Nodup
  parent : ∀ x y child, Reach expand root x → Reach expand root y →
    Child expand x child → Child expand y child → x = y
  top : ∀ node, Reach expand root node → ¬ Child expand node root

variable {expand}

theorem expand_of_not_stuck {node : α} (h : ¬ Stuck expand node) :
    expand node = .ok (children expand node, held expand node) := by
  unfold children held
  cases hexpand : expand node with
  | error e => exact absurd ⟨e, hexpand⟩ h
  | ok found => rfl

theorem Sound.child {node child : α} (h : Sound expand node) (hchild : Child expand node child) :
    Sound expand child := by
  intro x hx
  exact h x (Relation.ReflTransGen.head hchild hx)

/-- A node whose children are sound is sound, if it can be expanded. -/
theorem sound_of_children {node : α} (hnode : ¬ Stuck expand node)
    (hchildren : ∀ child ∈ children expand node, Sound expand child) : Sound expand node := by
  intro x hx
  have hbelow : ∀ child, Child expand node child → Reach expand child x →
      ¬ Stuck expand x ∧ ¬ Below expand x x := by
    intro child hchild hreach
    exact hchildren child hchild x hreach
  rcases Relation.ReflTransGen.cases_head hx with rfl | ⟨child, hchild, hreach⟩
  · refine ⟨hnode, ?_⟩
    intro hcycle
    obtain ⟨child, hchild, hback⟩ := Relation.TransGen.head'_iff.1 hcycle
    exact (hbelow child hchild hback).2 hcycle
  · exact hbelow child hchild hreach

/-! ## Visits -/

variable (expand)

/-- The nodes a walk that comes to its end takes from its stack, in order. -/
inductive Visits : List α → List α → Prop
  | nil : Visits [] []
  | cons {node : α} {stack seen : List α} (hnode : ¬ Stuck expand node)
      (hrest : Visits ((children expand node).reverse ++ stack) seen) :
      Visits (node :: stack) (node :: seen)

/-- The walk meets a node that cannot be expanded. -/
inductive Fails : List α → ε → Prop
  | here {node : α} {stack : List α} {e : ε} (h : expand node = .error e) :
      Fails (node :: stack) e
  | later {node : α} {stack : List α} {e : ε} (hnode : ¬ Stuck expand node)
      (hrest : Fails ((children expand node).reverse ++ stack) e) : Fails (node :: stack) e

variable {expand}

theorem walk_of_visits {stack seen : List α} (h : Visits expand stack seen) {fuel : Nat}
    (hfuel : seen.length < fuel) (out : List β) :
    walk expand fuel stack out = some (.ok (out ++ seen.flatMap (held expand))) := by
  induction h generalizing fuel out with
  | nil =>
      obtain ⟨fuel, rfl⟩ := Nat.exists_eq_succ_of_ne_zero (Nat.ne_of_gt hfuel)
      simp [walk]
  | cons hnode hrest ih =>
      obtain ⟨fuel, rfl⟩ := Nat.exists_eq_succ_of_ne_zero (Nat.ne_of_gt (Nat.zero_lt_of_lt hfuel))
      rw [List.length_cons] at hfuel
      rw [walk, expand_of_not_stuck hnode]
      simp only [ih (Nat.lt_of_succ_lt_succ hfuel), List.flatMap_cons, List.append_assoc]

theorem walk_of_fails {stack : List α} {e : ε} (h : Fails expand stack e) :
    ∃ fuel, ∀ out : List β, walk expand fuel stack out = some (.error e) := by
  induction h with
  | here h => exact ⟨1, fun out => by rw [walk, h]⟩
  | later hnode hrest ih =>
      obtain ⟨fuel, hfuel⟩ := ih
      refine ⟨fuel + 1, ?_⟩
      intro out
      rw [walk, expand_of_not_stuck hnode]
      exact hfuel _

/-- A walk that succeeds has visited all it had to, and has kept what it found there. -/
theorem visits_of_walk {fuel : Nat} {stack : List α} {out found : List β}
    (h : walk expand fuel stack out = some (.ok found)) :
    ∃ seen, Visits expand stack seen ∧ found = out ++ seen.flatMap (held expand) := by
  induction fuel generalizing stack out with
  | zero => cases h
  | succ fuel ih =>
      cases stack with
      | nil =>
          cases h
          exact ⟨[], .nil, by simp⟩
      | cons node stack =>
          by_cases hnode : Stuck expand node
          · obtain ⟨e, he⟩ := hnode
            rw [walk, he] at h
            cases h
          · rw [walk, expand_of_not_stuck hnode] at h
            obtain ⟨seen, hseen, rfl⟩ := ih h
            refine ⟨node :: seen, .cons hnode hseen, ?_⟩
            rw [List.flatMap_cons, List.append_assoc]

/-- A walk that ends has visited all it had to, or has met a node it could not expand. -/
theorem visits_or_fails {fuel : Nat} {stack : List α} {out : List β} {r : Except ε (List β)}
    (h : walk expand fuel stack out = some r) :
    (∃ seen, Visits expand stack seen) ∨ ∃ e, Fails expand stack e := by
  induction fuel generalizing stack out with
  | zero => cases h
  | succ fuel ih =>
      cases stack with
      | nil => exact .inl ⟨[], .nil⟩
      | cons node stack =>
          by_cases hnode : Stuck expand node
          · obtain ⟨e, he⟩ := hnode
            exact .inr ⟨e, .here he⟩
          · rw [walk, expand_of_not_stuck hnode] at h
            rcases ih h with ⟨seen, hseen⟩ | ⟨e, he⟩
            · exact .inl ⟨_, .cons hnode hseen⟩
            · exact .inr ⟨e, .later hnode he⟩

theorem Visits.append {xs ys us vs : List α} (hxs : Visits expand xs us)
    (hys : Visits expand ys vs) : Visits expand (xs ++ ys) (us ++ vs) := by
  induction hxs with
  | nil => exact hys
  | cons hnode hrest ih =>
      rw [List.append_assoc] at ih
      exact Visits.cons hnode ih

theorem Fails.append {xs ys us : List α} {e : ε} (hxs : Visits expand xs us)
    (hys : Fails expand ys e) : Fails expand (xs ++ ys) e := by
  induction hxs with
  | nil => exact hys
  | cons hnode hrest ih =>
      rw [List.append_assoc] at ih
      exact Fails.later hnode ih

/-- The upper part of a stack is walked first. -/
theorem Visits.split {xs ys seen : List α} (h : Visits expand (xs ++ ys) seen) :
    ∃ us vs, seen = us ++ vs ∧ Visits expand xs us ∧ Visits expand ys vs := by
  generalize hstack : xs ++ ys = stack at h
  induction h generalizing xs with
  | nil =>
      obtain ⟨rfl, rfl⟩ := List.append_eq_nil_iff.1 hstack
      exact ⟨[], [], rfl, .nil, .nil⟩
  | @cons node stack seen hnode hrest ih =>
      cases xs with
      | nil =>
          rw [List.nil_append] at hstack
          subst hstack
          exact ⟨[], _, rfl, .nil, .cons hnode hrest⟩
      | cons x xs =>
          rw [List.cons_append, List.cons.injEq] at hstack
          obtain ⟨rfl, rfl⟩ := hstack
          obtain ⟨us, vs, rfl, hus, hvs⟩ := ih (List.append_assoc _ _ _)
          exact ⟨x :: us, vs, rfl, .cons hnode hus, hvs⟩

theorem Visits.unique {stack seen seen' : List α} (h : Visits expand stack seen)
    (h' : Visits expand stack seen') : seen = seen' := by
  induction h generalizing seen' with
  | nil =>
      cases h'
      rfl
  | cons hnode hrest ih =>
      cases h' with
      | cons hnode' hrest' => rw [ih hrest']

theorem Visits.of_mem {stack seen : List α} {node : α} (h : Visits expand stack seen)
    (hnode : node ∈ stack) : ∃ vs, Visits expand [node] vs ∧ vs.length ≤ seen.length := by
  obtain ⟨before, after, rfl⟩ := List.append_of_mem hnode
  obtain ⟨us, ws, rfl, -, hrest⟩ := h.split
  obtain ⟨vs, zs, rfl, hnode, -⟩ : ∃ vs zs, _ = vs ++ zs ∧ Visits expand [node] vs ∧
      Visits expand after zs := Visits.split hrest
  refine ⟨vs, hnode, ?_⟩
  simp only [List.length_append]
  omega

/-- A child's walk is shorter than its parent's. -/
theorem Visits.child {node child : α} {seen : List α} (h : Visits expand [node] seen)
    (hchild : Child expand node child) :
    ∃ vs, Visits expand [child] vs ∧ vs.length < seen.length := by
  cases h with
  | cons hnode hrest =>
      rw [List.append_nil] at hrest
      obtain ⟨vs, hvs, hlen⟩ := hrest.of_mem (List.mem_reverse.2 hchild)
      exact ⟨vs, hvs, Nat.lt_succ_of_le hlen⟩

theorem Visits.descend {node other : α} {seen : List α} (h : Visits expand [node] seen)
    (hbelow : Below expand node other) :
    ∃ vs, Visits expand [other] vs ∧ vs.length < seen.length := by
  induction hbelow with
  | single hchild => exact h.child hchild
  | tail _ hchild ih =>
      obtain ⟨us, hus, hlen⟩ := ih
      obtain ⟨vs, hvs, hlen'⟩ := hus.child hchild
      exact ⟨vs, hvs, hlen'.trans hlen⟩

/-- **A walk that comes to its end went over sound nodes only.** -/
theorem Visits.sound {stack seen : List α} (h : Visits expand stack seen) {root : α}
    (hroot : root ∈ stack) : Sound expand root := by
  obtain ⟨us, hus, -⟩ := h.of_mem hroot
  have hreach : ∀ node, Reach expand root node → ∃ vs, Visits expand [node] vs := by
    intro node hnode
    rcases Relation.reflTransGen_iff_eq_or_transGen.1 hnode with rfl | hbelow
    · exact ⟨us, hus⟩
    · obtain ⟨vs, hvs, -⟩ := hus.descend hbelow
      exact ⟨vs, hvs⟩
  intro node hnode
  obtain ⟨vs, hvs⟩ := hreach node hnode
  refine ⟨?_, ?_⟩
  · cases hvs with
    | cons hopen hrest => exact hopen
  · intro hcycle
    obtain ⟨ws, hws, hlen⟩ := hvs.descend hcycle
    rw [hvs.unique hws] at hlen
    exact Nat.lt_irrefl _ hlen

/-- What a walk visits can be reached from its stack. -/
theorem Visits.mem_iff {stack seen : List α} (h : Visits expand stack seen) {x : α} :
    x ∈ seen ↔ ∃ node ∈ stack, Reach expand node x := by
  induction h with
  | nil => simp
  | @cons node stack seen hnode hrest ih =>
      rw [List.mem_cons, ih]
      constructor
      · intro hx
        rcases hx with rfl | ⟨y, hy, hreach⟩
        · exact ⟨x, List.mem_cons_self, .refl⟩
        · rcases List.mem_append.1 hy with hy | hy
          · exact ⟨node, List.mem_cons_self, .head (List.mem_reverse.1 hy) hreach⟩
          · exact ⟨y, List.mem_cons_of_mem _ hy, hreach⟩
      · intro hx
        obtain ⟨y, hy, hreach⟩ := hx
        rcases List.mem_cons.1 hy with rfl | hy
        · rcases Relation.ReflTransGen.cases_head hreach with rfl | ⟨child, hchild, hreach⟩
          · exact .inl rfl
          · exact .inr ⟨child, List.mem_append_left _ (List.mem_reverse.2 hchild), hreach⟩
        · exact .inr ⟨y, List.mem_append_right _ hy, hreach⟩

theorem Visits.reach_finite {stack seen : List α} (h : Visits expand stack seen) {root : α}
    (hroot : root ∈ stack) : {x | Reach expand root x}.Finite := by
  apply seen.finite_toSet.subset
  intro x hx
  exact h.mem_iff.2 ⟨root, hroot, hx⟩

/-! ## Finitely many nodes -/

/-- Over finitely many nodes a descent without cycles is well-founded. -/
theorem acc_of_acyclic {root : α} (hfinite : {x | Reach expand root x}.Finite)
    (h : ∀ node, Reach expand root node → ¬ Below expand node node) :
    Acc (fun child node => Child expand node child) root := by
  let Node := {x // Reach expand root x}
  let below : Node → Node → Prop := fun x y => Below expand y.1 x.1
  have : Finite Node := hfinite
  have : IsTrans Node below := ⟨fun x y z hxy hyz => Relation.TransGen.trans hyz hxy⟩
  have : Std.Irrefl below := ⟨fun x hx => h x.1 x.2 hx⟩
  have hwf : WellFounded below := Finite.wellFounded_of_trans_of_irrefl below
  have hall : ∀ x : Node, Acc (fun child node => Child expand node child) x.1 := by
    intro x
    induction x using hwf.induction with
    | h x ih =>
        apply Acc.intro
        intro child hchild
        exact ih ⟨child, x.2.tail hchild⟩ (Relation.TransGen.single hchild)
  exact hall ⟨root, .refl⟩

theorem Sound.acc {root : α} (hfinite : {x | Reach expand root x}.Finite)
    (h : Sound expand root) : Acc (fun child node => Child expand node child) root :=
  acc_of_acyclic hfinite fun node hnode => (h node hnode).2

theorem visits_of_forall {stack : List α} (h : ∀ node ∈ stack, ∃ seen, Visits expand [node] seen) :
    ∃ seen, Visits expand stack seen := by
  induction stack with
  | nil => exact ⟨[], .nil⟩
  | cons node stack ih =>
      obtain ⟨us, hus⟩ := h node List.mem_cons_self
      obtain ⟨vs, hvs⟩ := ih fun x hx => h x (List.mem_cons_of_mem _ hx)
      exact ⟨us ++ vs, hus.append hvs⟩

/-- **The walk comes to its end over a sound root.** -/
theorem Sound.visits {root : α} (hfinite : {x | Reach expand root x}.Finite)
    (h : Sound expand root) : ∃ seen, Visits expand [root] seen := by
  have hacc := h.acc hfinite
  clear hfinite
  induction hacc with
  | intro node _ ih =>
      have hchildren : ∀ child ∈ (children expand node).reverse,
          ∃ seen, Visits expand [child] seen := by
        intro child hchild
        have hmem := List.mem_reverse.1 hchild
        exact ih child hmem (h.child hmem)
      obtain ⟨seen, hseen⟩ := visits_of_forall hchildren
      rw [← List.append_nil (children expand node).reverse] at hseen
      exact ⟨_, .cons (h node .refl).1 hseen⟩

/-- What a failing walk says of its stack: sound nodes, and one that fails first. -/
theorem Fails.failsFirst {stack : List α} {e : ε} (h : Fails expand stack e) :
    ∃ before node after, stack = before ++ node :: after ∧ (∀ x ∈ before, Sound expand x) ∧
      FailsFirst expand node := by
  induction h with
  | @here node stack e h => exact ⟨[], node, stack, rfl, by simp, .stuck ⟨e, h⟩⟩
  | @later node stack e hnode hrest ih =>
      obtain ⟨before, c, after, hstack, hbefore, hc⟩ := ih
      rcases List.append_eq_append_iff.1 hstack with ⟨more, rfl, hmore⟩ | ⟨more, hmore, hafter⟩
      · -- All children are sound, and so is the node.
        refine ⟨node :: more, c, after, by rw [hmore]; rfl, ?_, hc⟩
        intro x hx
        rcases List.mem_cons.1 hx with rfl | hx
        · apply sound_of_children hnode
          intro child hchild
          exact hbefore child (List.mem_append_left _ (List.mem_reverse.2 hchild))
        · exact hbefore x (List.mem_append_right _ hx)
      · cases more with
        | nil =>
            rw [List.append_nil] at hmore
            refine ⟨[node], c, after, by rw [List.nil_append] at hafter; rw [← hafter]; rfl, ?_, hc⟩
            intro x hx
            rw [List.mem_singleton.1 hx]
            apply sound_of_children hnode
            intro child hchild
            apply hbefore
            rw [← hmore]
            exact List.mem_reverse.2 hchild
        | cons x more =>
            -- The node that fails first is one of the children.
            rw [List.cons_append, List.cons.injEq] at hafter
            obtain ⟨rfl, -⟩ := hafter
            have hchildren : children expand node = more.reverse ++ c :: before.reverse := by
              rw [← List.reverse_reverse (children expand node), hmore]
              simp
            refine ⟨[], node, stack, rfl, by simp, .deeper hchildren ?_ hc⟩
            intro x hx
            exact hbefore x (List.mem_reverse.1 hx)

/-- A walk whose root fails first fails. -/
theorem FailsFirst.fails {node : α} (h : FailsFirst expand node)
    (hfinite : {x | Reach expand node x}.Finite) (stack : List α) :
    ∃ e, Fails expand (node :: stack) e := by
  induction h generalizing stack with
  | stuck h =>
      obtain ⟨e, he⟩ := h
      exact ⟨e, .here he⟩
  | @deeper node child before after hchildren hafter hchild ih =>
      have hreach : ∀ x ∈ children expand node, {y | Reach expand x y}.Finite := by
        intro x hx
        apply hfinite.subset
        intro y hy
        exact Relation.ReflTransGen.head hx hy
      have hnode : ¬ Stuck expand node := by
        intro h
        obtain ⟨e, he⟩ := h
        simp [children, he] at hchildren
      have hseen : ∃ seen, Visits expand after.reverse seen := by
        apply visits_of_forall
        intro x hx
        have hx := List.mem_reverse.1 hx
        apply (hafter x hx).visits
        apply hreach
        rw [hchildren]
        exact List.mem_append_right _ (List.mem_cons_of_mem _ hx)
      obtain ⟨seen, hseen⟩ := hseen
      have hmem : child ∈ children expand node := by
        rw [hchildren]
        exact List.mem_append_right _ List.mem_cons_self
      obtain ⟨e, he⟩ := ih (hreach child hmem) (before.reverse ++ stack)
      have hall := Fails.append hseen he
      refine ⟨e, .later hnode ?_⟩
      rw [hchildren]
      simpa using hall

/-- **The walk succeeds exactly over finitely many nodes below a sound root, and keeps what
they hold.** -/
theorem succeeds_iff {root : α} {out : List β} :
    (∃ fuel found, walk expand fuel [root] out = some (.ok found)) ↔
      {x | Reach expand root x}.Finite ∧ Sound expand root := by
  constructor
  · intro h
    obtain ⟨fuel, found, hwalk⟩ := h
    obtain ⟨seen, hseen, -⟩ := visits_of_walk hwalk
    exact ⟨hseen.reach_finite List.mem_cons_self, hseen.sound List.mem_cons_self⟩
  · intro h
    obtain ⟨hfinite, hsound⟩ := h
    obtain ⟨seen, hseen⟩ := hsound.visits hfinite
    exact ⟨_, _, walk_of_visits hseen (Nat.lt_succ_self _) out⟩

/-- **Over finitely many nodes the walk ends exactly when its root is sound or fails
first.** -/
theorem ends_iff {root : α} (hfinite : {x | Reach expand root x}.Finite) (out : List β) :
    (∃ fuel r, walk expand fuel [root] out = some r) ↔
      Sound expand root ∨ FailsFirst expand root := by
  constructor
  · intro h
    obtain ⟨fuel, r, hwalk⟩ := h
    rcases visits_or_fails hwalk with ⟨seen, hseen⟩ | ⟨e, he⟩
    · exact .inl (hseen.sound List.mem_cons_self)
    · right
      obtain ⟨before, node, after, hstack, -, hnode⟩ := he.failsFirst
      obtain ⟨-, h⟩ | ⟨-, h⟩ := List.singleton_eq_append_iff.1 hstack
      · cases h
        exact hnode
      · cases h
  · intro h
    rcases h with hsound | hfails
    · obtain ⟨seen, hseen⟩ := hsound.visits hfinite
      exact ⟨_, _, walk_of_visits hseen (Nat.lt_succ_self _) out⟩
    · obtain ⟨e, he⟩ := hfails.fails hfinite []
      obtain ⟨fuel, hfuel⟩ := walk_of_fails he
      exact ⟨fuel, _, hfuel out⟩

/-- All of a list is good, or there is a last one that is not. -/
theorem forall_or_last {good bad : α → Prop} {xs : List α} (h : ∀ x ∈ xs, good x ∨ bad x) :
    (∀ x ∈ xs, good x) ∨ ∃ before x after, xs = before ++ x :: after ∧ (∀ y ∈ after, good y) ∧
      bad x := by
  induction xs with
  | nil => exact .inl fun x hx => absurd hx List.not_mem_nil
  | cons x xs ih =>
      rcases ih fun y hy => h y (List.mem_cons_of_mem x hy) with hall | hlast
      · rcases h x List.mem_cons_self with hx | hx
        · left
          intro y hy
          rcases List.mem_cons.1 hy with rfl | hy
          · exact hx
          · exact hall y hy
        · exact .inr ⟨[], x, xs, rfl, hall, hx⟩
      · obtain ⟨before, y, after, rfl, hafter, hy⟩ := hlast
        exact .inr ⟨x :: before, y, after, rfl, hafter, hy⟩

/-- **Without cycles the walk ends, whatever cannot be expanded.** -/
theorem ends_of_acyclic {root : α} (hfinite : {x | Reach expand root x}.Finite)
    (h : ∀ node, Reach expand root node → ¬ Below expand node node) (out : List β) :
    ∃ fuel r, walk expand fuel [root] out = some r := by
  rw [ends_iff hfinite]
  have hacc := acc_of_acyclic hfinite h
  clear hfinite h
  induction hacc with
  | intro node _ ih =>
      by_cases hnode : Stuck expand node
      · exact .inr (.stuck hnode)
      · rcases forall_or_last ih with hall | ⟨before, child, after, hchildren, hafter, hchild⟩
        · exact .inl (sound_of_children hnode hall)
        · exact .inr (.deeper hchildren hafter hchild)

/-! ## Trees -/

namespace IsTree

variable {root : α}

/-- In a tree no node lies below itself. -/
theorem no_cycle (h : IsTree expand root) {node : α} (hnode : Reach expand root node) :
    ¬ Below expand node node := by
  induction hnode with
  | refl =>
      intro hcycle
      obtain ⟨last, hreach, hlast⟩ := Relation.TransGen.tail'_iff.1 hcycle
      exact h.top last hreach hlast
  | @tail x y hx hxy ih =>
      intro hcycle
      obtain ⟨last, hreach, hlast⟩ := Relation.TransGen.tail'_iff.1 hcycle
      have hlast_eq : last = x := h.parent last x y ((hx.tail hxy).trans hreach) hx hlast hxy
      rw [hlast_eq] at hreach
      exact ih (Relation.TransGen.head' hxy hreach)

theorem sound (h : IsTree expand root) : Sound expand root := by
  intro node hnode
  exact ⟨h.expands node hnode, h.no_cycle hnode⟩

/-- Two children of one node lie apart. -/
theorem children_apart (h : IsTree expand root) {node c d : α} (hnode : Reach expand root node)
    (hc : Child expand node c) (hd : Child expand node d) (hne : c ≠ d) :
    ¬ Reach expand c d := by
  intro hreach
  rcases Relation.ReflTransGen.cases_tail hreach with heq | ⟨last, hlast, hstep⟩
  · exact hne heq.symm
  · have heq : last = node :=
      h.parent last node d ((hnode.tail hc).trans hlast) hnode hstep hd
    rw [heq] at hlast
    exact h.no_cycle hnode (Relation.TransGen.head' hc hlast)

end IsTree

/-- No node is on the stack twice, or below another one. -/
structure Apart (expand : α → Except ε (List α × List β)) (stack : List α) : Prop where
  nodup : stack.Nodup
  apart : ∀ x ∈ stack, ∀ y ∈ stack, x ≠ y → ¬ Reach expand x y

/-- One turn keeps the stack apart. -/
theorem Apart.step {root node : α} {stack : List α} (htree : IsTree expand root)
    (hreach : ∀ x ∈ node :: stack, Reach expand root x) (h : Apart expand (node :: stack)) :
    Apart expand ((children expand node).reverse ++ stack) := by
  have hnode := hreach node List.mem_cons_self
  obtain ⟨hfresh, hstack⟩ := List.nodup_cons.1 h.nodup
  have hdown : ∀ child ∈ children expand node, ∀ x ∈ stack, ¬ Reach expand child x := by
    intro child hchild x hx hreach
    apply h.apart node List.mem_cons_self x (List.mem_cons_of_mem _ hx)
    · intro heq
      exact hfresh (heq ▸ hx)
    · exact hreach.head hchild
  have hup : ∀ child ∈ children expand node, ∀ x ∈ stack, ¬ Reach expand x child := by
    intro child hchild x hx hback
    rcases Relation.ReflTransGen.cases_tail hback with heq | ⟨last, hlast, hstep⟩
    · exact hdown child hchild x hx (heq ▸ .refl)
    · have hroot := hreach x (List.mem_cons_of_mem _ hx)
      have heq : last = node := htree.parent last node child (hroot.trans hlast) hnode hstep hchild
      rw [heq] at hlast
      apply h.apart x (List.mem_cons_of_mem _ hx) node List.mem_cons_self
      · intro heq
        exact hfresh (heq ▸ hx)
      · exact hlast
  refine ⟨?_, ?_⟩
  · rw [List.nodup_append']
    refine ⟨List.nodup_reverse.2 (htree.once node hnode), hstack, ?_⟩
    intro x hx hx'
    exact hdown x (List.mem_reverse.1 hx) x hx' .refl
  · intro x hx y hy hne
    rcases List.mem_append.1 hx with hx | hx <;> rcases List.mem_append.1 hy with hy | hy
    · exact htree.children_apart hnode (List.mem_reverse.1 hx) (List.mem_reverse.1 hy) hne
    · exact hdown x (List.mem_reverse.1 hx) y hy
    · exact hup y (List.mem_reverse.1 hy) x hx
    · exact h.apart x (List.mem_cons_of_mem _ hx) y (List.mem_cons_of_mem _ hy) hne

/-- **Over a tree no node is visited twice.** -/
theorem Visits.nodup {root : α} {stack seen : List α} (htree : IsTree expand root)
    (h : Visits expand stack seen) (hreach : ∀ x ∈ stack, Reach expand root x)
    (hapart : Apart expand stack) : seen.Nodup := by
  induction h with
  | nil => exact List.nodup_nil
  | @cons node stack seen hnode hrest ih =>
      have hroot := hreach node List.mem_cons_self
      rw [List.nodup_cons]
      refine ⟨?_, ?_⟩
      · intro hmem
        obtain ⟨x, hx, hback⟩ := hrest.mem_iff.1 hmem
        rcases List.mem_append.1 hx with hx | hx
        · exact htree.no_cycle hroot (Relation.TransGen.head' (List.mem_reverse.1 hx) hback)
        · apply hapart.apart x (List.mem_cons_of_mem _ hx) node List.mem_cons_self
          · intro heq
            exact (List.nodup_cons.1 hapart.nodup).1 (heq ▸ hx)
          · exact hback
      · apply ih
        · intro x hx
          rcases List.mem_append.1 hx with hx | hx
          · exact hroot.tail (List.mem_reverse.1 hx)
          · exact hreach x (List.mem_cons_of_mem _ hx)
        · exact hapart.step htree hreach

theorem Visits.nodup_root {root : α} {seen : List α} (htree : IsTree expand root)
    (h : Visits expand [root] seen) : seen.Nodup := by
  apply h.nodup htree
  · intro x hx
    rw [List.mem_singleton.1 hx]
    exact .refl
  · refine ⟨List.nodup_singleton root, ?_⟩
    intro x hx y hy hne
    exact absurd ((List.mem_singleton.1 hx).trans (List.mem_singleton.1 hy).symm) hne

/-- **Over a tree the walk visits every node once, and keeps what each holds.** -/
theorem walk_of_tree {root : α} (hfinite : {x | Reach expand root x}.Finite)
    (htree : IsTree expand root) :
    ∃ seen : List α, seen.Nodup ∧ (∀ x, x ∈ seen ↔ Reach expand root x) ∧
      ∀ fuel, seen.length < fuel →
        walk expand fuel [root] [] = some (.ok (seen.flatMap (held expand))) := by
  obtain ⟨seen, hseen⟩ := htree.sound.visits hfinite
  refine ⟨seen, hseen.nodup_root htree, ?_, ?_⟩
  · intro x
    rw [hseen.mem_iff]
    simp
  · intro fuel hfuel
    exact walk_of_visits hseen hfuel []

end StackWalk

import Libfw.RequestStages
import Libfw.SessionCommits
import Libfw.TrackedCalls

/-!
# What a session request looks at

A request of a session looks twice for files that are not to be replaced: at its target when
it finds no temporary, and at its target before it moves the temporary there, both only in
Create mode (`refuseExisting`, `FsSink.refuseAppeared`).  `looks_runUpload` says this of the
whole request, whatever it is answered: it moves onto the target nothing but the temporary, in
Create mode only right after a look that found nothing; and it is refused because of a file
only in Create mode, after a look that found the temporary missing or the target there.
-/

namespace Libfw

open SteppedPrograms Fs FsStorage PosixStore

/-! ## Refusals -/

/-- The request is refused because of a file that exists. -/
def StorageError.Refuses : StorageError → Prop
  | .alreadyExists _ => True
  | _ => False

def ApiError.Refuses : ApiError → Prop
  | .storage e => e.Refuses
  | _ => False

/-- The call has found something under the name. -/
def Op.finds (target : FsPath) : (op : Op) → op.Ans → Bool
  | .tryExists p, .ok found => decide (p = target) && found
  | _, _ => false

/-- A look at the name that finds something. -/
theorem exec_finds {serde : Serde} {op : Op} {i : Nat} {c : Choice} {s t : Store} {a : op.Ans}
    {target : FsPath} (h : op.exec serde i c s = some (t, a)) (hfinds : op.finds target a = true) :
    op = .tryExists target ∧ t = s ∧ s.disk.entry target ≠ .absent := by
  unfold Op.finds at hfinds
  split at hfinds
  · next p found =>
      obtain ⟨hp, hfound⟩ := Bool.and_eq_true_iff.1 hfinds
      obtain rfl : p = target := of_decide_eq_true hp
      obtain ⟨ht, hanswer⟩ := exec_tryExists h
      exact ⟨rfl, ht, (hanswer found rfl).1 hfound⟩
  · cases hfinds

namespace Session

/-! ## What a request has seen -/

/-- What a request of the session has seen and done: whether a look has found the temporary
missing or the target there; whether its last call found the target missing; whether it has
moved a file onto the target. -/
structure Look where
  warned : Bool
  clear : Bool
  moved : Bool

namespace Look

def first : Look := ⟨false, false, false⟩

/-- A call is answered. -/
def after (S : Session) (g : Look) (op : Op) (a : op.Ans) : Look where
  warned := op.misses S.tmp a || op.finds S.target a || g.warned
  clear := op.misses S.target a
  moved := op.moves S.target a || g.moved

/-- What has been seen and done has been. -/
structure Below (g g' : Look) : Prop where
  warned : g.warned = true → g'.warned = true
  moved : g.moved = true → g'.moved = true

theorem Below.refl (g : Look) : g.Below g := ⟨fun h => h, fun h => h⟩

theorem Below.trans {g g' g'' : Look} (h : g.Below g') (h' : g'.Below g'') : g.Below g'' :=
  ⟨h'.warned ∘ h.warned, h'.moved ∘ h.moved⟩

theorem below_after {S : Session} {g : Look} {op : Op} {a : op.Ans} :
    g.Below (g.after S op a) := by
  constructor
  · intro h
    exact Bool.or_eq_true_iff.2 (Or.inr h)
  · intro h
    exact Bool.or_eq_true_iff.2 (Or.inr h)

end Look

variable (S : Session)

/-- What is moved onto the target is the temporary, in Create mode only where the last call
found nothing there. -/
def MovesRightly (mode : WriteMode) (g : Look) (op : Op) : Prop :=
  ∀ source, op = .rename source S.target → source = S.tmp ∧ (mode = .create → g.clear = true)

/-- The code of a request in a mode, followed with what the request has seen. -/
abbrev Looks {ε α : Type} (mode : WriteMode) (x : Fs ε α) (Q : Look → Except ε α → Prop)
    (g : Look) : Prop := Fs.Tracked (S.MovesRightly mode) (Look.after S) x Q g

/-- The code moves nothing onto the target, and its errors are as `C` says. -/
def Still {ε α : Type} (C : ε → Prop) (x : Fs ε α) : Prop :=
  ∀ mode g, S.Looks mode x (fun g' r => g.Below g' ∧ ∀ e, r = .error e → C e) g

variable {S}

/-! ### Code that moves nothing -/

section Still

variable {ε ε' α β : Type} {C : ε → Prop} {C' : ε' → Prop}

theorem still_ret {a : α} : S.Still C (ret a : Fs ε α) := by
  intro mode g
  apply tracked_ret
  exact ⟨Look.Below.refl g, fun e he => nomatch he⟩

theorem still_fail {e : ε} (he : C e) : S.Still C (fail e : Fs ε α) := by
  intro mode g
  apply tracked_fail
  refine ⟨Look.Below.refl g, ?_⟩
  intro e' he'
  cases he'
  exact he

theorem still_then {x : Fs ε α} {f : α → Fs ε β} (hx : S.Still C x)
    (hf : ∀ a, S.Still C (f a)) : S.Still C (x >>= f) := by
  intro mode g
  apply tracked_then (hx mode g)
  · intro g' a hg'
    apply (hf a mode g').mono
    intro g'' r hr
    exact ⟨hg'.1.trans hr.1, hr.2⟩
  · intro g' e hg'
    refine ⟨hg'.1, ?_⟩
    intro e' he'
    cases he'
    exact hg'.2 e rfl

theorem still_attempt_then {x : Fs ε α} {f : Except ε α → Fs ε' β} (hx : S.Still C x)
    (hok : ∀ a, S.Still C' (f (.ok a))) (herr : ∀ e, C e → S.Still C' (f (.error e))) :
    S.Still C' (attempt x >>= f) := by
  intro mode g
  apply tracked_attempt_then (hx mode g)
  intro g' r hg'
  cases r with
  | ok a =>
      apply (hok a mode g').mono
      intro g'' r hr
      exact ⟨hg'.1.trans hr.1, hr.2⟩
  | error e =>
      apply (herr e (hg'.2 e rfl) mode g').mono
      intro g'' r hr
      exact ⟨hg'.1.trans hr.1, hr.2⟩

theorem still_orElse {f : ε → ε'} {x : Fs ε α} (hx : S.Still C x) (hf : ∀ e, C e → C' (f e)) :
    S.Still C' (orElse f x) := by
  unfold orElse
  apply still_attempt_then hx
  · exact fun a => still_ret
  · exact fun e he => still_fail (hf e he)

theorem still_lift {r : Except ε α} (h : ∀ e, r = .error e → C e) : S.Still C (lift r) := by
  cases r with
  | ok a => exact still_ret
  | error e => exact still_fail (h e rfl)

theorem still_await_then {op : Op} {f : op.Ans → Fs ε β}
    (hop : ∀ source, op ≠ .rename source S.target) (hf : ∀ a, S.Still C (f a)) :
    S.Still C (await op >>= f) := by
  intro mode g
  apply tracked_await_then
  · intro source heq
    exact absurd heq (hop source)
  · intro a
    apply (hf a mode _).mono
    intro g' r hr
    exact ⟨Look.below_after.trans hr.1, hr.2⟩

/-- A call that moves nothing. -/
theorem still_call_then {op : Op} {f : op.Ans → Fs ε β} (hop : op.renames = false)
    (hf : ∀ a, S.Still C (f a)) : S.Still C (await op >>= f) := by
  apply still_await_then _ hf
  intro source heq
  rw [heq] at hop
  cases hop

theorem still_update_then {u : Held → Held} {f : Unit → Fs ε β} (hf : S.Still C (f ())) :
    S.Still C (update u >>= f) := fun mode g => tracked_update_then (hf mode g)

theorem still_held_then {f : Held → Fs ε β} (hf : ∀ h, S.Still C (f h)) :
    S.Still C (held >>= f) := fun mode g => tracked_held_then fun h => hf h mode g

end Still

/-- An error of the storage that refuses nothing. -/
abbrev Plain (e : StorageError) : Prop := ¬ e.Refuses

theorem still_other {α : Type} {r : Except IoError α} : S.Still Plain (other r) := by
  apply still_lift
  intro e he
  cases r with
  | ok a => cases he
  | error e' =>
      cases he
      exact fun h => h

theorem still_readRanges {serde : Serde} {b : FsPath} : S.Still Plain (readRanges serde b) := by
  unfold readRanges
  apply still_call_then rfl
  intro r
  cases r with
  | ok text =>
      apply still_lift
      intro e he
      cases hr : text.ranges serde with
      | ok ranges =>
          rw [hr] at he
          cases he
      | error m =>
          rw [hr] at he
          cases he
          exact fun h => h
  | error e =>
      dsimp only
      split
      · exact still_ret
      · exact still_fail fun h => h

theorem still_removeBlocksSidecar {b : Option FsPath} :
    S.Still Plain (removeBlocksSidecar b) := by
  cases b with
  | none => exact still_ret
  | some b => exact still_call_then rfl fun _ => still_ret

/-- The sidecar is replaced; the target is not. -/
theorem still_persistRanges {ranges : List ChunkRange} :
    S.Still Plain (persistRanges S.blocks ranges) := by
  unfold persistRanges
  apply still_call_then rfl
  intro r
  apply still_then still_other
  intro _
  have hrename : ∀ source, Op.rename (persistPathFor S.blocks) S.blocks ≠
      .rename source S.target := by
    intro source heq
    exact S.names.blocks_ne_target (Op.rename.inj heq).2
  exact still_await_then hrename fun _ => still_other

theorem still_writeAt {file : Nat} {mode : WriteMode} {offset : Nat} {buf : List UInt8} :
    S.Still Plain ((S.sink file mode).writeAt S.srv.serde offset buf) := by
  unfold FsSink.writeAt
  apply still_call_then rfl
  intro r
  cases r with
  | error e => exact still_fail fun h => h
  | ok _ =>
      apply still_update_then
      unfold FsSink.recordRange
      apply still_then still_readRanges
      intro current
      apply still_then still_persistRanges
      intro _
      exact still_update_then still_ret

/-- An error of a handler that refuses nothing. -/
abbrev PlainApi (e : ApiError) : Prop := ¬ e.Refuses

theorem still_writeAtBatch {file : Nat} {mode : WriteMode} {base size written : Nat}
    {data : List UInt8} :
    S.Still PlainApi (writeAtBatch S.srv (S.sink file mode) base size written data) := by
  unfold writeAtBatch
  dsimp only
  split
  · exact still_fail fun h => h
  · split
    · exact still_fail fun h => h
    · exact still_orElse still_writeAt fun e he => he

/-- An error of the streaming loop that refuses nothing. -/
abbrev PlainStream (e : StreamError) : Prop := ¬ e.error.Refuses

theorem still_writeSome {write : Nat → List UInt8 → Fs ApiError Unit} {count : Nat}
    {data : List UInt8} (hwrite : ∀ count data, S.Still PlainApi (write count data)) :
    S.Still PlainStream (writeSome write count data) := by
  unfold writeSome
  split
  · exact still_ret
  · have hbatch : S.Still PlainStream
        (orElse (fun e => StreamError.mk e false) (write count data)) :=
      still_orElse (hwrite count data) fun e he => he
    exact still_then hbatch fun _ => still_ret

theorem still_streamEvents {write : Nat → List UInt8 → Fs ApiError Unit}
    (hwrite : ∀ count data, S.Still PlainApi (write count data)) (events : List BodyEvent) :
    ∀ count, S.Still PlainStream (streamEvents write count events) := by
  induction events with
  | nil => exact fun count => still_ret
  | cons event rest ih =>
      intro count
      unfold streamEvents
      apply still_call_then rfl
      intro _
      cases event with
      | broken m => exact still_fail fun h => h
      | invalid m => exact still_fail fun h => h
      | data bytes => exact still_then (still_writeSome hwrite) ih

theorem still_streamBody {write : Nat → List UInt8 → Fs ApiError Unit} {body : Body}
    (hwrite : ∀ count data, S.Still PlainApi (write count data)) :
    S.Still PlainStream (streamBody write body) := by
  unfold streamBody
  apply still_then (still_streamEvents hwrite body.events 0)
  intro count
  apply still_call_then rfl
  intro _
  cases body.finish with
  | error e => exact still_fail fun h => h
  | ok out => exact still_writeSome hwrite

theorem still_abort {file : Nat} {mode : WriteMode} : S.Still Plain (S.sink file mode).abort := by
  unfold FsSink.abort
  apply still_call_then rfl
  intro _
  exact still_then still_ret fun _ => still_removeBlocksSidecar

theorem still_len {file : Nat} {mode : WriteMode} : S.Still Plain (S.sink file mode).len := by
  unfold FsSink.len
  exact still_call_then rfl fun _ => still_other

theorem still_receivedRanges : S.Still Plain FsSink.receivedRanges := by
  unfold FsSink.receivedRanges
  exact still_held_then fun _ => still_ret

/-! ### Code that looks at the target, and moves -/

/-- A refusal is in Create mode, and comes after a look that found the temporary missing or the
target there. -/
def Warned {ε α : Type} (refuses : ε → Prop) (mode : WriteMode) (g : Look) (r : Except ε α) :
    Prop :=
  ∀ e, r = .error e → refuses e → mode = .create ∧ g.warned = true

theorem warned_ok {ε α : Type} {refuses : ε → Prop} {mode : WriteMode} {g : Look} {a : α} :
    Warned refuses mode g (.ok a : Except ε α) := fun _ he => nomatch he

theorem warned_plain {ε α : Type} {refuses : ε → Prop} {mode : WriteMode} {g : Look} {e : ε}
    (he : ¬ refuses e) : Warned refuses mode g (.error e : Except ε α) := by
  intro e' heq hrefuses
  cases heq
  exact absurd hrefuses he

/-- What a refusal means does not depend on what the code was to return. -/
theorem Warned.error {ε α β : Type} {refuses : ε → Prop} {mode : WriteMode} {g : Look} {e : ε}
    (h : Warned refuses mode g (.error e : Except ε α)) :
    Warned refuses mode g (.error e : Except ε β) := by
  intro e' heq hrefuses
  cases heq
  exact h e rfl hrefuses

section Looking

variable {mode : WriteMode} {g : Look}

/-- The first look at the target, of a request that has found no temporary. -/
theorem looks_refuseExisting (hwarned : g.warned = true) :
    S.Looks mode (refuseExisting S.target S.path mode)
      (fun g' r => g.Below g' ∧ Warned StorageError.Refuses mode g' r) g := by
  unfold refuseExisting
  split
  · next hmode =>
      apply tracked_await_then (fun _ h => nomatch h)
      intro r
      apply tracked_other_then
      · intro found _
        have hbelow : g.Below (g.after S (.tryExists S.target) r) := Look.below_after
        split
        · apply tracked_fail
          refine ⟨hbelow, ?_⟩
          intro e _ _
          exact ⟨hmode, hbelow.warned hwarned⟩
        · exact tracked_ret ⟨hbelow, warned_ok⟩
      · intro e _
        exact ⟨Look.below_after, warned_plain fun h => h⟩
  · exact tracked_ret ⟨Look.Below.refl g, warned_ok⟩

/-- A request that opens the temporary is refused only where there is none. -/
theorem looks_openSessionTemp {tmpExists : Bool} (hmissing : tmpExists = false → g.warned = true) :
    S.Looks mode (openSessionTemp S.target S.tmp S.path mode tmpExists)
      (fun g' r => Warned StorageError.Refuses mode g' r) g := by
  have hquiet : ∀ {x : Fs StorageError Nat} {g : Look}, S.Still Plain x →
      S.Looks mode x (fun g' r => Warned StorageError.Refuses mode g' r) g := by
    intro x g hx
    apply (hx mode g).mono
    intro g' r hr e he hrefuses
    exact absurd hrefuses (hr.2 e he)
  have hcreate : tmpExists = false → S.Looks mode (do
      refuseExisting S.target S.path mode
      other (← await (.createNew S.tmp)))
      (fun g' r => Warned StorageError.Refuses mode g' r) g := by
    intro hnone
    apply tracked_then (looks_refuseExisting (hmissing hnone))
    · intro g' _ _
      exact hquiet (still_call_then rfl fun _ => still_other)
    · intro g' e hr e' he'
      cases he'
      exact hr.2 e rfl
  unfold openSessionTemp
  split
  · exact hquiet (still_call_then rfl fun _ => still_other)
  · next hnone =>
      have hfalse : tmpExists = false := Bool.eq_false_of_not_eq_true hnone
      cases mode with
      | resume offset => exact tracked_fail (warned_plain fun h => h)
      | create => exact hcreate hfalse
      | overwrite => exact hcreate hfalse

theorem looks_prepare : S.Looks mode (prepare S.srv.root S.path)
    (fun _ r => (∀ full, r = .ok full → full = S.target) ∧ ∀ e, r = .error e → Plain e) g := by
  have herror : ∀ e : StorageError, Plain e →
      (∀ full, (Except.error e : Except StorageError FsPath) = .ok full → full = S.target) ∧
        ∀ e', (Except.error e : Except StorageError FsPath) = .error e' → Plain e' := by
    intro e he
    constructor
    · intro full h
      cases h
    · intro e' h
      cases h
      exact he
  have hresolved : ∀ full, resolve S.srv.root S.path = .ok full →
      (∀ full', (Except.ok full : Except StorageError FsPath) = .ok full' → full' = S.target) ∧
        ∀ e', (Except.ok full : Except StorageError FsPath) = .error e' → Plain e' := by
    intro full hfull
    constructor
    · intro full' h
      cases h
      exact target_of_resolve hfull
    · intro e' h
      cases h
  unfold prepare
  cases hres : resolve S.srv.root S.path with
  | error m => exact tracked_fail (herror _ fun h => h)
  | ok full =>
      have hgood := hresolved full hres
      apply tracked_await_then (fun _ h => nomatch h)
      intro r
      apply tracked_other_then
      · intro _ _
        dsimp only
        cases full.parent with
        | none => exact tracked_ret hgood
        | some parent =>
            apply tracked_await_then (fun _ h => nomatch h)
            intro r
            apply tracked_other_then
            · intro _ _
              exact tracked_ret hgood
            · exact fun e _ => herror _ fun h => h
      · exact fun e _ => herror _ fun h => h

/-- A request in the mode has its own sink, or is refused after a warning. -/
def Delivers (S : Session) (mode : WriteMode) (g : Look) (r : Except StorageError FsSink) : Prop :=
  (∀ sink, r = .ok sink → ∃ file, sink = S.sink file mode) ∧ Warned StorageError.Refuses mode g r

theorem delivers_error {e : StorageError}
    (h : Warned StorageError.Refuses mode g (.error e : Except StorageError FsSink)) :
    S.Delivers mode g (.error e) := by
  refine ⟨?_, h⟩
  intro sink hsink
  cases hsink

/-- The sink of a request has the request's own mode. -/
theorem looks_writeStreamSession :
    S.Looks mode (writeStreamSession S.srv.serde S.srv.root S.path S.id S.owner mode)
      (S.Delivers mode) g := by
  unfold writeStreamSession
  apply tracked_then looks_prepare
  · intro g₁ full hfull
    obtain rfl := hfull.1 full rfl
    apply tracked_await_then (fun _ h => by cases h)
    intro r
    apply tracked_other_then
    · intro tmpExists hr
      apply tracked_then (R := fun g' r => Warned StorageError.Refuses mode g' r)
      · apply looks_openSessionTemp
        intro hnone
        rw [hr, hnone]
        simp [Look.after, Op.misses, tmp]
      · intro g₂ file _
        apply tracked_update_then
        apply tracked_await_then (fun _ h => by cases h)
        intro _
        have hopen : ∀ g₃ ranges, S.Looks mode (openSink (S.sink file mode) 0 ranges)
            (S.Delivers mode) g₃ := by
          intro g₃ ranges
          apply tracked_update_then
          apply tracked_ret
          refine ⟨?_, warned_ok⟩
          intro sink hsink
          cases hsink
          exact ⟨file, rfl⟩
        cases tmpExists with
        | true =>
            apply tracked_then (still_readRanges mode _)
            · exact fun g₃ ranges _ => hopen g₃ ranges
            · exact fun g₃ e hr => delivers_error (warned_plain (hr.2 e rfl))
        | false =>
            apply tracked_then (still_removeBlocksSidecar mode _)
            · exact fun g₃ _ _ => hopen g₃ []
            · exact fun g₃ e hr => delivers_error (warned_plain (hr.2 e rfl))
      · exact fun g₂ e hr => delivers_error hr.error
    · exact fun e _ => delivers_error (warned_plain fun h => h)
  · exact fun g₁ e hr => delivers_error (warned_plain (hr.2 e rfl))

/-- A success comes after the move, a refusal after a warning. -/
def Settles {ε α : Type} (refuses : ε → Prop) (mode : WriteMode) (g : Look) (r : Except ε α) :
    Prop :=
  (∀ a, r = .ok a → g.moved = true) ∧ Warned refuses mode g r

theorem settles_error {ε α : Type} {refuses : ε → Prop} {e : ε}
    (h : Warned refuses mode g (.error e : Except ε α)) :
    Settles refuses mode g (.error e : Except ε α) := by
  refine ⟨?_, h⟩
  intro a ha
  cases ha

theorem settles_plain {ε α : Type} {refuses : ε → Prop} {e : ε} (he : ¬ refuses e) :
    Settles refuses mode g (.error e : Except ε α) := settles_error (warned_plain he)

variable {file : Nat}

/-- The last look: in Create mode it goes on only where nothing is there. -/
theorem looks_refuseAppeared : S.Looks mode ((S.sink file mode).refuseAppeared S.tmp)
    (fun g' r => (∀ u, r = .ok u → mode = .create → g'.clear = true) ∧
      Warned StorageError.Refuses mode g' r) g := by
  unfold FsSink.refuseAppeared
  split
  · next hmode =>
      apply tracked_await_then (fun _ h => by cases h)
      intro r
      apply tracked_other_then
      · intro found hr
        subst hr
        cases found with
        | true =>
            apply tracked_await_then (fun _ h => by cases h)
            intro _
            apply tracked_fail
            refine ⟨fun _ h => (by cases h), ?_⟩
            intro e _ _
            exact ⟨hmode, by simp [Look.after, Op.finds, sink]⟩
        | false =>
            apply tracked_ret
            refine ⟨?_, warned_ok⟩
            intro _ _ _
            simp [Look.after, Op.misses, sink]
      · intro e _
        exact ⟨fun _ h => (by cases h), warned_plain fun h => h⟩
  · next hmode =>
      apply tracked_ret
      refine ⟨?_, warned_ok⟩
      intro _ _ hcreate
      exact absurd hcreate hmode

theorem looks_publish : S.Looks mode ((S.sink file mode).publish S.tmp)
    (Settles StorageError.Refuses mode) g := by
  unfold FsSink.publish
  apply tracked_then looks_refuseAppeared
  · intro g₁ u hr
    unfold FsSink.moveIntoPlace
    apply tracked_await_then
    · intro source heq
      rw [← (Op.rename.inj heq).1]
      exact ⟨rfl, hr.1 u rfl⟩
    · intro r
      apply tracked_other_then
      · intro done hdone
        subst hdone
        have hmoved : (g₁.after S (.rename S.tmp (S.sink file mode).target) (.ok done)).moved =
            true := by
          simp [Look.after, Op.moves, sink]
        cases (S.sink file mode).target.parent with
        | none => exact tracked_ret ⟨fun _ _ => hmoved, warned_ok⟩
        | some parent =>
            apply tracked_await_then (fun _ h => by cases h)
            intro _
            exact tracked_ret ⟨fun _ _ => Look.below_after.moved hmoved, warned_ok⟩
      · exact fun e _ => settles_plain fun h => h
  · exact fun g₁ e hr => settles_error hr.2

theorem looks_commit {etag : Nat → Nat → Text} :
    S.Looks mode ((S.sink file mode).commit etag) (Settles StorageError.Refuses mode) g := by
  unfold FsSink.commit
  apply tracked_then (still_removeBlocksSidecar mode g)
  · intro g₁ _ _
    apply tracked_await_then (fun _ h => nomatch h)
    intro r
    apply tracked_other_then
    · intro _ _
      apply tracked_await_then (fun _ h => nomatch h)
      intro r
      apply tracked_other_then
      · intro _ _
        apply tracked_then looks_publish
        · intro g₂ u hr
          apply tracked_await_then (fun _ h => nomatch h)
          intro r
          apply tracked_other_then
          · intro stat _
            exact tracked_ret ⟨fun _ _ => Look.below_after.moved (hr.1 u rfl), warned_ok⟩
          · exact fun e _ => settles_plain fun h => h
        · exact fun g₂ e hr => settles_error hr.2.error
      · exact fun e _ => settles_plain fun h => h
    · exact fun e _ => settles_plain fun h => h
  · exact fun g₁ e hr => settles_plain (hr.2 e rfl)

theorem looks_commitReply : S.Looks mode (commitReply S.srv (S.sink file mode))
    (Settles ApiError.Refuses mode) g := by
  unfold commitReply
  apply tracked_orElse_then looks_commit
  · intro g₁ committed hr
    exact tracked_ret ⟨fun _ _ => hr.1 committed rfl, warned_ok⟩
  · intro g₁ e hr
    apply settles_error
    intro e' heq hrefuses
    cases heq
    exact hr.2 e rfl hrefuses

/-- An abort ends with the error that it was for. -/
theorem looks_abortWith {α : Type} {e : ApiError} {Q : Look → Except ApiError α → Prop}
    (h : ∀ g, Q g (.error e)) : S.Looks mode (abortWith (S.sink file mode) e) Q g := by
  unfold abortWith
  apply tracked_attempt_then (still_abort mode g)
  intro g' r _
  exact tracked_fail (h g')

theorem looks_finishSession {size : Nat} :
    S.Looks mode (finishSession S.srv (S.sink file mode) size) (Settles ApiError.Refuses mode)
      g := by
  unfold finishSession
  apply tracked_orElse_then (still_len mode g)
  · intro g₁ len _
    split
    · exact looks_abortWith fun g => settles_plain fun h => h
    · apply tracked_orElse_then (still_receivedRanges mode g₁)
      · intro g₂ received _
        split
        · exact looks_abortWith fun g => settles_plain fun h => h
        · exact looks_commitReply
      · exact fun g₂ e hr => settles_plain (hr.2 e rfl)
  · exact fun g₁ e hr => settles_plain (hr.2 e rfl)

/-- A request that commits succeeds only after the move; one that is refused has been
warned. -/
def Answers (job : UploadJob) (mode : WriteMode) (g : Look) (r : Except ApiError Reply) : Prop :=
  (∀ file, r = .ok (.created file) → job.Commits → g.moved = true) ∧
    Warned ApiError.Refuses mode g r

theorem answers_plain {job : UploadJob} {e : ApiError} (he : ¬ e.Refuses) :
    Answers job mode g (.error e) := ⟨fun _ h => (nomatch h), warned_plain he⟩

theorem looks_serveSession {job : UploadJob} {key : SessionKey} {base : Nat}
    (hkey : job.session = some key) :
    S.Looks mode (serveSession S.srv job key base (S.sink file mode)) (Answers job mode) g := by
  unfold serveSession
  split
  · apply tracked_orElse_then (still_receivedRanges mode g)
    · intro g₁ ranges _
      exact tracked_ret ⟨fun _ h => (nomatch h), warned_ok⟩
    · exact fun g₁ e hr => answers_plain (hr.2 e rfl)
  · apply tracked_attempt_then (still_streamBody (fun count data => still_writeAtBatch) mode g)
    intro g₁ r hr
    cases r with
    | error e =>
        dsimp only
        split
        · exact tracked_fail (answers_plain (hr.2 e rfl))
        · exact looks_abortWith fun g => answers_plain (hr.2 e rfl)
    | ok count =>
        dsimp only
        split
        · apply looks_finishSession.mono
          intro g₂ r hr'
          exact ⟨fun file h _ => hr'.1 _ h, hr'.2⟩
        · next hfinal =>
            apply tracked_ret
            refine ⟨?_, warned_ok⟩
            intro _ _ hcommits
            exact absurd (hcommits key hkey).1 hfinal

/-- **The code of a request looks and moves as its own mode has it.** -/
theorem looks_runUpload {job : UploadJob} (hhas : S.Has job) :
    S.Looks (createMode job.offsetHdr) (runUpload S.srv job) (Answers job (createMode job.offsetHdr))
      Look.first := by
  obtain ⟨hpath, probe, hkey⟩ := hhas
  unfold runUpload
  rw [hkey]
  unfold uploadSession
  rw [hpath]
  have hbase : S.Looks (createMode job.offsetHdr) (lift (baseOffset job.offsetHdr))
      (fun _ r => ∀ e, r = .error e → PlainApi e) Look.first := by
    apply tracked_lift
    intro e he
    cases hoff : job.offsetHdr with
    | none =>
        rw [hoff] at he
        cases he
    | some off =>
        rw [hoff] at he
        simp only [baseOffset] at he
        split at he
        · cases he
        · cases he
          exact fun h => h
  apply tracked_then hbase
  · intro g base _
    apply tracked_orElse_then looks_writeStreamSession
    · intro g₁ sink hr
      obtain ⟨file, rfl⟩ := hr.1 sink rfl
      exact looks_serveSession hkey
    · intro g₁ e hr
      refine ⟨fun _ h => (nomatch h), ?_⟩
      intro e' heq hrefuses
      cases heq
      exact hr.2 e rfl hrefuses
  · exact fun g e hr => answers_plain (hr e rfl)

end Looking

end Session

end Libfw

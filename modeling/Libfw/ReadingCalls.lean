import Libfw.SubjectIsolation

/-!
# The calls of a request that reads

Which calls a handler makes, whatever it is answered; and those of the storage's reading
functions: `checked_path`, `file_meta` and `read_stream` of `libfw-server/src/storage.rs`.

* `asks_then` and the other rules — along a handler.
* `asks_fileMeta`, `asks_readStream`, `asks_readPieces` — a file is looked at, opened and read.
-/

namespace Libfw

open SteppedPrograms SoloPrograms Handler PosixStore

namespace Handler

/-- Every call of the handler satisfies `P`, and a result of it `Q`. -/
def Asks {ε α : Type} (P : ServerOp → Prop) (x : Handler ε α) (Q : α → Prop) : Prop :=
  x.Along P fun r => ∀ a, r = .ok a → Q a

section Rules

variable {P : ServerOp → Prop} {ε ε' α β : Type}

theorem asks_ret {a : α} {Q : α → Prop} (h : Q a) : Asks P (ret a : Handler ε α) Q := by
  intro b hb
  cases hb
  exact h

theorem asks_fail {e : ε} {Q : α → Prop} : Asks P (fail e) Q := by
  intro b hb
  cases hb

theorem asks_then {x : Handler ε α} {f : α → Handler ε β} {R : α → Prop} {Q : β → Prop}
    (hx : Asks P x R) (hf : ∀ a, R a → Asks P (f a) Q) : Asks P (x >>= f) Q := by
  apply (Prog.along_bind _ _).2
  apply Prog.Along.mono hx fun _ => id
  intro r hr
  cases r with
  | ok a => exact hf a (hr a rfl)
  | error e =>
      intro b hb
      cases hb

theorem asks_lift {r : Except ε α} {Q : α → Prop} (h : ∀ a, r = .ok a → Q a) :
    Asks P (lift r) Q := by
  cases r with
  | ok a => exact asks_ret (h a rfl)
  | error e => exact asks_fail

theorem asks_orElse {f : ε → ε'} {x : Handler ε α} {Q : α → Prop} (hx : Asks P x Q) :
    Asks P (orElse f x) Q := by
  apply (Prog.along_bind _ _).2
  apply Prog.Along.mono hx fun _ => id
  intro r hr
  apply asks_lift
  intro a ha
  cases r with
  | ok b =>
      cases ha
      exact hr a rfl
  | error e => cases ha

theorem asks_attempt {x : Handler ε α} {Q : α → Prop} (hx : Asks P x Q) :
    Asks P (attempt x : Handler ε' (Except ε α)) fun _ => True := by
  apply (Prog.along_bind _ _).2
  apply Prog.Along.mono hx fun _ => id
  intro r _ b _
  trivial

theorem asks_ask {op : Op} (h : P (.store (op, Held.nothing))) :
    Asks P (ask op : Handler ε op.Ans) fun _ => True := ⟨h, fun _ _ _ => trivial⟩

end Rules

/-! ### The calls of a path that is only read -/

/-- The calls that open and read the file of a real path satisfy `P`. -/
structure AllowsOpening (P : ServerOp → Prop) (root : FsPath) (path : Text) : Prop where
  opening : ∀ full, resolve root path = .ok full →
    ∀ op ∈ [Op.checkSymlinks full, Op.openExisting full], P (.store (op, Held.nothing))
  pieces : ∀ file pos len, P (.read file pos len)

/-- And so does the look at its metadata. -/
structure AllowsReading (P : ServerOp → Prop) (root : FsPath) (path : Text) : Prop extends
    AllowsOpening P root path where
  look : ∀ full, resolve root path = .ok full → P (.store (.metadata full, Held.nothing))

section Storage

variable {P : ServerOp → Prop} {root : FsPath} {path : Text}

theorem asks_checkedPath (hP : AllowsOpening P root path) :
    Asks P (FsStorage.checkedPath root path) fun full => resolve root path = .ok full := by
  unfold FsStorage.checkedPath
  have hresolved : Asks P (lift ((resolve root path).mapError StorageError.unsupported))
      fun full => resolve root path = .ok full := by
    apply asks_lift
    intro full h
    cases hres : resolve root path with
    | error e =>
        rw [hres] at h
        cases h
    | ok p =>
        rw [hres] at h
        cases h
        rfl
  apply asks_then hresolved
  intro full hfull
  apply asks_then (asks_ask (hP.opening full hfull _ (by simp)))
  intro r _
  apply asks_then (R := fun _ => True) (asks_lift fun _ _ => trivial)
  intro _ _
  exact asks_ret hfull

theorem asks_fileMeta (hP : AllowsReading P root path) (etag : Nat → Nat → Text) :
    Asks P (FsStorage.fileMeta root etag path) fun _ => True := by
  unfold FsStorage.fileMeta
  apply asks_then (asks_checkedPath hP.toAllowsOpening)
  intro full hfull
  apply asks_then (asks_ask (hP.look full hfull))
  intro r _
  cases r with
  | error e =>
      dsimp only
      split
      · exact asks_ret trivial
      · exact asks_fail
  | ok stat =>
      dsimp only
      split
      · exact asks_fail
      · exact asks_ret trivial

theorem asks_readStream (hP : AllowsOpening P root path) :
    Asks P (FsStorage.readStream root path) fun _ => True := by
  unfold FsStorage.readStream
  apply asks_then (asks_checkedPath hP)
  intro full hfull
  apply asks_then (asks_ask (hP.opening full hfull _ (by simp)))
  intro r _
  exact asks_lift fun _ _ => trivial

theorem asks_readPieces (hP : ∀ file pos len, P (.read file pos len)) (file : Nat) :
    ∀ fuel pos left : Nat, Asks P (readPieces file fuel pos left) fun _ => True
  | 0, _, _ => asks_ret trivial
  | fuel + 1, pos, left => by
      unfold readPieces
      split
      · exact asks_ret trivial
      · refine ⟨hP file pos _, ?_⟩
        intro a
        cases a with
        | error e => exact asks_fail
        | ok piece =>
            cases piece with
            | nil => exact asks_ret trivial
            | cons b rest =>
                apply asks_then (asks_readPieces hP file fuel _ _)
                intro more _
                exact asks_ret trivial

end Storage

end Handler

end Libfw

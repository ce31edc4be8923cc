import Mathlib.Data.List.Basic
import Mathlib.Data.List.Forall2

/-!
# Reading frames off a stream

A reader looks at the front of what has arrived and either takes a frame of some
length, waits for more, or gives up.  Frames are decoded one by one.  The only
thing asked of it is that it never changes its mind: once it has decided, more
input at the end does not alter the decision.

* `read_append` — reading in two goes is reading at once, so that a reader who
  keeps the remainder may be fed any pieces.
* `read_flatten` — a stream made of frames is read to what they hold.
-/

namespace FramedStreams

/-- What the front of a stream is. -/
inductive Front where
  | frame (len : Nat)
  | waits
  | bad
  deriving DecidableEq

/-- A way of cutting a stream of `α` into frames that decode to `β`s. -/
structure Reader (α β ε : Type) where
  front : List α → Front
  decode : List α → Except ε (List β)
  /-- The error of a front that is no frame. -/
  notFrame : ε
  frame_pos : ∀ {bs n}, front bs = .frame n → 0 < n
  frame_le : ∀ {bs n}, front bs = .frame n → n ≤ bs.length
  /-- A decision is not revised. -/
  stable : ∀ {bs} more, front bs ≠ .waits → front (bs ++ more) = front bs

/-- Where reading stops: at a remainder that needs more, or at an error. -/
inductive Stop (α ε : Type) where
  | needs (rest : List α)
  | failed (e : ε)

variable {α β ε : Type}

namespace Reader

/-- Read as many frames as there are. -/
def read (r : Reader α β ε) (bs : List α) : List β × Stop α ε :=
  match _hfront : r.front bs with
  | .waits => ([], .needs bs)
  | .bad => ([], .failed r.notFrame)
  | .frame n =>
      match r.decode (bs.take n) with
      | .error e => ([], .failed e)
      | .ok out =>
          let (more, stop) := r.read (bs.drop n)
          (out ++ more, stop)
termination_by bs.length
decreasing_by
  have hpos := r.frame_pos _hfront
  have hle := r.frame_le _hfront
  rw [List.length_drop]
  omega

variable {r : Reader α β ε} {bs : List α}

theorem read_of_waits (h : r.front bs = .waits) : r.read bs = ([], .needs bs) := by
  rw [read]
  split
  · rfl
  · next hbad => rw [h] at hbad; cases hbad
  · next hframe => rw [h] at hframe; cases hframe

theorem read_of_bad (h : r.front bs = .bad) : r.read bs = ([], .failed r.notFrame) := by
  rw [read]
  split
  · next hwaits => rw [h] at hwaits; cases hwaits
  · rfl
  · next hframe => rw [h] at hframe; cases hframe

theorem read_of_frame {n : Nat} (h : r.front bs = .frame n) :
    r.read bs = match r.decode (bs.take n) with
      | .error e => ([], .failed e)
      | .ok out => (out ++ (r.read (bs.drop n)).1, (r.read (bs.drop n)).2) := by
  rw [read]
  split
  · next hwaits => rw [h] at hwaits; cases hwaits
  · next hbad => rw [h] at hbad; cases hbad
  · next m hframe =>
      rw [h] at hframe
      cases hframe
      rfl

/-- Reading goes on from where it stopped. -/
def resume (r : Reader α β ε) (more : List α) : List β × Stop α ε → List β × Stop α ε
  | (out, .failed e) => (out, .failed e)
  | (out, .needs rest) => (out ++ (r.read (rest ++ more)).1, (r.read (rest ++ more)).2)

/-- **Reading in two goes is reading at once.** -/
theorem read_append (r : Reader α β ε) (bs more : List α) :
    r.read (bs ++ more) = r.resume more (r.read bs) := by
  induction hlen : bs.length using Nat.strongRecOn generalizing bs with
  | _ len ih =>
      subst hlen
      cases hfront : r.front bs with
      | waits =>
          rw [read_of_waits hfront]
          rfl
      | bad =>
          have hmore : r.front (bs ++ more) = .bad := by
            rw [r.stable more (by rw [hfront]; exact Front.noConfusion), hfront]
          rw [read_of_bad hfront, read_of_bad hmore]
          rfl
      | frame n =>
          have hpos := r.frame_pos hfront
          have hle := r.frame_le hfront
          have hmore : r.front (bs ++ more) = .frame n := by
            rw [r.stable more (by rw [hfront]; exact Front.noConfusion), hfront]
          have htake : (bs ++ more).take n = bs.take n := List.take_append_of_le_length hle
          have hdrop : (bs ++ more).drop n = bs.drop n ++ more :=
            List.drop_append_of_le_length hle
          rw [read_of_frame hfront, read_of_frame hmore, htake, hdrop]
          cases hdecode : r.decode (bs.take n) with
          | error e => rfl
          | ok first =>
              have hrest := ih _ (by rw [List.length_drop]; omega) (bs.drop n) rfl
              dsimp only
              rw [hrest]
              cases hstop : r.read (bs.drop n) with
              | mk out stop =>
                  cases stop with
                  | failed e => rfl
                  | needs rest =>
                      unfold resume
                      dsimp only
                      rw [List.append_assoc]

/-! ## Streams made of frames -/

/-- The frame is taken off any stream that begins with it, and holds `out`. -/
structure Takes (r : Reader α β ε) (frame : List α) (out : List β) : Prop where
  front : ∀ more, r.front (frame ++ more) = .frame frame.length
  decode : r.decode frame = .ok out

/-- **Frames one after the other are read to what they hold.** -/
theorem read_flatten {frames : List (List α)} {outs : List (List β)}
    (hempty : r.front [] = .waits) (h : List.Forall₂ r.Takes frames outs) :
    r.read frames.flatten = (outs.flatten, .needs []) := by
  induction h with
  | nil => exact read_of_waits hempty
  | cons hframe _ ih =>
      rw [List.flatten_cons, read_of_frame (hframe.front _), List.take_left, hframe.decode,
        List.drop_left]
      dsimp only
      rw [ih, List.flatten_cons]

end Reader

end FramedStreams

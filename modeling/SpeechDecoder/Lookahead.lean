import SpeechDecoder.Graph.State

/-!
# Lookahead

The fast match runs some frames ahead of the search.  In every frame it records the best score of
each phone and of all phones (`Evidence`).  The window holds the records of the next frames, and the
penalty of a phone is its best standing in the window: its score relative to the best phone of the
frame, at most zero, and impossible if the phone was not seen.

`PenaltyMemo` computes the penalty of a phone once per frame.
-/

namespace SpeechDecoder

/-- **The best scores of one frame.** -/
structure Evidence where
  frame : Nat
  /-- The best score of every phone of the inventory. -/
  scores : Array Score
  /-- The best score of all phones. -/
  best : Score
  deriving DecidableEq

namespace Evidence

/-- A frame in which no phone was seen. -/
def blank (frame phones : Nat) : Evidence :=
  ⟨frame, Array.replicate phones .impossible, .impossible⟩

variable (e : Evidence)

/-- **Records a score of a phone.**  A phone outside the inventory is passed over. -/
def observe (p : Nat) (score : Score) : Evidence :=
  match e.scores[p]? with
  | none => e
  | some known =>
    { e with
      scores := if known < score then e.scores.setIfInBounds p score else e.scores
      best := if e.best < score then score else e.best }

/-- The best score of a phone. -/
def score (p : Nat) : Score := e.scores[p]?.getD .impossible

/-- **The standing of a phone** among the phones of the frame. -/
def relative (p : Nat) : Score :=
  if e.score p == .impossible then .impossible else e.score p - e.best

end Evidence

/-- **The records of the next frames,** the oldest first. -/
abbrev Window := List Evidence

namespace Window

/-- **The penalty of a phone:** its best standing in the window. -/
def penalty (w : Window) (p : Nat) : Score :=
  Score.greatest (w.map fun e => e.relative p)

/-- The window without its oldest record. -/
def dropOldest (w : Window) : Window := w.drop 1

/-- The frames of the records. -/
def frames (w : Window) : List Nat := w.map Evidence.frame

end Window

/-- **The penalties known in a frame.** -/
structure PenaltyMemo where
  known : List (Nat × Score)
  /-- How many penalties were computed. -/
  computations : Nat
  deriving DecidableEq

namespace PenaltyMemo

/-- Nothing known, nothing computed. -/
def empty : PenaltyMemo := ⟨[], 0⟩

variable (m : PenaltyMemo)

/-- The penalty of a phone if it is known. -/
def cached (p : Nat) : Option Score := m.known.lookup p

/-- **The penalty of a phone,** computed from the window if it is not known yet. -/
def ask (w : Window) (p : Nat) : Score × PenaltyMemo :=
  match m.cached p with
  | some s => (s, m)
  | none => (w.penalty p, ⟨(p, w.penalty p) :: m.known, m.computations + 1⟩)

/-- Forgets the penalties of a frame. -/
def forget : PenaltyMemo := { m with known := [] }

/-- Counts from zero again. -/
def resetCount : PenaltyMemo := { m with computations := 0 }

end PenaltyMemo

end SpeechDecoder

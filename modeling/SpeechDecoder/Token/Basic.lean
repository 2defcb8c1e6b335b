import SpeechDecoder.Graph.State

/-!
# Tokens

A token is a hypothesis that has reached a state in a frame: its score is that of the best path
found so far, and its predecessor is the token which that path came through.  A token that is
reached again by a better path is rerouted in place (`Token.rerouted`).
-/

namespace SpeechDecoder

/-- **A hypothesis.** -/
structure Token where
  state : Nat
  kind : StateKind
  /-- The score of the best path to the token. -/
  score : Score
  /-- What the last scored frame added. -/
  acoustic : Score
  insertion : Score
  language : Score
  frame : Nat
  predecessor : Option Nat
  deriving DecidableEq

namespace Token

/-- The token that a search starts from. -/
def seed (state : Nat) (kind : StateKind) (frame : Nat) : Token :=
  ⟨state, kind, .certain, .certain, .certain, .certain, frame, none⟩

/-- The token that arrives over an arc. -/
def entering (predecessor : Option Nat) (arc : Arc) (kind : StateKind) (score : Score)
    (frame : Nat) : Token :=
  ⟨arc.target, kind, score, .certain, arc.insertion, arc.language, frame, predecessor⟩

variable (t : Token)

/-- The token after a better path reached it over an arc; state, kind and acoustic score stay. -/
def rerouted (predecessor : Option Nat) (arc : Arc) (score : Score) (frame : Nat) : Token :=
  { t with predecessor, score, insertion := arc.insertion, language := arc.language, frame }

/-- The token without its past. -/
def detached : Token := { t with predecessor := none }

/-- The token after a frame was scored. -/
def scored (acoustic : Score) : Token :=
  { t with acoustic, score := t.score + acoustic }

end Token

end SpeechDecoder

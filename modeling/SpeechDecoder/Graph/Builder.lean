import SpeechDecoder.Graph.Basic

/-!
# Building a graph step by step

A builder collects states and arcs in any order.  An arc may lead to a state that is added later,
but it must leave a state that is there: the first one that does not is remembered and reported
when the graph is built.
-/

namespace SpeechDecoder.Graph

/-- **A graph under construction.** -/
structure Builder where
  states : Array State
  initial : Option Nat
  /-- The source of the first arc that was added from an unknown state. -/
  stray : Option Nat
  deriving DecidableEq

namespace Builder

/-- Nothing yet. -/
def empty : Builder := ⟨#[], none, none⟩

variable (b : Builder)

/-- Adds a state; its number is the count of the states before it. -/
def addState (kind : StateKind) : Builder :=
  { b with states := b.states.push (.ofKind kind) }

/-- Adds an arc to a state, after those it has. -/
def addArc (source : Nat) (arc : Arc) : Builder :=
  if source < b.states.size then
    { b with states := b.states.modify source fun s => { s with arcs := s.arcs ++ [arc] } }
  else { b with stray := b.stray.or (some source) }

/-- Chooses the initial state; without a choice it is the first. -/
def setInitial (s : Nat) : Builder := { b with initial := some s }

/-- Gives a state an order of its own; an unknown state is passed over. -/
def setOrder (s : Nat) (order : Nat) : Builder :=
  { b with states := b.states.modify s fun st => { st with order } }

/-- **The graph, or its first defect.** -/
def build : Except GraphError Graph :=
  ofStates (b.initial.getD 0) b.stray b.states

end Builder

end SpeechDecoder.Graph

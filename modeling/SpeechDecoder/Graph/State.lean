import SpeechDecoder.Score

/-!
# States and arcs of a search graph

A state either emits a phone, which takes one frame of the input, or is passed within a frame.
States that emit nothing mark the structure of the graph: branches of the grammar, the ends of
phones and words, and the final states.  States, phones and words are referred to by number, counted
from zero.

* `StateKind.order` places the kinds in the order in which they may follow each other within one
  frame; `numStateOrders` is their number.
* `Arc.probability` is what a hypothesis pays for following an arc.
-/

namespace SpeechDecoder

/-- **What a state stands for.** -/
inductive StateKind where
  /-- Takes a frame as evidence of a phone. -/
  | emitting (phone : Nat)
  /-- A node of the grammar. -/
  | branch
  /-- The entry into a phone. -/
  | phoneBoundary
  /-- A word boundary, where paths of the word lattice meet. -/
  | word (word : Nat)
  /-- The exit from a phone. -/
  | endOfUnit
  /-- The end of a path. -/
  | final
  deriving DecidableEq, Repr

/-- How many orders the kinds of states have. -/
def numStateOrders : Nat := 6

namespace StateKind

def isEmitting : StateKind → Bool
  | emitting _ => true
  | _ => false

def isFinal : StateKind → Bool
  | final => true
  | _ => false

/-- The word of a word boundary. -/
def word? : StateKind → Option Nat
  | word w => some w
  | _ => none

def isWord (k : StateKind) : Bool := k.word?.isSome

/-- The phone of an emitting state. -/
def phone? : StateKind → Option Nat
  | emitting p => some p
  | _ => none

/-- **Whether the states that follow enter phones.**  The arcs that leave such a state are the ones
that the lookahead may cut. -/
def entersPhones : StateKind → Bool
  | phoneBoundary | word _ | endOfUnit => true
  | _ => false

/-- **The order of a kind:** within a frame no arc may lead to a lower order.  Emitting states hold
the highest order; the arcs that leave them are exempt. -/
def order : StateKind → Nat
  | branch => 0
  | endOfUnit => 1
  | word _ => 2
  | phoneBoundary => 3
  | final => 4
  | emitting _ => numStateOrders - 1

theorem order_lt (k : StateKind) : k.order < numStateOrders := by
  cases k <;> simp [order, numStateOrders]

theorem isEmitting_iff {k : StateKind} : k.isEmitting = true ↔ ∃ p, k.phone? = some p := by
  cases k <;> simp [isEmitting, phone?]

/-- A final state emits nothing. -/
theorem isEmitting_of_isFinal {k : StateKind} (h : k.isFinal = true) : k.isEmitting = false := by
  cases k <;> simp_all [isFinal, isEmitting]

/-- A word boundary emits nothing, and is not final. -/
theorem idle_of_isWord {k : StateKind} (h : k.isWord = true) :
    k.isEmitting = false ∧ k.isFinal = false := by
  cases k <;> simp_all [isWord, word?, isFinal, isEmitting]

theorem isWord_of_isEmitting {k : StateKind} (h : k.isEmitting = true) : k.isWord = false := by
  cases k <;> simp_all [isWord, word?, isEmitting]

end StateKind

/-- **An arc.**  It carries three log probabilities. -/
structure Arc where
  target : Nat
  acoustic : Score
  insertion : Score
  language : Score
  deriving DecidableEq

namespace Arc

/-- An arc with an acoustic score only. -/
def new (target : Nat) (acoustic : Score) : Arc :=
  ⟨target, acoustic, .certain, .certain⟩

/-- **The log probability of an arc,** summed from left to right. -/
def probability (a : Arc) : Score :=
  a.acoustic + a.insertion + a.language

end Arc

/-- **A state of a graph:** its kind, its order and its arcs. -/
structure State where
  kind : StateKind
  order : Nat
  arcs : List Arc
  deriving DecidableEq

namespace State

/-- A state without arcs, in the order of its kind. -/
def ofKind (kind : StateKind) : State := ⟨kind, kind.order, []⟩

/-- The order of a state if it is not the order of its kind. -/
def override (s : State) : Option Nat :=
  if s.order = s.kind.order then none else some s.order

end State

end SpeechDecoder

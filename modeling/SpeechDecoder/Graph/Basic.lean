import SpeechDecoder.Graph.State
import SpeechDecoder.Decimal.Layout

/-!
# Search graphs

A search graph is a numbered list of states with an initial one, such that every arc leads to a
state of the graph and no arc raises a score.  `Graph.ofStates` builds one from its states or names
the first defect; `Graph.Description` is the form in which graphs are written down.

* `State.defect?` finds the first defective arc of a state: an unknown target before a positive
  probability.
* `ofStates_eq_ok_iff` says that exactly the graphs without a defect are built.
* `describe` gives the description of a graph and `ofDescription` the graph of a description.
-/

namespace SpeechDecoder

/-- **Why a graph is refused.** -/
inductive GraphError where
  | noStates
  | unknownInitial (state : Nat)
  | unknownSource (state : Nat)
  | unknownTarget (source target : Nat)
  | positiveProbability (source target : Nat) (probability : Score)
  deriving DecidableEq

namespace GraphError

/-- How a state is named in a message. -/
def stateName (s : Nat) : String := "StateId(" ++ toString s ++ ")"

/-- Scores in messages: never an exponent, and no fraction for a whole number. -/
def scoreLayout : Decimal.Layout := ⟨none, false, .upward⟩

/-- A positive score in a message. -/
def scoreText (x : Score) : String :=
  match scoreLayout.numeral? x with
  | some n => String.ofList n.text
  | none => "inf"

/-- **The message of an error.** -/
def message : GraphError → String
  | noStates => "graph has no states"
  | unknownInitial s => "initial state " ++ stateName s ++ " does not exist"
  | unknownSource s => "arc added from unknown state " ++ stateName s
  | unknownTarget s t => "arc from " ++ stateName s ++ " targets unknown state " ++ stateName t
  | positiveProbability s t p =>
    "arc from " ++ stateName s ++ " to " ++ stateName t ++ " has positive log probability " ++
      scoreText p

end GraphError

namespace State

/-- Every arc leads to one of `count` states, and none has a positive probability. -/
def Sound (count : Nat) (s : State) : Prop :=
  ∀ a ∈ s.arcs, a.target < count ∧ ¬ Score.certain < a.probability

/-- **The first defect of the state with number `source`** in a graph of `count` states. -/
def defect? (count : Nat) (source : Nat) (s : State) : Option GraphError :=
  match s.arcs.find? fun a => decide (count ≤ a.target) with
  | some a => some (.unknownTarget source a.target)
  | none =>
    match s.arcs.find? fun a => decide (Score.certain < a.probability) with
    | some a => some (.positiveProbability source a.target a.probability)
    | none => none

theorem defect?_eq_none_iff {count source : Nat} {s : State} :
    s.defect? count source = none ↔ s.Sound count := by
  unfold defect? Sound
  split
  · next a h =>
    have hm := List.mem_of_find?_eq_some h
    have ht := List.find?_some h
    simp only [decide_eq_true_eq] at ht
    exact iff_of_false (by simp) fun hall => Nat.not_lt.2 ht (hall a hm).1
  · next h =>
    rw [List.find?_eq_none] at h
    simp only [decide_eq_true_eq, Nat.not_le] at h
    split
    · next a ha =>
      have hm := List.mem_of_find?_eq_some ha
      have hp := List.find?_some ha
      simp only [decide_eq_true_eq] at hp
      exact iff_of_false (by simp) fun hall => (hall a hm).2 hp
    · next hp =>
      rw [List.find?_eq_none] at hp
      simp only [decide_eq_true_eq] at hp
      exact iff_of_true rfl fun a ha => ⟨h a ha, hp a ha⟩

end State

/-- **A search graph.** -/
@[ext] structure Graph where
  initial : Nat
  states : Array State
  initial_lt : initial < states.size
  sound : ∀ s ∈ states.toList, s.Sound states.size

namespace Graph

/-- The first defect of a numbered list of states. -/
def firstDefect? (states : Array State) : Option GraphError :=
  states.toList.zipIdx.findSome? fun (s, i) => s.defect? states.size i

theorem firstDefect?_eq_none_iff {states : Array State} :
    firstDefect? states = none ↔ ∀ s ∈ states.toList, s.Sound states.size := by
  unfold firstDefect?
  rw [List.findSome?_eq_none_iff]
  constructor
  · intro h s hs
    obtain ⟨i, hi, rfl⟩ := List.mem_iff_getElem.1 hs
    have := h (states.toList[i], i) (by
      rw [List.mem_zipIdx_iff_getElem?]
      simp [List.getElem?_eq_getElem hi])
    exact State.defect?_eq_none_iff.1 this
  · rintro h ⟨s, i⟩ hm
    rw [List.mem_zipIdx_iff_getElem?] at hm
    exact State.defect?_eq_none_iff.2 (h s (List.mem_of_getElem? hm))

/-- **The graph of some states,** or its first defect.  `stray` is the source of the first arc that
was added from a state which did not exist. -/
def ofStates (initial : Nat) (stray : Option Nat) (states : Array State) :
    Except GraphError Graph :=
  if states.isEmpty then .error .noStates
  else if hi : initial < states.size then
    match stray with
    | some source => .error (.unknownSource source)
    | none =>
      match hd : firstDefect? states with
      | some defect => .error defect
      | none => .ok ⟨initial, states, hi, firstDefect?_eq_none_iff.1 hd⟩
  else .error (.unknownInitial initial)

/-- A graph is built exactly from states without a defect, and keeps them. -/
theorem ofStates_eq_ok_iff {initial : Nat} {stray : Option Nat} {states : Array State}
    {g : Graph} : ofStates initial stray states = .ok g ↔
      g.initial = initial ∧ g.states = states ∧ stray = none := by
  unfold ofStates
  constructor
  · intro h
    split at h
    · cases h
    · split at h
      · split at h
        · cases h
        · split at h
          · cases h
          · cases h
            exact ⟨rfl, rfl, rfl⟩
      · cases h
  · rintro ⟨rfl, rfl, rfl⟩
    have hne : g.states.isEmpty = false := by
      rw [Array.isEmpty_eq_false_iff]
      intro h
      have := g.initial_lt
      simp [h] at this
    simp only [hne, Bool.false_eq_true, if_false, g.initial_lt, dite_true]
    split
    · next d hd =>
      rw [firstDefect?_eq_none_iff.2 g.sound] at hd
      cases hd
    · rfl

variable (g : Graph)

/-- The number of states. -/
def size : Nat := g.states.size

/-- The state with a number. -/
def state? (s : Nat) : Option State := g.states[s]?

/-- The number of arcs. -/
def arcCount : Nat := g.states.toList.foldr (fun s n => s.arcs.length + n) 0

/-- **The size of the phone inventory:** one more than the greatest phone of the graph. -/
def phoneCount : Nat :=
  (g.states.toList.filterMap fun s => s.kind.phone?).foldl (fun n p => max n (p + 1)) 0

/-- The same graph, every state in the order of its kind. -/
def withKindOrders : Graph where
  initial := g.initial
  states := g.states.map fun s => { s with order := s.kind.order }
  initial_lt := by simpa using g.initial_lt
  sound := by
    intro s hs
    simp only [Array.toList_map, List.mem_map] at hs
    obtain ⟨t, ht, rfl⟩ := hs
    simpa [State.Sound] using g.sound t ht

/-! ## Descriptions -/

/-- **A described state;** its order is named only where it is not that of its kind. -/
structure StateDescription where
  kind : StateKind
  order : Option Nat
  arcs : List Arc
  deriving DecidableEq

/-- **A described graph.** -/
structure Description where
  initial : Nat
  states : List StateDescription
  deriving DecidableEq

/-- The state that is described. -/
def StateDescription.state (d : StateDescription) : State :=
  ⟨d.kind, d.order.getD d.kind.order, d.arcs⟩

/-- The graph that is described. -/
def ofDescription (d : Description) : Except GraphError Graph :=
  ofStates d.initial none (d.states.map StateDescription.state).toArray

/-- **The description of a graph.** -/
def describe : Description where
  initial := g.initial
  states := g.states.toList.map fun s => ⟨s.kind, s.override, s.arcs⟩

end Graph

end SpeechDecoder

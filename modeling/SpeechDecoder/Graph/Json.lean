import SpeechDecoder.Graph.Basic
import SpeechDecoder.Json.Fields
import SpeechDecoder.Json.Reader

/-!
# Graphs as JSON

The JSON form of a graph is its description: the initial state and the list of states, each with its
kind, its order if that is not the order of the kind, and its arcs.  `Description.ofJson?` reads a
description and `Description.toJson` writes one; scores that are not finite are written as null.
-/

namespace SpeechDecoder.Graph

open SpeechDecoder (Json)
open Decimal (Layout)

/-- The bound of state numbers, orders and words. -/
def wordBound : Nat := UInt32.size

/-- The bound of phones. -/
def phoneBound : Nat := UInt16.size

namespace Description

/-! ## Reading -/

/-- A kind that emits nothing. -/
def nonEmittingOfJson? (v : Json) : Option StateKind := do
  match ← v.case? with
  | ("branch", content) => (Json.noContent? content).map fun _ => .branch
  | ("phone_boundary", content) => (Json.noContent? content).map fun _ => .phoneBoundary
  | ("end_of_unit", content) => (Json.noContent? content).map fun _ => .endOfUnit
  | ("word", some w) => (w.natBelow? wordBound).map .word
  | _ => none

/-- **A kind.** -/
def kindOfJson? (v : Json) : Option StateKind := do
  match ← v.case? with
  | ("final", content) => (Json.noContent? content).map fun _ => .final
  | ("non_emitting", some content) => nonEmittingOfJson? content
  | ("emitting", some content) =>
    match ← content.fields? ["phone"] with
    | [some p] => (p.natBelow? phoneBound).map .emitting
    | _ => none
  | _ => none

/-- A score that is certain if it is left out. -/
def scoreOfJson? : Option Json → Option Score
  | none => some .certain
  | some v => v.score?

/-- **An arc.** -/
def arcOfJson? (v : Json) : Option Arc := do
  match ← v.fields? ["target", "acoustic", "insertion", "language"] with
  | [some target, acoustic, insertion, language] =>
    return ⟨← target.natBelow? wordBound, ← scoreOfJson? acoustic, ← scoreOfJson? insertion,
      ← scoreOfJson? language⟩
  | _ => none

/-- An order, which may be left out or null. -/
def orderOfJson? : Option Json → Option (Option Nat)
  | none | some .null => some none
  | some v => (v.natBelow? wordBound).map some

/-- The arcs of a state, which may be left out. -/
def arcsOfJson? : Option Json → Option (List Arc)
  | none => some []
  | some v => do (← v.items?).mapM arcOfJson?

/-- **A state.** -/
def stateOfJson? (v : Json) : Option StateDescription := do
  match ← v.fields? ["kind", "order", "arcs"] with
  | [some kind, order, arcs] =>
    return ⟨← kindOfJson? kind, ← orderOfJson? order, ← arcsOfJson? arcs⟩
  | _ => none

/-- **A description,** if the value is one. -/
def ofJson? (v : Json) : Option Description := do
  match ← v.fields? ["initial", "states"] with
  | [some initial, some states] =>
    return ⟨← initial.natBelow? wordBound, ← (← states.items?).mapM stateOfJson?⟩
  | _ => none

/-! ## Writing -/

/-- Scores in files: positional from a millionth up to ten trillions. -/
def scoreLayout : Layout := ⟨some (-6, 12), true, .toEven⟩

/-- A score; null if it is not finite. -/
def scoreToJson (x : Score) : Json :=
  match scoreLayout.numeral? x with
  | some n => .number n
  | none => .null

/-- The value of a kind. -/
def kindToJson : StateKind → Json
  | .emitting p => .record [("emitting", .record [("phone", .int p)])]
  | .branch => .record [("non_emitting", .text "branch")]
  | .phoneBoundary => .record [("non_emitting", .text "phone_boundary")]
  | .word w => .record [("non_emitting", .record [("word", .int w)])]
  | .endOfUnit => .record [("non_emitting", .text "end_of_unit")]
  | .final => .text "final"

/-- The value of an arc. -/
def arcToJson (a : Arc) : Json :=
  .record [("target", .int a.target), ("acoustic", scoreToJson a.acoustic),
    ("insertion", scoreToJson a.insertion), ("language", scoreToJson a.language)]

/-- The value of a state; an order that is not named is left out. -/
def stateToJson (s : StateDescription) : Json :=
  let order := match s.order with
    | none => []
    | some o => [("order", Json.int o)]
  .record ([("kind", kindToJson s.kind)] ++ order ++ [("arcs", .array (s.arcs.map arcToJson))])

/-- **The value of a description.** -/
def toJson (d : Description) : Json :=
  .record [("initial", .int d.initial), ("states", .array (d.states.map stateToJson))]

end Description

end SpeechDecoder.Graph

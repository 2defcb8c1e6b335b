import SpeechDecoder.Graph.Json
import SpeechDecoder.Toml.Fields

/-!
# Graphs as TOML

The TOML form of a graph has the same fields as its JSON form: `initial`, and `states` with `kind`,
`order` and `arcs`.  `Description.ofToml?` reads a description.
-/

namespace SpeechDecoder.Graph.Description

open SpeechDecoder (Toml)

/-- A kind that emits nothing. -/
def nonEmittingOfToml? (v : Toml) : Option StateKind := do
  match ← v.case? with
  | ("branch", content) => (Toml.noContent? content).map fun _ => .branch
  | ("phone_boundary", content) => (Toml.noContent? content).map fun _ => .phoneBoundary
  | ("end_of_unit", content) => (Toml.noContent? content).map fun _ => .endOfUnit
  | ("word", some w) => (w.natBelow? wordBound).map .word
  | _ => none

/-- **A kind.** -/
def kindOfToml? (v : Toml) : Option StateKind := do
  match ← v.case? with
  | ("final", content) => (Toml.noContent? content).map fun _ => .final
  | ("non_emitting", some content) => nonEmittingOfToml? content
  | ("emitting", some content) =>
    match ← content.exactFields? ["phone"] with
    | [some p] => (p.natBelow? phoneBound).map .emitting
    | _ => none
  | _ => none

/-- A score that is certain if it is left out. -/
def scoreOfToml? : Option Toml → Option Score
  | none => some .certain
  | some v => v.score?

/-- **An arc.** -/
def arcOfToml? (v : Toml) : Option Arc := do
  match ← v.fields? ["target", "acoustic", "insertion", "language"] with
  | [some target, acoustic, insertion, language] =>
    return ⟨← target.natBelow? wordBound, ← scoreOfToml? acoustic, ← scoreOfToml? insertion,
      ← scoreOfToml? language⟩
  | _ => none

/-- An order, which may be left out. -/
def orderOfToml? : Option Toml → Option (Option Nat)
  | none => some none
  | some v => (v.natBelow? wordBound).map some

/-- The arcs of a state, which may be left out. -/
def arcsOfToml? : Option Toml → Option (List Arc)
  | none => some []
  | some v => do (← v.items?).mapM arcOfToml?

/-- **A state.** -/
def stateOfToml? (v : Toml) : Option StateDescription := do
  match ← v.fields? ["kind", "order", "arcs"] with
  | [some kind, order, arcs] =>
    return ⟨← kindOfToml? kind, ← orderOfToml? order, ← arcsOfToml? arcs⟩
  | _ => none

/-- **A description,** if the value is one. -/
def ofToml? (v : Toml) : Option Description := do
  match ← v.fields? ["initial", "states"] with
  | [some initial, some states] =>
    return ⟨← initial.natBelow? wordBound, ← (← states.items?).mapM stateOfToml?⟩
  | _ => none

end SpeechDecoder.Graph.Description

import SpeechDecoder.Acoustics
import SpeechDecoder.Expansion.Basic
import SpeechDecoder.Settings.Basic

/-!
# The fast match

The fast match is a small search, mostly a loop of phones, that runs some frames ahead of the main
search.  For every frame it records the evidence of the tokens that it expands.  Its paths are never
read, so after every frame it keeps the tokens of its beam only.

* `reset` starts an utterance and runs as many frames ahead as the window has room for.
* `step` goes one frame further, and does nothing once the input has ended.
-/

namespace SpeechDecoder

/-- **What one pass of a search works on.** -/
structure Pass where
  graph : Graph
  source : AcousticSource
  pruner : Pruner
  widths : BeamWidths

namespace Pass

/-- The token that an utterance starts from. -/
def seed (p : Pass) : Except SearchError Token :=
  match p.graph.state? p.graph.initial with
  | some s => .ok (.seed p.graph.initial s.kind 0)
  | none => .error (.dangling (.state p.graph.initial))

/-- The beam of a start: token 0, with score zero. -/
def seedBeam (p : Pass) : Beam := (Beam.empty p.widths).push 0 .certain

end Pass

/-- **A search that runs ahead.** -/
structure FastMatch where
  pass : Pass
  /-- How many frames it runs ahead. -/
  windowSize : Nat
  store : Store
  beam : Beam
  window : Window
  /-- The frame of the newest record. -/
  frame : Nat
  ended : Bool
  /-- The steps of the utterance, with the one that found the end. -/
  steps : Nat

namespace FastMatch

/-- A fast match that waits for its first utterance. -/
def new (windowSize : Nat) (pass : Pass) : Except SettingsError FastMatch := do
  checkWindow windowSize
  return ⟨pass, windowSize, .empty, .empty pass.widths, [], 0, false, 0⟩

variable (f : FastMatch)

/-- How the fast match grows: no order is checked and nothing is cut but by the beam. -/
def growth : Growth where
  graph := f.pass.graph
  frame := f.frame
  keepAllTokens := true
  checkStateOrder := false
  wordMargin := .impossible
  phoneCut := none
  buildLattice := false

/-- Records what a token says about its phone. -/
def observeToken (a : Store) (e : Evidence) (id : Nat) : Evidence :=
  match a.get? id with
  | none => e
  | some t =>
    match t.kind.phone? with
    | none => e
    | some p => e.observe p t.score

/-- **The evidence of some tokens** in a frame. -/
def evidence (seeds : List Nat) : Evidence :=
  seeds.foldl (observeToken f.store) (.blank f.frame f.pass.graph.phoneCount)

/-- **Only the tokens of a beam,** numbered in the order of the beam. -/
def compact (a : Store) (b : Beam) : Except Fault (Store × Beam) := do
  let a' ← a.retain b.tokens
  return (a', (List.range a'.size).foldl (fun b id => b.push id (a'.score id)) (.empty b.widths))

/-- **Grows a frame:** records the evidence of the tokens that are expanded, and expands them. -/
def grow : Except SearchError FastMatch := do
  let seeds ← (f.beam.seeds f.store .certain).mapError .dangling
  let e := Expansion.start f.store (.empty f.pass.widths) (.empty 0) .empty
  let e' ← (e.run f.growth seeds).mapError Halted.error
  let (store, beam) ← (compact e'.store e'.next).mapError .dangling
  return { f with store, beam, window := f.window ++ [f.evidence seeds] }

/-- **Goes one frame further.** -/
def step : Except SearchError FastMatch :=
  if f.ended then .ok f
  else do
    let (outcome, source, store) ←
      (f.pass.source.scoreFrame f.store f.beam.tokens).mapError .dangling
    let f' := { f with pass := { f.pass with source }, store, steps := f.steps + 1 }
    match outcome with
    | .scored _ =>
      let beam ← (f.pass.pruner store f.beam).mapError .dangling
      { f' with beam, frame := f.frame + 1 }.grow
    | _ => return { f' with ended := true }

/-- So many steps. -/
def stepMany : Nat → FastMatch → Except SearchError FastMatch
  | 0, f => .ok f
  | n + 1, f => do stepMany n (← f.step)

/-- **Starts an utterance:** records the first frame and runs ahead to fill the window. -/
def reset : Except SearchError FastMatch := do
  let seed ← f.pass.seed
  let f' ← { f with
    pass := { f.pass with source := f.pass.source.rewind }
    store := Store.empty.push seed
    beam := f.pass.seedBeam
    window := []
    frame := 0
    ended := false
    steps := 0 }.grow
  stepMany (f.windowSize - 1) f'

/-- The fast match without its oldest record. -/
def dropOldest : FastMatch := { f with window := f.window.dropOldest }

end FastMatch

end SpeechDecoder

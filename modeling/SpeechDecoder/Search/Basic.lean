import SpeechDecoder.Search.FastMatch

/-!
# The search

The search decodes an utterance frame by frame.  Before each frame the fast match goes one frame
further, so that the window holds the evidence of the frames to come.  Then the beam is scored,
pruned and grown.

* `start` begins an utterance; `recognize` decodes some frames and tells where the search stands, or
  nothing if the stream has ended.
* An error halts a call; the search goes on from the state that the call left.
-/

namespace SpeechDecoder

/-- **Counts of the current utterance.** -/
structure SearchStats where
  tokensCreated : Nat
  tokensScored : Nat
  /-- The tokens that the last grown frame created. -/
  frameTokensCreated : Nat
  penaltyComputations : Nat
  frames : Nat
  deriving DecidableEq

/-- Nothing counted. -/
def SearchStats.zero : SearchStats := ⟨0, 0, 0, 0, 0⟩

/-- **Where a search stands.** -/
structure Recognition where
  active : List Nat
  /-- The tokens on final states of the last grown frame. -/
  results : List Nat
  isFinal : Bool
  /-- The token that every path starts from. -/
  initial : Nat
  frame : Nat
  deriving DecidableEq

namespace Recognition

variable (a : Store) (r : Recognition)

/-- The best of some tokens; of equal ones the last.  A single token is the best one even if the
store does not hold it any more. -/
def bestOf (ids : List Nat) : Except Fault (Option Nat) := do
  a.check (Store.compared ids)
  return Score.bestLast a.score ids

/-- **The best token on a final state.** -/
def bestFinal : Except Fault (Option Nat) := bestOf a r.results

/-- **The best token on a final state,** or the best one of the beam if no final state is
reached. -/
def best : Except Fault (Option Nat) := do
  match ← r.bestFinal a with
  | some id => return some id
  | none => bestOf a r.active

end Recognition

/-- **A search with lookahead.** -/
structure Search where
  settings : SearchSettings
  pass : Pass
  cache : MixtureCache
  fastMatch : FastMatch
  store : Store
  beam : Beam
  results : List Nat
  lattice : Lattice
  memo : PenaltyMemo
  /-- The token on each state that the last grown frame reached. -/
  residents : List (Nat × Nat)
  initial : Option Nat
  frame : Nat
  streamEnded : Bool
  stats : SearchStats

namespace Search

/-- **A search that waits for its first utterance.**  A cache of mixture scores is asked to keep the
scores of the window and of the two frames around it. -/
def new (settings : SearchSettings) (main fastMatch : Pass) (cache : MixtureCache) :
    Except SettingsError Search := do
  settings.validate
  let fastMatch ← FastMatch.new settings.window fastMatch
  return {
    settings
    pass := main
    cache := cache.ask (.keep (settings.window + 2))
    fastMatch
    store := .empty
    beam := .empty main.widths
    results := []
    lattice := .empty settings.maxLatticeEdges
    memo := .empty
    residents := []
    initial := none
    frame := 0
    streamEnded := false
    stats := .zero }

variable (s : Search)

/-- How the search grows a frame. -/
def growth : Growth where
  graph := s.pass.graph
  frame := s.frame
  keepAllTokens := s.settings.keepAllTokens
  checkStateOrder := s.settings.checkStateOrder
  wordMargin := s.settings.wordMargin
  phoneCut :=
    if Score.certain < s.settings.penaltyWeight then
      some ⟨s.fastMatch.window, s.settings.penaltyWeight⟩
    else none
  buildLattice := s.settings.buildLattice

/-- The search after an expansion, finished or halted. -/
def absorb (e : Expansion) : Search :=
  { s with
    store := e.store
    beam := e.next
    results := e.results
    lattice := e.lattice
    memo := e.memo
    residents := e.residents }

/-- The counts after an expansion that was finished. -/
def countExpansion (e : Expansion) : SearchStats :=
  { s.stats with
    tokensCreated := s.stats.tokensCreated + e.created
    frameTokensCreated := e.created
    penaltyComputations := e.memo.computations }

/-- Halts in this state. -/
def halt {α : Type} (error : SearchError) : Except (Halted Search) α := .error ⟨error, s⟩

/-- A step that may find a fault, and then halts in this state. -/
def orHalt {α : Type} (x : Except Fault α) : Except (Halted Search) α :=
  x.mapError fun f => ⟨.dangling f, s⟩

/-- **Grows a frame:** expands the tokens of the beam that are worth it into a new beam. -/
def grow : Except (Halted Search) Search := do
  let seeds ← s.orHalt (s.beam.seeds s.store s.settings.acousticLookahead)
  match (Expansion.start s.store (.empty s.pass.widths) s.lattice s.memo).run s.growth seeds with
  | .error h => .error ⟨h.error, s.absorb h.state⟩
  | .ok e => .ok { s.absorb e with stats := s.countExpansion e }

/-- **Starts an utterance:** whatever is left of the last one is forgotten. -/
def start : Except (Halted Search) Search := do
  let s := { s with
    frame := 0
    stats := .zero
    store := .empty
    lattice := s.lattice.clear
    memo := .empty
    results := []
    streamEnded := false
    cache := s.cache.ask .clear }
  let fastMatch ← s.fastMatch.reset.mapError fun error => ⟨error, s⟩
  let seed ← s.pass.seed.mapError fun error => ⟨error, s⟩
  { s with
    fastMatch
    pass := { s.pass with source := s.pass.source.rewind }
    store := Store.empty.push seed
    beam := s.pass.seedBeam
    initial := some 0 }.grow

/-- Whether a frame is scored without being grown. -/
def skipsGrowth (frame : Nat) : Bool :=
  0 < s.settings.skipInterval && frame % s.settings.skipInterval == 0

/-- **One frame of the search:** scores, prunes and grows the beam.  The answer is whether the
utterance is done. -/
def stepFrame : Except (Halted Search) (Bool × Search) := do
  let (outcome, source, store) ← s.orHalt (s.pass.source.scoreFrame s.store s.beam.tokens)
  let scored := s.stats.tokensScored + s.beam.tokens.length
  let s := { s with
    pass := { s.pass with source }
    store
    stats := { s.stats with tokensScored := scored } }
  match outcome with
  | .exhausted => return (true, s)
  | .streamEnd => return (true, { s with streamEnded := true })
  | .scored _ =>
    let beam ← s.orHalt (s.pass.pruner s.store s.beam)
    let frame := s.frame + 1
    let s := { s with beam, frame, stats := { s.stats with frames := frame } }
    if s.skipsGrowth frame then return (false, s)
    else return (false, ← s.grow)

/-- **The lookahead of one frame:** the fast match goes one frame further, the penalties of the last
frame are forgotten, and the window moves on. -/
def lookAhead : Except (Halted Search) Search := do
  let fastMatch ← s.fastMatch.step.mapError fun error => ⟨error, s⟩
  return { s with fastMatch := fastMatch.dropOldest, memo := s.memo.forget }

/-- Up to so many frames, until the utterance is done. -/
def stepFrames : Nat → Search → Except (Halted Search) (Bool × Search)
  | 0, s => .ok (false, s)
  | n + 1, s => do
    let (done, s) ← (← s.lookAhead).stepFrame
    if done then return (true, s) else stepFrames n s

/-- **Decodes up to `frames` frames.**  There is no answer if the stream has ended. -/
def recognize (frames : Nat) : Except (Halted Search) (Option Recognition × Search) := do
  match s.initial with
  | none => s.halt .notStarted
  | some initial =>
    let (done, s) ← stepFrames frames { s with streamEnded := false }
    if s.streamEnded then return (none, s)
    let lattice ← if s.settings.buildLattice then s.orHalt (s.lattice.purgeIn s.store)
      else pure s.lattice
    let s := { s with lattice }
    return (some ⟨s.beam.tokens, s.results, done, initial, s.frame⟩, s)

/-- The token that stands on a state after the last grown frame. -/
def tokenOn (state : Nat) : Option Nat := s.residents.lookup state

/-- **The lookahead penalty of a phone** in the current frame. -/
def penalty (p : Nat) : Score × Search :=
  let (penalty, memo) := s.memo.ask s.fastMatch.window p
  (penalty, { s with memo, stats := { s.stats with penaltyComputations := memo.computations } })

end Search

end SpeechDecoder

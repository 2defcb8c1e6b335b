import SpeechDecoder.Graph.Basic
import SpeechDecoder.Beam
import SpeechDecoder.Lattice
import SpeechDecoder.Lookahead
import SpeechDecoder.Expansion.Queue

/-!
# The expansion of a frame

Within a frame, tokens follow the arcs of the graph until they stand on emitting states, which wait
for the next frame, or on final ones.  At most one token stands on a state: of two arrivals the
better one is kept, in the token that is already there (`Expansion.arrive`).  A token on a state
that does not emit is queued, and the queue is worked off by score; every such state is expanded at
most once per frame, which bounds the work also where the graph has cycles of such states.

Three rules cut arcs and tokens:

* an arc into a phone is cut if the phone looked poor in the lookahead window (`Expansion.cut`);
* a word is not expanded if it is too far below the best word of the frame;
* an emitting state is not entered with a score that the beam does not admit.

If the order of states is checked, the first arc that leads to a lower order halts the expansion;
what was done before it is kept in `Halted.state`.
-/

namespace SpeechDecoder

/-- **Why a search halts.** -/
inductive SearchError where
  /-- An arc that leads to a lower order within a frame. -/
  | stateOrder (source target : Nat) (sourceOrder targetOrder : Nat)
  /-- The search was asked before an utterance was started. -/
  | notStarted
  | dangling (fault : Fault)
  deriving DecidableEq, Repr

/-- **The message of an error.** -/
def SearchError.message : SearchError → String
  | stateOrder s t so to_ =>
    "state order violation: " ++ GraphError.stateName s ++ " (order " ++ toString so ++ ") -> " ++
      GraphError.stateName t ++ " (order " ++ toString to_ ++ ")"
  | notStarted => "recognize called before start_utterance"
  | dangling _ => "a reference leads nowhere"

/-- **A halted computation:** the error and the state that it left. -/
structure Halted (σ : Type) where
  error : SearchError
  state : σ

/-- **The lookahead cut:** the window and the weight of its penalties.  A search tells an expansion of
it only if the weight is positive (`Search.growth`), so that a weight of zero, with which nothing is
cut, needs no test of its own here. -/
structure PhoneCut where
  window : Window
  weight : Score

/-- **What an expansion is told.** -/
structure Growth where
  graph : Graph
  frame : Nat
  keepAllTokens : Bool
  checkStateOrder : Bool
  wordMargin : Score
  /-- The lookahead cut, if arcs into phones are cut. -/
  phoneCut : Option PhoneCut
  /-- Whether losing predecessors of words are remembered. -/
  buildLattice : Bool

/-- **An expansion under way.** -/
structure Expansion where
  store : Store
  /-- The tokens that the next frame starts from. -/
  next : Beam
  /-- The token that stands on a state, the latest state first. -/
  residents : List (Nat × Nat)
  /-- The states that emit nothing and have been expanded. -/
  expanded : List Nat
  queue : List Pending
  /-- The best score of a word so far. -/
  bestWord : Score
  /-- The tokens on final states, in the order in which they were taken from the queue. -/
  results : List Nat
  lattice : Lattice
  memo : PenaltyMemo
  /-- How many tokens were created. -/
  created : Nat

namespace Expansion

/-- An expansion that has not begun. -/
def start (store : Store) (next : Beam) (lattice : Lattice) (memo : PenaltyMemo) : Expansion :=
  ⟨store, next, [], [], [], .impossible, [], lattice, memo, 0⟩

variable (g : Growth) (e : Expansion)

/-- The token that stands on a state. -/
def resident? (s : Nat) : Option Nat := e.residents.lookup s

/-- Queues a token that does not emit, and notes the score of a word. -/
def enqueue (id : Nat) (kind : StateKind) (score : Score) : Expansion :=
  { e with
    queue := Pending.enqueue ⟨score, id⟩ e.queue
    bestWord := if kind.isWord && e.bestWord < score then score else e.bestWord }

/-- Remembers a predecessor that lost at a word, unless it is also the winner. -/
def remember (id : Nat) (loser winner : Option Nat) : Expansion :=
  match loser with
  | none => e
  | some p =>
    if g.buildLattice && some p != winner then { e with lattice := e.lattice.add id p } else e

/-- The first arrival on a state creates a token, unless the state emits and the beam does not
admit the score. -/
def settle (link : Option Nat) (arc : Arc) (kind : StateKind) (score : Score) : Expansion :=
  if kind.isEmitting && !e.next.admits score then e
  else
    let id := e.store.size
    let e' := { e with
      store := e.store.push (.entering link arc kind score g.frame)
      residents := (arc.target, id) :: e.residents
      created := e.created + 1 }
    if kind.isEmitting then { e' with next := e'.next.push id score } else e'.enqueue id kind score

/-- A later arrival reroutes the token on the state if it is strictly better. -/
def contest (link : Option Nat) (arc : Arc) (kind : StateKind) (score : Score) (id : Nat)
    (t : Token) : Expansion :=
  if t.score < score then
    let e' := { e with store := e.store.set id (t.rerouted link arc score g.frame) }
    let e'' :=
      if kind.isEmitting then { e' with next := e'.next.note id score } else e'.enqueue id kind score
    if kind.isWord then e''.remember g id t.predecessor link else e''
  else if kind.isWord then e.remember g id link t.predecessor
  else e

/-- **An arrival** over an arc on a state of a kind. -/
def arrive (link : Option Nat) (arc : Arc) (kind : StateKind) (score : Score) :
    Except Fault Expansion :=
  match e.resident? arc.target with
  | none => .ok (e.settle g link arc kind score)
  | some id => do
    let t ← e.store.get id
    return e.contest g link arc kind score id t

/-- **Whether the lookahead cuts an arc** into `kind` from a token on `source`.  Without evidence
nothing is cut. -/
def cut (source kind : StateKind) (score : Score) : Bool × Expansion :=
  match g.phoneCut, (if source.entersPhones then kind.phone? else none) with
  | some c, some p =>
    if c.window.isEmpty then (false, e)
    else
      let (penalty, memo) := e.memo.ask c.window p
      (decide (score + c.weight * penalty < e.next.threshold), { e with memo })
  | _, _ => (false, e)

/-- Whether an arc leads to a lower order within a frame; the highest order is exempt.  An order is an
unsigned number of 32 bits, and so is the sum: for the greatest number of them the sum wraps to zero,
which leaves the answer as it is here, or it is a panic where overflow is checked. -/
def breaksOrder (sourceOrder targetOrder : Nat) : Bool :=
  sourceOrder + 1 != numStateOrders && decide (targetOrder < sourceOrder)

/-- **Follows an arc** of the state `source` for its token `t`. -/
def follow (t : Token) (source : State) (link : Option Nat) (arc : Arc) :
    Except (Halted Expansion) Expansion :=
  match g.graph.state? arc.target with
  | none => .error ⟨.dangling (.state arc.target), e⟩
  | some target =>
    let score := t.score + arc.probability
    let (isCut, e') := e.cut g t.kind target.kind score
    if isCut then .ok e'
    else if g.checkStateOrder && breaksOrder source.order target.order then
      .error ⟨.stateOrder t.state arc.target source.order target.order, e'⟩
    else (e'.arrive g link arc target.kind score).mapError fun f => ⟨.dangling f, e'⟩

/-- Whether a token is a word that is too far below the best word of the frame so far. -/
def isPoor (t : Token) : Bool := t.kind.isWord && decide (t.score < e.bestWord + g.wordMargin)

/-- **Expands a token:** a final one is a result, a poor word is left, and else its arcs are
followed in their order. -/
def expandToken (id : Nat) (t : Token) : Except (Halted Expansion) Expansion :=
  if t.kind.isFinal then .ok { e with results := e.results ++ [id] }
  else if e.isPoor g t then .ok e
  else
    match g.graph.state? t.state with
    | none => .error ⟨.dangling (.state t.state), e⟩
    | some source =>
      source.arcs.foldlM (fun e arc => follow g e t source (Store.link g.keepAllTokens id t) arc) e

/-- Marks the state of a token that the frame starts from.  A state that emits nothing counts as
expanded from then on, and is left if it already is; an emitting one needs no mark. -/
def mark? (t : Token) : Option Expansion :=
  if t.kind.isEmitting then some e
  else if e.expanded.contains t.state then none
  else some { e with expanded := t.state :: e.expanded }

/-- Expands a token that the frame starts from, unless its state has been expanded. -/
def expandSeed (id : Nat) : Except (Halted Expansion) Expansion :=
  match e.store.get? id with
  | none => .error ⟨.dangling (.token id), e⟩
  | some t =>
    match e.mark? t with
    | none => .ok e
    | some e' => e'.expandToken g id t

/-- Whether the state of a queued token has been expanded since. -/
def isStale (p : Pending) : Bool :=
  match e.store.get? p.token with
  | none => false
  | some t => e.expanded.contains t.state

/-- **Works off the queue,** one state in every round. -/
def drain : Nat → Expansion → Except (Halted Expansion) Expansion
  | 0, e => .ok e
  | rounds + 1, e =>
    match e.queue.dropWhile e.isStale with
    | [] => .ok { e with queue := [] }
    | p :: rest =>
      match e.store.get? p.token with
      | none => .error ⟨.dangling (.token p.token), e⟩
      | some t => do
        let e' ← { e with queue := rest, expanded := t.state :: e.expanded }.expandToken g p.token t
        drain rounds e'

/-- **The expansion of a frame** from its seeds.  No round expands a state a second time, so one
round for every state, and one that finds the queue empty, are enough. -/
def run (seeds : List Nat) : Except (Halted Expansion) Expansion := do
  let e' ← seeds.foldlM (fun e id => expandSeed g e id) e
  drain g (g.graph.size + 1) e'

end Expansion

namespace Beam

variable (a : Store) (b : Beam)

/-- The score of a token some frames later, if every frame adds what the last one did. -/
def extrapolated (frames : Score) (id : Nat) : Score :=
  match a.get? id with
  | some t => t.score + t.acoustic * frames
  | none => .impossible

/-- **The tokens of a beam that are worth expanding.**  With acoustic lookahead the extrapolated
score must be within the margin of the best one, and not on it; else the score must be admitted. -/
def worthExpanding (frames : Score) : List Nat :=
  if Score.certain < frames then
    let threshold := Score.greatest (b.tokens.map (extrapolated a frames)) + b.widths.margin
    b.tokens.filter fun id => decide (threshold < extrapolated a frames id)
  else b.tokens.filter fun id => b.admits (a.score id)

/-- The tokens worth expanding, unless the beam holds one that the store does not. -/
def seeds (frames : Score) : Except Fault (List Nat) := do
  a.check b.tokens
  return b.worthExpanding a frames

end Beam

end SpeechDecoder

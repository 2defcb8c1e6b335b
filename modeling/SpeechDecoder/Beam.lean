import SpeechDecoder.Token.Store

/-!
# Beams

A beam is the list of tokens that a frame keeps, in the order in which they came, together with the
best score noted so far.  A score is admitted if it is not below the best one by more than the
margin; so the threshold rises while the beam fills.

* `prune` sorts the beam, cuts it to the greatest number of tokens and then to the margin.
* `refresh` looks for the best score again after scores were changed elsewhere.
-/

namespace SpeechDecoder

/-- **How wide a beam is.** -/
structure BeamWidths where
  /-- The greatest number of tokens after pruning; 0 for no limit. -/
  count : Nat
  /-- How far from the best score a token may be, as a log probability that is not positive. -/
  margin : Score
  deriving DecidableEq

/-- **The tokens that a frame keeps.** -/
structure Beam where
  widths : BeamWidths
  tokens : List Nat
  best : Option (Nat × Score)
  deriving DecidableEq

namespace Beam

/-- A beam without tokens. -/
def empty (widths : BeamWidths) : Beam := ⟨widths, [], none⟩

variable (b : Beam)

/-- The best score noted so far. -/
def bestScore : Score :=
  match b.best with
  | some (_, s) => s
  | none => .impossible

/-- **The least score that is admitted.** -/
def threshold : Score := b.bestScore + b.widths.margin

def admits (score : Score) : Bool := decide (b.threshold ≤ score)

/-- Notes a score: the first one, and after it whatever is greater. -/
def note (id : Nat) (score : Score) : Beam :=
  if b.bestScore < score || b.best.isNone then { b with best := some (id, score) } else b

/-- Appends a token, admitted or not. -/
def push (id : Nat) (score : Score) : Beam :=
  { b with tokens := b.tokens ++ [id] }.note id score

/-- **Appends a token if its score is admitted.** -/
def offer (id : Nat) (score : Score) : Beam :=
  if b.admits score then b.push id score else b

/-- The first of the tokens with the greatest score. -/
def leader (score : Nat → Score) (ids : List Nat) : Option (Nat × Score) :=
  ids.foldl (fun best id =>
    match best with
    | none => some (id, score id)
    | some (i, s) => if s < score id then some (id, score id) else some (i, s)) none

/-- The beam with its best score looked up again. -/
def refresh (score : Nat → Score) : Beam :=
  { b with best := leader score b.tokens }

/-- The first tokens of a list, as many as the count allows. -/
def cut (widths : BeamWidths) (ids : List Nat) : List Nat :=
  if 0 < widths.count then ids.take widths.count else ids

/-- **The pruned beam:** sorted by score, cut to the count, and then to the margin. -/
def prune (score : Nat → Score) : Beam :=
  let kept := cut b.widths (Score.sortDescending score b.tokens)
  let led : Beam := { b with tokens := kept, best := kept.head?.map fun id => (id, score id) }
  { led with tokens := kept.filter fun id => led.admits (score id) }

end Beam

/-- **Pruning between scoring and growing.** -/
abbrev Pruner := Store → Beam → Except Fault Beam

namespace Pruner

/-- Keeps the beam that the widths allow. -/
def byWidths : Pruner := fun a b => do
  a.check b.tokens
  return b.prune a.score

/-- Keeps everything, and even the best score of before. -/
def keepAll : Pruner := fun _ b => .ok b

/-- Keeps every token and looks for the best score again. -/
def refreshOnly : Pruner := fun a b => do
  a.check b.tokens
  return b.refresh a.score

end Pruner

end SpeechDecoder

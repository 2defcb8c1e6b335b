import SpeechDecoder.Token.Store

/-!
# The word lattice

Where two paths meet at a word, the token keeps the better one.  The lattice remembers the
predecessors that lost, in the order in which they did, so that the other paths can still be told.

* `purge` keeps the best of them, so that with the predecessor of the token itself no word has more
  than `maxEdges` edges; a list that is short enough stays as it is.
-/

namespace SpeechDecoder

/-- **The losing predecessors of tokens.** -/
structure Lattice where
  /-- The greatest number of edges into a token, its own predecessor included. -/
  maxEdges : Nat
  /-- The alternates of the tokens that have some. -/
  links : List (Nat × List Nat)
  deriving DecidableEq

namespace Lattice

/-- A lattice without alternates. -/
def empty (maxEdges : Nat) : Lattice := ⟨maxEdges, []⟩

/-- Appends a predecessor to the list of a token. -/
def insert (id predecessor : Nat) :
    List (Nat × List Nat) → List (Nat × List Nat)
  | [] => [(id, [predecessor])]
  | (i, ps) :: rest =>
    if i = id then (i, ps ++ [predecessor]) :: rest else (i, ps) :: insert id predecessor rest

variable (l : Lattice)

/-- **Remembers a predecessor that lost.** -/
def add (id predecessor : Nat) : Lattice := { l with links := insert id predecessor l.links }

/-- The alternates of a token. -/
def alternates (id : Nat) : List Nat := (l.links.lookup id).getD []

/-- How many alternates there are. -/
def edgeCount : Nat := l.links.foldr (fun (_, ps) n => ps.length + n) 0

/-- No alternates. -/
def clear : Lattice := { l with links := [] }

/-- How many alternates a token may keep. -/
def room : Nat := l.maxEdges - 1

/-- The best of some alternates, as many as there is room for. -/
def trim (score : Nat → Score) (ps : List Nat) : List Nat :=
  if l.room < ps.length then (Score.sortDescending score ps).take l.room else ps

/-- **Only the best alternates of every token.** -/
def purge (score : Nat → Score) : Lattice :=
  let trimmed := l.links.map fun (id, ps) => (id, l.trim score ps)
  { l with links := trimmed.filter fun (_, ps) => !ps.isEmpty }

/-- The alternates that a purge compares: those of the lists that it cuts. -/
def compared : List Nat :=
  l.links.flatMap fun (_, ps) => if l.room < ps.length then Store.compared ps else []

/-- Purges, unless an alternate whose score is needed is not in the store. -/
def purgeIn (a : Store) : Except Fault Lattice := do
  a.check l.compared
  return l.purge a.score

end Lattice

end SpeechDecoder

import SpeechDecoder.Token.Basic

/-!
# The store of tokens

The tokens of an utterance are numbered in the order in which they are created, and refer to each
other by number.  Reading a number that the store does not hold is a `Fault`.

* `backtrace` lists a path from its start, `wordPath` the words on it.
* `link` is the token that a successor links back to: on request every token, else only words and
  the start of a path, so that a path consists of its words.
* `retain` keeps some tokens only and cuts them loose from their past.
-/

namespace SpeechDecoder

/-- **A reference that leads nowhere.** -/
inductive Fault where
  /-- A token that the store does not hold. -/
  | token (id : Nat)
  /-- A state that the graph does not have. -/
  | state (id : Nat)
  /-- A path that does not come to a start. -/
  | endless (id : Nat)
  deriving DecidableEq, Repr

/-- **The tokens of an utterance.** -/
structure Store where
  tokens : Array Token
  deriving DecidableEq

namespace Store

/-- No token. -/
def empty : Store := ⟨#[]⟩

variable (a : Store)

/-- How many tokens there are; the next one gets this number. -/
def size : Nat := a.tokens.size

/-- The token with a number. -/
def get? (id : Nat) : Option Token := a.tokens[id]?

/-- The token with a number, or a fault. -/
def get (id : Nat) : Except Fault Token :=
  match a.get? id with
  | some t => .ok t
  | none => .error (.token id)

/-- A new token, with number `size`. -/
def push (t : Token) : Store := ⟨a.tokens.push t⟩

/-- The store with another token under a number that it holds. -/
def set (id : Nat) (t : Token) : Store := ⟨a.tokens.setIfInBounds id t⟩

/-- The score of a token that the store holds. -/
def score (id : Nat) : Score :=
  match a.get? id with
  | some t => t.score
  | none => .impossible

/-- Refuses a list with a number that the store does not hold. -/
def check (ids : List Nat) : Except Fault Unit :=
  match ids.find? fun id => decide (a.size ≤ id) with
  | some id => .error (.token id)
  | none => .ok ()

/-- The numbers whose tokens are looked at where the best of some tokens are chosen: with fewer than
two of them there is nothing to compare. -/
def compared (ids : List Nat) : List Nat := if 2 ≤ ids.length then ids else []

/-- **Only the given tokens,** without their past, numbered in the given order. -/
def retain (ids : List Nat) : Except Fault Store := do
  let kept ← ids.mapM a.get
  return ⟨(kept.map Token.detached).toArray⟩

/-- The path to `id`, followed by `later`, in at most `steps` steps back. -/
def backtraceFrom : Nat → Nat → List Nat → Except Fault (List Nat)
  | 0, id, _ => .error (.endless id)
  | steps + 1, id, later => do
    let t ← a.get id
    match t.predecessor with
    | none => return id :: later
    | some p => backtraceFrom steps p (id :: later)

/-- **The path to a token,** from its start. -/
def backtrace (id : Nat) : Except Fault (List Nat) :=
  a.backtraceFrom (a.size + 1) id []

/-- The word at a token. -/
def word? (id : Nat) : Option Nat := (a.get? id).bind fun t => t.kind.word?

/-- **The words on the path to a token,** in the order of the utterance. -/
def wordPath (id : Nat) : Except Fault (List Nat) := do
  return (← a.backtrace id).filterMap a.word?

/-- **What a successor links back to.**  A token that is neither a word nor the start of a path
hands on its own predecessor, unless every token is kept. -/
def link (keepAll : Bool) (id : Nat) (t : Token) : Option Nat :=
  if keepAll || t.kind.isWord || t.predecessor.isNone then some id else t.predecessor

/-- The tokens with their numbers. -/
def entries : List (Nat × Token) := a.tokens.toList.zipIdx.map fun (t, i) => (i, t)

/-! ## First facts -/

@[simp] theorem size_push (t : Token) : (a.push t).size = a.size + 1 := by
  simp [size, push]

@[simp] theorem size_set (id : Nat) (t : Token) : (a.set id t).size = a.size := by
  simp [size, set]

theorem get?_push (t : Token) (id : Nat) :
    (a.push t).get? id = if id = a.size then some t else a.get? id := by
  unfold get? push size
  exact Array.getElem?_push

theorem get?_set (id : Nat) (t : Token) (i : Nat) :
    (a.set id t).get? i = if id = i then (if id < a.size then some t else none) else a.get? i := by
  unfold get? set size
  exact Array.getElem?_setIfInBounds

theorem get?_eq_none_iff {id : Nat} : a.get? id = none ↔ a.size ≤ id := by
  simp [get?, size]

/-- A store with one token holds no other. -/
theorem eq_of_get?_single {t u : Token} {id : Nat} (h : (empty.push t).get? id = some u) :
    id = 0 ∧ u = t := by
  rw [get?_push] at h
  split at h
  · next hid => exact ⟨hid, (Option.some.inj h).symm⟩
  · cases h

theorem check_eq_ok_iff {ids : List Nat} : a.check ids = .ok () ↔ ∀ id ∈ ids, id < a.size := by
  unfold check
  split
  · next id h =>
    have hm := List.mem_of_find?_eq_some h
    have hs := List.find?_some h
    simp only [decide_eq_true_eq] at hs
    exact iff_of_false (by simp) fun hall => Nat.not_lt.2 hs (hall id hm)
  · next h =>
    rw [List.find?_eq_none] at h
    simp only [decide_eq_true_eq, Nat.not_le] at h
    exact iff_of_true rfl h

/-- What is computed after a check. -/
theorem of_check_eq_ok {α : Type} {ids : List Nat} {x y : α}
    (h : (do a.check ids; return x : Except Fault α) = .ok y) :
    (∀ id ∈ ids, id < a.size) ∧ y = x := by
  cases hc : a.check ids with
  | error f => simp [hc, bind, Except.bind] at h
  | ok u =>
    simp only [hc, bind, Except.bind, pure, Except.pure] at h
    cases h
    exact ⟨a.check_eq_ok_iff.1 hc, rfl⟩

end Store

end SpeechDecoder

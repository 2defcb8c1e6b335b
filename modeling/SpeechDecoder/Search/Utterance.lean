import SpeechDecoder.Search.Basic

/-!
# Decoding an utterance

`Search.decode` decodes an utterance from its start to its end, some frames at a time, and reads the
words of the best hypothesis off the last answer.
-/

namespace SpeechDecoder

/-- **The best word sequence of an utterance.** -/
structure Hypothesis where
  words : List Nat
  score : Score
  frames : Nat
  /-- Whether the hypothesis ends on a final state. -/
  reachedFinal : Bool
  deriving DecidableEq

namespace Search

/-- Decodes `chunk` frames at a time, in at most so many calls, and keeps the last answer. -/
def recognizeAll (chunk : Nat) : Nat → Search → Option Recognition →
    Except (Halted Search) (Option Recognition × Search)
  | 0, s, last => .ok (last, s)
  | calls + 1, s, last => do
    match ← s.recognize chunk with
    | (none, s) => return (last, s)
    | (some r, s) => if r.isFinal then return (some r, s) else recognizeAll chunk calls s (some r)

variable (s : Search)

/-- **The hypothesis of an answer:** that of the best final token, or of the best active one. -/
def hypothesis (r : Recognition) : Except Fault (Option Hypothesis) := do
  let final ← r.bestFinal s.store
  match ← r.best s.store with
  | none => return none
  | some id =>
    return some ⟨← s.store.wordPath id, s.store.score id, r.frame, final.isSome⟩

/-- **Decodes an utterance,** `chunk` frames at a time; 0 counts as 1.  A call that is not the last
one uses up a row of the source, which bounds the calls. -/
def decode (chunk : Nat) : Except (Halted Search) (Option Hypothesis × Search) := do
  let s ← s.start
  match ← recognizeAll (max chunk 1) (s.pass.source.rows.size + 1) s none with
  | (none, s) => return (none, s)
  | (some r, s) => return (← s.orHalt (s.hypothesis r), s)

/-- **The search of a decoder with given settings;** the beams are checked before the search. -/
def ofSettings (settings : Settings) (main fastMatch : Graph × AcousticSource)
    (cache : MixtureCache) : Except SettingsError Search := do
  settings.validateBeams
  Search.new settings.search ⟨main.1, main.2, .byWidths, settings.main⟩
    ⟨fastMatch.1, fastMatch.2, .byWidths, settings.fastMatch⟩ cache

end Search

end SpeechDecoder

import SpeechDecoder.Beam

/-!
# Acoustic scores

The acoustic evidence of an utterance is a table with one row per frame and one log likelihood per
phone.  Scoring a frame adds to every emitting token of a beam what the next row says about its
phone.  At the end of the table scoring first reports that the utterance is used up and after that
that the stream has ended; a streaming source reports the end of the stream in both cases.

The model behind the scores may share Gaussians between phones and keep their scores for some
frames; `MixtureCache` is the list of what a search has asked of such a cache.
-/

namespace SpeechDecoder

/-- **What became of a frame.** -/
inductive ScoreOutcome where
  /-- The frame was scored; the first token of greatest score. -/
  | scored (best : Nat)
  /-- Nothing is left to score in this utterance. -/
  | exhausted
  /-- There is no input at all. -/
  | streamEnd
  deriving DecidableEq, Repr

/-- **A source of acoustic scores.** -/
structure AcousticSource where
  rows : Array (Array Score)
  /-- The next row. -/
  cursor : Nat
  /-- Whether the end of the table was reported. -/
  endReported : Bool
  /-- Whether the source reports the end of the stream in place of the end of an utterance. -/
  streaming : Bool
  deriving DecidableEq

namespace AcousticSource

/-- A source at its first row. -/
def ofRows (rows : Array (Array Score)) (streaming : Bool) : AcousticSource :=
  ⟨rows, 0, false, streaming⟩

variable (src : AcousticSource)

/-- The source at its first row again. -/
def rewind : AcousticSource := { src with cursor := 0, endReported := false }

/-- What the source reports where an utterance is used up. -/
def usedUp : ScoreOutcome := if src.streaming then .streamEnd else .exhausted

/-- What a row says about a phone; a missing phone is impossible. -/
def likelihood (row : Array Score) (p : Nat) : Score := row[p]?.getD .impossible

/-- Scores one token, and keeps the first of the best. -/
def scoreToken (row : Array Score) (acc : Store × Option (Nat × Score)) (id : Nat) :
    Except Fault (Store × Option (Nat × Score)) := do
  let t ← acc.1.get id
  match t.kind.phone? with
  | none => return acc
  | some p =>
    let t' := t.scored (likelihood row p)
    let best := match acc.2 with
      | none => some (id, t'.score)
      | some (i, s) => if s < t'.score then some (id, t'.score) else some (i, s)
    return (acc.1.set id t', best)

/-- **Scores one frame:** adds the next row to the emitting tokens of a list. -/
def scoreFrame (a : Store) (ids : List Nat) :
    Except Fault (ScoreOutcome × AcousticSource × Store) :=
  match src.rows[src.cursor]? with
  | none =>
    if src.endReported then .ok (.streamEnd, src, a)
    else .ok (src.usedUp, { src with endReported := true }, a)
  | some row => do
    let src' := { src with cursor := src.cursor + 1 }
    let (a', best) ← ids.foldlM (scoreToken row) (a, none)
    match best with
    | some (id, _) => return (.scored id, src', a')
    | none => return (src.usedUp, src', a')

end AcousticSource

/-- **What is asked of a cache of mixture scores.** -/
inductive CacheRequest where
  /-- To keep the scores of so many frames. -/
  | keep (frames : Nat)
  /-- To forget all scores. -/
  | clear
  deriving DecidableEq, Repr

/-- **The requests made so far,** if the model has tied mixtures. -/
abbrev MixtureCache := Option (List CacheRequest)

/-- One more request, if there is a cache. -/
def MixtureCache.ask (c : MixtureCache) (r : CacheRequest) : MixtureCache :=
  Option.map (fun (log : List CacheRequest) => log ++ [r]) c

end SpeechDecoder

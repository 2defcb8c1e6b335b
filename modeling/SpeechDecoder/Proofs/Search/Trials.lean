import SpeechDecoder.Proofs.Expansion.Memo
import SpeechDecoder.Proofs.Search.Turns

/-!
# The arcs that a search tries

The arcs that are tried in a frame and in a call, and the phones whose penalties are asked for at
them, also where the call is halted.

* `trialsIn` lists the arcs of a call, turn by turn.
* `memo_stepFrame` says which penalties are known after a frame.
-/

namespace SpeechDecoder.Search

variable (s : Search)

/-- The arcs that the growth of a frame tries. -/
def growTrials : List Trial :=
  match s.beam.seeds s.store s.settings.acousticLookahead with
  | .error _ => []
  | .ok seeds =>
    (Expansion.start s.store (.empty s.pass.widths) s.lattice s.memo).trials s.growth seeds

/-- The search before it grows the frame that is ahead, if it does. -/
def grown? : Option Search :=
  match s.pass.source.scoreFrame s.store s.beam.tokens with
  | .ok (.scored _, source, store) =>
    match s.pass.pruner store s.beam with
    | .error _ => none
    | .ok beam =>
      if s.skipsGrowth (s.frame + 1) then none else some ((s.heard source store).moved beam)
  | _ => none

/-- The arcs that one frame tries. -/
def frameTrials : List Trial := s.grown?.elim [] growTrials

/-- The search at the start of an utterance, before it grows. -/
def opened? : Option Search :=
  match s.fastMatch.reset, s.pass.seed with
  | .ok fastMatch, .ok seed => some (s.begun fastMatch seed)
  | _, _ => none

/-- The arcs that the start of an utterance tries. -/
def startTrials : List Trial := s.opened?.elim [] growTrials

/-- **The arcs that a call tries.** -/
def trialsIn : Call → List Trial
  | .start => s.startTrials
  | .recognize n => (s.turnsIn n).flatMap frameTrials

/-- The phones whose penalties the growth of a frame asks for. -/
def growPhones : List Nat := s.growTrials.filterMap (Trial.phone? s.growth)

/-- **The phones whose penalties one frame asks for.** -/
def framePhones : List Nat := s.grown?.elim [] growPhones

variable {s} {t : Search}

/-! ## The parts of a frame -/

/-- What is done before the growth of a frame. -/
theorem exists_of_grown (h : s.grown? = some t) : ∃ outcome source store beam,
    s.pass.source.scoreFrame s.store s.beam.tokens = .ok (outcome, source, store) ∧
      t = (s.heard source store).moved beam ∧ s.stepFrame = t.grow.map fun u => (false, u) := by
  unfold grown? at h
  rw [stepFrame_eq]
  split at h
  · next best source store hx =>
    split at h
    · cases h
    · next beam hp =>
      split at h
      · cases h
      · next hskip =>
        cases h
        refine ⟨.scored best, source, store, beam, hx, rfl, ?_⟩
        simp only [hx, hp, if_neg hskip]
  · cases h

/-- A frame that grows nothing asks for no penalty, and only a fault halts it. -/
theorem stepFrame_of_not_grown (h : s.grown? = none) :
    Outcome (fun r => r.2.memo = s.memo ∧
        r.2.stats.penaltyComputations = s.stats.penaltyComputations)
      (fun h => h.state.memo = s.memo ∧ ∃ f, h.error = .dangling f) s.stepFrame := by
  unfold grown? at h
  rw [stepFrame_eq]
  split
  · exact ⟨rfl, _, rfl⟩
  · exact ⟨rfl, rfl⟩
  · exact ⟨rfl, rfl⟩
  · next source store hx =>
    simp only [hx] at h
    split
    · exact ⟨rfl, _, rfl⟩
    · next beam hp =>
      simp only [hp] at h
      split
      · exact ⟨rfl, rfl⟩
      · next hskip =>
        rw [if_neg hskip] at h
        cases h

/-! ## The penalties that are asked for -/

theorem asks_growth (s : Search) : Expansion.Asks s.growth s.fastMatch.window := by
  intro c hc
  unfold growth at hc
  dsimp only at hc
  split at hc
  · cases hc
    rfl
  · cases hc

/-- **The penalties that are known after the growth of a frame.** -/
theorem memo_grow (s : Search) :
    Outcome (fun t => t.memo = s.memo.askAll s.fastMatch.window s.growPhones)
      (fun h => h.state.memo = s.memo.askAll s.fastMatch.window s.growPhones) s.grow := by
  rw [grow_eq]
  unfold growPhones growTrials
  cases s.beam.seeds s.store s.settings.acousticLookahead with
  | error f => exact rfl
  | ok seeds =>
    have hrun := Expansion.run_memo s.asks_growth
      (.start s.store (.empty s.pass.widths) s.lattice s.memo) seeds
    dsimp only
    split
    · next err hx => exact hrun.of_error hx
    · next e hx => exact hrun.of_ok hx

/-- **The penalties that are known after a frame.**  It leaves the window alone. -/
theorem memo_stepFrame (s : Search) :
    Outcome (fun r => r.2.fastMatch = s.fastMatch ∧
        r.2.memo = s.memo.askAll s.fastMatch.window s.framePhones)
      (fun h => h.state.fastMatch = s.fastMatch ∧
        h.state.memo = s.memo.askAll s.fastMatch.window s.framePhones) s.stepFrame := by
  refine (stepFrame_spares s).both ?_
  unfold framePhones
  cases hs : s.grown? with
  | none => exact (stepFrame_of_not_grown hs).mono (fun _ h => h.1) fun _ h => h.1
  | some t =>
    obtain ⟨outcome, source, store, beam, -, rfl, hstep⟩ := exists_of_grown hs
    rw [hstep]
    exact (memo_grow _).map _ fun _ h => h

end SpeechDecoder.Search

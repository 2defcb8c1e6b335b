import SpeechDecoder.Proofs.Search.Run

/-!
# Two searches and the same calls

A relation between two searches that every part of a call keeps is kept by whole calls, and calls
that keep it have the same answers, whether they are finished or halted.

* `Pairing` lists the parts that a relation has to survive.
* `Pairing.stepFrames`, `Pairing.recognize` and `Pairing.perform` carry it through a call, and
  `Pairing.after` through a list of calls.
* `Beside` relates searches that differ in their caches, in their fast matches and in how far these
  run ahead; `Led.pairing` says when all calls keep it.
-/

namespace SpeechDecoder.Search

/-- Two halted searches with the same error. -/
def HaltPair (R : Search → Search → Prop) (h h' : Halted Search) : Prop :=
  h.error = h'.error ∧ R h.state h'.state

/-- The same answer, and searches that are still related. -/
def SamePair {α : Type} (R : Search → Search → Prop) (r r' : α × Search) : Prop :=
  r'.1 = r.1 ∧ R r.2 r'.2

/-- **What a relation between two searches has to survive.** -/
structure Pairing (R : Search → Search → Prop) : Prop where
  initial : ∀ s s', R s s' → s'.initial = s.initial
  live : ∀ s s', R s s' → R { s with streamEnded := false } { s' with streamEnded := false }
  start : ∀ s s', R s s' → Matched R (HaltPair R) s.start s'.start
  lookAhead : ∀ s s', R s s' → Matched R (HaltPair R) s.lookAhead s'.lookAhead
  stepFrame : ∀ s s', R s s' → Matched (SamePair R) (HaltPair R) s.stepFrame s'.stepFrame
  conclude : ∀ s s' done initial, R s s' → Matched (SamePair R) (HaltPair R)
    (conclude initial (done, s)) (conclude initial (done, s'))

namespace Pairing

variable {R : Search → Search → Prop} {s s' : Search}

/-- **Up to so many frames,** by induction on their number. -/
theorem stepFrames (hR : Pairing R) : ∀ (n : Nat) {s s' : Search}, R s s' →
    Matched (SamePair R) (HaltPair R) (stepFrames n s) (stepFrames n s')
  | 0, _, _, h => ⟨rfl, h⟩
  | n + 1, s, s', h => by
    refine (hR.lookAhead s s' h).bind fun t t' ht => (hR.stepFrame t t' ht).bind ?_
    rintro ⟨done, u⟩ ⟨done', u'⟩ ⟨hdone, hu⟩
    cases hdone
    cases done
    · exact hR.stepFrames n hu
    · exact ⟨rfl, hu⟩

theorem recognize (hR : Pairing R) (h : R s s') (frames : Nat) :
    Matched (SamePair R) (HaltPair R) (s.recognize frames) (s'.recognize frames) := by
  have hinitial := hR.initial s s' h
  cases hi : s.initial with
  | none =>
    rw [recognize_eq, recognize_eq, hinitial, hi]
    exact ⟨rfl, h⟩
  | some initial =>
    rw [recognize_of_started hi, recognize_of_started (hinitial.trans hi)]
    refine (hR.stepFrames frames (hR.live s s' h)).bind ?_
    rintro ⟨done, t⟩ ⟨done', t'⟩ ⟨hdone, ht⟩
    cases hdone
    exact hR.conclude t t' done initial ht

/-- Two starts that end alike. -/
theorem perform_start (h : Matched R (HaltPair R) s.start s'.start) :
    SamePair R (s.perform .start) (s'.perform .start) := by
  unfold Search.perform
  rcases h.cases with ⟨t, t', hx, hx', ht⟩ | ⟨err, err', hx, hx', herr, ht⟩
  · rw [hx, hx']
    exact ⟨rfl, ht⟩
  · rw [hx, hx']
    exact ⟨congrArg Except.error herr.symm, ht⟩

/-- **A call** has the same answer. -/
theorem perform (hR : Pairing R) (h : R s s') (c : Call) :
    SamePair R (s.perform c) (s'.perform c) := by
  cases c with
  | start => exact perform_start (hR.start s s' h)
  | recognize n =>
    unfold Search.perform
    rcases (hR.recognize h n).cases with
      ⟨r, r', hx, hx', hr, ht⟩ | ⟨err, err', hx, hx', herr, ht⟩
    · simp only [hx, hx']
      exact ⟨congrArg Except.ok hr, ht⟩
    · simp only [hx, hx']
      exact ⟨congrArg Except.error herr.symm, ht⟩

/-- **Some calls,** by induction on them. -/
theorem after (hR : Pairing R) (calls : List Call) :
    ∀ {s s' : Search}, R s s' → R (s.after calls) (s'.after calls) := by
  induction calls with
  | nil => exact fun h => h
  | cons c calls ih => exact fun h => ih (hR.perform h c).2

end Pairing

/-! ## Searches with different fast matches -/

/-- **What a relation between two fast matches has to survive** in searches that weight penalties by
a given factor: the starts and steps of both.  The windows agree if a penalty counts. -/
structure Led (weight : Score) (F : FastMatch → FastMatch → Prop) : Prop where
  reset : ∀ f f', F f f' → Matched F Eq f.reset f'.reset
  step : ∀ f f', F f f' →
    Matched (fun next next' => F next.dropOldest next'.dropOldest) Eq f.step f'.step
  window : ∀ f f', F f f' → Score.certain < weight → f'.window = f.window

/-- **Two searches with the same main pass** and the same settings, but for the size of the window;
their fast matches are related. -/
structure Beside (settings : SearchSettings) (window : Nat) (F : FastMatch → FastMatch → Prop)
    (s s' : Search) : Prop where
  told : s.settings = settings
  apart : ∃ cache fastMatch, s' = { s with settings := { settings with window }, cache, fastMatch }
  led : F s.fastMatch s'.fastMatch

variable {settings : SearchSettings} {window : Nat} {F : FastMatch → FastMatch → Prop}
  {s s' : Search}

/-- Nothing else of two such searches differs, whatever a step does to both. -/
theorem Beside.congr (h : Beside settings window F s s') {t t' : Search}
    (hsettings : t.settings = s.settings) (hfast : t.fastMatch = s.fastMatch)
    (hfast' : t'.fastMatch = s'.fastMatch)
    (heq : t' = { t with settings := s'.settings, cache := t'.cache, fastMatch := t'.fastMatch }) :
    Beside settings window F t t' := by
  refine ⟨hsettings.trans h.told, ⟨t'.cache, t'.fastMatch, heq.trans ?_⟩, ?_⟩
  · obtain ⟨cache, fastMatch, rfl⟩ := h.apart
    rfl
  · rw [hfast, hfast']
    exact h.led

/-- Both grow a frame in the same way. -/
theorem Beside.growth (hF : Led settings.penaltyWeight F) (h : Beside settings window F s s') :
    s'.growth = s.growth := by
  obtain ⟨cache, fastMatch, rfl⟩ := h.apart
  have hwindow := hF.window _ _ h.led
  dsimp only at hwindow
  unfold Search.growth
  dsimp only
  rw [h.told]
  split
  · next hweight => rw [hwindow hweight]
  · rfl

theorem Beside.grow (hF : Led settings.penaltyWeight F) (h : Beside settings window F s s') :
    Matched (Beside settings window F) (HaltPair (Beside settings window F)) s.grow s'.grow := by
  have hgrowth := h.growth hF
  have hlook : s'.settings.acousticLookahead = s.settings.acousticLookahead := by
    obtain ⟨cache, fastMatch, rfl⟩ := h.apart
    rw [h.told]
  rw [grow_eq, grow_eq, hgrowth, hlook]
  obtain ⟨cache, fastMatch, rfl⟩ := h.apart
  dsimp only
  cases s.beam.seeds s.store s.settings.acousticLookahead with
  | error f => exact ⟨rfl, h⟩
  | ok seeds =>
    dsimp only
    cases Expansion.run s.growth (Expansion.start s.store (.empty s.pass.widths) s.lattice s.memo)
        seeds with
    | error err => exact ⟨rfl, h.congr rfl rfl rfl rfl⟩
    | ok e => exact h.congr rfl rfl rfl rfl

theorem Beside.start (hF : Led settings.penaltyWeight F) (h : Beside settings window F s s') :
    Matched (Beside settings window F) (HaltPair (Beside settings window F)) s.start s'.start := by
  have hreset := hF.reset _ _ h.led
  obtain ⟨cache, fastMatch, rfl⟩ := h.apart
  have hforgotten : Beside settings window F s.forgotten
      (forgotten { s with settings := { settings with window }, cache, fastMatch }) :=
    h.congr rfl rfl rfl rfl
  rw [start_eq, start_eq]
  dsimp only
  rcases hreset.cases with ⟨f, f', hf, hf', hled⟩ | ⟨err, err', herr, herr', rfl⟩
  · rw [hf, hf']
    dsimp only
    cases s.pass.seed with
    | error err => exact ⟨rfl, hforgotten⟩
    | ok seed => exact Beside.grow hF ⟨h.told, ⟨_, _, rfl⟩, hled⟩
  · rw [herr, herr']
    exact ⟨rfl, hforgotten⟩

theorem Beside.lookAhead (hF : Led settings.penaltyWeight F) (h : Beside settings window F s s') :
    Matched (Beside settings window F) (HaltPair (Beside settings window F)) s.lookAhead
      s'.lookAhead := by
  have hstep := hF.step _ _ h.led
  obtain ⟨cache, fastMatch, rfl⟩ := h.apart
  rw [lookAhead_eq, lookAhead_eq]
  dsimp only
  rcases hstep.cases with ⟨f, f', hf, hf', hled⟩ | ⟨err, err', herr, herr', rfl⟩
  · rw [hf, hf']
    exact ⟨h.told, ⟨_, _, rfl⟩, hled⟩
  · rw [herr, herr']
    exact ⟨rfl, h⟩

/-- **One frame.** -/
theorem Beside.stepFrame (hF : Led settings.penaltyWeight F) (h : Beside settings window F s s') :
    Matched (SamePair (Beside settings window F)) (HaltPair (Beside settings window F))
      s.stepFrame s'.stepFrame := by
  have hskip : s'.skipsGrowth = s.skipsGrowth := by
    obtain ⟨cache, fastMatch, rfl⟩ := h.apart
    unfold skipsGrowth
    rw [h.told]
  rw [stepFrame_eq, stepFrame_eq, hskip]
  obtain ⟨cache, fastMatch, rfl⟩ := h.apart
  dsimp only
  cases s.pass.source.scoreFrame s.store s.beam.tokens with
  | error f => exact ⟨rfl, h⟩
  | ok r =>
    obtain ⟨outcome, source, store⟩ := r
    cases outcome with
    | exhausted => exact ⟨rfl, h.congr rfl rfl rfl rfl⟩
    | streamEnd => exact ⟨rfl, h.congr rfl rfl rfl rfl⟩
    | scored best =>
      dsimp only
      cases s.pass.pruner store s.beam with
      | error f => exact ⟨rfl, h.congr rfl rfl rfl rfl⟩
      | ok beam =>
        have hmoved : Beside settings window F ((s.heard source store).moved beam)
            (moved (heard { s with settings := { settings with window }, cache, fastMatch } source
              store) beam) :=
          h.congr rfl rfl rfl rfl
        dsimp only
        split
        · exact ⟨rfl, hmoved⟩
        · exact (hmoved.grow hF).map _ _ fun _ _ h => ⟨rfl, h⟩

theorem Beside.conclude (h : Beside settings window F s s') (done : Bool) (initial : Nat) :
    Matched (SamePair (Beside settings window F)) (HaltPair (Beside settings window F))
      (conclude initial (done, s)) (conclude initial (done, s')) := by
  obtain ⟨cache, fastMatch, rfl⟩ := h.apart
  unfold Search.conclude
  dsimp only
  rw [h.told]
  split
  · exact ⟨rfl, h⟩
  · split
    · cases s.lattice.purgeIn s.store with
      | error f => exact ⟨rfl, h⟩
      | ok lattice => exact ⟨rfl, h.congr h.told.symm rfl rfl rfl⟩
    · exact ⟨rfl, h⟩

/-- **All calls keep two such searches beside each other.** -/
theorem Led.pairing (hF : Led settings.penaltyWeight F) (window : Nat) :
    Pairing (Beside settings window F) where
  initial s s' h := by
    obtain ⟨cache, fastMatch, rfl⟩ := h.apart
    rfl
  live s s' h := h.congr rfl rfl rfl (by
    obtain ⟨cache, fastMatch, rfl⟩ := h.apart
    rfl)
  start s s' h := h.start hF
  lookAhead s s' h := h.lookAhead hF
  stepFrame s s' h := h.stepFrame hF
  conclude s s' done initial h := h.conclude done initial

end SpeechDecoder.Search

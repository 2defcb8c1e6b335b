import SpeechDecoder.Proofs.Search.Ahead

/-!
# Cutting an utterance into calls

It does not matter in how many calls the frames of an utterance are decoded.  A call ends with a
purge, which does not show in the end; and a call that comes to the end of the table says so.

* `Rested` is what holds between calls: once the end of the table was reported, the alternates are
  purged.  This is for the call that finds no input at all and has no answer.
* `recognize_add` says that two calls are one, whatever they end with; `perform_recognize_add` says
  so of every search that was asked something before.
-/

namespace SpeechDecoder

/-! ## The end of the table -/

namespace AcousticSource

variable {src src' : AcousticSource} {a a' : Store} {ids : List Nat} {outcome : ScoreOutcome}

/-- The end of the table was reported. -/
def Ended (src : AcousticSource) : Prop :=
  src.endReported = true ∧ src.rows[src.cursor]? = none

theorem Ended.scoreFrame (h : src.Ended) (a : Store) (ids : List Nat) :
    src.scoreFrame a ids = .ok (.streamEnd, src, a) := by
  unfold AcousticSource.scoreFrame
  rw [h.2, h.1]
  rfl

/-- The end of the table is reported once, as the end of an utterance. -/
theorem scoreFrame_of_not_ended (hstreaming : src.streaming = false)
    (hended : src.endReported = false) (h : src.scoreFrame a ids = .ok (outcome, src', a')) :
    src'.streaming = false ∧ outcome ≠ .streamEnd ∧
      (src'.endReported = true → outcome = .exhausted ∧ src'.Ended) := by
  have hused : src.usedUp = .exhausted := by
    unfold usedUp
    rw [hstreaming]
    rfl
  rcases scoreFrame_cases h with ⟨hrow, -, ⟨hend, -⟩ | ⟨-, rfl, rfl⟩⟩ |
    ⟨row, best, -, -, rfl, ⟨-, rfl⟩ | ⟨b, -, rfl⟩⟩
  · rw [hended] at hend
    cases hend
  · rw [hused]
    exact ⟨hstreaming, by simp, fun _ => ⟨rfl, rfl, hrow⟩⟩
  · rw [hused]
    exact ⟨hstreaming, by simp, fun hend => absurd hend (by simp [hended])⟩
  · exact ⟨hstreaming, by simp, fun hend => absurd hend (by simp [hended])⟩

end AcousticSource

namespace Search

/-- **Between calls** nothing is left to purge once the end of the table was reported. -/
structure Rested (s : Search) : Prop where
  streaming : s.pass.source.streaming = false
  ended : s.pass.source.endReported = true → s.pass.source.Ended ∧
    (s.settings.buildLattice = true → s.lattice.purgeIn s.store = .ok s.lattice)

/-- **Within a call,** before the end of the table is reported. -/
structure Awake (s : Search) : Prop where
  streaming : s.pass.source.streaming = false
  notEnded : s.pass.source.endReported = false
  live : s.streamEnded = false

/-- **At the end of a call** that did not begin at the end of the table. -/
structure Drained (s : Search) : Prop where
  streaming : s.pass.source.streaming = false
  ended : s.pass.source.endReported = true → s.pass.source.Ended
  live : s.streamEnded = false

variable {s t : Search}

theorem Awake.drained (h : s.Awake) : s.Drained :=
  ⟨h.streaming, fun hend => by simp [h.notEnded] at hend, h.live⟩

theorem Awake.of_pass (h : s.Awake) (hpass : t.pass = s.pass)
    (hlive : t.streamEnded = s.streamEnded) : t.Awake :=
  ⟨hpass ▸ h.streaming, hpass ▸ h.notEnded, hlive ▸ h.live⟩

/-- **A frame is not done** before the end of the table is reported. -/
theorem Awake.stepFrame (h : s.Awake) :
    Outcome (fun r => r.2.Drained ∧ (r.1 = false → r.2.Awake)) (fun h => h.state.Awake)
      s.stepFrame := by
  rw [stepFrame_eq]
  cases hx : s.pass.source.scoreFrame s.store s.beam.tokens with
  | error f => exact h
  | ok r =>
    obtain ⟨outcome, source, store⟩ := r
    obtain ⟨hstreaming, houtcome, hend⟩ :=
      AcousticSource.scoreFrame_of_not_ended h.streaming h.notEnded hx
    cases outcome with
    | exhausted => exact ⟨⟨hstreaming, fun he => (hend he).2, h.live⟩, by simp⟩
    | streamEnd => exact absurd rfl houtcome
    | scored best =>
      have hheard : (s.heard source store).Awake :=
        ⟨hstreaming, Bool.eq_false_iff.2 fun he => absurd (hend he).1 (by simp), h.live⟩
      dsimp only
      split
      · exact hheard
      · next beam _ =>
        have hmoved : ((s.heard source store).moved beam).Awake := hheard.of_pass rfl rfl
        split
        · exact ⟨hmoved.drained, fun _ => hmoved⟩
        · refine ((grow_spares _).mono (fun _ h' => hmoved.of_pass h'.pass h'.streamEnded)
            fun _ h' => hmoved.of_pass h'.pass h'.streamEnded).map _
            fun _ h' => ⟨h'.drained, fun _ => h'⟩

theorem Awake.stepFrames : ∀ (n : Nat) {s : Search}, s.Awake →
    Outcome (fun r => r.2.Drained ∧ (r.1 = false → r.2.Awake)) (fun h => h.state.Awake)
      (stepFrames n s)
  | 0, _, h => ⟨h.drained, fun _ => h⟩
  | n + 1, s, h => by
    unfold Search.stepFrames
    rw [lookAhead_eq]
    cases hf : s.fastMatch.step with
    | error err => exact h
    | ok fastMatch =>
      have hframe : Awake { s with fastMatch := fastMatch.dropOldest, memo := s.memo.forget } :=
        h.of_pass rfl rfl
      refine hframe.stepFrame.bind ?_
      rintro ⟨done, t⟩ ⟨hdrained, hawake⟩
      cases done
      · exact (hawake rfl).stepFrames n
      · exact ⟨hdrained, by simp⟩

/-- **After the end of the table** a frame goes no further than the fast match. -/
theorem stepFrames_of_ended (h : s.pass.source.Ended) (n : Nat) :
    stepFrames (n + 1) s =
      match s.fastMatch.step with
      | .error err => .error ⟨err, s⟩
      | .ok fastMatch => .ok (true,
        { ({ s with fastMatch := fastMatch.dropOldest, memo := s.memo.forget } : Search).heard
            s.pass.source s.store with streamEnded := true }) := by
  unfold stepFrames
  rw [lookAhead_eq]
  cases s.fastMatch.step with
  | error err => rfl
  | ok fastMatch =>
    simp only [bind, Except.bind, stepFrame_eq, h.scoreFrame]
    rfl

/-- A call that begins before the end of the table leaves nothing to purge at its end. -/
theorem Awake.concluded (h : s.Awake) (ht : s.Tidy) (initial frames : Nat) :
    Outcome (fun r => r.2.Rested) (fun h => h.state.Rested)
      (Search.stepFrames frames s >>= Search.conclude initial) := by
  have htidy := ((ht.abreast s.lattice).stepFrames frames).left
  refine (((h.stepFrames frames).and (htidy.mono (fun _ h => h) fun _ _ => trivial)).mono
    (fun _ h => h) fun h hh => (⟨hh.streaming, fun he => ?_⟩ : h.state.Rested)).bind ?_
  · simp [hh.notEnded] at he
  · rintro r ⟨⟨hdrained, -⟩, _, -, habreast⟩
    unfold Search.conclude
    rw [hdrained.live, habreast.tidy.purgeIn]
    split
    · contradiction
    · split
      · refine ⟨hdrained.streaming, fun he => ⟨hdrained.ended he, fun _ => ?_⟩⟩
        have hpurged := ((habreast.tidy.noted.purge r.2.store.score).mono (fun _ h => h)
          fun _ h => h.1).purgeIn
        rwa [Lattice.purge_purge] at hpurged
      · next hbuild => exact ⟨hdrained.streaming, fun he =>
          ⟨hdrained.ended he, fun hbuild' => absurd hbuild' hbuild⟩⟩

/-- A call that begins at the end of the table purges nothing. -/
theorem Rested.concluded (h : s.Rested) (hend : s.pass.source.endReported = true)
    (initial frames : Nat) :
    Outcome (fun r => r.2.Rested) (fun h => h.state.Rested)
      (Search.stepFrames frames s >>= Search.conclude initial) := by
  obtain ⟨hended, hpurged⟩ := h.ended hend
  cases frames with
  | zero =>
    refine conclude_outcome initial (false, s) h fun lattice hbuild hl => ?_
    cases (hpurged hbuild).symm.trans hl
    exact h
  | succ n =>
    rw [stepFrames_of_ended hended n]
    cases s.fastMatch.step with
    | error err => exact h
    | ok fastMatch => exact ⟨h.streaming, h.ended⟩

/-- **A call leaves nothing to purge** once the end of the table was reported. -/
theorem Rested.recognize (h : s.Rested) (ht : s.Tidy) (frames : Nat) :
    Outcome (fun r => r.2.Rested) (fun h => h.state.Rested) (s.recognize frames) := by
  cases hi : s.initial with
  | none =>
    rw [recognize_eq, hi]
    exact h
  | some initial =>
    have hbegin : ({ s with streamEnded := false } : Search).Tidy :=
      ⟨ht.selects, ht.fits, ht.closed, ht.noted⟩
    have hrested : ({ s with streamEnded := false } : Search).Rested := ⟨h.streaming, h.ended⟩
    rw [recognize_of_started hi]
    cases hend : s.pass.source.endReported with
    | false =>
      have hawake : ({ s with streamEnded := false } : Search).Awake := ⟨h.streaming, hend, rfl⟩
      exact hawake.concluded hbegin initial frames
    | true => exact hrested.concluded hend initial frames

theorem Rested.start (h : s.Rested) : Outcome Rested (fun h => h.state.Rested) s.start := by
  have hforgotten : s.forgotten.Rested := ⟨h.streaming, fun he =>
    ⟨(h.ended he).1, fun _ => (Lattice.over_clear (K := fun _ => True)).purgeIn⟩⟩
  rw [start_eq]
  split
  · exact hforgotten
  · split
    · exact hforgotten
    · next fastMatch _ _ seed _ =>
      have hbegun : ∀ s' : Search, s'.pass = (s.begun fastMatch seed).pass → s'.Rested :=
        fun s' hpass => ⟨hpass ▸ h.streaming, fun he => by
          rw [hpass] at he
          cases he⟩
      exact (grow_spares _).mono (fun _ h' => hbegun _ h'.pass) fun _ h' => hbegun _ h'.pass

/-- **Whatever a search is asked,** nothing is left to purge between the calls once the end of the
table was reported. -/
theorem Rested.after : ∀ (calls : List Call) {s : Search}, s.Rested → s.Tidy →
    (s.after calls).Rested ∧ (s.after calls).Tidy
  | [], _, h, ht => ⟨h, ht⟩
  | c :: calls, s, h, ht => by
    refine Rested.after calls (s := (s.perform c).2) ?_ (ht.perform c)
    cases c with
    | recognize frames => exact perform_recognize (h.recognize ht frames)
    | start => exact perform_start h.start

/-! ## Two calls are one -/

/-- What a call leaves that has an answer: its frames, with the alternates purged if there are
any. -/
theorem exists_of_recognize {frames : Nat} {r : Recognition} {s₁ : Search}
    (h : s.recognize frames = .ok (some r, s₁)) : ∃ initial t, s.initial = some initial ∧
      stepFrames frames { s with streamEnded := false } = .ok (r.isFinal, t) ∧
      r.frame = t.frame ∧ t.streamEnded = false ∧
      (t.settings.buildLattice = false ∧ s₁ = t ∨ t.settings.buildLattice = true ∧
        ∃ lattice, t.lattice.purgeIn t.store = .ok lattice ∧ s₁ = { t with lattice }) := by
  obtain ⟨initial, hi⟩ : ∃ initial, s.initial = some initial := by
    rw [← Option.isSome_iff_exists, ← Option.ne_none_iff_isSome]
    intro hi
    rw [recognize_eq, hi] at h
    cases h
  rw [recognize_of_started hi] at h
  cases hx : stepFrames frames { s with streamEnded := false } with
  | error err =>
    rw [hx] at h
    cases h
  | ok x =>
    obtain ⟨done, t⟩ := x
    rw [hx] at h
    obtain ⟨hnone, -⟩ | ⟨hsome, hlive, hlattice⟩ := conclude_eq_ok (r := (done, t)) h
    · cases hnone
    · cases hsome
      exact ⟨initial, t, hi, rfl, rfl, hlive, hlattice⟩

/-- **The purge at the end of a call** does not show at the end of the next one. -/
theorem Awake.conclude_purged (h : t.Awake) (ht : t.Tidy) (hbuild : t.settings.buildLattice = true)
    (initial frames : Nat) :
    (Search.stepFrames frames { t with lattice := t.lattice.purge t.store.score } >>=
        Search.conclude initial).mapError Halted.error =
      (Search.stepFrames frames t >>= Search.conclude initial).mapError Halted.error := by
  have hframes := ((ht.abreast (t.lattice.purge t.store.score)).stepFrames frames).and_left
    (h.stepFrames frames)
  refine (Matched.mapError_eq (Matched.bind (hframes.mono (fun _ _ h => h) fun _ _ h => h.1)
    fun r r' hr => ?_)).symm
  obtain ⟨done, u⟩ := r
  obtain ⟨done', u'⟩ := r'
  obtain ⟨⟨hdone, habreast⟩, ⟨-, -, hlive⟩, -⟩ := hr
  cases hdone
  have hbuild' : u.settings.buildLattice = true := by rw [habreast.settings, hbuild]
  have hpurge := habreast.purgeIn_eq ht
  obtain ⟨edges, -, -, rfl⟩ := habreast.recorded
  unfold Search.conclude
  dsimp only at hlive hpurge ⊢
  rw [hlive, hbuild', hpurge]
  cases u.lattice.purgeIn u.store <;> rfl

/-- **Two calls are one,** if the first one does not come to the end of the table. -/
theorem recognize_add (hr : s.Rested) (ht : s.Tidy) {a b : Nat} {r : Recognition} {s₁ : Search}
    (h : s.recognize a = .ok (some r, s₁)) (hfinal : r.isFinal = false) :
    (s₁.recognize b).mapError Halted.error = (s.recognize (a + b)).mapError Halted.error := by
  obtain ⟨initial, t, hi, hframes, -, hlive, hlattice⟩ := exists_of_recognize h
  have hbegin : ({ s with streamEnded := false } : Search).Tidy :=
    ⟨ht.selects, ht.fits, ht.closed, ht.noted⟩
  obtain ⟨_, -, habreast⟩ := ((hbegin.abreast s.lattice).stepFrames a).left.of_ok hframes
  rw [hfinal] at hframes
  -- the frames of one call go on from `t`, those of the second call from `t` with a purged lattice
  have hone : s.recognize (a + b) = stepFrames b t >>= conclude initial := by
    rw [recognize_of_started hi, stepFrames_add, hframes]
    rfl
  have hti : t.initial = some initial := habreast.initial.trans hi
  have htwo : ∀ lattice, ({ t with lattice } : Search).recognize b =
      stepFrames b { t with lattice } >>= conclude initial := by
    intro lattice
    rw [recognize_of_started (s := { t with lattice }) hti,
      eq_of_live (s := { t with lattice }) hlive]
  rw [hone]
  obtain ⟨-, rfl⟩ | ⟨hbuild, lattice, hl, rfl⟩ := hlattice
  · rw [show s₁.recognize b = _ from htwo s₁.lattice]
  rw [htwo lattice]
  cases hend : s.pass.source.endReported with
  | false =>
    have hawake : ({ s with streamEnded := false } : Search).Awake := ⟨hr.streaming, hend, rfl⟩
    rw [habreast.tidy.purgeIn] at hl
    cases hl
    exact (((hawake.stepFrames a).of_ok hframes).2 rfl).conclude_purged habreast.tidy hbuild initial b
  | true =>
    -- nothing was decoded, and there was nothing left to purge
    obtain ⟨hended, hpurged⟩ := hr.ended hend
    cases a with
    | zero =>
      cases hframes
      rw [hpurged hbuild] at hl
      cases hl
      rfl
    | succ n =>
      rw [stepFrames_of_ended (s := { s with streamEnded := false }) hended n] at hframes
      dsimp only at hframes
      split at hframes <;> cases hframes

theorem rested_new {rows : Array (Array Score)} (h : s.pass.source = .ofRows rows false) :
    s.Rested := by
  refine ⟨by rw [h]; rfl, fun he => ?_⟩
  rw [h] at he
  cases he

/-- **How an utterance is cut into calls does not matter.**  If some frames are decoded without
coming to the end of the table, and then some more, then the answer to the second call and the
search that it leaves are those of one call for all of the frames. -/
theorem perform_recognize_add {settings : SearchSettings} {main fastMatch : Pass}
    {cache : MixtureCache} {s₀ : Search} (h : Search.new settings main fastMatch cache = .ok s₀)
    (hselects : main.pruner.Selects) {rows : Array (Array Score)}
    (hsource : main.source = .ofRows rows false) (calls : List Call) {a b : Nat} {r : Recognition}
    {r' : Option Recognition}
    (hfirst : ((s₀.after calls).perform (.recognize a)).1 = .ok (some r))
    (hfinal : r.isFinal = false)
    (hsecond : (((s₀.after calls).perform (.recognize a)).2.perform (.recognize b)).1 = .ok r') :
    ((s₀.after calls).perform (.recognize a)).2.perform (.recognize b) =
      (s₀.after calls).perform (.recognize (a + b)) := by
  obtain ⟨htidy, hpass⟩ := tidy_new h hselects
  obtain ⟨hr, ht⟩ := (rested_new (hpass ▸ hsource)).after calls htidy
  generalize s₀.after calls = s at *
  have hadd := recognize_add hr ht (recognize_eq_of_perform hfirst) hfinal (b := b)
  rw [recognize_eq_of_perform hsecond] at hadd
  cases hx : s.recognize (a + b) with
  | error err =>
    rw [hx] at hadd
    cases hadd
  | ok x =>
    rw [hx] at hadd
    cases hadd
    rw [perform_eq_of_recognize hx, ← hsecond]

/-- The two frames of the word loop, one by one and together. -/
theorem perform_recognize_add_wordLoop :
    ((WordLoop.search false).after [.start, .recognize 1]).perform (.recognize 1) =
      ((WordLoop.search false).after [.start]).perform (.recognize 2) := by
  have hfirst : (((WordLoop.search false).after [.start]).perform (.recognize 1)).1 =
      .ok (some ⟨[5], [8], false, 0, 1⟩) := by decide +kernel
  have hsecond : (((WordLoop.search false).after [.start, .recognize 1]).perform
      (.recognize 1)).1 = .ok (some ⟨[9], [12], false, 0, 2⟩) := by decide +kernel
  exact perform_recognize_add (WordLoop.search_eq false) Pruner.selects_byWidths rfl [.start] hfirst
    rfl hsecond

end Search

end SpeechDecoder

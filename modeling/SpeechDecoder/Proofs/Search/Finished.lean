import SpeechDecoder.Proofs.Lattice.Purged
import SpeechDecoder.Proofs.Search.Batches
import SpeechDecoder.Proofs.Search.Stored

/-!
# After the end of an utterance

An utterance ends where a frame is not scored: the table is used up, or no token of the beam emits.
From then on no frame is scored, whatever rows are left, and what a call purges has been purged.  So
a later call goes on with the fast match, empties the window and counts, and leaves all that was
found as it is.

* `Finished` is the invariant: no frame can be scored, and there is nothing to purge.
* `Unmoved` says what two searches have in common of which the second one was asked to go on after
  the end; `Finished.after` carries it through any number of calls.
* `finished_of_answer` says that the call at the end leaves such a search, and `unmoved_after` is
  the theorem about all later calls.
-/

namespace SpeechDecoder

/-- **A frame that was not scored** changes no token: nothing was looked at, or no token emits. -/
theorem AcousticSource.store_of_not_scored {src src' : AcousticSource} {a a' : Store}
    {ids : List Nat} {outcome : ScoreOutcome}
    (h : src.scoreFrame a ids = .ok (outcome, src', a'))
    (hno : ∀ best, outcome ≠ .scored best) : a' = a := by
  rcases scoreFrame_eq_ok h with ⟨-, ha, -⟩ | ⟨row, -, -, -, -, hget, hsilent⟩
  · exact ha
  · refine Store.ext_get? fun id => ?_
    rw [hget id]
    cases ht : a.get? id with
    | none => rfl
    | some t =>
      rw [Option.map_some, Option.some_inj]
      by_cases hid : id ∈ ids
      · exact Function.iterate_fixed (Token.heard_of_not_emitting row t (hsilent hno id hid t ht)) _
      · rw [List.count_eq_zero_of_not_mem hid]
        rfl

namespace Search

/-- **A search at the end of its utterance:** no frame can be scored any more, and the alternates
are purged. -/
structure Finished (size : Nat) (fast : Pass) (s : Search) : Prop where
  sound : s.Sealed size fast
  started : s.initial.isSome = true
  unscored : s.scoring? = none
  purged : s.settings.buildLattice = true → s.lattice.purgeIn s.store = .ok s.lattice

/-- **What a search has found** is what the other one had found. -/
structure Unmoved (s t : Search) : Prop where
  store : t.store = s.store
  beam : t.beam = s.beam
  results : t.results = s.results
  lattice : t.lattice = s.lattice
  residents : t.residents = s.residents
  frame : t.frame = s.frame

variable {size : Nat} {fast : Pass} {s t u : Search}

theorem Unmoved.trans (h : s.Unmoved t) (h' : t.Unmoved u) : s.Unmoved u :=
  ⟨h'.store.trans h.store, h'.beam.trans h.beam, h'.results.trans h.results,
    h'.lattice.trans h.lattice, h'.residents.trans h.residents, h'.frame.trans h.frame⟩

/-- **An answer after the end:** none, or that the utterance is done, with what was found in it. -/
def TellsEnd (s : Search) (answer : Option Recognition) : Prop :=
  ∀ r ∈ answer, r.isFinal = true ∧ r.active = s.beam.tokens ∧ r.results = s.results ∧
    r.frame = s.frame

/-! ## Calls after the end -/

/-- The fast match, the penalties and the end of the stream are no concern of it. -/
theorem Finished.aside (h : s.Finished size fast) {fastMatch : FastMatch}
    (hready : fastMatch.Ready size fast) (memo : PenaltyMemo) (streamEnded : Bool) :
    Finished size fast { s with fastMatch, memo, streamEnded } :=
  ⟨h.sound.aside hready memo streamEnded, h.started, h.unscored, h.purged⟩

/-- **A frame that cannot be scored** moves the source, at most. -/
theorem Finished.stepFrame (h : s.Finished size fast) : ∃ t, s.stepFrame = .ok (true, t) ∧
    t.Finished size fast ∧ s.Unmoved t ∧ t.fastMatch = s.fastMatch := by
  obtain ⟨⟨outcome, source, store⟩, hx⟩ := s.pass.source.exists_scoreFrame h.sound.primed.stored
  have hno : ∀ best, outcome ≠ .scored best := by
    rintro best rfl
    have hunscored := h.unscored
    simp [scoring?, hx] at hunscored
  cases AcousticSource.store_of_not_scored hx hno
  obtain ⟨streamEnded, hframe⟩ : ∃ streamEnded,
      s.stepFrame = .ok (true, { s.heard source s.store with streamEnded }) := by
    rw [stepFrame_eq, hx]
    cases outcome with
    | scored best => exact absurd rfl (hno best)
    | exhausted => exact ⟨s.streamEnded, rfl⟩
    | streamEnd => exact ⟨true, rfl⟩
  exact ⟨_, hframe, ⟨h.sound.stepFrame.of_ok hframe, h.started, scoring?_of_done hframe rfl rfl rfl,
    h.purged⟩, ⟨rfl, rfl, rfl, rfl, rfl, rfl⟩, rfl⟩

/-- **The first frame of a call** after the end is its last one. -/
theorem Finished.stepFrames (h : s.Finished size fast) (n : Nat) : ∃ t f,
    Search.stepFrames (n + 1) s = .ok (true, t) ∧ s.fastMatch.step = .ok f ∧
      t.fastMatch = f.dropOldest ∧ t.Finished size fast ∧ s.Unmoved t := by
  obtain ⟨f, hf, hready⟩ := h.sound.ready.step
  have hahead := h.aside hready.dropOldest s.memo.forget s.streamEnded
  obtain ⟨t, hframe, hfinished, hunmoved, hfast⟩ := hahead.stepFrame
  refine ⟨t, f, ?_, hf, hfast, hfinished, hunmoved.store, hunmoved.beam, hunmoved.results,
    hunmoved.lattice, hunmoved.residents, hunmoved.frame⟩
  rw [stepFrames_succ, lookAhead_eq, hf]
  simp only [bind, Except.bind, hframe, if_true]

/-- **The end of a call** after the end purges nothing. -/
theorem Finished.conclude (h : s.Finished size fast) (initial : Nat) (done : Bool) :
    ∃ answer, Search.conclude initial (done, s) = .ok (answer, s) ∧
      ∀ r ∈ answer, r = ⟨s.beam.tokens, s.results, done, initial, s.frame⟩ := by
  unfold Search.conclude
  dsimp only
  split
  · exact ⟨none, rfl, by simp⟩
  · split
    · next hbuild =>
      rw [h.purged hbuild]
      exact ⟨_, rfl, by simp⟩
    · exact ⟨_, rfl, by simp⟩

/-- **A call that decodes some frames after the end.** -/
theorem Finished.recognize (h : s.Finished size fast) {n : Nat} (hn : 1 ≤ n) : ∃ answer t f,
    s.recognize n = .ok (answer, t) ∧ s.fastMatch.step = .ok f ∧ t.fastMatch = f.dropOldest ∧
      t.Finished size fast ∧ s.Unmoved t ∧ s.TellsEnd answer := by
  obtain ⟨initial, hi⟩ := Option.isSome_iff_exists.1 h.started
  obtain ⟨n, rfl⟩ := Nat.exists_eq_succ_of_ne_zero (Nat.pos_iff_ne_zero.1 hn)
  obtain ⟨t, f, hsteps, hf, hfast, hfinished, hunmoved⟩ :=
    (h.aside h.sound.ready s.memo false).stepFrames n
  obtain ⟨answer, hconclude, htells⟩ := hfinished.conclude initial true
  have hrecognize : s.recognize (n + 1) = .ok (answer, t) := by
    rw [recognize_of_started hi, hsteps]
    exact hconclude
  refine ⟨answer, t, f, hrecognize, hf, hfast, hfinished,
    ⟨hunmoved.store, hunmoved.beam, hunmoved.results, hunmoved.lattice, hunmoved.residents,
      hunmoved.frame⟩, fun r hr => ?_⟩
  rw [htells r hr]
  exact ⟨rfl, congrArg Beam.tokens hunmoved.beam, hunmoved.results, hunmoved.frame⟩

/-- **Any call,** also one for no frames. -/
theorem Finished.perform (h : s.Finished size fast) (n : Nat) :
    (s.perform (.recognize n)).2.Finished size fast ∧
      s.Unmoved (s.perform (.recognize n)).2 := by
  cases n with
  | zero =>
    obtain ⟨initial, hi⟩ := Option.isSome_iff_exists.1 h.started
    have hlive := h.aside h.sound.ready s.memo false
    obtain ⟨answer, hconclude, -⟩ := hlive.conclude initial false
    have hrecognize : s.recognize 0 = .ok (answer, { s with streamEnded := false }) := by
      rw [recognize_of_started hi]
      exact hconclude
    rw [perform_eq_of_recognize hrecognize]
    exact ⟨hlive, rfl, rfl, rfl, rfl, rfl, rfl⟩
  | succ n =>
    obtain ⟨answer, t, f, hrecognize, -, -, hfinished, hunmoved, -⟩ :=
      h.recognize (Nat.succ_le_succ (Nat.zero_le n))
    rw [perform_eq_of_recognize hrecognize]
    exact ⟨hfinished, hunmoved⟩

/-- **The end lasts,** by induction on the calls. -/
theorem Finished.after : ∀ (frames : List Nat) {s : Search}, s.Finished size fast →
    (s.after (frames.map .recognize)).Finished size fast ∧
      s.Unmoved (s.after (frames.map .recognize))
  | [], _, h => ⟨h, rfl, rfl, rfl, rfl, rfl, rfl⟩
  | n :: frames, s, h => by
    obtain ⟨hfinished, hunmoved⟩ := h.perform n
    obtain ⟨hlast, hrest⟩ := Finished.after frames hfinished
    exact ⟨hlast, hunmoved.trans hrest⟩

/-! ## The call at the end -/

/-- Frames that end the utterance leave no frame to be scored, and only these end the stream. -/
theorem scoring?_of_stepFrames : ∀ (n : Nat) {s : Search} {done : Bool},
    Search.stepFrames n s = .ok (done, t) →
      if done then t.scoring? = none else t.streamEnded = s.streamEnded
  | 0, s, done, h => by
    cases h
    rfl
  | n + 1, s, done, h => by
    obtain ⟨s₁, first, u, ha, hx, ⟨rfl, rfl, rfl⟩ | ⟨rfl, hlater⟩⟩ := stepFrames_succ_eq_ok h
    · exact scoring?_of_done hx rfl rfl rfl
    · have hrest := scoring?_of_stepFrames n hlater
      obtain ⟨f, -, rfl⟩ := lookAhead_eq_ok ha
      rcases stepFrame_cases hx with ⟨hfalse, -⟩ | ⟨-, -, -, hu, -⟩
      · cases hfalse
      · rwa [hu] at hrest

/-- Without input there is nothing to tell and nothing to purge. -/
theorem conclude_of_streamEnded {initial : Nat} {r : Bool × Search} (h : r.2.streamEnded = true) :
    Search.conclude initial r = .ok (none, r.2) := by
  unfold Search.conclude
  rw [if_pos h]

/-- **A call without an answer** found the table used up when it began. -/
theorem Rested.ended_of_streamEnded (h : s.Rested) {n : Nat} {done : Bool}
    (hx : Search.stepFrames n { s with streamEnded := false } = .ok (done, t))
    (hended : t.streamEnded = true) : t.pass.source.endReported = true := by
  cases hend : s.pass.source.endReported with
  | false =>
    have hawake : ({ s with streamEnded := false } : Search).Awake := ⟨h.streaming, hend, rfl⟩
    have hlive := ((hawake.stepFrames n).of_ok hx).1.live
    rw [hended] at hlive
    cases hlive
  | true =>
    cases n with
    | zero =>
      cases hx
      cases hended
    | succ n =>
      rw [stepFrames_of_ended (s := { s with streamEnded := false }) (h.ended hend).1 n] at hx
      split at hx
      · cases hx
      · cases hx
        exact hend

/-- **The call that comes to the end of an utterance,** or finds itself there. -/
theorem finished_of_answer (hs : s.Sealed size fast) (hr : s.Rested) {n : Nat}
    {ending : Option Recognition} (hx : s.recognize n = .ok (ending, t))
    (hfinal : ∀ r ∈ ending, r.isFinal = true) : t.Finished size fast ∧ t.TellsEnd ending := by
  have hsealed := (hs.recognize n).of_ok hx
  have hrested := (hr.recognize hs.primed.tidy n).of_ok hx
  have hlive := hs.aside hs.ready s.memo false
  rw [recognize_eq] at hx
  split at hx
  · cases hx
  · next initial hi =>
    cases hsteps : Search.stepFrames n { s with streamEnded := false } with
    | error err =>
      rw [hsteps] at hx
      cases hx
    | ok x =>
      obtain ⟨done, u⟩ := x
      have hstarted : u.initial.isSome = true := by
        obtain ⟨_, -, habreast⟩ := ((hlive.primed.tidy.abreast s.lattice).stepFrames n).left.of_ok
          hsteps
        rw [habreast.initial]
        exact hi ▸ rfl
      have hend := scoring?_of_stepFrames n hsteps
      rw [hsteps] at hx
      replace hx : Search.conclude initial (done, u) = .ok (ending, t) := hx
      rcases conclude_eq_ok hx with ⟨rfl, hended⟩ | ⟨rfl, -, hlattice⟩
      · -- the stream has ended, so the table was used up before, and the alternates were purged
        have htu : t = u := by
          rw [conclude_of_streamEnded hended] at hx
          cases hx
          rfl
        cases done with
        | false =>
          rw [if_neg Bool.false_ne_true, hended] at hend
          cases hend
        | true =>
          subst htu
          exact ⟨⟨hsealed, hstarted, hend, (hrested.ended (hr.ended_of_streamEnded hsteps hended)).2⟩,
            fun r hr => by cases hr⟩
      · have hdone : done = true := hfinal _ rfl
        subst hdone
        rcases hlattice with ⟨hoff, rfl⟩ | ⟨-, lattice, hl, rfl⟩
        · refine ⟨⟨hsealed, hstarted, hend, fun hon => ?_⟩, fun r hr => ?_⟩
          · rw [hon] at hoff
            cases hoff
          · cases hr
            exact ⟨rfl, rfl, rfl, rfl⟩
        · refine ⟨⟨hsealed, hstarted, hend, fun _ => ?_⟩, fun r hr => ?_⟩
          · rw [((hlive.stepFrames n).of_ok hsteps).primed.tidy.purgeIn] at hl
            cases hl
            exact u.lattice.purgeIn_purge _ _
          · cases hr
            exact ⟨rfl, rfl, rfl, rfl⟩

/-- **The end of an utterance is absorbing.**  Once a call has been answered that the utterance is
done, or has been given no answer, every later call for at least one frame is given none or the
answer that the utterance is done, with the same beam, results and frame, until an utterance is
started.  The store, the beam, the results, the alternates, the tokens on the states and the frame
stay as they are, also through calls for no frame; the fast match takes a step in every call, and
the window loses a frame. -/
theorem unmoved_after {settings : SearchSettings} {main : Pass} {cache : MixtureCache}
    {s₀ : Search} (h : Search.new settings main fast cache = .ok s₀) (hmain : main.pruner.Selects)
    (hfast : fast.pruner.Selects) {rows : Array (Array Score)}
    (hsource : main.source = .ofRows rows false) (calls : List Call) {n₀ : Nat}
    {ending : Option Recognition}
    (hending : ((s₀.after calls).perform (.recognize n₀)).1 = .ok ending)
    (hfinal : ∀ r ∈ ending, r.isFinal = true) (frames : List Nat) :
    let s₁ := ((s₀.after calls).perform (.recognize n₀)).2
    let s := s₁.after (frames.map .recognize)
    s₁.TellsEnd ending ∧ s₁.Unmoved s ∧
      ∀ n, 1 ≤ n → ∃ answer f, (s.perform (.recognize n)).1 = .ok answer ∧ s₁.TellsEnd answer ∧
        s₁.Unmoved (s.perform (.recognize n)).2 ∧ s.fastMatch.step = .ok f ∧
        (s.perform (.recognize n)).2.fastMatch = f.dropOldest := by
  intro s₁ s
  obtain ⟨htidy, hpass⟩ := tidy_new h hmain
  have hrested := ((rested_new (hpass ▸ hsource)).after calls htidy).1
  obtain ⟨hfinished, htells⟩ := finished_of_answer ((sealed_new h hmain hfast).after calls) hrested
    (recognize_eq_of_perform hending) hfinal
  obtain ⟨hlast, hunmoved⟩ := hfinished.after frames
  refine ⟨htells, hunmoved, fun n hn => ?_⟩
  obtain ⟨answer, t, f, hrecognize, hf, hmatch, -, hsame, hanswer⟩ := hlast.recognize hn
  have hperform := perform_eq_of_recognize hrecognize
  refine ⟨answer, f, congrArg Prod.fst hperform, fun r hr => ?_, ?_, hf, ?_⟩
  · obtain ⟨hdone, hactive, hresults, hframe⟩ := hanswer r hr
    exact ⟨hdone, hactive.trans (congrArg Beam.tokens hunmoved.beam),
      hresults.trans hunmoved.results, hframe.trans hunmoved.frame⟩
  · rw [hperform]
    exact hunmoved.trans hsame
  · rw [hperform]
    exact hmatch

/-- The third frame of the word loop is not scored any more, and the calls that follow leave what was
found in the first two. -/
theorem unmoved_after_wordLoop :
    let s₁ := (((WordLoop.search false).after [.start]).perform (.recognize 3)).2
    let s := s₁.after [.recognize 0, .recognize 2]
    (((WordLoop.search false).after [.start]).perform (.recognize 3)).1 =
        .ok (some ⟨[9], [12], true, 0, 2⟩) ∧
      s₁.Unmoved s ∧ s₁.Unmoved (s.perform (.recognize 1)).2 ∧
      (s.perform (.recognize 1)).1 = .ok none := by
  intro s₁ s
  have hending : (((WordLoop.search false).after [.start]).perform (.recognize 3)).1 =
      .ok (some ⟨[9], [12], true, 0, 2⟩) := by decide +kernel
  obtain ⟨-, hunmoved, hlater⟩ := unmoved_after (WordLoop.search_eq false) Pruner.selects_byWidths
    Pruner.selects_byWidths rfl [.start] hending (by simp) [0, 2]
  obtain ⟨answer, f, -, -, hnext, -⟩ := hlater 1 le_rfl
  exact ⟨hending, hunmoved, hnext, by decide +kernel⟩

end Search

end SpeechDecoder

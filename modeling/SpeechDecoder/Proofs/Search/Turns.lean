import SpeechDecoder.Proofs.Search.Ahead
import SpeechDecoder.Proofs.Search.FastMatch

/-!
# The turns of an utterance

A call decodes frames in turns: in every turn the fast match goes one frame further, and then the
search does.  A turn is counted whether or not a frame is scored in it.

* `turns` lists the search in every turn of some calls, as the frame finds it.
* `Turning` is what an invariant that counts turns has to survive, and `Turning.after` the induction
  over the calls.
* `aligned_after` is the schedule of an utterance: which frames the window holds after so many turns.
-/

namespace SpeechDecoder.Search

/-- **The search in every turn** of up to so many: after the lookahead, before the frame. -/
def turnsOf : Nat → Search → List Search
  | 0, _ => []
  | n + 1, s =>
    match s.lookAhead with
    | .error _ => []
    | .ok t => t ::
      match t.stepFrame with
      | .ok (false, u) => turnsOf n u
      | _ => []

/-- The search in every turn of a call for some frames. -/
def turnsIn (s : Search) (frames : Nat) : List Search :=
  if s.initial.isSome then turnsOf frames { s with streamEnded := false } else []

/-- **The search in every turn** of some calls, each for so many frames. -/
def turns (s : Search) : List Nat → List Search
  | [] => []
  | n :: frames => s.turnsIn n ++ (s.perform (.recognize n)).2.turns frames

/-- **The answers to some calls.** -/
def answers (s : Search) : List Call → List (Except SearchError (Option Recognition))
  | [] => []
  | c :: calls => (s.perform c).1 :: (s.perform c).2.answers calls

/-- **What every turn keeps** holds in all of them, by induction on their number. -/
theorem Steady.turnsOf {Q : Search → Prop} (hQ : Steady fun _ => Q) : ∀ (n : Nat) {s : Search},
    Q s → ∀ t ∈ Search.turnsOf n s, Q t
  | 0, _, _, _, ht => by cases ht
  | n + 1, s, h, t, ht => by
    unfold Search.turnsOf at ht
    rw [lookAhead_eq] at ht
    split at ht
    · cases ht
    · next u hu =>
      split at hu
      · cases hu
      · next fastMatch _ =>
        cases hu
        have hahead := hQ.aside [] s fastMatch.dropOldest s.memo.forget s.streamEnded h
        rcases List.mem_cons.1 ht with rfl | ht
        · exact hahead
        · split at ht
          · next v hv => exact Steady.turnsOf hQ n ((hQ.stepFrame [] _ hahead).of_ok hv) t ht
          · cases ht

/-! ## Invariants that count turns -/

/-- **What an invariant has to survive that counts the turns of an utterance.**  `P` holds between
the turns and `Q` within them; an error in `E` ends it. -/
structure Turning (E : SearchError → Prop) (P Q : Nat → Search → Prop) : Prop where
  live : ∀ k s, P k s → P k { s with streamEnded := false }
  turn : ∀ k s, P k s → s.streamEnded = false → ∃ t, s.lookAhead = .ok t ∧ Q (k + 1) t ∧
    Outcome (fun r => P (k + 1) r.2) (fun h => E h.error ∨ P (k + 1) h.state) t.stepFrame
  purge : ∀ k s lattice, P k s → s.lattice.purgeIn s.store = .ok lattice →
    P k { s with lattice }

variable {E : SearchError → Prop} {P Q : Nat → Search → Prop} {s t u : Search} {k : Nat}

/-- **Up to so many turns,** by induction on their number. -/
theorem Turning.stepFrames (hT : Turning E P Q) : ∀ (n : Nat) {k : Nat} {s : Search}, P k s →
    s.streamEnded = false →
    Outcome (fun r => P (k + (turnsOf n s).length) r.2)
      (fun h => E h.error ∨ P (k + (turnsOf n s).length) h.state) (stepFrames n s) ∧
    ∀ (i : Nat) t, (turnsOf n s)[i]? = some t → Q (k + i + 1) t
  | 0, _, _, h, _ => ⟨h, by simp [turnsOf]⟩
  | n + 1, k, s, h, hlive => by
    obtain ⟨t, ha, hQ, hframe⟩ := hT.turn k s h hlive
    have hsplit : turnsOf (n + 1) s = t ::
        match t.stepFrame with
        | .ok (false, u) => turnsOf n u
        | _ => [] := by
      conv_lhs => unfold turnsOf
      simp only [ha]
    rw [stepFrames_succ, ha, hsplit]
    simp only [bind, Except.bind]
    have hfirst : ∀ (i : Nat) v, [t][i]? = some v → Q (k + i + 1) v := by
      intro i v hv
      cases i with
      | zero =>
        cases hv
        exact hQ
      | succ i => cases hv
    cases hx : t.stepFrame with
    | error err => exact ⟨hframe.of_error hx, hfirst⟩
    | ok r =>
      obtain ⟨done, u⟩ := r
      have hu := hframe.of_ok hx
      cases done with
      | true => exact ⟨hu, hfirst⟩
      | false =>
        have hlive' : u.streamEnded = false := by
          obtain ⟨fastMatch, -, rfl⟩ := lookAhead_eq_ok ha
          rcases stepFrame_cases hx with ⟨hfalse, -⟩ | ⟨-, -, -, hkept, -⟩
          · cases hfalse
          · exact hkept.trans hlive
        obtain ⟨hrest, hturns⟩ := hT.stepFrames n hu hlive'
        refine ⟨?_, fun i v hv => ?_⟩
        · simp only [List.length_cons]
          rw [show k + ((turnsOf n u).length + 1) = k + 1 + (turnsOf n u).length by omega]
          exact hrest
        · cases i with
          | zero =>
            cases hv
            exact hQ
          | succ i =>
            have := hturns i v hv
            rwa [show k + 1 + i + 1 = k + (i + 1) + 1 by omega] at this

/-- **One call.** -/
theorem Turning.recognize (hT : Turning E P Q) (h : P k s) (n : Nat)
    (hanswer : ∀ err, (s.perform (.recognize n)).1 = .error err → ¬ E err) :
    P (k + (s.turnsIn n).length) (s.perform (.recognize n)).2 ∧
      ∀ (i : Nat) t, (s.turnsIn n)[i]? = some t → Q (k + i + 1) t := by
  have hcall : Outcome (fun r => P (k + (s.turnsIn n).length) r.2)
      (fun h => E h.error ∨ P (k + (s.turnsIn n).length) h.state) (s.recognize n) ∧
      ∀ (i : Nat) t, (s.turnsIn n)[i]? = some t → Q (k + i + 1) t := by
    unfold turnsIn
    cases hi : s.initial with
    | none =>
      rw [recognize_eq, hi]
      exact ⟨.inr h, by simp⟩
    | some initial =>
      obtain ⟨hframes, hturns⟩ := hT.stepFrames n (hT.live k s h) rfl
      rw [recognize_of_started hi, ← hi]
      rw [hi, Option.isSome_some, if_pos rfl, ← hi]
      exact ⟨hframes.bind fun r hr => (conclude_outcome initial r hr fun lattice _ hl =>
        hT.purge _ _ lattice hr hl).mono (fun _ h => h) fun _ h => .inr h, hturns⟩
  refine ⟨?_, hcall.2⟩
  unfold perform at hanswer ⊢
  cases hx : s.recognize n with
  | ok r => simpa only [hx] using hcall.1.of_ok hx
  | error err =>
    simp only [hx] at hanswer
    simpa only [hx] using (hcall.1.of_error hx).resolve_left (hanswer err.error rfl)

/-- **Some calls,** by induction on them. -/
theorem Turning.after (hT : Turning E P Q) : ∀ (frames : List Nat) {k : Nat} {s : Search}, P k s →
    (∀ err, .error err ∈ s.answers (frames.map .recognize) → ¬ E err) →
    P (k + (s.turns frames).length) (s.after (frames.map .recognize)) ∧
      ∀ (i : Nat) t, (s.turns frames)[i]? = some t → Q (k + i + 1) t
  | [], _, _, h, _ => ⟨h, by simp [turns]⟩
  | n :: frames, k, s, h, hanswers => by
    obtain ⟨hcall, hfirst⟩ := hT.recognize h n fun err herr =>
      hanswers err (List.mem_cons.2 (.inl herr.symm))
    obtain ⟨hrest, hlater⟩ := hT.after frames hcall fun err herr =>
      hanswers err (List.mem_cons_of_mem _ herr)
    refine ⟨?_, fun i t ht => ?_⟩
    · rw [show s.turns (n :: frames) = _ ++ _ from rfl, List.length_append, ← Nat.add_assoc]
      exact hrest
    · rw [show s.turns (n :: frames) = _ ++ _ from rfl] at ht
      by_cases hi : i < (s.turnsIn n).length
      · rw [List.getElem?_append_left hi] at ht
        exact hfirst i t ht
      · rw [List.getElem?_append_right (Nat.not_lt.1 hi)] at ht
        have := hlater _ t ht
        rwa [show k + (s.turnsIn n).length + (i - (s.turnsIn n).length) + 1 = k + i + 1 by omega]
          at this

/-! ## The fast match in an utterance -/

theorem stepFrame_spares (s : Search) :
    Outcome (fun r => r.2.fastMatch = s.fastMatch) (fun h => h.state.fastMatch = s.fastMatch)
      s.stepFrame :=
  stepFrame_outcome (Q := fun t => t.fastMatch = s.fastMatch) rfl (fun _ _ _ _ => rfl)
    (fun _ h => h) (fun _ _ h => h) fun t h =>
      (grow_spares t).mono (fun _ h' => h'.fastMatch.trans h) fun _ h' => h'.fastMatch.trans h

variable {size : Nat} {fast : Pass}

/-- **What the turns do to the fast match** counts, whatever the search makes of them: it goes one
step further, and drops a record. -/
theorem turning_fastMatch {P : Nat → FastMatch → Prop}
    (hstep : ∀ k f, P k f → ∃ next, f.step = .ok next ∧ P (k + 1) next.dropOldest) :
    Turning (fun _ => False) (fun k s => P k s.fastMatch) fun k s => P k s.fastMatch where
  live _ _ h := h
  turn k s h _ := by
    obtain ⟨next, hnext, hP⟩ := hstep k s.fastMatch h
    refine ⟨_, by rw [lookAhead_eq, hnext], hP, (stepFrame_spares _).mono (fun r hr => ?_)
      fun err herr => .inr ?_⟩
    · rw [hr]
      exact hP
    · rw [herr]
      exact hP
  purge _ _ _ h _ := h

/-- **What every start and every step of the fast match keep** holds of it after a call. -/
theorem fastMatch_perform {P : FastMatch → Prop}
    (hreset : ∀ f, P f → ∃ next, f.reset = .ok next ∧ P next)
    (hstep : ∀ f, P f → ∃ next, f.step = .ok next ∧ P next.dropOldest) (h : P s.fastMatch)
    (c : Call) : P (s.perform c).2.fastMatch := by
  cases c with
  | recognize n =>
    have hturning := turning_fastMatch (P := fun _ f => P f) fun _ f hf => hstep f hf
    exact (hturning.recognize (k := 0) h n fun _ _ => id).1
  | start =>
    refine perform_start (Q := fun s => P s.fastMatch) ?_
    obtain ⟨f, hf, hP⟩ := hreset s.fastMatch h
    rw [start_eq, hf]
    dsimp only
    split
    · exact h
    · exact (grow_spares _).mono (fun _ h' => h'.fastMatch ▸ hP) fun _ h' => h'.fastMatch ▸ hP

/-- **The fast match is ready** after whatever calls. -/
theorem ready_after : ∀ (calls : List Call) {s : Search}, s.fastMatch.Ready size fast →
    (s.after calls).fastMatch.Ready size fast
  | [], _, h => h
  | c :: calls, s, h => by
    refine ready_after calls (s := (s.perform c).2) (fastMatch_perform (fun f hf => ?_)
      (fun f hf => ?_) h c)
    · obtain ⟨next, hreset, hready, -⟩ := hf.reset
      exact ⟨next, hreset, hready⟩
    · obtain ⟨next, hnext, hready⟩ := hf.step
      exact ⟨next, hnext, hready.dropOldest⟩

/-! ## The search in an utterance -/

/-- An arc that leads to a lower order. -/
def TellsOrder (err : SearchError) : Prop := ∃ s t so to_, err = .stateOrder s t so to_

/-- **A search that only an arc to a lower order halts.** -/
structure Primed (s : Search) : Prop where
  tidy : s.Tidy
  stored : ∀ id ∈ s.beam.tokens, id < s.store.size

/-- The fast match, the penalties and the end of the stream are no concern of it. -/
theorem Primed.aside (h : s.Primed) (fastMatch : FastMatch) (memo : PenaltyMemo)
    (streamEnded : Bool) : Primed { s with fastMatch, memo, streamEnded } :=
  ⟨⟨h.tidy.selects, h.tidy.fits, h.tidy.closed, h.tidy.noted⟩, h.stored⟩

theorem Primed.grow (h : s.Primed) :
    Outcome Primed (fun h => TellsOrder h.error ∧ h.state.Primed) s.grow := by
  have htidy := (h.tidy.grow s.lattice).left
  have hold : ∀ id ∈ s.beam.worthExpanding s.store s.settings.acousticLookahead, id < s.store.size :=
    fun id hid => h.stored id (Beam.mem_worthExpanding hid)
  have hrun := (Expansion.Sound.start (g := s.growth) h.tidy.fits s.pass.widths s.lattice s.memo).run
    hold
  rw [grow_eq, Beam.seeds_of_lt h.stored] at htidy ⊢
  dsimp only at htidy ⊢
  cases hx : (Expansion.start s.store (.empty s.pass.widths) s.lattice s.memo).run s.growth
      (s.beam.worthExpanding s.store s.settings.acousticLookahead) with
  | error err =>
    obtain ⟨⟨-, horder⟩, done, hsound⟩ := hrun.of_error hx
    rw [hx] at htidy
    obtain ⟨_, -, habreast⟩ := htidy
    exact ⟨horder, habreast.tidy, fun id hid => hsound.next_lt hid⟩
  | ok e =>
    obtain ⟨done, hsound, -⟩ := hrun.of_ok hx
    rw [hx] at htidy
    obtain ⟨_, habreast⟩ := htidy
    exact ⟨habreast.tidy, fun id hid => hsound.next_lt hid⟩

/-- **Scoring a frame** leaves the tokens where they are. -/
theorem Primed.heard (h : s.Primed) {outcome : ScoreOutcome} {source : AcousticSource}
    {store : Store}
    (hx : s.pass.source.scoreFrame s.store s.beam.tokens = .ok (outcome, source, store)) :
    (s.heard source store).Primed :=
  ⟨(h.tidy.heard s.lattice hx).tidy,
    fun id hid => (AcousticSource.size_scoreFrame hx).symm ▸ h.stored id hid⟩

/-- **The pruner accepts the beam,** and leaves tokens out. -/
theorem Primed.exists_pruned (h : s.Primed) :
    ∃ beam, s.pass.pruner s.store s.beam = .ok beam ∧ (s.moved beam).Primed := by
  obtain ⟨beam, hprune, hsub⟩ := h.tidy.selects s.store s.beam h.stored
  exact ⟨beam, hprune, ⟨h.tidy.selects, h.tidy.fits, h.tidy.closed,
    h.tidy.noted.mono (fun _ h => h) fun p hp => ⟨hp.1, fun hmem => hp.2 (hsub.subset hmem)⟩⟩,
    fun id hid => h.stored id (hsub.subset hid)⟩

/-- **One frame.** -/
theorem Primed.stepFrame (h : s.Primed) :
    Outcome (fun r => Primed r.2) (fun h => TellsOrder h.error ∧ h.state.Primed) s.stepFrame := by
  rw [stepFrame_eq]
  obtain ⟨⟨outcome, source, store⟩, hx⟩ := AcousticSource.exists_scoreFrame s.pass.source h.stored
  have hheard := h.heard hx
  rw [hx]
  cases outcome with
  | exhausted => exact hheard
  | streamEnd => exact hheard.aside _ _ true
  | scored best =>
    obtain ⟨beam, hprune, hmoved⟩ := hheard.exists_pruned
    dsimp only
    rw [show s.pass.pruner store s.beam = .ok beam from hprune]
    dsimp only
    split
    · exact hmoved
    · exact hmoved.grow.map _ fun _ h => h

/-- The one token of an utterance that has begun is stored. -/
theorem Primed.begun (h : s.Tidy) (f : FastMatch) {seed : Token} (hseed : s.pass.seed = .ok seed) :
    (s.begun f seed).Primed := by
  refine ⟨h.begun f hseed, fun id hid => ?_⟩
  have htokens : s.pass.seedBeam.tokens = [0] := Beam.tokens_push _ _ _
  rw [show (s.begun f seed).beam = s.pass.seedBeam from rfl, htokens] at hid
  rw [List.mem_singleton.1 hid]
  exact Nat.zero_lt_one

/-- **The start of an utterance.** -/
theorem Primed.start (h : s.Tidy) {f : FastMatch} (hreset : s.fastMatch.reset = .ok f) :
    Outcome (fun t => t.Primed ∧ t.fastMatch = f)
      (fun h => (TellsOrder h.error ∧ h.state.Primed) ∧ h.state.fastMatch = f) s.start := by
  obtain ⟨seed, hseed⟩ := s.pass.exists_seed
  rw [start_eq, hreset, hseed]
  exact (Primed.begun h f hseed).grow.both
    ((grow_spares _).mono (fun _ h => h.fastMatch) fun _ h => h.fastMatch)

/-! ## The schedule of an utterance -/

/-- **After `k` turns** of an utterance of `ahead` frames, with a fast match of `total` frames. -/
structure Aligned (size : Nat) (fast : Pass) (total ahead k : Nat) (s : Search) : Prop where
  ready : s.fastMatch.Ready size fast
  ran : s.fastMatch.Ran total (k + (size - 1)) k
  primed : s.Primed
  frame : s.frame = min k ahead
  /-- What is not scored yet. -/
  rest : s.frame + s.framesAhead = ahead

variable {total ahead : Nat}

/-- What is scored was ahead. -/
theorem framesAhead_pos (hlive : s.streamEnded = false) (ha : s.lookAhead = .ok t)
    (hsome : t.scoring?.isSome = true) : 0 < s.framesAhead := by
  obtain ⟨x, hx⟩ := Option.isSome_iff_exists.1 hsome
  unfold framesAhead
  rw [eq_of_live hlive]
  simp [scoringsOf, ha, hx]

/-- **A turn keeps the schedule.** -/
theorem turning_aligned : Turning TellsOrder (Aligned size fast total ahead)
    fun k t => t.fastMatch.Ran total (k + (size - 1)) k ∧
      (t.scoring?.isSome = true → t.frame + 1 = k) where
  live k s h := ⟨h.ready, h.ran, h.primed.aside s.fastMatch s.memo false, h.frame, h.rest⟩
  turn k s h hlive := by
    obtain ⟨next, hnext, hready, hran⟩ := h.ran.step h.ready (by omega)
    have ha : s.lookAhead = .ok { s with fastMatch := next.dropOldest, memo := s.memo.forget } := by
      rw [lookAhead_eq, hnext]
    replace hran : next.dropOldest.Ran total (k + 1 + (size - 1)) (k + 1) := by
      rw [show k + 1 + (size - 1) = k + (size - 1) + 1 by omega]
      exact hran.dropOldest
    have hprimed := h.primed.aside next.dropOldest s.memo.forget s.streamEnded
    have hframe := h.frame
    have hrest := h.rest
    refine ⟨_, ha, ⟨hran, fun hsome => ?_⟩, ?_⟩
    · have := framesAhead_pos hlive ha hsome
      dsimp only
      omega
    · have hspares := stepFrame_spares { s with fastMatch := next.dropOldest, memo := s.memo.forget }
      cases hx : stepFrame { s with fastMatch := next.dropOldest, memo := s.memo.forget } with
      | error err => exact .inl (hprimed.stepFrame.of_error hx).1
      | ok r =>
        obtain ⟨done, u⟩ := r
        have hfast : u.fastMatch = next.dropOldest := hspares.of_ok hx
        have hcount : u.frame = min (k + 1) ahead ∧ u.frame + u.framesAhead = ahead := by
          rcases framesAhead_step hlive ha hx with ⟨rfl, hnone, hlast⟩ | ⟨rfl, hone⟩
          · rcases stepFrame_cases hx with ⟨-, -, hkept⟩ | ⟨hfalse, -⟩
            · dsimp only at hkept
              omega
            · cases hfalse
          · rcases stepFrame_cases hx with ⟨hfalse, -⟩ | ⟨-, -, hone', -⟩
            · cases hfalse
            · dsimp only at hone'
              omega
        exact ⟨hfast ▸ hready.dropOldest, hfast ▸ hran, hprimed.stepFrame.of_ok hx, hcount.1,
          hcount.2⟩
  purge k s lattice h hl := by
    have htidy := tidy_kept.purge [] _ _ h.primed.tidy hl
    cases h.primed.tidy.purgeIn.symm.trans hl
    refine ⟨h.ready, h.ran, ⟨htidy, h.primed.stored⟩, h.frame, ?_⟩
    rw [framesAhead_lattice h.primed.tidy]
    exact h.rest

/-- **The start of an utterance** is on schedule, if no arc to a lower order halts it. -/
theorem aligned_start (hready : s.fastMatch.Ready size fast) (htidy : s.Tidy)
    (horderly : ∀ err, (s.perform .start).1 = .error err → ¬ TellsOrder err) :
    Aligned size fast s.fastMatch.frameCount (s.perform .start).2.framesAhead 0
      (s.perform .start).2 := by
  obtain ⟨f, hreset, hf, hran⟩ := hready.reset
  have hbegun := Primed.start htidy hreset
  cases hstart : s.start with
  | error err =>
    exact absurd (hbegun.of_error hstart).1.1 (horderly err.error (by simp [perform, hstart]))
  | ok t =>
    obtain ⟨hprimed, hfast⟩ := hbegun.of_ok hstart
    have hframe := (start_eq_ok hstart).1
    have hafter : (s.perform .start).2 = t := by simp [perform, hstart]
    rw [hafter]
    refine ⟨?_, ?_, hprimed, ?_, ?_⟩
    · rw [hfast]
      exact hf
    · rw [hfast, Nat.zero_add]
      exact hran
    · omega
    · omega

/-- What a search works on that waits for its first utterance. -/
theorem fastMatch_new {settings : SearchSettings} {main : Pass} {cache : MixtureCache}
    (h : Search.new settings main fast cache = .ok s) (hselects : fast.pruner.Selects) :
    s.fastMatch.Ready settings.window fast ∧ 1 ≤ settings.window := by
  obtain ⟨-, f, hf, rfl⟩ := exists_of_new h
  refine ⟨FastMatch.ready_new hf hselects, ?_⟩
  have hwindow := (FastMatch.new_eq_ok hf).1
  unfold checkWindow at hwindow
  split at hwindow
  · next hw => exact hw.1
  · cases hwindow

/-- **The window is aligned.**  In an utterance without an arc to a lower order let the fast match
score `F` frames, and the search `M`.  After `k` turns, however they are cut into calls, the window
of size `w` holds the frames from `k` up to `k + w - 1` or to the last one, and the search stands in
frame `k` or in its last one.  So a frame that is scored and grown has itself and the frames after it
in the window. -/
theorem aligned_after {settings : SearchSettings} {main : Pass} {cache : MixtureCache} {s₀ : Search}
    (h : Search.new settings main fast cache = .ok s₀) (hmain : main.pruner.Selects)
    (hfast : fast.pruner.Selects) (calls : List Call) (frames : List Nat)
    (horderly : ∀ err,
      .error err ∈ (s₀.after calls).answers (.start :: frames.map .recognize) → ¬ TellsOrder err) :
    let s₁ := ((s₀.after calls).perform .start).2
    let s := s₁.after (frames.map .recognize)
    let w := settings.window
    let F := (s₀.after calls).fastMatch.frameCount
    let M := s₁.framesAhead
    let k := (s₁.turns frames).length
    Window.frames s.fastMatch.window = List.range' k (min (k + w) (F + 1) - k) ∧
      s.fastMatch.frame = min (k + w - 1) F ∧ s.fastMatch.steps = min (k + w - 1) (F + 1) ∧
      (s.fastMatch.ended = true ↔ F < k + w - 1) ∧ s.frame = min k M ∧
      ∀ t ∈ s₁.turns frames, t.scoring?.isSome = true → Window.frames t.fastMatch.window =
        List.range' (t.frame + 1) (min (t.frame + 1 + w) (F + 1) - (t.frame + 1)) := by
  intro s₁ s w F M k
  obtain ⟨hready, hwindow⟩ := fastMatch_new h hfast
  have hkept := ready_after calls hready
  have htidy := (tidy_new h hmain).1.after calls
  have haligned : Aligned w fast F M 0 s₁ := aligned_start hkept htidy fun err herr =>
    horderly err (List.mem_cons.2 (.inl herr.symm))
  obtain ⟨hafter, hturns⟩ := turning_aligned.after frames haligned fun err herr =>
    horderly err (List.mem_cons_of_mem _ herr)
  rw [Nat.zero_add] at hafter
  have hsum : k + (w - 1) = k + w - 1 := by omega
  have hlast := hafter.ran
  rw [show (s₁.turns frames).length = k from rfl, hsum] at hlast
  refine ⟨?_, hlast.frame, hlast.steps, hlast.ended, hafter.frame, fun t ht hsome => ?_⟩
  · rw [hlast.window]
    congr 1
    omega
  · obtain ⟨i, hi⟩ := List.getElem?_of_mem ht
    obtain ⟨hran', hscored⟩ := hturns i t hi
    have hnext := hscored hsome
    rw [hran'.window, hnext]
    congr 1
    omega

/-- The search over the word loop with a window of two frames. -/
def wideLoop : Search :=
  { WordLoop.search false with
    settings := { WordLoop.settings false with window := 2 }
    fastMatch := { (WordLoop.search false).fastMatch with windowSize := 2 } }

theorem wideLoop_eq : Search.new { WordLoop.settings false with window := 2 } WordLoop.pass
    WordLoop.pass none = .ok wideLoop :=
  rfl

/-- After one turn of the word loop its two frames are in the window. -/
theorem aligned_after_wordLoop :
    Window.frames (wideLoop.after [.start, .recognize 1]).fastMatch.window = [1, 2] ∧
      (wideLoop.after [.start, .recognize 1]).fastMatch.frame = 2 ∧
      (wideLoop.after [.start, .recognize 1]).fastMatch.steps = 2 ∧
      (wideLoop.after [.start, .recognize 1]).frame = 1 := by
  have hanswers : wideLoop.answers [.start, .recognize 1] =
      [.ok none, .ok (some ⟨[5], [8], false, 0, 1⟩)] := by decide +kernel
  have hcount : wideLoop.fastMatch.frameCount = 2 := by decide +kernel
  have hahead : (wideLoop.perform .start).2.framesAhead = 2 := by decide +kernel
  have hturns : ((wideLoop.perform .start).2.turns [1]).length = 1 := by decide +kernel
  have haligned := aligned_after wideLoop_eq Pruner.selects_byWidths Pruner.selects_byWidths [] [1]
    fun err herr => by
      rw [show (wideLoop.after []).answers (.start :: [1].map .recognize) =
        [.ok none, .ok (some ⟨[5], [8], false, 0, 1⟩)] from hanswers] at herr
      simp at herr
  simp only [show wideLoop.after [] = wideLoop from rfl, hcount, hahead, hturns] at haligned
  obtain ⟨hwindow, hframe, hsteps, -, hmain, -⟩ := haligned
  exact ⟨hwindow, hframe, hsteps, hmain⟩

/-- The word loop, with the order of states checked: its word leads to a branch. -/
def checkedLoop : Search :=
  { WordLoop.search false with settings := { WordLoop.settings false with checkStateOrder := true } }

theorem checkedLoop_eq : Search.new { WordLoop.settings false with checkStateOrder := true }
    WordLoop.pass WordLoop.pass none = .ok checkedLoop :=
  rfl

end SpeechDecoder.Search

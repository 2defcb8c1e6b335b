import SpeechDecoder.Search.Basic
import SpeechDecoder.Proofs.Outcome

/-!
# Runs of a search

A caller starts utterances and has frames decoded, in any order, and goes on after an error.
`Search.after` is the search after a list of calls, and `Search.scorings` is what it has scored in
the current utterance.

* `grow_eq`, `stepFrame_eq` and `recognize_eq` say what a step does and where it may halt.
* `Kept` lists what an invariant has to survive, and `Kept.after` is the induction over the calls;
  `Steady` and `Steady.after` are the same for the calls of one utterance, and `Unhalted` for calls
  without errors.
-/

namespace SpeechDecoder

/-- **What a search is asked.** -/
inductive Call where
  | start
  | recognize (frames : Nat)
  deriving DecidableEq, Repr

/-- **A frame that was scored:** the row of the table and the tokens that it was added to. -/
structure Scoring where
  row : Nat
  tokens : List Nat
  deriving DecidableEq, Repr

namespace Search

/-- **The answer to a call, and the search that it leaves.**  A start has nothing to tell. -/
def perform (s : Search) : Call → Except SearchError (Option Recognition) × Search
  | .start =>
    match s.start with
    | .ok s' => (.ok none, s')
    | .error h => (.error h.error, h.state)
  | .recognize frames =>
    match s.recognize frames with
    | .ok (r, s') => (.ok r, s')
    | .error h => (.error h.error, h.state)

/-- **The search after some calls.** -/
def after (s : Search) (calls : List Call) : Search := calls.foldl (fun s c => (s.perform c).2) s

/-- What the next frame scores, if it scores anything. -/
def scoring? (s : Search) : Option Scoring :=
  match s.pass.source.scoreFrame s.store s.beam.tokens with
  | .ok (.scored _, _, _) => some ⟨s.pass.source.cursor, s.beam.tokens⟩
  | _ => none

/-- What up to so many frames score. -/
def scoringsOf : Nat → Search → List Scoring
  | 0, _ => []
  | n + 1, s =>
    match s.lookAhead with
    | .error _ => []
    | .ok s' => s'.scoring?.toList ++
      match s'.stepFrame with
      | .ok (false, s'') => scoringsOf n s''
      | _ => []

/-- What has been scored in the utterance after one more call. -/
def record (s : Search) (log : List Scoring) : Call → List Scoring
  | .start => []
  | .recognize frames =>
    if s.initial.isSome then log ++ scoringsOf frames { s with streamEnded := false } else log

/-- **What has been scored in the current utterance** after some calls. -/
def scorings (s : Search) : List Call → List Scoring → List Scoring
  | [], log => log
  | c :: calls, log => (s.perform c).2.scorings calls (s.record log c)

/-! ## What a step does -/

variable (s : Search)

/-- The search that has forgotten the last utterance. -/
def forgotten : Search :=
  { s with
    frame := 0
    stats := .zero
    store := .empty
    lattice := s.lattice.clear
    memo := .empty
    results := []
    streamEnded := false
    cache := s.cache.ask .clear }

/-- The search at the start of an utterance, before its first frame is grown. -/
def begun (fastMatch : FastMatch) (seed : Token) : Search :=
  { s.forgotten with
    fastMatch
    pass := { s.pass with source := s.pass.source.rewind }
    store := Store.empty.push seed
    beam := s.pass.seedBeam
    initial := some 0 }

/-- The search after its source was asked for a frame. -/
def heard (source : AcousticSource) (store : Store) : Search :=
  { s with
    pass := { s.pass with source }
    store
    stats := { s.stats with tokensScored := s.stats.tokensScored + s.beam.tokens.length } }

/-- The search in the next frame, with the beam that the pruner left. -/
def moved (beam : Beam) : Search :=
  { s with beam, frame := s.frame + 1, stats := { s.stats with frames := s.frame + 1 } }

theorem start_eq : s.start =
    match s.fastMatch.reset with
    | .error err => .error ⟨err, s.forgotten⟩
    | .ok fastMatch =>
      match s.pass.seed with
      | .error err => .error ⟨err, s.forgotten⟩
      | .ok seed => (s.begun fastMatch seed).grow := by
  unfold start
  cases hf : s.fastMatch.reset with
  | error err => simp only [hf]; rfl
  | ok fastMatch =>
    cases hs : s.pass.seed with
    | error err => simp only [hf, hs]; rfl
    | ok seed => simp only [hf, hs]; rfl

theorem grow_eq : s.grow =
    match s.beam.seeds s.store s.settings.acousticLookahead with
    | .error f => .error ⟨.dangling f, s⟩
    | .ok seeds =>
      match (Expansion.start s.store (.empty s.pass.widths) s.lattice s.memo).run s.growth seeds with
      | .error h => .error ⟨h.error, s.absorb h.state⟩
      | .ok e => .ok { s.absorb e with stats := s.countExpansion e } := by
  unfold grow orHalt
  cases s.beam.seeds s.store s.settings.acousticLookahead with
  | error f => rfl
  | ok seeds => rfl

theorem lookAhead_eq : s.lookAhead =
    match s.fastMatch.step with
    | .error err => .error ⟨err, s⟩
    | .ok fastMatch => .ok { s with fastMatch := fastMatch.dropOldest, memo := s.memo.forget } := by
  unfold lookAhead
  cases s.fastMatch.step <;> rfl

theorem stepFrame_eq : s.stepFrame =
    match s.pass.source.scoreFrame s.store s.beam.tokens with
    | .error f => .error ⟨.dangling f, s⟩
    | .ok (.exhausted, source, store) => .ok (true, s.heard source store)
    | .ok (.streamEnd, source, store) =>
      .ok (true, { s.heard source store with streamEnded := true })
    | .ok (.scored _, source, store) =>
      match s.pass.pruner store s.beam with
      | .error f => .error ⟨.dangling f, s.heard source store⟩
      | .ok beam =>
        if s.skipsGrowth (s.frame + 1) then .ok (false, (s.heard source store).moved beam)
        else ((s.heard source store).moved beam).grow.map fun s' => (false, s') := by
  unfold stepFrame orHalt
  cases hx : s.pass.source.scoreFrame s.store s.beam.tokens with
  | error f => rfl
  | ok r =>
    obtain ⟨outcome, source, store⟩ := r
    cases outcome with
    | exhausted => rfl
    | streamEnd => rfl
    | scored best =>
      cases hp : s.pass.pruner store s.beam with
      | error f => simp [mapError_ok, mapError_error, bind, Except.bind, hp, heard]
      | ok beam =>
        simp only [mapError_ok, bind, Except.bind, hp, pure, Except.pure]
        change (if s.skipsGrowth (s.frame + 1) then _ else
          ((s.heard source store).moved beam).grow.bind fun s' => .ok (false, s')) = _
        split
        · rfl
        · cases ((s.heard source store).moved beam).grow <;> rfl

theorem stepFrames_succ (n : Nat) : stepFrames (n + 1) s =
    s.lookAhead >>= fun t => t.stepFrame >>= fun r =>
      if r.1 then .ok (true, r.2) else stepFrames n r.2 :=
  rfl

theorem lookAhead_eq_ok {s t : Search} (h : s.lookAhead = .ok t) :
    ∃ fastMatch, s.fastMatch.step = .ok fastMatch ∧
      t = { s with fastMatch := fastMatch.dropOldest, memo := s.memo.forget } := by
  rw [lookAhead_eq] at h
  split at h
  · cases h
  · next fastMatch hf =>
    cases h
    exact ⟨fastMatch, hf, rfl⟩

/-- The first one of some frames that were not halted. -/
theorem stepFrames_succ_eq_ok {n : Nat} {s t : Search} {done : Bool}
    (h : stepFrames (n + 1) s = .ok (done, t)) : ∃ s₁ first u, s.lookAhead = .ok s₁ ∧
      s₁.stepFrame = .ok (first, u) ∧
      (first = true ∧ done = true ∧ t = u ∨ first = false ∧ stepFrames n u = .ok (done, t)) := by
  rw [stepFrames_succ] at h
  cases ha : s.lookAhead with
  | error err =>
    rw [ha] at h
    cases h
  | ok s₁ =>
    cases hx : s₁.stepFrame with
    | error err => simp [ha, hx, bind, Except.bind] at h
    | ok r =>
      obtain ⟨first, u⟩ := r
      simp only [ha, hx, bind, Except.bind] at h
      refine ⟨s₁, first, u, rfl, hx, ?_⟩
      cases first
      · exact .inr ⟨rfl, h⟩
      · cases h
        exact .inl ⟨rfl, rfl, rfl⟩

theorem stepFrames_add (a b : Nat) (s : Search) :
    stepFrames (a + b) s =
      stepFrames a s >>= fun r => if r.1 then .ok r else stepFrames b r.2 := by
  induction a generalizing s with
  | zero =>
    rw [Nat.zero_add]
    rfl
  | succ a ih =>
    rw [Nat.succ_add, stepFrames_succ, stepFrames_succ]
    cases s.lookAhead with
    | error err => rfl
    | ok t =>
      cases ht : t.stepFrame with
      | error err => simp only [bind, Except.bind, ht]
      | ok r =>
        obtain ⟨done, u⟩ := r
        simp only [bind, Except.bind, ht]
        cases done
        · exact ih u
        · rfl

/-- What a call does after its last frame: the alternates are purged, unless the stream has ended. -/
def conclude (initial : Nat) (r : Bool × Search) :
    Except (Halted Search) (Option Recognition × Search) :=
  if r.2.streamEnded then .ok (none, r.2)
  else if r.2.settings.buildLattice then
    match r.2.lattice.purgeIn r.2.store with
    | .error f => .error ⟨.dangling f, r.2⟩
    | .ok lattice =>
      .ok (some ⟨r.2.beam.tokens, r.2.results, r.1, initial, r.2.frame⟩, { r.2 with lattice })
  else .ok (some ⟨r.2.beam.tokens, r.2.results, r.1, initial, r.2.frame⟩, r.2)

theorem recognize_eq (frames : Nat) : s.recognize frames =
    match s.initial with
    | none => .error ⟨.notStarted, s⟩
    | some initial => stepFrames frames { s with streamEnded := false } >>= conclude initial := by
  unfold recognize halt orHalt
  cases hi : s.initial with
  | none => rfl
  | some initial =>
    dsimp only
    congr 1
    funext r
    unfold conclude
    dsimp only
    split
    · rfl
    · split
      · cases r.2.lattice.purgeIn r.2.store <;> rfl
      · rfl

theorem recognize_of_started {s : Search} {initial : Nat} (h : s.initial = some initial)
    (frames : Nat) : s.recognize frames =
      stepFrames frames { s with streamEnded := false } >>= conclude initial := by
  rw [recognize_eq, h]

/-- **The answer of a call** is none if there was no input, and tells of the last frame otherwise. -/
theorem conclude_eq_ok {initial : Nat} {r : Bool × Search} {s' : Search}
    {answer : Option Recognition} (h : conclude initial r = .ok (answer, s')) :
    answer = none ∧ r.2.streamEnded = true ∨
    answer = some ⟨r.2.beam.tokens, r.2.results, r.1, initial, r.2.frame⟩ ∧
      r.2.streamEnded = false ∧
      (r.2.settings.buildLattice = false ∧ s' = r.2 ∨ r.2.settings.buildLattice = true ∧
        ∃ lattice, r.2.lattice.purgeIn r.2.store = .ok lattice ∧ s' = { r.2 with lattice }) := by
  unfold conclude at h
  split at h
  · next hended =>
    cases h
    exact .inl ⟨rfl, hended⟩
  · next hlive =>
    have hlive : r.2.streamEnded = false := by simpa using hlive
    split at h
    · next hbuild =>
      split at h
      · cases h
      · next lattice hl =>
        cases h
        exact .inr ⟨rfl, hlive, .inr ⟨hbuild, lattice, hl, rfl⟩⟩
    · next hbuild =>
      cases h
      exact .inr ⟨rfl, hlive, .inl ⟨by simpa using hbuild, rfl⟩⟩

/-- Only a purge halts a call after its last frame. -/
theorem conclude_eq_error {initial : Nat} {r : Bool × Search} {err : Halted Search}
    (h : conclude initial r = .error err) : ∃ f, r.2.lattice.purgeIn r.2.store = .error f := by
  unfold conclude at h
  split at h
  · cases h
  · split at h
    · split at h
      · next f hf => exact ⟨f, hf⟩
      · cases h
    · cases h

theorem perform_eq_of_recognize {s s' : Search} {frames : Nat} {r : Option Recognition}
    (h : s.recognize frames = .ok (r, s')) : s.perform (.recognize frames) = (.ok r, s') := by
  unfold perform
  simp only [h]

theorem recognize_eq_of_perform {s : Search} {frames : Nat} {r : Option Recognition}
    (h : (s.perform (.recognize frames)).1 = .ok r) :
    s.recognize frames = .ok (r, (s.perform (.recognize frames)).2) := by
  cases hx : s.recognize frames with
  | error err => simp [perform, hx] at h
  | ok x =>
    rw [perform_eq_of_recognize hx] at h ⊢
    cases h
    rfl

/-! ## Invariants -/

/-- What a start leaves, finished or halted. -/
theorem perform_start {Q : Search → Prop} {s : Search}
    (h : Outcome Q (fun h => Q h.state) s.start) : Q (s.perform .start).2 := by
  unfold perform
  cases hx : s.start with
  | ok s' => exact h.of_ok hx
  | error err => exact h.of_error hx

/-- What decoding some frames leaves, finished or halted. -/
theorem perform_recognize {Q : Search → Prop} {s : Search} {frames : Nat}
    (h : Outcome (fun r => Q r.2) (fun h => Q h.state) (s.recognize frames)) :
    Q (s.perform (.recognize frames)).2 := by
  unfold perform
  cases hx : s.recognize frames with
  | ok r => simpa only [hx] using h.of_ok hx
  | error err => simpa only [hx] using h.of_error hx

/-- What a start replies and leaves. -/
theorem perform_start_halts {Q : Search → Prop} {E : SearchError → Prop} {s : Search}
    (h : Outcome Q (fun h => E h.error ∧ Q h.state) s.start) :
    (∀ err, (s.perform .start).1 = .error err → E err) ∧ Q (s.perform .start).2 := by
  refine ⟨fun err herr => ?_, perform_start (h.mono (fun _ h => h) fun _ h => h.2)⟩
  unfold perform at herr
  cases hx : s.start with
  | ok s' => simp [hx] at herr
  | error halted =>
    simp only [hx] at herr
    cases herr
    exact (h.of_error hx).1

/-- What decoding some frames replies and leaves. -/
theorem perform_recognize_halts {Q : Search → Prop} {E : SearchError → Prop} {s : Search}
    {frames : Nat}
    (h : Outcome (fun r => Q r.2) (fun h => E h.error ∧ Q h.state) (s.recognize frames)) :
    (∀ err, (s.perform (.recognize frames)).1 = .error err → E err) ∧
      Q (s.perform (.recognize frames)).2 := by
  refine ⟨fun err herr => ?_, perform_recognize (h.mono (fun _ h => h) fun _ h => h.2)⟩
  unfold perform at herr
  cases hx : s.recognize frames with
  | ok r => simp [hx] at herr
  | error halted =>
    simp only [hx] at herr
    cases herr
    exact (h.of_error hx).1

/-- **What an invariant has to survive within an utterance.**  It may speak of what has been
scored. -/
structure Steady (P : List Scoring → Search → Prop) : Prop where
  /-- The fast match, the penalties and the end of the stream are no concern of it. -/
  aside : ∀ log s fastMatch memo streamEnded, P log s →
    P log { s with fastMatch, memo, streamEnded }
  purge : ∀ log s lattice, P log s → s.lattice.purgeIn s.store = .ok lattice →
    P log { s with lattice }
  stepFrame : ∀ log s, P log s → Outcome (fun r => P (log ++ s.scoring?.toList) r.2)
    (fun h => P (log ++ s.scoring?.toList) h.state) s.stepFrame

/-- **What an invariant has to survive.** -/
structure Kept (P : List Scoring → Search → Prop) : Prop extends Steady P where
  start : ∀ log s, P log s → Outcome (P []) (fun h => P [] h.state) s.start

variable {P : List Scoring → Search → Prop} {s : Search} {log : List Scoring}

/-- A frame keeps what each of its parts keeps. -/
theorem stepFrame_outcome {Q : Search → Prop} (h : Q s)
    (hheard : ∀ outcome source store,
      s.pass.source.scoreFrame s.store s.beam.tokens = .ok (outcome, source, store) →
      Q (s.heard source store))
    (hend : ∀ s, Q s → Q { s with streamEnded := true })
    (hmoved : ∀ s beam, Q s → Q (s.moved beam))
    (hgrow : ∀ s, Q s → Outcome Q (fun h => Q h.state) s.grow) :
    Outcome (fun r => Q r.2) (fun h => Q h.state) s.stepFrame := by
  rw [stepFrame_eq]
  split
  · exact h
  · next hx => exact hheard _ _ _ hx
  · next hx => exact hend _ (hheard _ _ _ hx)
  · next source store hx =>
    have hscored := hheard _ _ _ hx
    split
    · exact hscored
    · next beam _ =>
      split
      · exact hmoved _ beam hscored
      · exact (hgrow _ (hmoved _ beam hscored)).map _ fun _ h => h

/-- The end of a call keeps what a purge keeps. -/
theorem conclude_outcome {Q : Search → Prop} (initial : Nat) (r : Bool × Search) (h : Q r.2)
    (hpurge : ∀ lattice, r.2.settings.buildLattice = true →
      r.2.lattice.purgeIn r.2.store = .ok lattice → Q { r.2 with lattice }) :
    Outcome (fun r' => Q r'.2) (fun h => Q h.state) (conclude initial r) := by
  unfold conclude
  split
  · exact h
  · split
    · next hbuild =>
      split
      · exact h
      · next lattice hl => exact hpurge lattice hbuild hl
    · exact h

/-- Up to so many frames: by induction on their number. -/
theorem Steady.stepFrames (hP : Steady P) : ∀ (n : Nat) {s : Search} {log : List Scoring}, P log s →
    Outcome (fun r => P (log ++ scoringsOf n s) r.2) (fun h => P (log ++ scoringsOf n s) h.state)
      (stepFrames n s)
  | 0, s, log, h => by simpa [Search.stepFrames, scoringsOf, Outcome] using h
  | n + 1, s, log, h => by
    unfold Search.stepFrames scoringsOf
    rw [lookAhead_eq]
    cases hf : s.fastMatch.step with
    | error err => simpa [Outcome, bind, Except.bind] using h
    | ok fastMatch =>
      have h' := hP.aside log s fastMatch.dropOldest s.memo.forget s.streamEnded h
      have hstep := hP.stepFrame _ _ h'
      simp only [bind, Except.bind]
      generalize ({ s with fastMatch := fastMatch.dropOldest, memo := s.memo.forget } : Search) = t
        at hstep
      cases ht : t.stepFrame with
      | error err => simpa [Outcome] using hstep.of_error ht
      | ok r =>
        obtain ⟨done, s'⟩ := r
        have hs' := hstep.of_ok ht
        cases done
        · simpa [List.append_assoc] using hP.stepFrames n hs'
        · simpa [Outcome, pure, Except.pure] using hs'

theorem Steady.recognize (hP : Steady P) (h : P log s) (frames : Nat) :
    P (s.record log (.recognize frames)) (s.perform (.recognize frames)).2 := by
  refine perform_recognize ?_
  unfold record
  cases hi : s.initial with
  | none =>
    rw [recognize_eq, hi]
    exact h
  | some initial =>
    have hframes := hP.stepFrames frames (hP.aside log s s.fastMatch s.memo false h)
    rw [recognize_of_started hi]
    simp only [Option.isSome_some, if_true]
    rw [hi] at hframes ⊢
    exact hframes.bind fun r hr =>
      conclude_outcome initial r hr fun lattice _ hl => hP.purge _ _ lattice hr hl

theorem Kept.perform (hP : Kept P) (h : P log s) (c : Call) :
    P (s.record log c) (s.perform c).2 := by
  cases c with
  | start => exact perform_start (hP.start log s h)
  | recognize frames => exact hP.recognize h frames

/-- **An invariant of an utterance** lasts as long as no other one is started. -/
theorem Steady.after (hP : Steady P) : ∀ (frames : List Nat) {s : Search} (log : List Scoring),
    P log s → P (s.scorings (frames.map .recognize) log) (s.after (frames.map .recognize))
  | [], _, _, h => h
  | n :: frames, _, _, h => hP.after frames _ (hP.recognize h n)

/-- **An invariant holds after every list of calls.** -/
theorem Kept.after (hP : Kept P) : ∀ (calls : List Call) {s : Search} (log : List Scoring),
    P log s → P (s.scorings calls log) (s.after calls)
  | [], _, _, h => h
  | c :: calls, _, _, h => hP.after calls _ (hP.perform h c)

/-! ## Invariants of calls that are not halted -/

/-- **What an invariant has to survive within an utterance as long as nothing is halted.** -/
structure Unhalted (Q : Search → Prop) : Prop where
  live : ∀ s, Q s → Q { s with streamEnded := false }
  lookAhead : ∀ s, Q s → Outcome Q (fun _ => True) s.lookAhead
  stepFrame : ∀ s, Q s → Outcome (fun r => Q r.2) (fun _ => True) s.stepFrame
  purge : ∀ s lattice, Q s → Q { s with lattice }

variable {Q : Search → Prop}

theorem Unhalted.stepFrames (hQ : Unhalted Q) : ∀ (n : Nat) {s : Search}, Q s →
    Outcome (fun r => Q r.2) (fun _ => True) (stepFrames n s)
  | 0, _, h => h
  | n + 1, s, h => by
    rw [stepFrames_succ]
    refine (hQ.lookAhead s h).bind fun t ht => (hQ.stepFrame t ht).bind fun r hr => ?_
    split
    · exact hr
    · exact hQ.stepFrames n hr

/-- **A call that is not halted.** -/
theorem Unhalted.recognize (hQ : Unhalted Q) (h : Q s) {n : Nat} {answer : Option Recognition}
    (hc : (s.perform (.recognize n)).1 = .ok answer) : Q (s.perform (.recognize n)).2 := by
  have hx := recognize_eq_of_perform hc
  rw [recognize_eq] at hx
  split at hx
  · cases hx
  · next initial _ =>
    have hrest := (hQ.stepFrames n (hQ.live s h)).bind fun r hr =>
      (conclude_outcome (Q := Q) initial r hr fun lattice _ _ => hQ.purge _ lattice hr).mono
        (fun _ h => h) fun _ _ => trivial
    exact hrest.of_ok hx

end Search

/-! ## An example -/

namespace WordLoop

/-- A word of one phone, again and again.  States 0 and 2 are on a cycle that emits nothing. -/
def graph : Graph where
  initial := 0
  states := #[⟨.branch, 0, [.new 1 (Float32.ofBits 0xBF800000), .new 2 (Float32.ofBits 0xC0000000)]⟩,
    ⟨.emitting 0, 5, [.new 1 .certain, .new 2 (Float32.ofBits 0xBF800000)]⟩,
    ⟨.word 0, 2, [.new 0 .certain, .new 3 .certain]⟩, .ofKind .final]
  initial_lt := by decide
  sound := by unfold State.Sound; decide

/-- Two frames, with the log likelihood -0.5 in the first one. -/
def pass : Pass where
  graph := graph
  source := .ofRows #[#[Float32.ofBits 0xBF000000], #[.certain]] false
  pruner := .byWidths
  widths := ⟨0, .impossible⟩

/-- No lookahead and no growth skipped. -/
def settings (keepAllTokens : Bool) : SearchSettings where
  window := 1
  penaltyWeight := .certain
  wordMargin := .impossible
  skipInterval := 0
  checkStateOrder := false
  buildLattice := !keepAllTokens
  maxLatticeEdges := 2
  acousticLookahead := .certain
  keepAllTokens := keepAllTokens

/-- The search over the loop, before its first utterance. -/
def search (keepAllTokens : Bool) : Search where
  settings := settings keepAllTokens
  pass := pass
  cache := none
  fastMatch := ⟨pass, 1, .empty, .empty pass.widths, [], 0, false, 0⟩
  store := .empty
  beam := .empty pass.widths
  results := []
  lattice := .empty 2
  memo := .empty
  residents := []
  initial := none
  frame := 0
  streamEnded := false
  stats := .zero

theorem search_eq (keepAllTokens : Bool) :
    Search.new (settings keepAllTokens) pass pass none = .ok (search keepAllTokens) := by
  cases keepAllTokens <;> rfl

end WordLoop

end SpeechDecoder

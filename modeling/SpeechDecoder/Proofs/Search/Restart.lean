import SpeechDecoder.Proofs.Search.Pairing
import SpeechDecoder.Proofs.Search.Turns
import SpeechDecoder.Proofs.Search.Utterance

/-!
# Utterance after utterance

The start of an utterance forgets the last one, however that one ended.  What a search is built of
never changes, the start of the fast match and that of the search overwrite the rest, and the growth
of the first frame does so with the tokens on the states.  Only the cache of mixture scores has a
longer history, and the search never looks at it.

* `Request` is what a caller may ask of a search between and within utterances.
* `Intact` is what all searches have in common that were built alike.
* `Twin` is the relation between two searches that differ in their caches; all calls keep it, and
  `Twin.recognizeAll` carries it through an utterance.
* `replies_start` is the theorem about all that follows the start of an utterance.
-/

namespace SpeechDecoder

/-- **What a caller asks of a search:** a call, or the penalty of a phone. -/
inductive Request where
  | call (c : Call)
  | penalty (p : Nat)
  deriving DecidableEq, Repr

/-- **What a search replies.** -/
inductive Reply where
  | answer (r : Except SearchError (Option Recognition))
  | penalty (score : Score)

namespace AcousticSource

/-- Scoring a frame moves a source, and does nothing else to it. -/
theorem rewind_scoreFrame {src src' : AcousticSource} {a a' : Store} {ids : List Nat}
    {outcome : ScoreOutcome} (h : src.scoreFrame a ids = .ok (outcome, src', a')) :
    src'.rewind = src.rewind := by
  have hstreaming := streaming_scoreFrame h
  have hrows : src'.rows = src.rows := by
    rcases scoreFrame_eq_ok h with ⟨-, -, -, hrows, -⟩ | ⟨row, -, rfl, -⟩
    · exact hrows
    · rfl
  unfold rewind
  rw [hstreaming, hrows]

end AcousticSource

namespace FastMatch

variable {f next : FastMatch} {size : Nat} {fast : Pass}

theorem pass_grow (h : f.grow = .ok next) : next.pass = f.pass := by
  rw [grow_eq] at h
  split at h
  · cases h
  · split at h
    · cases h
    · split at h
      · cases h
      · cases h
        rfl

/-- A step moves the source, and does nothing else to it. -/
theorem rewind_step (h : f.step = .ok next) :
    next.pass.source.rewind = f.pass.source.rewind := by
  rw [step_eq] at h
  split at h
  · cases h
    rfl
  · split at h
    · cases h
    · next hx =>
      cases h
      exact AcousticSource.rewind_scoreFrame hx
    · next hx =>
      cases h
      exact AcousticSource.rewind_scoreFrame hx
    · next hx =>
      split at h
      · cases h
      · rw [pass_grow h]
        exact AcousticSource.rewind_scoreFrame hx

theorem rewind_stepMany : ∀ (n : Nat) {f : FastMatch}, stepMany n f = .ok next →
    next.pass.source.rewind = f.pass.source.rewind
  | 0, _, h => by
    cases h
    rfl
  | n + 1, f, h => by
    unfold stepMany at h
    cases hx : f.step with
    | error err => simp [hx, bind, Except.bind] at h
    | ok f' =>
      simp only [hx, bind, Except.bind] at h
      exact (rewind_stepMany n h).trans (rewind_step hx)

theorem rewind_reset (h : f.reset = .ok next) :
    next.pass.source.rewind = f.pass.source.rewind := by
  rw [reset_eq] at h
  unfold first at h
  cases hs : f.pass.seed with
  | error err => simp [hs, bind, Except.bind] at h
  | ok seed =>
    simp only [hs] at h
    cases hg : (f.begun seed).grow with
    | error err => simp [hg, bind, Except.bind] at h
    | ok f' =>
      simp only [hg, bind, Except.bind] at h
      exact (rewind_stepMany _ h).trans (congrArg (·.source.rewind) (pass_grow hg))

/-- **The start of an utterance** depends on what a fast match is built of, and on nothing else. -/
theorem reset_eq_of_rewind {f' : FastMatch} (h : f.Ready size fast) (h' : f'.Ready size fast)
    (hsource : f'.pass.source.rewind = f.pass.source.rewind) : f'.reset = f.reset := by
  have hbegun : ∀ seed, f'.begun seed = f.begun seed := fun seed => by
    simp only [begun, Pass.seedBeam, hsource, h.graph, h'.graph, h.pruner, h'.pruner, h.widths,
      h'.widths, h.windowSize, h'.windowSize]
  have hseed : f'.pass.seed = f.pass.seed := by
    unfold Pass.seed
    rw [h.graph, h'.graph]
  rw [reset_eq, reset_eq, first, first, hseed, h.windowSize, h'.windowSize]
  simp only [hbegun]

end FastMatch

namespace Search

/-- The reply to a request, and the search that it leaves. -/
def serve (s : Search) : Request → Reply × Search
  | .call c => (.answer (s.perform c).1, (s.perform c).2)
  | .penalty p => (.penalty (s.penalty p).1, (s.penalty p).2)

/-- **The search after some requests.** -/
def served (s : Search) (requests : List Request) : Search :=
  requests.foldl (fun s r => (s.serve r).2) s

/-- **The replies to some requests.** -/
def replies (s : Search) : List Request → List Reply
  | [] => []
  | r :: requests => (s.serve r).1 :: (s.serve r).2.replies requests

variable {s s' o : Search} {settings : SearchSettings} {main fast : Pass}

/-! ## What searches have in common that are built alike -/

/-- **A search that is built of given parts,** of which only the sources were moved. -/
structure Intact (settings : SearchSettings) (main fast : Pass) (s : Search) : Prop where
  tidy : s.Tidy
  built : s.Built settings main
  source : s.pass.source.rewind = main.source.rewind
  maxEdges : s.lattice.maxEdges = settings.maxLatticeEdges
  ready : s.fastMatch.Ready settings.window fast
  ahead : s.fastMatch.pass.source.rewind = fast.source.rewind

theorem Abreast.maxEdges {l : Lattice} (h : Abreast o l s s') :
    s.lattice.maxEdges = o.lattice.maxEdges := by
  obtain ⟨edges, -, hl, -⟩ := h.recorded
  rw [hl, Lattice.maxEdges_recordAll]

/-- **What a search holds that does not concern its fast match.** -/
structure Held (rewound : AcousticSource) (maxEdges : Nat) (s : Search) : Prop where
  tidy : s.Tidy
  source : s.pass.source.rewind = rewound
  maxEdges : s.lattice.maxEdges = maxEdges

variable {rewound : AcousticSource} {maxEdges : Nat}

theorem Held.grow (h : s.Held rewound maxEdges) :
    Outcome (Held rewound maxEdges) (fun h => h.state.Held rewound maxEdges) s.grow := by
  refine ((h.tidy.grow s.lattice).left.both (grow_spares s)).mono ?_ ?_
  · rintro t ⟨⟨_, habreast⟩, hspares⟩
    exact ⟨habreast.tidy, hspares.pass ▸ h.source, habreast.maxEdges.trans h.maxEdges⟩
  · rintro err ⟨⟨_, -, habreast⟩, hspares⟩
    exact ⟨habreast.tidy, hspares.pass ▸ h.source, habreast.maxEdges.trans h.maxEdges⟩

theorem held_kept : Kept fun _ s => s.Held rewound maxEdges where
  start _ s h := by
    have hforgotten : s.forgotten.Held rewound maxEdges :=
      ⟨h.tidy.forgotten, h.source, h.maxEdges⟩
    rw [start_eq]
    split
    · exact hforgotten
    · split
      · exact hforgotten
      · next fastMatch _ _ seed hseed =>
        exact Held.grow ⟨h.tidy.begun fastMatch hseed, h.source, h.maxEdges⟩
  aside _ s fastMatch memo streamEnded h :=
    ⟨⟨h.tidy.selects, h.tidy.fits, h.tidy.closed, h.tidy.noted⟩, h.source, h.maxEdges⟩
  purge _ s lattice h hl := by
    have htidy := tidy_kept.purge [] s lattice h.tidy hl
    rw [h.tidy.purgeIn] at hl
    cases hl
    exact ⟨htidy, h.source, h.maxEdges⟩
  stepFrame _ s h := by
    have hsource := stepFrame_outcome (Q := fun t => t.pass.source.rewind = rewound) h.source
      (fun _ _ _ hx => (AcousticSource.rewind_scoreFrame hx).trans h.source) (fun _ h => h)
      (fun _ _ h => h) fun t ht => (grow_spares t).mono (fun _ h' => h'.pass ▸ ht)
        fun _ h' => h'.pass ▸ ht
    refine ((h.tidy.stepFrame s.lattice).left.both hsource).mono ?_ ?_
    · rintro r ⟨⟨_, -, habreast⟩, hrewind⟩
      exact ⟨habreast.tidy, hrewind, habreast.maxEdges.trans h.maxEdges⟩
    · rintro err ⟨⟨_, -, habreast⟩, hrewind⟩
      exact ⟨habreast.tidy, hrewind, habreast.maxEdges.trans h.maxEdges⟩

theorem Intact.held (h : s.Intact settings main fast) :
    s.Held main.source.rewind settings.maxLatticeEdges :=
  ⟨h.tidy, h.source, h.maxEdges⟩

theorem Intact.perform (h : s.Intact settings main fast) (c : Call) :
    (s.perform c).2.Intact settings main fast := by
  have hheld := held_kept.after [c] [] h.held
  have hbuilt := built_kept.after [c] [] h.built
  have hfast := fastMatch_perform (P := fun f => f.Ready settings.window fast ∧
      f.pass.source.rewind = fast.source.rewind) (fun f hf => ?_) (fun f hf => ?_)
    ⟨h.ready, h.ahead⟩ c
  · exact ⟨hheld.tidy, hbuilt, hheld.source, hheld.maxEdges, hfast.1, hfast.2⟩
  · obtain ⟨next, hreset, hready, -⟩ := hf.1.reset
    exact ⟨next, hreset, hready, (FastMatch.rewind_reset hreset).trans hf.2⟩
  · obtain ⟨next, hstep, hready⟩ := hf.1.step
    exact ⟨next, hstep, hready.dropOldest, (FastMatch.rewind_step hstep).trans hf.2⟩

theorem Intact.served : ∀ (requests : List Request) {s : Search}, s.Intact settings main fast →
    (s.served requests).Intact settings main fast
  | [], _, h => h
  | .call c :: requests, _, h => Intact.served requests (h.perform c)
  | .penalty p :: requests, s, h =>
    Intact.served requests (s := (s.penalty p).2)
      ⟨⟨h.tidy.selects, h.tidy.fits, h.tidy.closed, h.tidy.noted⟩,
        ⟨h.built.settings, h.built.graph, h.built.pruner, h.built.widths, h.built.rows⟩, h.source,
        h.maxEdges, h.ready, h.ahead⟩

/-- A search that waits for its first utterance. -/
theorem intact_new {cache : MixtureCache} (h : Search.new settings main fast cache = .ok s)
    (hmain : main.pruner.Selects) (hfast : fast.pruner.Selects) : s.Intact settings main fast := by
  obtain ⟨htidy, hpass⟩ := tidy_new h hmain
  have hbuilt := (new_eq_ok h).1
  have hready := (fastMatch_new h hfast).1
  obtain ⟨-, f, hf, rfl⟩ := exists_of_new h
  obtain ⟨-, rfl⟩ := FastMatch.new_eq_ok hf
  exact ⟨htidy, hbuilt, rfl, rfl, hready, rfl⟩

/-! ## Searches that differ in their caches -/

/-- Nothing tells one fast match from itself. -/
theorem led_eq (weight : Score) : Led weight Eq where
  reset := by
    rintro f _ rfl
    cases f.reset <;> rfl
  step := by
    rintro f _ rfl
    cases f.step <;> rfl
  window := by
    rintro f _ rfl _
    rfl

/-- **Two searches that differ in what was asked of their caches** and in nothing else. -/
abbrev Twin (settings : SearchSettings) : Search → Search → Prop :=
  Beside settings settings.window Eq

theorem twin_cache (h : s.settings = settings) (cache : MixtureCache) :
    Twin settings s { s with cache } :=
  ⟨h, ⟨cache, s.fastMatch, by rw [← h]⟩, rfl⟩

theorem Twin.exists_cache (h : Twin settings s s') : ∃ cache, s' = { s with cache } := by
  obtain ⟨cache, fastMatch, rfl⟩ := h.apart
  have hfast : s.fastMatch = fastMatch := h.led
  exact ⟨cache, by rw [← hfast, ← h.told]⟩

theorem Twin.serve (h : Twin settings s s') : ∀ r : Request,
    (s'.serve r).1 = (s.serve r).1 ∧ Twin settings (s.serve r).2 (s'.serve r).2
  | .call c => by
    obtain ⟨hanswer, hleft⟩ := ((led_eq _).pairing _).perform h c
    exact ⟨congrArg Reply.answer hanswer, hleft⟩
  | .penalty p => by
    obtain ⟨cache, rfl⟩ := h.exists_cache
    exact ⟨rfl, h.congr rfl rfl rfl rfl⟩

/-- **The same replies,** by induction on the requests. -/
theorem Twin.replies : ∀ (requests : List Request) {s s' : Search}, Twin settings s s' →
    s'.replies requests = s.replies requests ∧
      Twin settings (s.served requests) (s'.served requests)
  | [], _, _, h => ⟨rfl, h⟩
  | r :: requests, s, s', h => by
    obtain ⟨hreply, hleft⟩ := h.serve r
    obtain ⟨hreplies, hend⟩ := Twin.replies requests hleft
    refine ⟨?_, hend⟩
    unfold Search.replies
    rw [hreply, hreplies]

/-! ## The start of an utterance -/

/-- The first frame is grown over whatever stood on the states. -/
theorem grow_residents {seeds : List Nat}
    (hseeds : s.beam.seeds s.store s.settings.acousticLookahead = .ok seeds)
    (residents : List (Nat × Nat)) : ({ s with residents } : Search).grow = s.grow := by
  rw [grow_eq, grow_eq]
  dsimp only
  rw [hseeds]
  rfl

/-- **The start of an utterance,** whatever came before it. -/
theorem Intact.start (h : s.Intact settings main fast) (h' : s'.Intact settings main fast) :
    Matched (Twin settings) (HaltPair (Twin settings)) s.start s'.start := by
  obtain ⟨f, hreset, -⟩ := h.ready.reset
  have hreset' : s'.fastMatch.reset = .ok f := by
    rw [FastMatch.reset_eq_of_rewind h.ready h'.ready (h'.ahead.trans h.ahead.symm), hreset]
  obtain ⟨seed, hseed⟩ := s.pass.exists_seed
  have hseed' : s'.pass.seed = .ok seed := by
    rw [← hseed, Pass.seed, Pass.seed, h.built.graph, h'.built.graph]
  have hbegun : s'.begun f seed =
      { s.begun f seed with residents := s'.residents, cache := s'.cache.ask .clear } := by
    simp only [begun, forgotten, Pass.seedBeam, Lattice.clear, h.built.settings,
      h'.built.settings, h.built.graph, h'.built.graph, h.built.pruner, h'.built.pruner,
      h.built.widths, h'.built.widths, h.source, h'.source, h.maxEdges, h'.maxEdges]
  rw [start_eq, start_eq, hreset, hreset', hseed, hseed']
  dsimp only
  have htokens : s.pass.seedBeam.tokens = [0] := Beam.tokens_push _ _ _
  have hgrow := grow_residents (s := s.begun f seed) (Beam.seeds_of_lt fun id hid => by
    rw [show (s.begun f seed).beam = s.pass.seedBeam from rfl, htokens] at hid
    rw [List.mem_singleton.1 hid]
    exact Nat.zero_lt_one) s'.residents
  rw [← hgrow, hbegun]
  exact Beside.grow (led_eq _)
    (twin_cache (s := { s.begun f seed with residents := s'.residents }) h.built.settings _)

/-! ## Decoding -/

/-- The calls of an utterance, by induction on their number. -/
theorem Twin.recognizeAll (chunk : Nat) : ∀ (calls : Nat) {s s' : Search}
    (last : Option Recognition), Twin settings s s' →
    Matched (SamePair (Twin settings)) (HaltPair (Twin settings))
      (recognizeAll chunk calls s last) (recognizeAll chunk calls s' last)
  | 0, _, _, _, h => ⟨rfl, h⟩
  | calls + 1, s, s', last, h => by
    refine (((led_eq _).pairing _).recognize h chunk).bind ?_
    rintro ⟨answer, t⟩ ⟨answer', t'⟩ ⟨hanswer, ht⟩
    dsimp only at hanswer ht
    subst hanswer
    cases answer' with
    | none => exact ⟨rfl, ht⟩
    | some r =>
      dsimp only
      split
      · exact ⟨rfl, ht⟩
      · exact Twin.recognizeAll chunk calls (some r) ht

/-- **What two starts that were alike decode.** -/
theorem decoded_eq_of_start
    (h : Matched (Twin settings) (HaltPair (Twin settings)) s.start s'.start) (chunk : Nat) :
    s'.decoded chunk = s.decoded chunk := by
  rcases h.cases with ⟨t, t', hx, hx', ht⟩ | ⟨err, err', hx, hx', herr, -⟩
  · rw [decoded_of_started hx, decoded_of_started hx']
    have hrows : t'.pass.source.rows = t.pass.source.rows := by
      obtain ⟨cache, rfl⟩ := ht.exists_cache
      rfl
    rw [hrows]
    rcases (Twin.recognizeAll (max chunk 1) (t.pass.source.rows.size + 1) none ht).cases with
      ⟨⟨answer, u⟩, ⟨answer', u'⟩, hu, hu', hanswer, hleft⟩ | ⟨err, err', hu, hu', herr, -⟩
    · obtain ⟨cache, hcache⟩ := Twin.exists_cache hleft
      dsimp only at hanswer hcache
      subst hanswer hcache
      rw [hu, hu']
      rfl
    · rw [hu, hu', mapError_error, mapError_error, herr]
  · rw [decoded_of_error hx, decoded_of_error hx', herr]

/-- Decoding an utterance is a start and some calls. -/
theorem Intact.recognizeAll (chunk : Nat) : ∀ (calls : Nat) {s : Search}
    (last : Option Recognition), s.Intact settings main fast →
    Outcome (fun r => r.2.Intact settings main fast) (fun h => h.state.Intact settings main fast)
      (recognizeAll chunk calls s last)
  | 0, _, _, h => h
  | calls + 1, s, last, h => by
    have hcall := h.perform (.recognize chunk)
    unfold Search.recognizeAll
    cases hx : s.recognize chunk with
    | error err =>
      simp only [Search.perform, hx] at hcall
      exact hcall
    | ok r =>
      obtain ⟨answer, t⟩ := r
      rw [perform_eq_of_recognize hx] at hcall
      cases answer with
      | none => exact hcall
      | some r =>
        dsimp only [bind, Except.bind]
        split
        · exact hcall
        · exact hcall.recognizeAll chunk calls (some r)

theorem Intact.decode (h : s.Intact settings main fast) (chunk : Nat) :
    Outcome (fun r => r.2.Intact settings main fast) (fun h => h.state.Intact settings main fast)
      (s.decode chunk) := by
  have hstart := h.perform .start
  unfold Search.decode
  cases hx : s.start with
  | error err =>
    simp only [Search.perform, hx] at hstart
    exact hstart
  | ok t =>
    have ht : t.Intact settings main fast := by simpa [Search.perform, hx] using hstart
    refine (ht.recognizeAll (max chunk 1) (t.pass.source.rows.size + 1) none).bind ?_
    rintro ⟨answer, u⟩ hu
    cases answer with
    | none => exact hu
    | some r =>
      dsimp only [orHalt]
      cases u.hypothesis r with
      | error f => exact hu
      | ok hyp => exact hu

/-! ## The theorem -/

/-- **The start of an utterance forgets everything.**  Whatever was asked of a search, a start and
all that is asked after it have the replies that they would have had at first, and leave the search
that they would have left then, but for what was asked of the cache of mixture scores.  So what an
utterance is decoded to does not depend on what came before it, and decoding it once more gives the
same. -/
theorem replies_start {cache : MixtureCache} {s₀ : Search}
    (h : Search.new settings main fast cache = .ok s₀) (hmain : main.pruner.Selects)
    (hfast : fast.pruner.Selects) (earlier later : List Request) (chunk chunk' : Nat) :
    let s := s₀.served earlier
    s.replies (.call .start :: later) = s₀.replies (.call .start :: later) ∧
      (∃ cache', s.served (.call .start :: later) =
        { s₀.served (.call .start :: later) with cache := cache' }) ∧
      s.decoded chunk = s₀.decoded chunk ∧
      Outcome (fun r => r.2.decoded chunk' = s₀.decoded chunk')
        (fun h => h.state.decoded chunk' = s₀.decoded chunk') (s.decode chunk) := by
  intro s
  have h₀ := intact_new h hmain hfast
  have hs : s.Intact settings main fast := h₀.served earlier
  have hstart := h₀.start hs
  obtain ⟨hanswer, hleft⟩ := Pairing.perform_start hstart
  obtain ⟨hreplies, hend⟩ := Twin.replies later hleft
  obtain ⟨cache', hcache⟩ := hend.exists_cache
  refine ⟨?_, ⟨cache', hcache⟩, decoded_eq_of_start hstart chunk, ?_⟩
  · unfold Search.replies
    exact congrArg₂ List.cons (congrArg Reply.answer hanswer) hreplies
  · exact (hs.decode chunk).mono (fun _ ht => decoded_eq_of_start (h₀.start ht) chunk')
      fun _ ht => decoded_eq_of_start (h₀.start ht) chunk'

/-- In the middle of an utterance of the word loop another one is decoded, and one more after it. -/
theorem replies_start_wordLoop :
    let s := (WordLoop.search false).served [.call .start, .call (.recognize 1), .penalty 0]
    let hyp : Hypothesis := ⟨[0], Float32.ofBits 0xC0200000, 2, true⟩
    s.frame = 1 ∧
      s.replies [.call .start, .penalty 0] =
        (WordLoop.search false).replies [.call .start, .penalty 0] ∧
      s.decoded 1 = .ok (some hyp) ∧
      Outcome (fun r => r.2.decoded 2 = .ok (some hyp)) (fun h => h.state.decoded 2 = .ok (some hyp))
        (s.decode 1) := by
  intro s hyp
  have hone : (WordLoop.search false).decoded 1 = .ok (some hyp) := by decide +kernel
  have htwo : (WordLoop.search false).decoded 2 = .ok (some hyp) := by decide +kernel
  obtain ⟨hreplies, -, hdecoded, hagain⟩ := replies_start (WordLoop.search_eq false)
    Pruner.selects_byWidths Pruner.selects_byWidths
    [.call .start, .call (.recognize 1), .penalty 0] [.penalty 0] 1 2
  rw [htwo] at hagain
  exact ⟨by decide +kernel, hreplies, hdecoded.trans hone, hagain⟩

end Search

end SpeechDecoder

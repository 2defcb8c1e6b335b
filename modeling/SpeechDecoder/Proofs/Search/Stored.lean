import SpeechDecoder.Proofs.Expansion.Results
import SpeechDecoder.Proofs.Search.Restart
import SpeechDecoder.Proofs.Search.Threads

/-!
# No reference leads nowhere

Whatever is asked of a search, and also after an error, the tokens that it refers to are in its
store, and those of its fast match in the store of that one, which is compacted in every frame.

* `Sealed` is the invariant: whoever is asked next finds what it refers to (`Primed`, `Placed`), the
  paths are in order, and the fast match is ready.
* `sealed_served` is the theorem about all requests.
-/

namespace SpeechDecoder

namespace Search

/-! ## The tokens that a search refers to -/

/-- **What a caller is told is stored:** the results, and the token on every state. -/
structure Placed (s : Search) : Prop where
  results : ∀ id ∈ s.results, id < s.store.size
  resident : ∀ st id, s.tokenOn st = some id → ∃ t, s.store.get? id = some t ∧ t.state = st

variable {s : Search}

/-- **The growth of a frame** overwrites what is told, also where it is halted. -/
theorem Primed.placed (h : s.Primed) : Outcome Placed (fun h => h.state.Placed) s.grow := by
  have hold : ∀ id ∈ s.beam.worthExpanding s.store s.settings.acousticLookahead,
      id < s.store.size := fun id hid => h.stored id (Beam.mem_worthExpanding hid)
  have hsound := (Expansion.Sound.start (g := s.growth) h.tidy.fits s.pass.widths s.lattice
    s.memo).run hold
  have htold := Expansion.told_run (g := s.growth)
    (e := .start s.store (.empty s.pass.widths) s.lattice s.memo) (fun id hid => by cases hid)
    (s.beam.worthExpanding s.store s.settings.acousticLookahead)
  rw [grow_eq, Beam.seeds_of_lt h.stored]
  dsimp only
  split
  · next err hx =>
    obtain ⟨-, done, he⟩ := hsound.of_error hx
    exact ⟨htold.of_error hx, fun st id hid => (he.resident_new st id hid).2⟩
  · next e hx =>
    obtain ⟨done, he, -⟩ := hsound.of_ok hx
    exact ⟨htold.of_ok hx, fun st id hid => (he.resident_new st id hid).2⟩

/-- What is scored stays where it is. -/
theorem Placed.heard (h : s.Placed) {outcome : ScoreOutcome} {source : AcousticSource}
    {store : Store}
    (hx : s.pass.source.scoreFrame s.store s.beam.tokens = .ok (outcome, source, store)) :
    (s.heard source store).Placed := by
  refine ⟨fun id hid => (AcousticSource.size_scoreFrame hx).symm ▸ h.results id hid,
    fun st id hid => ?_⟩
  obtain ⟨t, ht, hst⟩ := h.resident st id hid
  have hmap := AcousticSource.map_scoreFrame hx Token.state (fun row t => by simp) id
  rw [ht, Option.map_some, Option.map_eq_some_iff] at hmap
  obtain ⟨t', ht', hst'⟩ := hmap
  exact ⟨t', ht', hst'.trans hst⟩

/-- **One frame.** -/
theorem Placed.stepFrame (h : s.Placed) (hprimed : s.Primed) :
    Outcome (fun r => r.2.Placed) (fun h => h.state.Placed) s.stepFrame := by
  rw [stepFrame_eq]
  split
  · exact h
  · next hx => exact h.heard hx
  · next hx => exact ⟨(h.heard hx).results, (h.heard hx).resident⟩
  · next source store hx =>
    have hheard := h.heard hx
    obtain ⟨beam, hprune, hmoved⟩ := (hprimed.heard hx).exists_pruned
    rw [show s.pass.pruner store s.beam = .ok beam from hprune]
    dsimp only
    split
    · exact ⟨hheard.results, hheard.resident⟩
    · exact hmoved.placed.map _ fun _ h => h

/-- **A search that finds what it refers to,** whatever it is asked next. -/
structure Sealed (size : Nat) (fast : Pass) (s : Search) : Prop where
  primed : s.Primed
  placed : s.Placed
  ordered : s.InOrder
  ready : s.fastMatch.Ready size fast

variable {size : Nat} {fast : Pass}

/-- **How a call may be halted:** not by a reference that leads nowhere, and sealed. -/
def HaltsSealed (size : Nat) (fast : Pass) (h : Halted Search) : Prop :=
  (∀ f, h.error ≠ .dangling f) ∧ h.state.Sealed size fast

theorem TellsOrder.ne_dangling {err : SearchError} (h : TellsOrder err) (f : Fault) :
    err ≠ .dangling f := by
  rintro rfl
  obtain ⟨_, _, _, _, h⟩ := h
  cases h

/-- The penalties and the end of the stream are no concern of it. -/
theorem Sealed.aside (h : s.Sealed size fast) {fastMatch : FastMatch}
    (hready : fastMatch.Ready size fast) (memo : PenaltyMemo) (streamEnded : Bool) :
    Sealed size fast { s with fastMatch, memo, streamEnded } :=
  ⟨h.primed.aside fastMatch memo streamEnded, ⟨h.placed.results, h.placed.resident⟩,
    h.ordered.of_eq rfl rfl le_rfl rfl, hready⟩

/-- **One frame.** -/
theorem Sealed.stepFrame (h : s.Sealed size fast) :
    Outcome (fun r => r.2.Sealed size fast) (HaltsSealed size fast) s.stepFrame := by
  have hframe := ((h.primed.stepFrame.both (h.placed.stepFrame h.primed)).both
    (inOrder_kept.stepFrame [] s h.ordered)).both (stepFrame_spares s)
  refine hframe.mono ?_ ?_
  · rintro r ⟨⟨⟨hprimed, hplaced⟩, hordered⟩, hfast⟩
    exact ⟨hprimed, hplaced, hordered, hfast ▸ h.ready⟩
  · rintro err ⟨⟨⟨⟨horder, hprimed⟩, hplaced⟩, hordered⟩, hfast⟩
    exact ⟨horder.ne_dangling, hprimed, hplaced, hordered, hfast ▸ h.ready⟩

/-- **Up to so many frames,** by induction on their number. -/
theorem Sealed.stepFrames : ∀ (n : Nat) {s : Search}, s.Sealed size fast →
    Outcome (fun r => r.2.Sealed size fast) (HaltsSealed size fast) (stepFrames n s)
  | 0, _, h => h
  | n + 1, s, h => by
    obtain ⟨next, hnext, hready⟩ := h.ready.step
    have hahead := h.aside hready.dropOldest s.memo.forget s.streamEnded
    rw [stepFrames_succ, lookAhead_eq, hnext]
    refine Outcome.bind (P := fun t : Search => t.Sealed size fast) hahead fun t ht =>
      ht.stepFrame.bind fun r hr => ?_
    split
    · exact hr
    · exact Sealed.stepFrames n hr

/-- **A call that decodes some frames.**  The purge at its end finds all scores that it needs. -/
theorem Sealed.recognize (h : s.Sealed size fast) (n : Nat) :
    Outcome (fun r => r.2.Sealed size fast) (HaltsSealed size fast) (s.recognize n) := by
  rw [recognize_eq]
  split
  · exact ⟨fun f => by simp, h⟩
  · next initial _ =>
    refine (Sealed.stepFrames n (h.aside h.ready s.memo false)).bind fun r hr => ?_
    unfold conclude
    rw [hr.primed.tidy.purgeIn]
    split
    · exact hr
    · split
      · exact ⟨⟨tidy_kept.purge [] _ _ hr.primed.tidy hr.primed.tidy.purgeIn, hr.primed.stored⟩,
          ⟨hr.placed.results, hr.placed.resident⟩, hr.ordered.of_eq rfl rfl le_rfl rfl, hr.ready⟩
      · exact hr

/-- **The start of an utterance.** -/
theorem Sealed.start (h : s.Sealed size fast) :
    Outcome (Sealed size fast) (HaltsSealed size fast) s.start := by
  obtain ⟨f, hreset, hready, -⟩ := h.ready.reset
  have hstart := (Primed.start h.primed.tidy hreset).both (inOrder_kept.start [] s h.ordered)
  obtain ⟨seed, hseed⟩ := s.pass.exists_seed
  have hplaced : Outcome Placed (fun h => h.state.Placed) s.start := by
    rw [start_eq, hreset, hseed]
    exact (Primed.begun h.primed.tidy f hseed).placed
  refine (hstart.both hplaced).mono ?_ ?_
  · rintro t ⟨⟨⟨hprimed, hfast⟩, hordered⟩, hplaced⟩
    exact ⟨hprimed, hplaced, hordered, hfast ▸ hready⟩
  · rintro err ⟨⟨⟨⟨horder, hprimed⟩, hfast⟩, hordered⟩, hplaced⟩
    exact ⟨horder.ne_dangling, hprimed, hplaced, hordered, hfast ▸ hready⟩

/-! ## All requests -/

theorem Sealed.perform (h : s.Sealed size fast) (c : Call) :
    (∀ err, (s.perform c).1 = .error err → ∀ f, err ≠ .dangling f) ∧
      (s.perform c).2.Sealed size fast := by
  rcases c with _ | n
  · exact perform_start_halts h.start
  · exact perform_recognize_halts (h.recognize n)

theorem Sealed.after : ∀ (calls : List Call) {s : Search}, s.Sealed size fast →
    (s.after calls).Sealed size fast
  | [], _, h => h
  | c :: calls, _, h => Sealed.after calls (h.perform c).2

theorem Sealed.serve (h : s.Sealed size fast) (r : Request) :
    (∀ f, (s.serve r).1 ≠ .answer (.error (.dangling f))) ∧ (s.serve r).2.Sealed size fast := by
  rcases r with c | p
  · obtain ⟨herr, hstate⟩ := h.perform c
    exact ⟨fun f heq => herr _ (Reply.answer.inj heq) f rfl, hstate⟩
  · refine ⟨fun f => Reply.noConfusion, ?_⟩
    have hasked := h.aside h.ready (s.memo.ask s.fastMatch.window p).2 s.streamEnded
    have htidy := hasked.primed.tidy
    exact ⟨⟨⟨htidy.selects, htidy.fits, htidy.closed, htidy.noted⟩, hasked.primed.stored⟩,
      ⟨hasked.placed.results, hasked.placed.resident⟩, hasked.ordered.of_eq rfl rfl le_rfl rfl,
      hasked.ready⟩

/-- **Some requests,** by induction on them. -/
theorem Sealed.served : ∀ (requests : List Request) {s : Search}, s.Sealed size fast →
    (∀ f, .answer (.error (.dangling f)) ∉ s.replies requests) ∧
      (s.served requests).Sealed size fast
  | [], _, h => ⟨fun _ => List.not_mem_nil, h⟩
  | r :: requests, s, h => by
    obtain ⟨hreply, hstate⟩ := h.serve r
    obtain ⟨hreplies, hlast⟩ := Sealed.served requests hstate
    refine ⟨fun f hf => ?_, hlast⟩
    rcases List.mem_cons.1 hf with hf | hf
    · exact hreply f hf.symm
    · exact hreplies f hf

/-- A search that waits for its first utterance. -/
theorem sealed_new {settings : SearchSettings} {main : Pass} {cache : MixtureCache} {s₀ : Search}
    (h : Search.new settings main fast cache = .ok s₀) (hmain : main.pruner.Selects)
    (hfast : fast.pruner.Selects) : s₀.Sealed settings.window fast := by
  have htidy := (tidy_new h hmain).1
  have hready := (fastMatch_new h hfast).1
  obtain ⟨-, f, -, rfl⟩ := exists_of_new h
  refine ⟨⟨htidy, fun id hid => ?_⟩, ⟨fun id hid => ?_, fun st id hid => ?_⟩, InOrder.empty rfl,
    hready⟩
  · cases hid
  · cases hid
  · cases hid

/-- **No reference ever leads nowhere.**  Let the pruners leave tokens out and do nothing else.
Then, whatever was asked of a search and however it was answered, the tokens of its beam, its
results, its alternates with the tokens that they belong to, the tokens on the states and all
predecessors are in its store, and those of the beam of its fast match are in the store of the fast
match; a path can be told from every token; and no call was halted because a token or a state was
not there.  The token on a state stands on that state. -/
theorem sealed_served {settings : SearchSettings} {main : Pass} {cache : MixtureCache}
    {s₀ : Search} (h : Search.new settings main fast cache = .ok s₀) (hmain : main.pruner.Selects)
    (hfast : fast.pruner.Selects) (requests : List Request) :
    let s := s₀.served requests
    (∀ id ∈ s.beam.tokens, id < s.store.size) ∧
      (∀ id ∈ s.results, id < s.store.size) ∧
      (∀ word ∈ s.lattice.links, word.1 < s.store.size ∧ ∀ p ∈ word.2, p < s.store.size) ∧
      (∀ st id, s.tokenOn st = some id → ∃ t, s.store.get? id = some t ∧ t.state = st) ∧
      (∀ id t p, s.store.get? id = some t → t.predecessor = some p → p < s.store.size) ∧
      (∀ id ∈ s.fastMatch.beam.tokens, id < s.fastMatch.store.size) ∧
      (∀ id < s.store.size, ∃ path, s.store.backtrace id = .ok path ∧ ∀ x ∈ path, x < s.store.size) ∧
      ∀ fault, .answer (.error (.dangling fault)) ∉ s₀.replies requests := by
  intro s
  obtain ⟨hreplies, hs⟩ := (sealed_new h hmain hfast).served requests
  refine ⟨hs.primed.stored, hs.placed.results, fun word hword => ?_, hs.placed.resident,
    hs.primed.tidy.closed, hs.ready.stored, fun id hid => ?_, hreplies⟩
  · obtain ⟨hkey, halternates⟩ := hs.primed.tidy.noted word hword
    exact ⟨hkey, fun p hp => (halternates p hp).1⟩
  · obtain ⟨path, hpath⟩ := hs.ordered.threaded.rooted id hid
    exact ⟨path, hpath.backtrace, fun x hx => hpath.mem_lt hx⟩

/-- Both calls are halted, in the middle of a frame; the tokens that were created until then are
told, and can be traced back. -/
theorem sealed_served_wordLoop :
    let s := checkedLoop.served [.call .start, .call (.recognize 1), .penalty 0]
    (checkedLoop.perform .start).1 = .error (.stateOrder 2 0 2 0) ∧ s.tokenOn 2 = some 4 ∧
      (∃ t, s.store.get? 4 = some t ∧ t.state = 2) ∧ ∃ path, s.store.backtrace 4 = .ok path := by
  intro s
  obtain ⟨-, -, -, hstates, -, -, hpaths, -⟩ := sealed_served checkedLoop_eq
    Pruner.selects_byWidths Pruner.selects_byWidths
    [.call .start, .call (.recognize 1), .penalty 0]
  have hon : s.tokenOn 2 = some 4 := by decide +kernel
  obtain ⟨t, ht, hstate⟩ := hstates 2 4 hon
  obtain ⟨path, hpath, -⟩ := hpaths 4 (Store.lt_size_of_get? ht)
  exact ⟨by decide +kernel, hon, ⟨t, ht, hstate⟩, path, hpath⟩

end Search

end SpeechDecoder

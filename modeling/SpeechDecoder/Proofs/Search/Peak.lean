import SpeechDecoder.Proofs.Beam.Pruned
import SpeechDecoder.Proofs.Expansion.Threshold
import SpeechDecoder.Proofs.Search.Compaction
import SpeechDecoder.Proofs.Search.Finished
import SpeechDecoder.Proofs.Search.Taken

/-!
# The best score that a beam tells

A beam notes its best score, but the scores themselves are in the store, where they are raised by
later arrivals, changed by rows and numbered anew by compactions.  What is noted stays true: between
any two requests the best score of a beam is the greatest one of its tokens.

* `Beam.Proper` says what tokens a beam lists, `Beam.Faithful` also what its best score is.
* A frame leaves a faithful beam, finished or halted (`Primed.honest_grow`, `Ready.grow_faithful`).
  A beam that is pruned is faithful if no score is infinite or not a number
  (`Beam.Bounded.peak_prune`), and a row that is not scored changes no score.
* `Honest` is the invariant of a search, `Honest.stepFrame` carries it through a frame.
* `faithful_served` is the theorem about the fast match and about all requests.
-/

namespace SpeechDecoder

open Expansion (Sound)

namespace Beam

/-- **What a beam may list:** tokens that emit, none of them twice, and on different states. -/
structure Proper (a : Store) (b : Beam) : Prop where
  nodup : b.tokens.Nodup
  emitting : ∀ id ∈ b.tokens, ∃ t, a.get? id = some t ∧ t.kind.isEmitting = true
  distinct : ∀ i ∈ b.tokens, ∀ j ∈ b.tokens, ∀ t u, a.get? i = some t → a.get? j = some u →
    t.state = u.state → i = j

/-- **A beam whose best score is the greatest of its tokens,** or impossible if it has none. -/
structure Faithful (a : Store) (b : Beam) : Prop extends Proper a b where
  best : Score.IsMaximum (fun x => ∃ id ∈ b.tokens, a.score id = x) b.bestScore

variable {a a' : Store} {b b' : Beam} {score : Nat → Score}

theorem faithful_empty (a : Store) (w : BeamWidths) : (Beam.empty w).Faithful a where
  nodup := .nil
  emitting _ hid := by cases hid
  distinct _ hi := by cases hi
  best := Score.isMaximum_of (.inl rfl) fun x ⟨_, hid, _⟩ => by cases hid

theorem Peak.isMaximum (h : Peak score b) :
    Score.IsMaximum (fun x => ∃ id ∈ b.tokens, score id = x) b.bestScore := by
  refine Score.isMaximum_of ?_ fun x ⟨id, hid, hx⟩ => hx ▸ h.below id hid
  by_cases hnone : b.best = none
  · left
    unfold bestScore
    rw [hnone]
  · obtain ⟨id, hid, hbest⟩ := h.attained hnone
    exact .inr ⟨id, hid, hbest.symm⟩

theorem Proper.faithful (h : b.Proper a) (hpeak : b.Peak a.score) : b.Faithful a :=
  ⟨h, hpeak.isMaximum⟩

/-- A pruner leaves tokens out. -/
theorem Proper.of_subperm (h : b.Proper a) (hsub : b'.tokens.Subperm b.tokens) : b'.Proper a := by
  obtain ⟨l, hperm, hl⟩ := hsub
  have hmem : ∀ id ∈ b'.tokens, id ∈ b.tokens := fun id hid => hl.subset (hperm.mem_iff.2 hid)
  exact ⟨hperm.nodup_iff.1 (h.nodup.sublist hl), fun id hid => h.emitting id (hmem id hid),
    fun i hi j hj => h.distinct i (hmem i hi) j (hmem j hj)⟩

/-- Rows change neither the states of tokens nor their kinds. -/
theorem Proper.heard (h : b.Proper a) {src src' : AcousticSource} {ids : List Nat}
    {outcome : ScoreOutcome} (hx : src.scoreFrame a ids = .ok (outcome, src', a')) :
    b.Proper a' := by
  have hback : ∀ id t', a'.get? id = some t' →
      ∃ t, a.get? id = some t ∧ t.state = t'.state ∧ t.kind = t'.kind := by
    intro id t' ht'
    have hmap := AcousticSource.map_scoreFrame hx (fun t => (t.state, t.kind))
      (fun row t => by simp) id
    rw [ht', Option.map_some, eq_comm, Option.map_eq_some_iff] at hmap
    obtain ⟨t, ht, heq⟩ := hmap
    exact ⟨t, ht, (Prod.mk.inj heq).1, (Prod.mk.inj heq).2⟩
  refine ⟨h.nodup, fun id hid => ?_, fun i hi j hj t' u' ht' hu' hstate => ?_⟩
  · obtain ⟨t, ht, hemit⟩ := h.emitting id hid
    have hlt : id < a'.size :=
      (AcousticSource.size_scoreFrame hx).symm ▸ Store.lt_size_of_get? ht
    obtain ⟨t', ht'⟩ := Store.exists_get? hlt
    obtain ⟨u, hu, -, hkind⟩ := hback id t' ht'
    cases ht.symm.trans hu
    exact ⟨t', ht', hkind ▸ hemit⟩
  · obtain ⟨t, ht, htstate, -⟩ := hback i t' ht'
    obtain ⟨u, hu, hustate, -⟩ := hback j u' hu'
    exact h.distinct i hi j hj t u ht hu (htstate.trans (hstate.trans hustate.symm))

/-- **The best score of a pruned beam** is that of its first token, since the beam is sorted. -/
theorem Bounded.peak_prune (h : Bounded score b.tokens) (hmargin : b.widths.margin ≤ .certain) :
    (b.prune score).Peak score := by
  have hpruned := isPruned_prune hmargin h
  have hsorted := h.pairwise.sublist hpruned.sorted.sublist
  have hbest := hpruned.best
  cases htokens : (b.prune score).tokens with
  | nil =>
    rw [htokens, List.head?_nil, Option.map_none] at hbest
    exact ⟨fun id hid => by simp [htokens] at hid, fun _ => htokens, fun hne => absurd hbest hne⟩
  | cons top rest =>
    rw [htokens] at hbest hsorted
    have hscore : (b.prune score).bestScore = score top := bestScore_of_best hbest
    refine ⟨fun id hid => ?_, fun hnone => ?_, fun _ => ⟨top, by simp [htokens], hscore⟩⟩
    · have hin : id ∈ b.tokens :=
        Score.mem_sortDescending.1 (hpruned.sorted.subset hid)
      rw [hscore]
      rw [htokens] at hid
      rcases List.mem_cons.1 hid with rfl | hid
      · exact Score.le_rfl (h.isNumber hin)
      · exact (List.pairwise_cons.1 hsorted).1 id hid
    · rw [hnone] at hbest
      cases hbest

end Beam

/-- **The beam of a frame** lists emitting tokens on different states. -/
theorem Expansion.Sound.proper {g : Growth} {base : Store} {done : List Nat} {e : Expansion}
    (h : Sound g base done e) : e.next.Proper e.store where
  nodup := h.next_sorted.imp Nat.ne_of_lt
  emitting id hid := ((h.mem_next id).1 hid).2
  distinct i hi j hj t u ht hu hstate := by
    have hresident := h.resident_of i t ((h.mem_next i).1 hi).1 ht
    rw [hstate, h.resident_of j u ((h.mem_next j).1 hj).1 hu] at hresident
    exact (Option.some.inj hresident).symm

/-! ## The fast match -/

namespace FastMatch

/-- The thresholds that the expansion of a frame goes through. -/
def thresholds (f : FastMatch) : List Score :=
  (Expansion.start f.store (.empty f.pass.widths) (.empty 0) .empty).thresholds f.growth
    (f.beam.worthExpanding f.store .certain)

variable {size : Nat} {fast : Pass} {f : FastMatch}

/-- **Growing a frame** leaves a faithful beam, after the compaction. -/
theorem Ready.grow_faithful (h : f.Ready size fast) : ∃ next, f.grow = .ok next ∧
    next.Ready size fast ∧ next.beam.Faithful next.store := by
  obtain ⟨done, e, store, beam, hsound, -, hrun, hcompact, hgrow, hready⟩ := h.grow
  have hgraph : f.growth.graph = fast.graph := h.graph
  have hpeak := (Expansion.peak_run (g := f.growth) (hgraph.symm ▸ h.fits) f.pass.widths (.empty 0)
    .empty fun id hid => h.stored id (Beam.mem_worthExpanding hid)).of_ok hrun
  obtain ⟨store', beam', hcompact', -, hget, htokens, -, -, hpeak'⟩ := compact_peak hsound hpeak
  cases hcompact.symm.trans hcompact'
  obtain ⟨hplaced, hdistinct⟩ := compact_placed hsound hget
  refine ⟨_, hgrow, hready, Beam.Proper.faithful ⟨?_, fun id hid => ?_, fun i _ j _ => ?_⟩ hpeak'⟩
  · exact htokens ▸ List.nodup_range
  · obtain ⟨t, ht⟩ := Store.exists_get? (hready.stored id hid)
    obtain ⟨-, _, -, -, hemit⟩ := hplaced id t ht
    exact ⟨t, ht, hemit⟩
  · exact hdistinct i j

/-- A frame that is not scored leaves the tokens as they are. -/
theorem Ready.idle (h : f.Ready size fast) (hs : ¬ f.Scores) {next : FastMatch}
    (hstep : f.step = .ok next) : next.store = f.store ∧ next.beam = f.beam := by
  rw [step_eq] at hstep
  split_ifs at hstep with hended
  · cases hstep
    exact ⟨rfl, rfl⟩
  · obtain ⟨⟨outcome, source, store⟩, hx⟩ := f.pass.source.exists_scoreFrame h.stored
    have hno : ∀ best, outcome ≠ .scored best := by
      rintro best rfl
      exact hs ⟨by simpa using hended, best, source, store, hx⟩
    cases AcousticSource.store_of_not_scored hx hno
    rw [hx] at hstep
    cases outcome with
    | scored best => exact absurd rfl (hno best)
    | exhausted =>
      cases hstep
      exact ⟨rfl, rfl⟩
    | streamEnd =>
      cases hstep
      exact ⟨rfl, rfl⟩

/-- **A step.** -/
theorem Ready.step_faithful (h : f.Ready size fast) (hf : f.beam.Faithful f.store) :
    ∃ next, f.step = .ok next ∧ next.Ready size fast ∧ next.beam.Faithful next.store := by
  by_cases hs : f.Scores
  · obtain ⟨_, _, _, _, next, -, -, -, hready, hgrow, hstep, -⟩ := h.step_scored hs
    obtain ⟨_, hgrow', hnext⟩ := hready.grow_faithful
    rw [hgrow] at hgrow'
    cases hgrow'
    exact ⟨next, hstep, hnext⟩
  · obtain ⟨next, hstep, hnext, -⟩ := h.step_idle hs
    obtain ⟨hstore, hbeam⟩ := h.idle hs hstep
    exact ⟨next, hstep, hnext, by rwa [hstore, hbeam]⟩

/-- **Some steps,** by induction on their number. -/
theorem Ready.stepMany_faithful : ∀ (n : Nat) {f : FastMatch}, f.Ready size fast →
    f.beam.Faithful f.store →
    ∃ next, stepMany n f = .ok next ∧ next.Ready size fast ∧ next.beam.Faithful next.store
  | 0, f, h, hf => ⟨f, rfl, h, hf⟩
  | n + 1, f, h, hf => by
    obtain ⟨next, hstep, hready, hnext⟩ := h.step_faithful hf
    obtain ⟨last, hmany, hlast⟩ := Ready.stepMany_faithful n hready hnext
    refine ⟨last, ?_, hlast⟩
    unfold stepMany
    rw [hstep]
    exact hmany

/-- **The start of an utterance,** in whatever state the fast match is. -/
theorem faithful_reset (f : FastMatch) (hselects : f.pass.pruner.Selects) : ∃ next,
    f.reset = .ok next ∧ next.Ready f.windowSize f.pass ∧ next.beam.Faithful next.store := by
  obtain ⟨seed, hseed⟩ := f.pass.exists_seed
  obtain ⟨first, hgrow, hready, hfirst⟩ := (f.ready_begun hselects hseed).grow_faithful
  obtain ⟨next, hmany, hnext⟩ := hready.stepMany_faithful (f.windowSize - 1) hfirst
  refine ⟨next, ?_, hnext⟩
  rw [reset_eq, FastMatch.first, hseed]
  dsimp only
  rw [hgrow]
  exact hmany

theorem Ready.climbs (h : f.Ready size fast) (hmargin : fast.widths.margin ≤ .certain)
    (hbounded : f.store.Bounded) : f.thresholds.Pairwise (· ≤ ·) := by
  have hgraph : f.growth.graph = fast.graph := h.graph
  exact Expansion.climbs_run (hgraph.symm ▸ h.fits) hbounded (h.widths.symm ▸ hmargin) _ _
    fun id hid => h.stored id (Beam.mem_worthExpanding hid)

end FastMatch

/-! ## The search -/

namespace Search

/-- The thresholds that the expansion of a frame goes through. -/
def thresholds (s : Search) : List Score :=
  (Expansion.start s.store (.empty s.pass.widths) s.lattice s.memo).thresholds s.growth
    (s.beam.worthExpanding s.store s.settings.acousticLookahead)

/-- **A search whose beam tells its best score,** if no score is infinite or not a number. -/
structure Honest (s : Search) : Prop where
  pruner : s.pass.pruner = .byWidths
  margin : s.pass.widths.margin ≤ .certain
  widths : s.beam.widths = s.pass.widths
  proper : s.beam.Proper s.store
  peak : s.store.Bounded → s.beam.Peak s.store.score

variable {size : Nat} {settings : SearchSettings} {main fast : Pass} {s : Search}

/-- The fast match, the penalties and the end of the stream are no concern of it. -/
theorem Honest.aside (h : s.Honest) (fastMatch : FastMatch) (memo : PenaltyMemo)
    (streamEnded : Bool) : Honest { s with fastMatch, memo, streamEnded } :=
  ⟨h.pruner, h.margin, h.widths, h.proper, h.peak⟩

/-- **The growth of a frame,** finished or halted. -/
theorem Primed.honest_grow (h : s.Primed) (hpruner : s.pass.pruner = .byWidths)
    (hmargin : s.pass.widths.margin ≤ .certain) :
    Outcome Honest (fun h => h.state.Honest) s.grow := by
  have hseeds : ∀ id ∈ s.beam.worthExpanding s.store s.settings.acousticLookahead,
      id < s.store.size := fun id hid => h.stored id (Beam.mem_worthExpanding hid)
  have hstart := Sound.start (g := s.growth) h.tidy.fits s.pass.widths s.lattice s.memo
  have hsound := hstart.run hseeds
  have hpeak := Expansion.peak_run (g := s.growth) h.tidy.fits s.pass.widths s.lattice s.memo hseeds
  have hwidths := (Expansion.keeps_widths s.growth s.store s.pass.widths).run hstart rfl hseeds
  rw [grow_eq, Beam.seeds_of_lt h.stored]
  dsimp only
  split
  · next err hx =>
    obtain ⟨-, done, he⟩ := hsound.of_error hx
    exact ⟨hpruner, hmargin, hwidths.of_error hx, he.proper, fun _ => hpeak.of_error hx⟩
  · next e hx =>
    obtain ⟨done, he, -⟩ := hsound.of_ok hx
    exact ⟨hpruner, hmargin, hwidths.of_ok hx, he.proper, fun _ => hpeak.of_ok hx⟩

/-- **A frame that is not scored** changes no score. -/
theorem Honest.unheard (h : s.Honest) {outcome : ScoreOutcome} {source : AcousticSource}
    {store : Store}
    (hx : s.pass.source.scoreFrame s.store s.beam.tokens = .ok (outcome, source, store))
    (hno : ∀ best, outcome ≠ .scored best) : (s.heard source store).Honest := by
  cases AcousticSource.store_of_not_scored hx hno
  exact ⟨h.pruner, h.margin, h.widths, h.proper, h.peak⟩

/-- **A frame that is scored and pruned:** the best score is told by the scores that the row has
left. -/
theorem Honest.pruned (h : s.Honest) (hs : s.Primed) {outcome : ScoreOutcome}
    {source : AcousticSource} {store : Store}
    (hx : s.pass.source.scoreFrame s.store s.beam.tokens = .ok (outcome, source, store)) :
    ((s.heard source store).moved (s.beam.prune store.score)).Honest := by
  have hmargin : s.beam.widths.margin ≤ .certain := h.widths.symm ▸ h.margin
  refine ⟨h.pruner, h.margin, h.widths, (h.proper.heard hx).of_subperm (Beam.prune_subperm _),
    fun hbounded => Beam.Bounded.peak_prune (fun id hid => hbounded id ?_) hmargin⟩
  exact (hs.heard hx).stored id hid

/-- **One frame.** -/
theorem Honest.stepFrame (h : s.Honest) (hs : s.Primed) :
    Outcome (fun r => r.2.Honest) (fun h => h.state.Honest) s.stepFrame := by
  obtain ⟨⟨outcome, source, store⟩, hx⟩ := s.pass.source.exists_scoreFrame hs.stored
  rw [stepFrame_eq, hx]
  cases outcome with
  | exhausted => exact h.unheard hx fun _ => ScoreOutcome.noConfusion
  | streamEnd =>
    have hend := h.unheard hx fun _ => ScoreOutcome.noConfusion
    exact hend.aside _ _ true
  | scored best =>
    have hmoved := h.pruned hs hx
    obtain ⟨beam, hprune, hprimed⟩ := (hs.heard hx).exists_pruned
    have hbeam : s.pass.pruner store s.beam = .ok (s.beam.prune store.score) := by
      rw [h.pruner]
      exact Pruner.byWidths_eq (hs.heard hx).stored
    cases (show s.pass.pruner store s.beam = .ok beam from hprune).symm.trans hbeam
    dsimp only
    rw [hbeam]
    dsimp only
    split
    · exact hmoved
    · exact (hprimed.honest_grow hmoved.pruner hmoved.margin).map _ fun _ h => h

theorem honest_chronicled (size : Nat) (fast : Pass) : Chronicled size fast fun _ s => s.Honest where
  aside _ _ fastMatch memo streamEnded h := h.aside fastMatch memo streamEnded
  purge _ _ _ h _ := ⟨h.pruner, h.margin, h.widths, h.proper, h.peak⟩
  stepFrame _ _ h hs := h.stepFrame hs.primed

/-- **One request.** -/
theorem Honest.serve (h : s.Honest) (hs : s.Sealed size fast) : ∀ r : Request,
    (s.serve r).2.Honest
  | .call .start => by
    obtain ⟨f, hreset, -⟩ := hs.ready.reset
    obtain ⟨seed, hseed⟩ := s.pass.exists_seed
    refine perform_start (Q := Honest) ?_
    rw [start_eq, hreset, hseed]
    exact (Primed.begun hs.primed.tidy f hseed).honest_grow h.pruner h.margin
  | .call (.recognize n) => @Chronicled.recognize size fast _ (honest_chronicled size fast) s [] h hs n
  | .penalty p => ⟨h.pruner, h.margin, h.widths, h.proper, h.peak⟩

theorem faithful_serve (hs : s.Sealed size fast)
    (hf : s.fastMatch.beam.Faithful s.fastMatch.store) : ∀ r : Request,
    (s.serve r).2.fastMatch.beam.Faithful (s.serve r).2.fastMatch.store
  | .call c => by
    have hboth := fastMatch_perform
      (P := fun f => f.Ready size fast ∧ f.beam.Faithful f.store) (fun f hf => ?_) (fun f hf => ?_)
      ⟨hs.ready, hf⟩ c
    · exact hboth.2
    · obtain ⟨next, hreset, hready, -⟩ := hf.1.reset
      obtain ⟨next', hreset', -, hnext⟩ := f.faithful_reset (hf.1.pruner.symm ▸ hf.1.selects)
      cases hreset.symm.trans hreset'
      exact ⟨next, hreset, hready, hnext⟩
    · obtain ⟨next, hstep, hready, hnext⟩ := hf.1.step_faithful hf.2
      exact ⟨next, hstep, hready.dropOldest, hnext⟩
  | .penalty _ => hf

/-- **All requests,** by induction on them. -/
theorem Sealed.faithful : ∀ (requests : List Request) {s : Search}, s.Sealed size fast → s.Honest →
    s.fastMatch.beam.Faithful s.fastMatch.store →
    (s.served requests).Sealed size fast ∧ (s.served requests).Honest ∧
      (s.served requests).fastMatch.beam.Faithful (s.served requests).fastMatch.store
  | [], _, hs, h, hf => ⟨hs, h, hf⟩
  | r :: requests, _, hs, h, hf =>
    Sealed.faithful requests (hs.serve r).2 (h.serve hs r) (faithful_serve hs hf r)

/-! ## The frames that are grown -/

/-- What a call grows is built alike. -/
theorem Built.growthsIn (h : s.Built settings main) (c : Call) :
    ∀ u ∈ s.growthsIn c, u.Built settings main := by
  intro u hu
  rcases growthsIn_cases hu with ⟨f, seed, -, rfl⟩ | ⟨n, t, ht, htu⟩
  · exact ⟨h.settings, h.graph, h.pruner, h.widths, h.rows⟩
  · have hlive : Built settings main { s with streamEnded := false } :=
      ⟨h.settings, h.graph, h.pruner, h.widths, h.rows⟩
    obtain ⟨_, source, store, beam, hx, rfl, -⟩ := exists_of_grown htu
    have hheard := Built.heard (built_kept.turnsOf n hlive t ht) hx
    exact ⟨hheard.settings, hheard.graph, hheard.pruner, hheard.widths, hheard.rows⟩

theorem Sealed.climbs (h : s.Sealed size fast) (hmargin : s.pass.widths.margin ≤ .certain)
    (c : Call) : ∀ u ∈ s.growthsIn c, u.store.Bounded → u.thresholds.Pairwise (· ≤ ·) := by
  intro u hu hbounded
  have hprimed := (h.found_growthsIn c u hu).primed
  have hbuilt : s.Built s.settings s.pass := ⟨rfl, rfl, rfl, rfl, rfl⟩
  have hwidths := (hbuilt.growthsIn c u hu).widths
  exact Expansion.climbs_run hprimed.tidy.fits hbounded (hwidths.symm ▸ hmargin) _ _
    fun id hid => hprimed.stored id (Beam.mem_worthExpanding hid)

/-! ## The theorem -/

/-- A search that waits for its first utterance. -/
theorem honest_new {cache : MixtureCache} {s₀ : Search}
    (h : Search.new settings main fast cache = .ok s₀) (hpruner : main.pruner = .byWidths)
    (hmargin : main.widths.margin ≤ .certain) :
    s₀.Honest ∧ s₀.fastMatch.beam.Faithful s₀.fastMatch.store := by
  obtain ⟨-, f, hf, rfl⟩ := exists_of_new h
  obtain ⟨-, rfl⟩ := FastMatch.new_eq_ok hf
  exact ⟨⟨hpruner, hmargin, rfl, (Beam.faithful_empty _ _).toProper,
    fun _ => Beam.peak_empty _ _⟩, Beam.faithful_empty _ _⟩

/-- **The best score of a beam stays true.**  However often the fast match is started and goes on,
its beam lists tokens that emit, none of them twice, on different states, and its best score is the
greatest one of them, or impossible if there is none.  Let the main pass prune by its widths.  Then,
whatever was asked of a search, also after the end of the input and after an error that halted a
frame, so it is with the beam of the search if no score in its store is infinite or not a number, and
with the beam of its fast match.  In every frame that a call grows, and in every frame that the fast
match grows, at a start or in later steps, the threshold of the beam never falls, from before the
first arc up to the end of the frame, also if the frame is halted. -/
theorem faithful_served :
    (∀ (f : FastMatch) (n : Nat), f.pass.pruner.Selects → f.pass.widths.margin ≤ .certain →
      (∃ next, f.reset >>= FastMatch.stepMany n = .ok next ∧ next.beam.Faithful next.store) ∧
      ∀ u ∈ f.growths n, u.store.Bounded → u.thresholds.Pairwise (· ≤ ·)) ∧
    ∀ (settings : SearchSettings) (main fast : Pass) (cache : MixtureCache) (s₀ : Search),
      Search.new settings main fast cache = .ok s₀ →
      main.pruner = .byWidths → main.widths.margin ≤ .certain →
      fast.pruner.Selects → fast.widths.margin ≤ .certain →
      ∀ requests : List Request,
        let s := s₀.served requests
        s.beam.Proper s.store ∧ (s.store.Bounded → s.beam.Faithful s.store) ∧
          s.fastMatch.beam.Faithful s.fastMatch.store ∧
          (∀ c, ∀ u ∈ s.growthsIn c, u.store.Bounded → u.thresholds.Pairwise (· ≤ ·)) ∧
          ∀ n, ∀ u ∈ s.fastMatch.growths n ++ FastMatch.growthsFrom n s.fastMatch,
            u.store.Bounded → u.thresholds.Pairwise (· ≤ ·) := by
  refine ⟨fun f n hselects hmargin => ⟨?_, fun u hu hbounded => ?_⟩,
    fun settings main fast cache s₀ hnew hpruner hmain hselects hfast requests => ?_⟩
  · obtain ⟨next, hreset, hready, hnext⟩ := f.faithful_reset hselects
    obtain ⟨last, hmany, -, hlast⟩ := hready.stepMany_faithful n hnext
    exact ⟨last, by rw [hreset]; exact hmany, hlast⟩
  · exact (FastMatch.ready_growths f hselects n u hu).climbs hmargin hbounded
  · obtain ⟨hhonest, hfaithful⟩ := honest_new hnew hpruner hmain
    obtain ⟨hs, h, hf⟩ := Sealed.faithful requests
      (sealed_new hnew (hpruner ▸ Pruner.selects_byWidths) hselects) hhonest hfaithful
    refine ⟨h.proper, fun hbounded => h.proper.faithful (h.peak hbounded), hf, hs.climbs h.margin,
      fun n u hu hbounded => ?_⟩
    rcases List.mem_append.1 hu with hu | hu
    · refine (FastMatch.ready_growths _ ?_ n u hu).climbs ?_ hbounded
      · rw [hs.ready.pruner]
        exact hselects
      · rw [hs.ready.widths]
        exact hfast
    · exact (hs.ready.growthsFrom n u hu).climbs hfast hbounded

/-- The word loop with a margin of 10, where every second frame is not grown; on request the order
of states is checked. -/
def narrowLoop (check : Bool) : Search :=
  let pass := { WordLoop.pass with widths := ⟨0, Float32.ofBits 0xC1200000⟩ }
  { WordLoop.search false with
    settings := { WordLoop.settings false with checkStateOrder := check, skipInterval := 2 }
    pass
    fastMatch := { (WordLoop.search false).fastMatch with pass, beam := .empty pass.widths }
    beam := .empty pass.widths }

theorem narrowLoop_eq (check : Bool) :
    Search.new (narrowLoop check).settings (narrowLoop check).pass (narrowLoop check).pass none =
      .ok (narrowLoop check) := by
  cases check <;> rfl

/-- With the check the start is halted, and in its frame the threshold rises from below all scores
to -11.  Without it the last frame is pruned and not grown, and the input is at its end. -/
theorem faithful_served_wordLoop :
    let s := (narrowLoop true).served [.call .start, .call (.recognize 1), .penalty 0]
    let t := (narrowLoop false).served [.call .start, .call (.recognize 2), .call (.recognize 1)]
    let below := Float32.ofBits 0xC1300000
    ((narrowLoop true).perform .start).1 = .error (.stateOrder 2 0 2 0) ∧ s.beam.tokens = [3] ∧
      s.beam.Faithful s.store ∧ t.frame = 2 ∧ t.beam.tokens = [5] ∧ t.beam.Faithful t.store ∧
      t.fastMatch.beam.Faithful t.fastMatch.store ∧
      (∃ u, (narrowLoop true).growthsIn .start = [u] ∧
        u.thresholds = [Score.impossible, Score.impossible, below, below, below] ∧
        u.thresholds.Pairwise (· ≤ ·)) ∧
      ∀ u ∈ (narrowLoop false).fastMatch.growths 1, u.thresholds.Pairwise (· ≤ ·) := by
  intro s t below
  obtain ⟨hfast, hserved⟩ := faithful_served
  have hmargin : (narrowLoop true).pass.widths.margin ≤ .certain := by decide
  obtain ⟨-, hs, -⟩ := hserved _ _ _ _ _ (narrowLoop_eq true) rfl hmargin Pruner.selects_byWidths
    hmargin [.call .start, .call (.recognize 1), .penalty 0]
  obtain ⟨-, -, -, hclimbs, -⟩ := hserved _ _ _ _ _ (narrowLoop_eq true) rfl hmargin
    Pruner.selects_byWidths hmargin []
  obtain ⟨-, ht, htfast, -⟩ := hserved _ _ _ _ _ (narrowLoop_eq false) rfl hmargin
    Pruner.selects_byWidths hmargin [.call .start, .call (.recognize 2), .call (.recognize 1)]
  obtain ⟨u, hu⟩ := List.length_eq_one_iff.1
    (show ((narrowLoop true).growthsIn .start).length = 1 by decide +kernel)
  have hthresholds : ((narrowLoop true).growthsIn .start).map thresholds =
      [[Score.impossible, Score.impossible, below, below, below]] := by decide +kernel
  have hbounded : ∀ u ∈ (narrowLoop true).growthsIn .start, u.store.Bounded := by decide +kernel
  rw [hu] at hthresholds hbounded
  refine ⟨by decide +kernel, by decide +kernel, hs (by decide +kernel), by decide +kernel,
    by decide +kernel, ht (by decide +kernel), htfast, ⟨u, hu, List.singleton_inj.1 hthresholds,
      hclimbs .start u (by simp [served, hu]) (hbounded u (by simp))⟩, fun v hv => ?_⟩
  have hbounded' : ∀ v ∈ (narrowLoop false).fastMatch.growths 1, v.store.Bounded := by
    decide +kernel
  exact (hfast (narrowLoop false).fastMatch 1 Pruner.selects_byWidths hmargin).2 v hv
    (hbounded' v hv)

end Search

end SpeechDecoder

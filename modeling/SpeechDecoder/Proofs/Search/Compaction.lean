import SpeechDecoder.Proofs.Expansion.Peak
import SpeechDecoder.Proofs.Expansion.Renaming
import SpeechDecoder.Proofs.Search.FastMatch

/-!
# What the fast match forgets

After every frame the fast match keeps the tokens of its beam only, under new numbers and without
their past.  Nothing of what it does afterwards depends on what it forgot: a fast match that keeps
everything (`keepAll`) does the same under other numbers (`Shadows`), and the best score, which the
compaction looks up again, is the one that was noted (`Beam.Peak`).

* `growWith`, `stepWith` and `resetWith` are the fast match with something else in place of the
  compaction; with the compaction they are the fast match (`resetWith_compact`).
* `Compact` says what is left after a frame; `Shadows.grow`, `Beside.step` and `Beside.stepMany`
  carry both through a frame, a step and more steps.
* `compaction_after` is the theorem.
-/

namespace SpeechDecoder

/-- **The emitting states** of a graph. -/
def Graph.emittingStates (graph : Graph) : List Nat :=
  (List.range graph.size).filter fun s => (graph.state? s).any fun st => st.kind.isEmitting

namespace FastMatch

open Expansion (Sound Renames)

/-! ## The fast match without compaction -/

section With

variable (keep : Store → Beam → Except Fault (Store × Beam))

/-- Grows a frame and keeps of it what it is told to. -/
def growWith (f : FastMatch) : Except SearchError FastMatch := do
  let seeds ← (f.beam.seeds f.store .certain).mapError .dangling
  let e := Expansion.start f.store (.empty f.pass.widths) (.empty 0) .empty
  let e' ← (e.run f.growth seeds).mapError Halted.error
  let (store, beam) ← (keep e'.store e'.next).mapError .dangling
  return { f with store, beam, window := f.window ++ [f.evidence seeds] }

/-- Goes one frame further. -/
def stepWith (f : FastMatch) : Except SearchError FastMatch :=
  if f.ended then .ok f
  else do
    let (outcome, source, store) ←
      (f.pass.source.scoreFrame f.store f.beam.tokens).mapError .dangling
    let f' := { f with pass := { f.pass with source }, store, steps := f.steps + 1 }
    match outcome with
    | .scored _ =>
      let beam ← (f.pass.pruner store f.beam).mapError .dangling
      { f' with beam, frame := f.frame + 1 }.growWith keep
    | _ => return { f' with ended := true }

/-- So many steps. -/
def stepManyWith : Nat → FastMatch → Except SearchError FastMatch
  | 0, f => .ok f
  | n + 1, f => do stepManyWith n (← f.stepWith keep)

/-- Starts an utterance and runs ahead to fill the window. -/
def resetWith (f : FastMatch) : Except SearchError FastMatch := do
  let seed ← f.pass.seed
  let f' ← { f with
    pass := { f.pass with source := f.pass.source.rewind }
    store := Store.empty.push seed
    beam := f.pass.seedBeam
    window := []
    frame := 0
    ended := false
    steps := 0 }.growWith keep
  stepManyWith keep (f.windowSize - 1) f'

end With

/-- **Everything is kept,** the tokens of earlier frames with their past. -/
def keepAll : Store → Beam → Except Fault (Store × Beam) := fun a b => .ok (a, b)

theorem growWith_compact (f : FastMatch) : f.growWith compact = f.grow := rfl

theorem stepWith_compact (f : FastMatch) : f.stepWith compact = f.step := rfl

theorem stepManyWith_compact : ∀ (n : Nat) (f : FastMatch), stepManyWith compact n f = stepMany n f
  | 0, _ => rfl
  | n + 1, f => by
    unfold stepManyWith stepMany
    rw [stepWith_compact]
    exact congrArg _ (funext (stepManyWith_compact n))

/-- **With the compaction** it is the fast match. -/
theorem resetWith_compact (f : FastMatch) : f.resetWith compact = f.reset := by
  unfold resetWith reset
  simp only [stepManyWith_compact, growWith_compact]

/-! ## What is left after a frame -/

/-- **The active tokens,** in the order of the beam and without their past. -/
def records (f : FastMatch) : List (Option Token) :=
  f.beam.tokens.map fun id => (f.store.get? id).map Token.detached

/-- **The store holds the tokens of the beam and no other ones,** under the numbers from zero in the
order of the beam, without their past and on different states that emit. -/
structure Compact (f : FastMatch) : Prop where
  tokens : f.beam.tokens = List.range f.store.size
  detached : ∀ id t, f.store.get? id = some t → t.predecessor = none
  emitting : ∀ id t, f.store.get? id = some t →
    ∃ st, f.pass.graph.state? t.state = some st ∧ t.kind = st.kind ∧ t.kind.isEmitting = true
  distinct : ∀ i j t u, f.store.get? i = some t → f.store.get? j = some u → t.state = u.state → i = j

/-- **No score is the negative zero.** -/
def Unsigned (f : FastMatch) : Prop :=
  ∀ id t, f.store.get? id = some t → t.score ≠ Score.negativeZero

variable {size : Nat} {fast : Pass} {f f' : FastMatch} {ρ : Nat → Nat}

/-- **There are no more tokens than emitting states.** -/
theorem Compact.size_le (h : f.Compact) : f.store.size ≤ f.pass.graph.emittingStates.length := by
  have hnodup : ((List.range f.store.size).map fun i => (f.store.get? i).map Token.state).Nodup := by
    refine List.nodup_range.map_on fun i hi j hj heq => ?_
    obtain ⟨t, ht⟩ := Store.exists_get? (List.mem_range.1 hi)
    obtain ⟨u, hu⟩ := Store.exists_get? (List.mem_range.1 hj)
    rw [ht, hu, Option.map_some, Option.map_some] at heq
    exact h.distinct i j t u ht hu (Option.some.inj heq)
  have hsub : ((List.range f.store.size).map fun i => (f.store.get? i).map Token.state) ⊆
      f.pass.graph.emittingStates.map some := by
    intro s hs
    obtain ⟨i, hi, rfl⟩ := List.mem_map.1 hs
    obtain ⟨t, ht⟩ := Store.exists_get? (List.mem_range.1 hi)
    obtain ⟨st, hst, hkind, hemit⟩ := h.emitting i t ht
    have hmem : t.state ∈ f.pass.graph.emittingStates := by
      refine List.mem_filter.2 ⟨List.mem_range.2 (Expansion.lt_size_of_state? hst), ?_⟩
      rw [hst, Option.any_some, ← hkind, hemit]
    rw [ht, Option.map_some]
    exact List.mem_map.2 ⟨t.state, hmem, rfl⟩
  have hle := (List.subperm_of_subset hnodup hsub).length_le
  rwa [List.length_map, List.length_range, List.length_map] at hle

/-- **The best score is looked up again** by a compaction. -/
theorem compact_peak {g : Growth} {base : Store} {done : List Nat} {e : Expansion}
    (hsound : Sound g base done e) (hpeak : e.next.Peak e.store.score) :
    ∃ store beam, compact e.store e.next = .ok (store, beam) ∧
      store.size = e.next.tokens.length ∧
      (∀ i : Nat, store.get? i = (e.next.tokens[i]?.bind e.store.get?).map Token.detached) ∧
      beam.tokens = List.range store.size ∧ beam.widths = e.next.widths ∧
      (∀ i id, e.next.tokens[i]? = some id → store.score i = e.store.score id) ∧
      beam.Peak store.score := by
  obtain ⟨store, hcompact, hsize, hget⟩ := compact_eq fun id hid => hsound.next_lt hid
  obtain ⟨htokens, hwidths⟩ := foldl_push store.score (List.range store.size)
    (.empty e.next.widths)
  have hscore : ∀ i id, e.next.tokens[i]? = some id → store.score i = e.store.score id := by
    intro i id hi
    rw [Store.score_eq_map, Store.score_eq_map, hget, hi, Option.bind_some, Option.map_map]
    rfl
  have hnumber : ∀ i ∈ List.range store.size, (store.score i).IsNumber := by
    intro i hi
    rw [List.mem_range, hsize] at hi
    rw [hscore i _ (List.getElem?_eq_getElem hi)]
    exact (Score.le_iff.1 (hpeak.below _ (List.getElem_mem hi))).1
  exact ⟨store, _, hcompact, hsize, hget, htokens, hwidths, hscore,
    (Beam.peak_empty store.score e.next.widths).foldl_push hnumber⟩

/-- What a compaction leaves of a sound expansion. -/
theorem compact_left {g : Growth} {base : Store} {done : List Nat} {e : Expansion}
    (hsound : Sound g base done e) (hpeak : e.next.Peak e.store.score)
    (hunsigned : ∀ id t, e.store.get? id = some t → t.score ≠ Score.negativeZero) :
    ∃ store beam, compact e.store e.next = .ok (store, beam) ∧
      store.size = e.next.tokens.length ∧
      (∀ i : Nat, store.get? i = (e.next.tokens[i]?.bind e.store.get?).map Token.detached) ∧
      beam.tokens = List.range store.size ∧ beam.widths = e.next.widths ∧
      beam.bestScore = e.next.bestScore := by
  obtain ⟨store, beam, hcompact, hsize, hget, htokens, hwidths, hscore, hpeak'⟩ :=
    compact_peak hsound hpeak
  refine ⟨store, beam, hcompact, hsize, hget, htokens, hwidths, hpeak.bestScore_eq hpeak' ?_ ?_ ?_⟩
  · intro id hid
    obtain ⟨i, hi, rfl⟩ := List.getElem_of_mem hid
    refine ⟨i, ?_, hscore i _ (List.getElem?_eq_getElem hi)⟩
    rw [htokens]
    exact List.mem_range.2 (hsize ▸ hi)
  · intro i hi
    rw [htokens, List.mem_range, hsize] at hi
    exact ⟨_, List.getElem_mem hi, (hscore i _ (List.getElem?_eq_getElem hi)).symm⟩
  · intro id hid
    obtain ⟨t, ht⟩ := Store.exists_get? (hsound.next_lt hid)
    rw [Store.score_eq_map, ht]
    exact hunsigned id t ht

/-- What a compaction leaves of a sound expansion stands on different states that emit. -/
theorem compact_placed {g : Growth} {base store : Store} {done : List Nat} {e : Expansion}
    (hsound : Sound g base done e)
    (hget : ∀ i : Nat, store.get? i = (e.next.tokens[i]?.bind e.store.get?).map Token.detached) :
    (∀ i t, store.get? i = some t → t.predecessor = none ∧ ∃ st, g.graph.state? t.state = some st ∧
      t.kind = st.kind ∧ t.kind.isEmitting = true) ∧
    ∀ i j t u, store.get? i = some t → store.get? j = some u → t.state = u.state → i = j := by
  refine ⟨fun i t ht => ?_, fun i j t u ht hu hstate => ?_⟩
  · obtain ⟨id, u, hid, hu, rfl⟩ := exists_of_compact hget ht
    obtain ⟨-, v, hv, hemit⟩ := (hsound.mem_next id).1 hid
    rw [hu] at hv
    cases hv
    obtain ⟨st, hst, hkind⟩ := hsound.fits id u hu
    exact ⟨rfl, st, hst, hkind, hemit⟩
  · have hresident : ∀ (k : Nat) (v : Token), store.get? k = some v →
        ∃ id, e.next.tokens[k]? = some id ∧ e.resident? v.state = some id := by
      intro k v hv
      rw [hget, Option.map_eq_some_iff] at hv
      obtain ⟨w, hw, rfl⟩ := hv
      obtain ⟨id, hid, hw⟩ := Option.bind_eq_some_iff.1 hw
      have hnew := ((hsound.mem_next id).1 (List.mem_of_getElem? hid)).1
      exact ⟨id, hid, hsound.resident_of id w hnew hw⟩
    obtain ⟨x, hx, hxt⟩ := hresident i t ht
    obtain ⟨y, hy, hyu⟩ := hresident j u hu
    rw [hstate, hyu] at hxt
    cases hxt
    have hnodup : e.next.tokens.Nodup := hsound.next_sorted.imp Nat.ne_of_lt
    exact (List.getElem?_inj (List.getElem?_eq_some_iff.1 hx).1 hnodup).1 (hx.trans hy.symm)

/-! ## Two fast matches -/

/-- **A fast match that does the same under other numbers,** whatever past its tokens have. -/
structure Shadows (ρ : Nat → Nat) (f f' : FastMatch) : Prop where
  store : f.store.Renamed ρ f'.store
  tokens : f'.beam.tokens = f.beam.tokens.map ρ
  widths : f'.beam.widths = f.beam.widths
  bestScore : f'.beam.bestScore = f.beam.bestScore
  rest : f' = { f with store := f'.store, beam := f'.beam }

/-- **A fast match after a frame,** and one that keeps everything. -/
def Beside (size : Nat) (fast : Pass) (f f' : FastMatch) : Prop :=
  f.Ready size fast ∧ f.Compact ∧ f.Unsigned ∧ ∃ ρ, Shadows ρ f f'

theorem Shadows.records_eq (h : Shadows ρ f f') : f'.records = f.records := by
  unfold records
  rw [h.tokens, List.map_map]
  exact List.map_congr_left fun id _ => h.store.get id

theorem Shadows.threshold_eq (h : Shadows ρ f f') : f'.beam.threshold = f.beam.threshold := by
  unfold Beam.threshold
  rw [h.bestScore, h.widths]

/-- The same tokens are worth expanding. -/
theorem Shadows.seeds_eq (h : Shadows ρ f f') :
    f'.beam.worthExpanding f'.store .certain = (f.beam.worthExpanding f.store .certain).map ρ := by
  have hno : ¬ Score.certain < Score.certain := by decide
  rw [Beam.worthExpanding_eq hno, Beam.worthExpanding_eq hno, h.tokens, List.filter_map]
  refine congrArg _ (List.filter_congr fun id _ => ?_)
  unfold Beam.admits
  rw [Function.comp_apply, h.threshold_eq, h.store.score_eq]

/-- They say the same about the frame. -/
theorem Shadows.evidence_eq (h : Shadows ρ f f') (seeds : List Nat) :
    f'.evidence (seeds.map ρ) = f.evidence seeds := by
  have hobserve : ∀ e id, observeToken f'.store e (ρ id) = observeToken f.store e id := by
    intro e id
    unfold observeToken
    cases ht : f.store.get? id with
    | none => rw [h.store.get?_eq_none ht]
    | some t =>
      obtain ⟨t', ht', heq⟩ := h.store.exists_get? ht
      obtain ⟨-, hkind, hscore, -⟩ := Store.detached_eq_iff.1 heq
      rw [ht']
      simp only [hkind, hscore]
  have hblank : Evidence.blank f'.frame f'.pass.graph.phoneCount =
      .blank f.frame f.pass.graph.phoneCount := by
    rw [h.rest]
  unfold evidence
  rw [List.foldl_map, hblank]
  simp only [hobserve]

/-- **A frame without the compaction** is the same one under other numbers. -/
theorem Shadows.growWith_keepAll (h : Shadows ρ f f') (hf : f.Ready size fast) {e : Expansion}
    (hrun : (Expansion.start f.store (.empty f.pass.widths) (.empty 0) .empty).run f.growth
      (f.beam.worthExpanding f.store .certain) = .ok e) :
    ∃ a, e.store.Renamed ρ a ∧ f'.growWith keepAll =
      .ok (f'.grown (f'.beam.worthExpanding f'.store .certain) a (e.next.renamed ρ)) := by
  have hsame : f'.growth = f.growth ∧ f'.pass.widths = f.pass.widths := by
    rw [h.rest]
    exact ⟨rfl, rfl⟩
  have hstored : ∀ id ∈ f'.beam.tokens, id < f'.store.size := by
    rw [h.tokens]
    intro id hid
    obtain ⟨i, hi, rfl⟩ := List.mem_map.1 hid
    exact h.store.lt_iff.2 (hf.stored i hi)
  have hmatched := (Renames.start h.store f.pass.widths (.empty 0) .empty).run (g := f.growth) rfl
    (f.beam.worthExpanding f.store .certain)
  rw [hrun] at hmatched
  rcases hmatched.cases with ⟨_, _, hok, hrun', a, ha, rfl⟩ | ⟨_, _, hok, -⟩
  · cases hok
    rw [← hsame.1, ← hsame.2, ← h.seeds_eq] at hrun'
    refine ⟨a, ha, ?_⟩
    unfold growWith
    rw [Beam.seeds_of_lt hstored, mapError_ok]
    simp only [bind, Except.bind, hrun', mapError_ok, keepAll]
    rfl
  · cases hok

/-- **Growing a frame,** with the compaction and without it. -/
theorem Shadows.grow (h : Shadows ρ f f') (hf : f.Ready size fast) (hunsigned : f.Unsigned) :
    ∃ next next', f.grow = .ok next ∧ f'.growWith keepAll = .ok next' ∧
      Beside size fast next next' := by
  obtain ⟨done, e, store, beam, hsound, -, hrun, hcompact, hgrow, hready⟩ := hf.grow
  have hseeds : ∀ id ∈ f.beam.worthExpanding f.store .certain, id < f.store.size :=
    fun id hid => hf.stored id (Beam.mem_worthExpanding hid)
  have hgraph : f.growth.graph = fast.graph := hf.graph
  have hpeak := (Expansion.peak_run (g := f.growth) (hgraph.symm ▸ hf.fits) f.pass.widths (.empty 0)
    .empty hseeds).of_ok hrun
  have hnew : ∀ id t, e.store.get? id = some t → t.score ≠ Score.negativeZero :=
    fun id t ht => hsound.ne_negativeZero hunsigned ht
  obtain ⟨store', beam', hcompact', hsize, hget, htokens, hwidths, hbest⟩ :=
    compact_left hsound hpeak hnew
  rw [hcompact] at hcompact'
  cases hcompact'
  obtain ⟨hplaced, hdistinct⟩ := compact_placed hsound hget
  obtain ⟨a, ha, hgrow'⟩ := h.growWith_keepAll hf hrun
  refine ⟨_, _, hgrow, hgrow', hready, ⟨htokens, fun i t ht => (hplaced i t ht).1,
    fun i t ht => (hplaced i t ht).2, hdistinct⟩, fun i t ht => ?_,
    Store.numbering (e.next.tokens.map ρ) a.size, ?_⟩
  · obtain ⟨id, u, -, hu, rfl⟩ := exists_of_compact hget ht
    exact hnew id u hu
  · refine ⟨ha.retain hsound.next_sorted (fun id hid => hsound.next_lt hid) hsize hget, ?_,
      hwidths.symm, (Beam.bestScore_renamed ρ e.next).trans hbest.symm, ?_⟩
    · have hlength : store.size = (e.next.tokens.map ρ).length := by rw [List.length_map, hsize]
      change e.next.tokens.map ρ = beam.tokens.map _
      rw [htokens, hlength, Store.map_numbering]
    · unfold grown
      rw [h.seeds_eq, h.evidence_eq, h.rest]

/-! ## Steps -/

section With

variable (keep : Store → Beam → Except Fault (Store × Beam)) {outcome : ScoreOutcome}
  {source : AcousticSource} {store : Store}

theorem stepWith_ended (h : f.ended = true) : f.stepWith keep = .ok f := by
  unfold stepWith
  rw [h]
  rfl

theorem stepWith_scored (h : f.ended = false) {best : Nat} {beam : Beam}
    (hx : f.pass.source.scoreFrame f.store f.beam.tokens = .ok (.scored best, source, store))
    (hp : f.pass.pruner store f.beam = .ok beam) :
    f.stepWith keep = ((f.heard source store).moved beam).growWith keep := by
  unfold stepWith
  rw [if_neg (by simp [h]), hx]
  simp only [mapError_ok, bind, Except.bind, hp]
  rfl

theorem stepWith_idle (h : f.ended = false)
    (hx : f.pass.source.scoreFrame f.store f.beam.tokens = .ok (outcome, source, store))
    (hno : ∀ best, outcome ≠ .scored best) :
    f.stepWith keep = .ok { f.heard source store with ended := true } := by
  unfold stepWith
  rw [if_neg (by simp [h]), hx]
  cases outcome with
  | scored best => exact absurd rfl (hno best)
  | exhausted => rfl
  | streamEnd => rfl

end With

/-- A row makes no score the negative zero. -/
theorem Unsigned.scored (h : f.Unsigned) {outcome : ScoreOutcome} {source : AcousticSource}
    {store : Store} (hx : f.pass.source.scoreFrame f.store f.beam.tokens =
      .ok (outcome, source, store)) :
    ∀ id t, store.get? id = some t → t.score ≠ Score.negativeZero := by
  have hheard : ∀ row (t : Token), t.score ≠ Score.negativeZero →
      (t.heard row).score ≠ Score.negativeZero := by
    intro row t ht
    unfold Token.heard
    split
    · exact Score.add_ne_negativeZero ht _
    · exact ht
  rcases AcousticSource.scoreFrame_eq_ok hx with ⟨-, rfl, -⟩ | ⟨row, -, -, -, -, hget, -⟩
  · exact h
  · intro id t ht
    rw [hget, Option.map_eq_some_iff] at ht
    obtain ⟨u, hu, rfl⟩ := ht
    exact Function.Iterate.rec (fun t : Token => t.score ≠ Score.negativeZero) (h id u hu)
      (fun t => hheard row t) _

/-- They are scored alike. -/
theorem Shadows.scoreFrame (h : Shadows ρ f f') {outcome : ScoreOutcome} {source : AcousticSource}
    {store : Store} (hx : f.pass.source.scoreFrame f.store f.beam.tokens =
      .ok (outcome, source, store)) :
    ∃ store', f'.pass.source.scoreFrame f'.store f'.beam.tokens =
      .ok (outcome.renamed ρ, source, store') ∧ store.Renamed ρ store' := by
  have hsource : f'.pass.source = f.pass.source := by rw [h.rest]
  have hmatched := AcousticSource.scoreFrame_renamed f.pass.source h.store f.beam.tokens
  rw [hx, ← h.tokens, ← hsource] at hmatched
  rcases hmatched.cases with ⟨r, r', hr, hx', houtcome, hsource', hstore⟩ | ⟨_, _, hok, -⟩
  · cases hr
    exact ⟨r'.2.2, hx'.trans (congrArg _ (Prod.ext houtcome (Prod.ext hsource' rfl))), hstore⟩
  · cases hok

/-- **A frame that is scored,** with the compaction and without it. -/
theorem Beside.step_scored (h : Beside size fast f f') (hpruner : fast.pruner = Pruner.byWidths)
    (hs : f.Scores) : ∃ next next', f.step = .ok next ∧ f'.stepWith keepAll = .ok next' ∧
      Beside size fast next next' := by
  obtain ⟨hf, -, hunsigned, ρ, hshadows⟩ := h
  have hended' : f'.ended = false := by
    rw [hshadows.rest]
    exact hs.1
  have hpruner' : f'.pass.pruner = Pruner.byWidths := by
    rw [hshadows.rest]
    exact hf.pruner.trans hpruner
  obtain ⟨best, source, store, beam, -, hx, hprune, -, hready, -, -, -⟩ := hf.step_scored hs
  obtain ⟨store', hx', hstore⟩ := hshadows.scoreFrame hx
  obtain ⟨hkept, hkept'⟩ := Pruner.byWidths_renamed hstore hshadows.tokens hshadows.widths
    fun id hid => (AcousticSource.size_scoreFrame hx).symm ▸ hf.stored id hid
  have hbeam := hprune
  rw [hf.pruner.trans hpruner, hkept] at hbeam
  cases hbeam
  have hmoved : Shadows ρ ((f.heard source store).moved (f.beam.prune store.score))
      ((f'.heard source store').moved ((f.beam.prune store.score).renamed ρ)) :=
    ⟨hstore, rfl, rfl, Beam.bestScore_renamed ρ _, by rw [hshadows.rest]; rfl⟩
  obtain ⟨next, next', hgrow, hgrow', hnext⟩ := hmoved.grow hready (hunsigned.scored hx)
  refine ⟨next, next', ?_, ?_, hnext⟩
  · rw [← hgrow]
    exact stepWith_scored compact hs.1 hx hprune
  · rw [← hgrow']
    exact stepWith_scored keepAll hended' hx' (by rw [hpruner', hkept'])

/-- **A frame that is not scored** changes no token, since all of them emit. -/
theorem Beside.step_idle (h : Beside size fast f f') (hs : ¬ f.Scores) : ∃ next next',
    f.step = .ok next ∧ f'.stepWith keepAll = .ok next' ∧ Beside size fast next next' := by
  obtain ⟨hf, hcompact, hunsigned, ρ, hshadows⟩ := h
  have hended' : f'.ended = f.ended := by rw [hshadows.rest]
  cases hended : f.ended with
  | true =>
    exact ⟨f, f', stepWith_ended compact hended, stepWith_ended keepAll (hended'.trans hended), hf,
      hcompact, hunsigned, ρ, hshadows⟩
  | false =>
    obtain ⟨⟨outcome, source, store⟩, hx⟩ :=
      AcousticSource.exists_scoreFrame f.pass.source hf.stored
    obtain ⟨store', hx', hstore⟩ := hshadows.scoreFrame hx
    have hno : ∀ best, outcome ≠ .scored best := by
      rintro best rfl
      exact hs ⟨hended, best, source, store, hx⟩
    have hno' : ∀ best, outcome.renamed ρ ≠ .scored best := by
      intro best hbest
      cases outcome with
      | scored b => exact hno b rfl
      | exhausted => cases hbest
      | streamEnd => cases hbest
    have hemit : ∀ id ∈ f.beam.tokens, ∀ t, f.store.get? id = some t →
        t.kind.isEmitting = true := by
      intro id _ t ht
      obtain ⟨_, _, _, hemit⟩ := hcompact.emitting id t ht
      exact hemit
    obtain ⟨rfl, -⟩ := AcousticSource.scoreFrame_idle hx hno hemit
    have hstep : f.step = .ok { f.heard source f.store with ended := true } :=
      stepWith_idle compact hended hx hno
    obtain ⟨next, hnext, hready⟩ := hf.step
    rw [hstep] at hnext
    cases hnext
    refine ⟨_, _, hstep, stepWith_idle keepAll (hended'.trans hended) hx' hno', hready,
      ⟨hcompact.tokens, hcompact.detached, hcompact.emitting, hcompact.distinct⟩, hunsigned, ρ,
      hstore, hshadows.tokens, hshadows.widths, hshadows.bestScore, ?_⟩
    rw [hshadows.rest]
    rfl

/-- **A step,** with the compaction and without it. -/
theorem Beside.step (h : Beside size fast f f') (hpruner : fast.pruner = Pruner.byWidths) :
    ∃ next next', f.step = .ok next ∧ f'.stepWith keepAll = .ok next' ∧
      Beside size fast next next' := by
  by_cases hs : f.Scores
  · exact h.step_scored hpruner hs
  · exact h.step_idle hs

/-- **More steps,** by induction on their number. -/
theorem Beside.stepMany (hpruner : fast.pruner = Pruner.byWidths) : ∀ (n : Nat) {f f' : FastMatch},
    Beside size fast f f' → ∃ next next', stepMany n f = .ok next ∧
      stepManyWith keepAll n f' = .ok next' ∧ Beside size fast next next'
  | 0, f, f', h => ⟨f, f', rfl, rfl, h⟩
  | n + 1, f, f', h => by
    obtain ⟨next, next', hstep, hstep', hnext⟩ := h.step hpruner
    obtain ⟨last, last', hmany, hmany', hlast⟩ := Beside.stepMany hpruner n hnext
    refine ⟨last, last', ?_, ?_, hlast⟩
    · unfold FastMatch.stepMany
      rw [hstep]
      exact hmany
    · unfold stepManyWith
      rw [hstep']
      exact hmany'

/-- **The start of an utterance,** in whatever state the fast match is. -/
theorem beside_reset (f : FastMatch) (hpruner : f.pass.pruner = Pruner.byWidths) :
    ∃ next next', f.reset = .ok next ∧ f.resetWith keepAll = .ok next' ∧
      Beside f.windowSize f.pass next next' := by
  obtain ⟨seed, hseed⟩ := f.pass.exists_seed
  have hready := f.ready_begun (hpruner ▸ Pruner.selects_byWidths) hseed
  have hunsigned : (f.begun seed).Unsigned := by
    obtain ⟨st, -, rfl⟩ := Pass.seed_eq_ok hseed
    intro id t ht
    obtain ⟨-, rfl⟩ := Store.eq_of_get?_single ht
    exact (by decide : Score.certain ≠ Score.negativeZero)
  have hshadows : Shadows id (f.begun seed) (f.begun seed) :=
    ⟨.refl _, (List.map_id _).symm, rfl, rfl, rfl⟩
  obtain ⟨next, next', hgrow, hgrow', hbeside⟩ := hshadows.grow hready hunsigned
  obtain ⟨last, last', hmany, hmany', hlast⟩ := Beside.stepMany hpruner (f.windowSize - 1) hbeside
  refine ⟨last, last', ?_, ?_, hlast⟩
  · have hfirst : f.first = .ok next := by
      unfold first
      rw [hseed]
      exact hgrow
    rw [reset_eq, hfirst]
    exact hmany
  · unfold resetWith
    rw [hseed]
    exact (congrArg (· >>= stepManyWith keepAll (f.windowSize - 1)) hgrow').trans hmany'

/-- **The compaction is invisible and keeps the store small.**  After the start of an utterance and
any number of steps the fast match and one that keeps everything have the same records of the window,
the same active tokens but for their past, the same threshold and the same schedule.  The store of
the fast match holds its active tokens and nothing else, so it never holds more tokens than there
are emitting states. -/
theorem compaction_after (f : FastMatch) (hpruner : f.pass.pruner = Pruner.byWidths) (n : Nat) :
    ∃ next next', f.reset >>= FastMatch.stepMany n = .ok next ∧
      f.resetWith keepAll >>= stepManyWith keepAll n = .ok next' ∧
      next'.window = next.window ∧ next'.records = next.records ∧
      next'.beam.threshold = next.beam.threshold ∧ next'.frame = next.frame ∧
      next'.steps = next.steps ∧ next'.ended = next.ended ∧
      next.Compact ∧ next.store.size ≤ f.pass.graph.emittingStates.length := by
  obtain ⟨start, start', hreset, hreset', hstart⟩ := beside_reset f hpruner
  obtain ⟨next, next', hmany, hmany', hnext, hcompact, -, ρ, hshadows⟩ :=
    Beside.stepMany hpruner n hstart
  refine ⟨next, next', ?_, ?_, ?_, hshadows.records_eq, hshadows.threshold_eq, ?_, ?_, ?_, hcompact,
    hnext.graph ▸ hcompact.size_le⟩
  · rw [hreset]
    exact hmany
  · rw [hreset']
    exact hmany'
  all_goals rw [hshadows.rest]

/-- On the loop there is one emitting state, and so one token is left where there would have been
thirteen. -/
theorem compaction_after_wordLoop : WordLoop.pass.pruner = Pruner.byWidths ∧
    ∃ next next', (WordLoop.search true).fastMatch.reset >>= FastMatch.stepMany 2 = .ok next ∧
      (WordLoop.search true).fastMatch.resetWith keepAll >>= stepManyWith keepAll 2 = .ok next' ∧
      next'.window = next.window ∧ next'.records = next.records ∧ next.Compact ∧
      next.store.size ≤ 1 ∧ next'.store.size = 13 := by
  have hstates : WordLoop.graph.emittingStates = [1] := by decide
  have hkept : ((WordLoop.search true).fastMatch.resetWith keepAll >>=
      stepManyWith keepAll 2).toOption.map (·.store.size) = some 13 := by decide +kernel
  obtain ⟨next, next', hreset, hreset', hwindow, hrecords, -, -, -, -, hcompact, hsize⟩ :=
    compaction_after (WordLoop.search true).fastMatch rfl 2
  rw [show (WordLoop.search true).fastMatch.pass.graph = WordLoop.graph from rfl, hstates] at hsize
  rw [hreset'] at hkept
  exact ⟨rfl, next, next', hreset, hreset', hwindow, hrecords, hcompact, hsize,
    Option.some.inj hkept⟩

end FastMatch

end SpeechDecoder

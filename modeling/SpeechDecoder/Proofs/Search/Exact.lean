import SpeechDecoder.Proofs.Beam
import SpeechDecoder.Proofs.Expansion.Walks
import SpeechDecoder.Proofs.Search.Grow

/-!
# A search without shortcuts finds the best walks

A search that cuts nothing but by the margin of its beam (`Plain`).  After every frame the token on a
state has the score of a walk to it, and no walk that stayed within the margin is better; so a best
walk is only ever lost to the beam.

* `Exact` is the invariant, `Plain.begun` and `Exact.stepFrame` carry it through an utterance.
* `exact_after` is the theorem.
-/

namespace SpeechDecoder

namespace Search

open Expansion (Fits Seeded Finished Beats Unhindered Charged)

/-- **A search that cuts nothing but by the margin of its beam,** with scores that stay numbers. -/
structure Plain (settings : SearchSettings) (main : Pass) (margin : Score) : Prop where
  pruner : main.pruner = Pruner.byWidths
  widths : main.widths = ⟨0, margin⟩
  margin_le : margin ≤ .certain
  penaltyWeight : ¬ Score.certain < settings.penaltyWeight
  wordMargin : settings.wordMargin = .impossible
  skipInterval : settings.skipInterval = 0
  acousticLookahead : ¬ Score.certain < settings.acousticLookahead
  checkStateOrder : settings.checkStateOrder = false
  proper : main.graph.Proper main.source.rows

/-- **The invariant:** the residents are walks, and every walk within the margin has a resident. -/
structure Exact (settings : SearchSettings) (main : Pass) (margin : Score) (s : Search) : Prop where
  built : s.Built settings main
  fits : Fits main.graph s.store
  cursor : s.pass.source.cursor = s.frame ∨ s.beam.tokens = []
  widths : s.beam.widths = ⟨0, margin⟩
  nodup : s.beam.tokens.Nodup
  /-- The beam holds the residents that emit. -/
  mem_beam : ∀ id, id ∈ s.beam.tokens ↔ ∃ t, s.store.get? id = some t ∧
    s.tokenOn t.state = some id ∧ t.kind.isEmitting = true
  resident : ∀ q id, s.tokenOn q = some id → ∃ t, s.store.get? id = some t ∧ t.state = q ∧
    main.graph.Walk main.source.rows s.frame q t.score
  complete : ∀ q x, main.graph.Within main.source.rows margin s.frame q x →
    ∃ id t, s.tokenOn q = some id ∧ s.store.get? id = some t ∧ x ≤ t.score

variable {settings : SearchSettings} {main : Pass} {margin : Score} {s : Search} {seeds : List Nat}
  {e : Expansion}

/-! ## Growing a frame -/

theorem Built.growth_graph (hb : s.Built settings main) : s.growth.graph = main.graph := hb.graph

theorem Plain.unhindered (h : Plain settings main margin) (hb : s.Built settings main) :
    Unhindered s.growth main.graph main.source.rows margin where
  graph_eq := hb.growth_graph
  phoneCut := by
    unfold growth
    rw [hb.settings, if_neg h.penaltyWeight]
  checkStateOrder := (congrArg SearchSettings.checkStateOrder hb.settings).trans h.checkStateOrder
  wordMargin := (congrArg SearchSettings.wordMargin hb.settings).trans h.wordMargin
  margin_le := h.margin_le
  proper := h.proper

/-- **What a finished expansion leaves** is exact if no walk of the frame is without a resident. -/
theorem exact_of_finished (hb : s.Built settings main)
    (hcursor : s.pass.source.cursor = s.frame)
    (hfin : Finished s.growth s.store (main.graph.Walk main.source.rows s.frame) ⟨0, margin⟩ seeds e)
    (hcomplete : ∀ q x, main.graph.Within main.source.rows margin s.frame q x → Beats e q x)
    (stats : SearchStats) : Exact settings main margin { s.absorb e with stats } := by
  obtain ⟨done, hreach, -⟩ := hfin
  have hsound := hreach.sound
  refine ⟨⟨hb.settings, hb.graph, hb.pruner, hb.widths, hb.rows⟩, hb.growth_graph ▸ hsound.fits,
    .inl hcursor, hreach.widths_eq, hsound.next_sorted.imp fun h => Nat.ne_of_lt h, fun id => ?_,
    fun q id hid => ?_, hcomplete⟩
  · rw [show ({ s.absorb e with stats } : Search).beam = e.next from rfl, hsound.mem_next]
    constructor
    · rintro ⟨hnew, t, ht, hk⟩
      exact ⟨t, ht, hsound.resident_of id t hnew ht, hk⟩
    · rintro ⟨t, ht, hid, hk⟩
      exact ⟨(hsound.resident_new _ _ hid).1, t, ht, hk⟩
  · obtain ⟨hnew, t, ht, rfl⟩ := hsound.resident_new q id hid
    exact ⟨t, ht, rfl, hreach.attained id t hnew ht⟩

/-- **Growing a frame.** -/
theorem Plain.grow (h : Plain settings main margin) (hb : s.Built settings main)
    (hfits : Fits main.graph s.store) (hstored : ∀ id ∈ s.beam.tokens, id < s.store.size)
    (hcursor : s.pass.source.cursor = s.frame)
    (hseeds : s.beam.tokens.filter (fun id => s.beam.admits (s.store.score id)) = seeds)
    (hseeded : Seeded s.growth s.store (main.graph.Walk main.source.rows s.frame) seeds)
    (hcomplete : ∀ e,
      Finished s.growth s.store (main.graph.Walk main.source.rows s.frame) ⟨0, margin⟩ seeds e →
      ∀ q x, main.graph.Within main.source.rows margin s.frame q x → Beats e q x) :
    Outcome (Exact settings main margin) (fun _ => False) s.grow := by
  have hstart : Expansion.Reaching s.growth s.store (main.graph.Walk main.source.rows s.frame) ⟨0, margin⟩
      seeds [] [] (.start s.store (.empty ⟨0, margin⟩) s.lattice s.memo) :=
    .start (hb.growth_graph ▸ hfits) s.lattice s.memo
  have hrun := hstart.run ((h.unhindered hb).free s.frame) hseeded rfl
  rw [grow_eq, Beam.seeds_of_lt hstored, hb.settings, Beam.worthExpanding_eq h.acousticLookahead,
    hseeds, hb.widths, h.widths]
  dsimp only
  cases hx : (Expansion.start s.store (.empty ⟨0, margin⟩) s.lattice s.memo).run s.growth seeds with
  | error err => exact hrun.of_error hx
  | ok e =>
    have hfin := hrun.of_ok hx
    exact exact_of_finished hb hcursor hfin (hcomplete e hfin) _

/-! ## The start of an utterance -/

/-- The beam of a start admits its token: the margin is not positive. -/
theorem Plain.admits_seed (h : Plain settings main margin) :
    Beam.admits ⟨⟨0, margin⟩, [0], some (0, .certain)⟩ .certain = true := by
  have hm := h.margin_le
  unfold Beam.admits
  rw [decide_eq_true_eq]
  exact Score.add_le_self (Score.not_lt_of_le hm) (Score.isNumber_add Score.certain_lt_infinity
    (Score.lt_infinity_of_le hm Score.certain_lt_infinity))

/-- **The first frame** is grown from the initial token. -/
theorem Plain.first (h : Plain settings main margin) (hb : s.Built settings main) {st : State}
    (hst : main.graph.state? main.graph.initial = some st)
    (hstore : s.store = Store.empty.push (.seed main.graph.initial st.kind 0))
    (hbeam : s.beam = ⟨⟨0, margin⟩, [0], some (0, .certain)⟩)
    (hcursor : s.pass.source.cursor = 0) (hframe : s.frame = 0) :
    Outcome (Exact settings main margin) (fun _ => False) s.grow := by
  have hzero : s.store.get? 0 = some (.seed main.graph.initial st.kind 0) := by
    rw [hstore]
    rfl
  have hget : ∀ id t, s.store.get? id = some t → t = .seed main.graph.initial st.kind 0 := by
    intro id t ht
    rw [hstore] at ht
    exact (Store.eq_of_get?_single ht).2
  have hseeds : s.beam.tokens.filter (fun id => s.beam.admits (s.store.score id)) = [0] := by
    have hscore : s.store.score 0 = .certain := by
      unfold Store.score
      rw [hzero]
      rfl
    rw [hbeam]
    simp [hscore, h.admits_seed]
  have hunhindered := h.unhindered hb
  refine h.grow hb (fun id t ht => ?_) (fun id hid => ?_) (by rw [hcursor, hframe]) hseeds
    (by rw [hframe]; exact hunhindered.seeded_initial hst hzero) fun e hfin q x hw => ?_
  · obtain rfl := hget id t ht
    exact ⟨st, hst, rfl⟩
  · rw [hbeam] at hid
    rw [List.mem_singleton.1 hid]
    exact Store.lt_size_of_get? hzero
  · rw [hframe] at hfin hw
    exact hunhindered.beats_first hst hzero hfin hw

theorem Plain.begun (h : Plain settings main margin) (hb : s.Built settings main) {seed : Token}
    (fastMatch : FastMatch) (hseed : s.pass.seed = .ok seed) :
    Outcome (Exact settings main margin) (fun _ => False) (s.begun fastMatch seed).grow := by
  obtain ⟨st, hst, rfl⟩ := Pass.seed_eq_ok hseed
  rw [hb.graph] at hst ⊢
  have hbeam : s.pass.seedBeam = ⟨⟨0, margin⟩, [0], some (0, .certain)⟩ := by
    unfold Pass.seedBeam
    rw [hb.widths, h.widths]
    simp [Beam.empty, Beam.push, Beam.note]
  exact h.first (s := s.begun fastMatch _)
    ⟨hb.settings, hb.graph, hb.pruner, hb.widths, hb.rows⟩ hst rfl hbeam rfl rfl

/-! ## One more frame -/

theorem Exact.lt_size (h : Exact settings main margin s) {id : Nat} (hid : id ∈ s.beam.tokens) :
    id < s.store.size := by
  obtain ⟨t, ht, -⟩ := (h.mem_beam id).1 hid
  exact Store.lt_size_of_get? ht

theorem Exact.emitting (h : Exact settings main margin s) :
    ∀ id ∈ s.beam.tokens, ∀ t, s.store.get? id = some t → t.kind.isEmitting = true := by
  intro id hid t ht
  obtain ⟨u, hu, -, hk⟩ := (h.mem_beam id).1 hid
  rw [ht] at hu
  cases hu
  exact hk

/-- **A token of the beam** has the score of a walk, and is charged once. -/
theorem Exact.charged (h : Exact settings main margin s) {row : Array Score}
    (hrow : main.source.rows[s.frame]? = some row) {store : Store}
    (hheard : Store.Heard row s.beam.tokens s.store store) {id : Nat} (hid : id ∈ s.beam.tokens) :
    ∃ u, store.get? id = some u ∧ Charged main.graph main.source.rows s.frame u := by
  obtain ⟨t, ht, hres, hk⟩ := (h.mem_beam id).1 hid
  obtain ⟨t', ht', -, hwalk⟩ := h.resident _ _ hres
  rw [ht] at ht'
  cases ht'
  obtain ⟨source, hs, hkind⟩ := h.fits id t ht
  exact ⟨t.heard row, by rw [hheard.of_mem id hid, ht, Option.map_some],
    .heard hwalk hs hkind hk hrow⟩

/-- **A walk that survives its charge** has a token in the pruned beam that is as good. -/
theorem Exact.survivor (hplain : Plain settings main margin) (h : Exact settings main margin s)
    {row : Array Score} (hrow : main.source.rows[s.frame]? = some row) {store : Store}
    (hheard : Store.Heard row s.beam.tokens s.store store) {q p : Nat} {x : Score} {source : State}
    (hw : main.graph.Within main.source.rows margin s.frame q x)
    (hs : main.graph.state? q = some source) (hp : source.kind = .emitting p)
    (hsurv : main.graph.Survives main.source.rows margin s.frame row
      (x + AcousticSource.likelihood row p)) :
    ∃ id ∈ (s.beam.prune store.score).tokens.filter
        (fun id => (s.beam.prune store.score).admits (store.score id)),
      ∃ u, store.get? id = some u ∧ u.state = q ∧ u.kind.isFinal = false ∧
        x + AcousticSource.likelihood row p ≤ u.score := by
  obtain ⟨id, t, hres, ht, hle⟩ := h.complete q x hw
  obtain ⟨t', ht', rfl, hwalk⟩ := h.resident q id hres
  rw [ht] at ht'
  cases ht'
  obtain ⟨source', hs', hkind⟩ := h.fits id t ht
  rw [hs] at hs'
  cases hs'
  have hid : id ∈ s.beam.tokens := (h.mem_beam id).2 ⟨t, ht, hres, by rw [hkind, hp]; rfl⟩
  have hu : store.get? id = some (t.heard row) := by
    rw [hheard.of_mem id hid, ht, Option.map_some]
  have hbetter := (hplain.unhindered h.built).charge_le hwalk hw.walk hle hs hkind hp hrow
  exact ⟨id, Charged.mem_pruned h.widths (fun c hc => h.charged hrow hheard hc) hrow hsurv hid hu
    hbetter, _, hu, by simp, by simp [hkind, hp, StateKind.isFinal], hbetter⟩

/-- **The next frame** is grown from what pruning left of the charged beam. -/
theorem Exact.moved (hplain : Plain settings main margin) (h : Exact settings main margin s)
    {row : Array Score} (hrow : main.source.rows[s.frame]? = some row) {source : AcousticSource}
    {store : Store} (hcursor : source.cursor = s.frame + 1)
    (hbuilt : (s.heard source store).Built settings main)
    (hheard : Store.Heard row s.beam.tokens s.store store) :
    Outcome (Exact settings main margin) (fun _ => False)
      ((s.heard source store).moved (s.beam.prune store.score)).grow := by
  have hb : ((s.heard source store).moved (s.beam.prune store.score)).Built settings main :=
    ⟨hbuilt.settings, hbuilt.graph, hbuilt.pruner, hbuilt.widths, hbuilt.rows⟩
  have hpruned : ∀ id ∈ (s.beam.prune store.score).tokens, id ∈ s.beam.tokens :=
    fun id hid => (Beam.prune_subperm store.score).subset hid
  have hstored : ∀ id ∈ (s.beam.prune store.score).tokens, id < store.size :=
    fun id hid => hheard.size_eq ▸ h.lt_size (hpruned id hid)
  have hfits : Fits main.graph store := by
    intro id t' ht'
    obtain ⟨t, ht, hstate, hkind, -⟩ := hheard.exists_get? ht'
    rw [hstate, hkind]
    exact h.fits id t ht
  have hunhindered := hplain.unhindered hb
  have hcharged := fun id hid => h.charged hrow hheard (hpruned id
    (List.mem_of_mem_filter (p := fun id => (s.beam.prune store.score).admits (store.score id)) hid))
  refine hplain.grow hb hfits hstored hcursor rfl (hunhindered.seeded hcharged) fun e hfin q x hw =>
    hunhindered.beats_charged hcharged (fun q x source p row' hw hs hp hr hsurv => ?_) hfin hw
  rw [hrow] at hr
  cases hr
  exact h.survivor hplain hrow hheard hw hs hp hsurv

/-- The invariant speaks of the store, the beam, the residents and the frame only. -/
theorem Exact.of_eq {s' : Search} (h : Exact settings main margin s)
    (hbuilt : s'.Built settings main) (hstore : s'.store = s.store) (hbeam : s'.beam = s.beam)
    (hresidents : s'.residents = s.residents) (hframe : s'.frame = s.frame)
    (hcursor : s'.pass.source.cursor = s.pass.source.cursor ∨ s.beam.tokens = []) :
    Exact settings main margin s' := by
  have htoken : ∀ q, s'.tokenOn q = s.tokenOn q := fun q => by
    unfold tokenOn
    rw [hresidents]
  refine ⟨hbuilt, hstore ▸ h.fits, ?_, hbeam ▸ h.widths, hbeam ▸ h.nodup, ?_, ?_, ?_⟩
  · rw [hbeam, hframe]
    rcases hcursor with hc | hc
    · rw [hc]
      exact h.cursor
    · exact .inr hc
  · simp only [hbeam, hstore, htoken]
    exact h.mem_beam
  · simp only [hstore, htoken, hframe]
    exact h.resident
  · simp only [hstore, htoken, hframe]
    exact h.complete

/-- **One frame of the search,** scored or not. -/
theorem Exact.stepFrame (hplain : Plain settings main margin) (h : Exact settings main margin s) :
    Outcome (fun r => Exact settings main margin r.2) (fun h => Exact settings main margin h.state)
      s.stepFrame := by
  rw [stepFrame_eq]
  cases hx : s.pass.source.scoreFrame s.store s.beam.tokens with
  | error f => exact h
  | ok r =>
    obtain ⟨outcome, source, store⟩ := r
    have hbuilt := h.built.heard hx
    have hidle : (∀ best, outcome ≠ .scored best) →
        Exact settings main margin (s.heard source store) := by
      intro hno
      obtain ⟨hstore, -, hcursor⟩ := AcousticSource.scoreFrame_idle hx hno h.emitting
      exact h.of_eq hbuilt hstore rfl rfl rfl hcursor
    cases outcome with
    | exhausted => exact hidle (by simp)
    | streamEnd =>
      have hend := hidle (by simp)
      exact hend.of_eq ⟨hend.built.settings, hend.built.graph, hend.built.pruner, hend.built.widths,
        hend.built.rows⟩ rfl rfl rfl rfl (.inl rfl)
    | scored best =>
      have hcursor : s.pass.source.cursor = s.frame := by
        refine h.cursor.resolve_right fun hnil => ?_
        rw [hnil] at hx
        exact AcousticSource.scoreFrame_nil hx
      obtain ⟨row, hrow, -, hnext, -, hheard⟩ := AcousticSource.scoreFrame_scored h.nodup hx
      have hpruner : s.pass.pruner store s.beam = .ok (s.beam.prune store.score) := by
        rw [h.built.pruner, hplain.pruner]
        exact Pruner.byWidths_eq fun id hid => hheard.size_eq ▸ h.lt_size hid
      have hskip : s.skipsGrowth (s.frame + 1) = false := by
        unfold skipsGrowth
        rw [h.built.settings, hplain.skipInterval]
        rfl
      rw [hcursor, h.built.rows] at hrow
      rw [hcursor] at hnext
      have hmoved := h.moved hplain hrow hnext hbuilt hheard
      simp only [hpruner, hskip]
      exact (hmoved.mono (fun _ h => h) fun _ h => h.elim).map _ fun _ h => h

/-- **Within an utterance the search stays exact.** -/
theorem exact_steady (hplain : Plain settings main margin) :
    Steady fun _ s => Exact settings main margin s where
  aside _ _ _ _ _ h := h.of_eq
    ⟨h.built.settings, h.built.graph, h.built.pruner, h.built.widths, h.built.rows⟩ rfl rfl rfl rfl
    (.inl rfl)
  purge _ _ _ h _ := h.of_eq
    ⟨h.built.settings, h.built.graph, h.built.pruner, h.built.widths, h.built.rows⟩ rfl rfl rfl rfl
    (.inl rfl)
  stepFrame _ _ h := h.stepFrame hplain

/-- **An utterance that was started** is exact from its first frame on. -/
theorem Plain.start (hplain : Plain settings main margin) (hb : s.Built settings main)
    (hstart : (s.perform .start).1 = .ok none) :
    Exact settings main margin (s.perform .start).2 := by
  unfold perform at hstart ⊢
  rw [start_eq] at hstart ⊢
  cases hf : s.fastMatch.reset with
  | error err =>
    rw [hf] at hstart
    cases hstart
  | ok fastMatch =>
    cases hseed : s.pass.seed with
    | error err =>
      rw [hf, hseed] at hstart
      cases hstart
    | ok seed =>
      have hgrow := hplain.begun hb fastMatch hseed
      dsimp only
      cases hx : (s.begun fastMatch seed).grow with
      | error err => exact (hgrow.of_error hx).elim
      | ok s' => exact hgrow.of_ok hx

/-- **The search finds the best walks.**  After every frame of an utterance the token on a state has
the score of a walk to it, which is at most the best one.  It is at least that of every walk within
the margin of the beam; so it is the best one where the best walk is within the margin, and always
if there is no margin. -/
theorem exact_after {fastMatch : Pass} {cache : MixtureCache} {s₀ : Search}
    (h : Search.new settings main fastMatch cache = .ok s₀) (hplain : Plain settings main margin)
    (calls : List Call) (hstart : ((s₀.after calls).perform .start).1 = .ok none)
    (frames : List Nat) (q : Nat) :
    let s := s₀.after (calls ++ .start :: frames.map .recognize)
    (∀ id, s.tokenOn q = some id → ∃ t v, s.store.get? id = some t ∧ t.state = q ∧
      main.graph.Walk main.source.rows s.frame q t.score ∧
      main.graph.IsBest main.source.rows s.frame q v ∧ t.score ≤ v) ∧
    (∀ x, main.graph.Within main.source.rows margin s.frame q x →
      ∃ id t, s.tokenOn q = some id ∧ s.store.get? id = some t ∧ x ≤ t.score) ∧
    (∀ v, main.graph.IsBest main.source.rows s.frame q v →
      margin = .impossible ∨ main.graph.Within main.source.rows margin s.frame q v →
      ∃ id t, s.tokenOn q = some id ∧ s.store.get? id = some t ∧ t.score ≤ v ∧ v ≤ t.score) := by
  have hbuilt := built_kept.after calls [] (new_eq_ok h).1
  have hexact := (exact_steady hplain).after frames [] (hplain.start hbuilt hstart)
  have hafter : s₀.after (calls ++ .start :: frames.map .recognize) =
      ((s₀.after calls).perform .start).2.after (frames.map .recognize) := by
    simp only [after, List.foldl_append, List.foldl_cons]
  rw [← hafter] at hexact
  intro s
  refine ⟨fun id hid => ?_, hexact.complete q, fun v hv hcase => ?_⟩
  · obtain ⟨t, ht, hst, hw⟩ := hexact.resident q id hid
    obtain ⟨v, hv⟩ := Graph.exists_isBest hplain.proper hw
    exact ⟨t, v, ht, hst, hw, hv, hv.2 _ hw⟩
  · have hwithin : main.graph.Within main.source.rows margin s.frame q v := by
      rcases hcase with rfl | hwithin
      · exact hv.1.within hplain.proper
      · exact hwithin
    obtain ⟨id, t, hid, ht, hle⟩ := hexact.complete q v hwithin
    obtain ⟨t', ht', -, hw⟩ := hexact.resident q id hid
    rw [ht] at ht'
    cases ht'
    exact ⟨id, t, hid, ht, hv.2 _ hw, hle⟩

theorem plain_wordLoop : Plain (WordLoop.settings false) WordLoop.pass .impossible where
  pruner := rfl
  widths := rfl
  margin_le := by decide
  penaltyWeight := by decide
  wordMargin := rfl
  skipInterval := rfl
  acousticLookahead := by decide
  checkStateOrder := rfl
  proper := Graph.proper_of_le_certain (by unfold Score.IsNumber; decide) (by decide)

/-- The word after the first frame of the loop has the greatest score of all walks around it. -/
theorem exact_after_wordLoop :
    ∃ id t v,
      ((WordLoop.search false).after [.start, .recognize 1]).tokenOn 2 = some id ∧
      ((WordLoop.search false).after [.start, .recognize 1]).store.get? id = some t ∧
      WordLoop.graph.IsBest WordLoop.pass.source.rows 1 2 v ∧ t.score ≤ v ∧ v ≤ t.score := by
  have hframe : ((WordLoop.search false).after [.start, .recognize 1]).frame = 1 := by
    decide +kernel
  obtain ⟨id, hid⟩ := Option.isSome_iff_exists.1 (show
    (((WordLoop.search false).after [.start, .recognize 1]).tokenOn 2).isSome = true by
      decide +kernel)
  obtain ⟨hwalk, -, hbest⟩ := exact_after (WordLoop.search_eq false) plain_wordLoop []
    (by decide +kernel) [1] 2
  obtain ⟨-, v, -, -, -, hv, -⟩ := hwalk id hid
  obtain ⟨id', t, hid', ht, hle⟩ := hbest v hv (.inl rfl)
  rw [List.nil_append] at hv hid' ht
  exact ⟨id', t, v, hid', ht, hframe ▸ hv, hle⟩

end Search

end SpeechDecoder

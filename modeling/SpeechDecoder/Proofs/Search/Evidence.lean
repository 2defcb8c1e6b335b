import SpeechDecoder.Proofs.Expansion.Walks
import SpeechDecoder.Proofs.Lookahead
import SpeechDecoder.Proofs.Search.FastMatch

/-!
# The evidence of a fast match without shortcuts

A fast match whose beam has no limit (`Whole`) keeps the best walk to every emitting state, whatever
is dropped after a frame.  So the evidence that it records of a frame is that of the walks.

* `Exact` is the invariant: the tokens are walks, no walk is better, and the records are faithful.
* `Whole.first` and `Exact.step` carry it through an utterance.
-/

namespace SpeechDecoder.FastMatch

open Expansion (Seeded Finished Beats Unhindered Charged)

/-- **A fast match that cuts nothing,** with scores that stay numbers. -/
structure Whole (fast : Pass) : Prop where
  pruner : fast.pruner = .byWidths
  widths : fast.widths = ⟨0, .impossible⟩
  proper : fast.graph.Proper fast.source.rows

/-- **The invariant:** the tokens wait at the ends of the best walks, and the records are
faithful. -/
structure Exact (fast : Pass) (f : FastMatch) : Prop where
  cursor : f.pass.source.cursor = f.frame ∨ f.beam.tokens = []
  widths : f.beam.widths = ⟨0, .impossible⟩
  tokens : f.beam.tokens = List.range f.store.size
  attained : ∀ id t, f.store.get? id = some t → t.kind.isEmitting = true ∧
    fast.graph.Walk fast.source.rows f.frame t.state t.score
  complete : ∀ q x source, fast.graph.Walk fast.source.rows f.frame q x →
    fast.graph.state? q = some source → source.kind.isEmitting = true →
    ∃ id t, f.store.get? id = some t ∧ t.state = q ∧ x ≤ t.score
  told : ∀ e ∈ f.window, e.Faithful fast.graph fast.source.rows

variable {size : Nat} {fast : Pass} {f next : FastMatch} {seeds : List Nat}

/-! ## Evidence -/

/-- What some tokens say about their phones. -/
def said (a : Store) (ids : List Nat) : List (Nat × Score) :=
  ids.filterMap fun id => (a.get? id).bind fun t => t.kind.phone?.map fun p => (p, t.score)

theorem mem_said {a : Store} {ids : List Nat} {p : Nat} {x : Score} :
    (p, x) ∈ said a ids ↔ ∃ id ∈ ids, ∃ t, a.get? id = some t ∧ t.kind = .emitting p ∧
      t.score = x := by
  have hphone : ∀ k : StateKind, k.phone? = some p ↔ k = .emitting p := by
    intro k
    cases k <;> simp [StateKind.phone?]
  unfold said
  simp only [List.mem_filterMap, Option.bind_eq_some_iff, Option.map_eq_some_iff, Prod.mk.injEq]
  constructor
  · rintro ⟨id, hid, t, ht, _, hp, rfl, rfl⟩
    exact ⟨id, hid, t, ht, (hphone _).1 hp, rfl⟩
  · rintro ⟨id, hid, t, ht, hp, rfl⟩
    exact ⟨id, hid, t, ht, p, (hphone _).2 hp, rfl, rfl⟩

theorem evidence_eq (f : FastMatch) (seeds : List Nat) : f.evidence seeds =
    (said f.store seeds).foldl (fun e y => e.observe y.1 y.2)
      (.blank f.frame f.pass.graph.phoneCount) := by
  unfold said evidence
  rw [List.foldl_filterMap]
  congr 1
  funext e id
  unfold observeToken
  cases f.store.get? id with
  | none => rfl
  | some t => cases hp : t.kind.phone? <;> simp [hp]

/-- **The evidence is faithful** if the tokens are walks and no walk is better. -/
theorem Ready.faithful (hf : f.Ready size fast) (hproper : fast.graph.Proper fast.source.rows)
    (hsaid : ∀ id ∈ seeds, ∀ t p, f.store.get? id = some t → t.kind = .emitting p →
      fast.graph.Heard fast.source.rows (fast.graph.Walk fast.source.rows) f.frame p t.score)
    (hall : ∀ p x, fast.graph.Heard fast.source.rows (fast.graph.Walk fast.source.rows) f.frame p x →
      ∃ id ∈ seeds, ∃ t, f.store.get? id = some t ∧ t.kind = .emitting p ∧ x ≤ t.score) :
    (f.evidence seeds).Faithful fast.graph fast.source.rows := by
  have hnum : ∀ {u p x}, fast.graph.Heard fast.source.rows (fast.graph.Walk fast.source.rows) u p x →
      p < fast.graph.phoneCount ∧ x.IsNumber := by
    intro u p x h
    cases h with
    | initial hs hp => exact ⟨Graph.lt_phoneCount hs hp, Score.isNumber_certain⟩
    | charged hw hs hp hr => exact ⟨Graph.lt_phoneCount hs hp,
        Score.isNumber_of_lt_infinity (hproper.charge _ _ _ _ _ _ hw hs hp hr)⟩
  have hheard : ∀ p x, (p, x) ∈ said f.store seeds →
      fast.graph.Heard fast.source.rows (fast.graph.Walk fast.source.rows) f.frame p x := by
    intro p x hy
    obtain ⟨id, hid, t, ht, hp, rfl⟩ := mem_said.1 hy
    exact hsaid id hid t p ht hp
  have htells := (Evidence.tells_blank f.frame f.pass.graph.phoneCount).foldl (said f.store seeds)
    fun y hy => by
      obtain ⟨hp, hx⟩ := hnum (hheard y.1 y.2 hy)
      rw [hf.graph]
      exact ⟨by simpa [Evidence.blank] using hp, hx⟩
  rw [List.nil_append, ← evidence_eq] at htells
  have hframe := frame_evidence f seeds
  refine htells.faithful (fun y hy => ?_) fun p x hx => ?_
  · rw [hframe]
    exact hheard y.1 y.2 hy
  · rw [hframe] at hx
    obtain ⟨id, hid, t, ht, hp, hle⟩ := hall p x hx
    exact ⟨t.score, mem_said.2 ⟨id, hid, t, ht, hp, rfl⟩, hle⟩

/-! ## Growing a frame -/

theorem Whole.unhindered (h : Whole fast) (hf : f.Ready size fast) :
    Unhindered f.growth fast.graph fast.source.rows .impossible where
  graph_eq := hf.graph
  phoneCut := rfl
  checkStateOrder := rfl
  wordMargin := rfl
  margin_le := by decide
  proper := h.proper

/-- **Growing a frame.** -/
theorem Whole.grow (h : Whole fast) (hf : f.Ready size fast)
    (hcursor : f.pass.source.cursor = f.frame)
    (hseeds : f.beam.tokens.filter (fun id => f.beam.admits (f.store.score id)) = seeds)
    (hseeded : Seeded f.growth f.store (fast.graph.Walk fast.source.rows f.frame) seeds)
    (hcomplete : ∀ e, Finished f.growth f.store (fast.graph.Walk fast.source.rows f.frame)
      ⟨0, .impossible⟩ seeds e → ∀ q x, fast.graph.Within fast.source.rows .impossible f.frame q x →
      Beats e q x)
    (htold : ∀ e ∈ f.window, e.Faithful fast.graph fast.source.rows)
    (hnow : (f.evidence seeds).Faithful fast.graph fast.source.rows) :
    ∃ next, f.grow = .ok next ∧ next.Exact fast := by
  have hworth : f.beam.worthExpanding f.store .certain = seeds := by
    rw [Beam.worthExpanding_eq (by decide), hseeds]
  obtain ⟨-, e, store, beam, -, -, hrun, hcompact, hgrow, -⟩ := hf.grow
  rw [hworth] at hrun hgrow
  have hstart : Expansion.Reaching f.growth f.store (fast.graph.Walk fast.source.rows f.frame)
      ⟨0, .impossible⟩ seeds [] [] (.start f.store (.empty f.pass.widths) (.empty 0) .empty) := by
    rw [hf.widths, h.widths]
    refine .start ?_ (.empty 0) .empty
    rw [(h.unhindered hf).graph_eq]
    exact hf.fits
  have hfin := (hstart.run ((h.unhindered hf).free f.frame) hseeded rfl).of_ok hrun
  have hbeats := hcomplete e hfin
  obtain ⟨done, hreach, -⟩ := hfin
  have hsound := hreach.sound
  obtain ⟨store', beam', hcompact', hget, htokens, hwidths⟩ := compact_ok (a := e.store)
    (b := e.next) fun id hid => hsound.next_lt hid
  rw [hcompact] at hcompact'
  cases hcompact'
  refine ⟨_, hgrow, .inl hcursor, hwidths.trans hreach.widths_eq, htokens, fun i t' ht' => ?_,
    fun q x source hw hs he => ?_, fun e he => ?_⟩
  · obtain ⟨id, t, hid, ht, rfl⟩ := exists_of_compact hget ht'
    obtain ⟨hnew, u, hu, hk⟩ := (hsound.mem_next id).1 hid
    rw [ht] at hu
    cases hu
    exact ⟨hk, hreach.attained id t hnew ht⟩
  · obtain ⟨id, t, hres, ht, hle⟩ := hbeats q x (hw.within h.proper)
    obtain ⟨hnew, u, hu, rfl⟩ := hsound.resident_new q id hres
    rw [ht] at hu
    cases hu
    obtain ⟨st, hst, hk⟩ := hsound.fits id t ht
    rw [(h.unhindered hf).graph_eq, hs] at hst
    cases hst
    obtain ⟨i, hi⟩ := List.getElem?_of_mem ((hsound.mem_next id).2 ⟨hnew, t, ht, hk ▸ he⟩)
    refine ⟨i, t.detached, ?_, rfl, hle⟩
    rw [show (f.grown seeds store beam).store = store from rfl, hget i, hi]
    simp [ht]
  · rcases List.mem_append.1 he with he | he
    · exact htold e he
    · rw [List.mem_singleton.1 he]
      exact hnow

/-! ## The frames of an utterance -/

/-- **The first frame** is exact. -/
theorem Whole.first (h : Whole fast) (hf : f.Ready size fast) :
    ∃ next, f.first = .ok next ∧ next.Exact fast := by
  obtain ⟨seed, hseed⟩ := f.pass.exists_seed
  have hbegun := hf.begun hseed
  have hfirst : f.first = (f.begun seed).grow := by
    unfold FastMatch.first
    rw [hseed]
  obtain ⟨st, hst, rfl⟩ := Pass.seed_eq_ok hseed
  rw [hf.graph] at hst hbegun hfirst
  have hbeam : (f.begun (.seed fast.graph.initial st.kind 0)).beam =
      ⟨⟨0, .impossible⟩, [0], some (0, .certain)⟩ := by
    change f.pass.seedBeam = _
    unfold Pass.seedBeam
    rw [hf.widths, h.widths]
    simp [Beam.empty, Beam.push, Beam.note]
  have hzero : (f.begun (.seed fast.graph.initial st.kind 0)).store.get? 0 =
      some (.seed fast.graph.initial st.kind 0) := rfl
  have hseeds : (f.begun (.seed fast.graph.initial st.kind 0)).beam.tokens.filter (fun id =>
      (f.begun (.seed fast.graph.initial st.kind 0)).beam.admits
        ((f.begun (.seed fast.graph.initial st.kind 0)).store.score id)) = [0] := by
    have hscore : (f.begun (.seed fast.graph.initial st.kind 0)).store.score 0 = .certain := by
      unfold Store.score
      rw [hzero]
      rfl
    have hadmits : Beam.admits ⟨⟨0, .impossible⟩, [0], some (0, .certain)⟩ .certain = true := by
      decide
    rw [hbeam]
    simp [hscore, hadmits]
  have hunhindered := h.unhindered hbegun
  rw [hfirst]
  refine h.grow hbegun rfl hseeds (hunhindered.seeded_initial hst hzero)
    (fun e hfin q x hw => hunhindered.beats_first hst hzero hfin hw) (fun e he => by cases he)
    (hbegun.faithful h.proper (fun id hid t p ht hp => ?_) fun p x hx => ?_)
  · rw [List.mem_singleton.1 hid, hzero] at ht
    cases ht
    exact .initial hst hp
  · change fast.graph.Heard _ _ 0 p x at hx
    cases hx with
    | initial hs hp =>
      rw [hst] at hs
      cases hs
      exact ⟨0, by simp, _, hzero, hp, Score.le_rfl Score.isNumber_certain⟩

/-- **The tokens of an exact fast match** are charged by the next row. -/
theorem Exact.charged (he : f.Exact fast) (hf : f.Ready size fast) {row : Array Score}
    (hrow : fast.source.rows[f.frame]? = some row) {store : Store}
    (hheard : Store.Heard row f.beam.tokens f.store store) {id : Nat} (hid : id ∈ f.beam.tokens) :
    ∃ u, store.get? id = some u ∧ Charged fast.graph fast.source.rows f.frame u := by
  obtain ⟨t, ht⟩ := Store.exists_get? (hf.stored id hid)
  obtain ⟨hk, hw⟩ := he.attained id t ht
  obtain ⟨source, hs, hkind⟩ := hf.fits id t ht
  exact ⟨t.heard row, by rw [hheard.of_mem id hid, ht, Option.map_some], .heard hw hs hkind hk hrow⟩

/-- **No charged walk is better** than what the next frame starts from. -/
theorem Exact.exists_seed (h : Whole fast) (he : f.Exact fast) (hf : f.Ready size fast)
    {row : Array Score} (hrow : fast.source.rows[f.frame]? = some row) {store : Store}
    (hheard : Store.Heard row f.beam.tokens f.store store) {q p : Nat} {x : Score} {source : State}
    (hw : fast.graph.Walk fast.source.rows f.frame q x) (hs : fast.graph.state? q = some source)
    (hp : source.kind = .emitting p) :
    ∃ id ∈ (f.beam.prune store.score).tokens.filter
        (fun id => (f.beam.prune store.score).admits (store.score id)),
      ∃ u, store.get? id = some u ∧ u.state = q ∧ u.kind = .emitting p ∧
        x + AcousticSource.likelihood row p ≤ u.score := by
  obtain ⟨id, t, ht, rfl, hle⟩ := he.complete q x source hw hs (by rw [hp]; rfl)
  obtain ⟨-, hwalk⟩ := he.attained id t ht
  obtain ⟨source', hs', hkind⟩ := hf.fits id t ht
  rw [hs] at hs'
  cases hs'
  have hid : id ∈ f.beam.tokens := by
    rw [he.tokens]
    exact List.mem_range.2 (Store.lt_size_of_get? ht)
  have hu : store.get? id = some (t.heard row) := by
    rw [hheard.of_mem id hid, ht, Option.map_some]
  have hbetter := (h.unhindered hf).charge_le hwalk hw hle hs hkind hp hrow
  have hnum := h.proper.charge _ _ _ _ _ _ hw hs hp hrow
  refine ⟨id, Charged.mem_pruned he.widths (fun c hc => he.charged hf hrow hheard hc) hrow ?_ hid hu
    hbetter, _, hu, by simp, by simp [hkind, hp], hbetter⟩
  exact fun _ _ _ _ hy hsy hpy => Score.add_impossible_le
    (h.proper.charge _ _ _ _ _ _ hy hsy hpy hrow) (Score.isNumber_of_lt_infinity hnum)

/-- The tokens that the next frame starts from were charged too. -/
theorem Exact.charged_seed (he : f.Exact fast) (hf : f.Ready size fast) {row : Array Score}
    (hrow : fast.source.rows[f.frame]? = some row) {store : Store}
    (hheard : Store.Heard row f.beam.tokens f.store store) {id : Nat}
    (hid : id ∈ (f.beam.prune store.score).tokens.filter
      (fun id => (f.beam.prune store.score).admits (store.score id))) :
    ∃ u, store.get? id = some u ∧ Charged fast.graph fast.source.rows f.frame u :=
  he.charged hf hrow hheard
    ((Beam.prune_subperm store.score).subset (List.mem_of_mem_filter hid))

/-- **The evidence of a frame that is scored** is faithful. -/
theorem Exact.faithful (h : Whole fast) (he : f.Exact fast) (hf : f.Ready size fast)
    {row : Array Score} (hrow : fast.source.rows[f.frame]? = some row) {source : AcousticSource}
    {store : Store} (hheard : Store.Heard row f.beam.tokens f.store store)
    (hready : ((f.heard source store).moved (f.beam.prune store.score)).Ready size fast) :
    (((f.heard source store).moved (f.beam.prune store.score)).evidence
      ((f.beam.prune store.score).tokens.filter fun id =>
        (f.beam.prune store.score).admits (store.score id))).Faithful
      fast.graph fast.source.rows := by
  refine hready.faithful h.proper (fun id hid t p ht hp => ?_) fun p x hx => ?_
  · obtain ⟨u, hu, source', p', x, row', hs', hp', hk, hw, hr, heq⟩ :=
      he.charged_seed hf hrow hheard hid
    replace ht : store.get? id = some t := ht
    rw [hu] at ht
    cases ht
    rw [hk] at hp
    cases hp
    rw [heq]
    exact .charged hw hs' hp' hr
  · change fast.graph.Heard _ _ (f.frame + 1) p x at hx
    cases hx with
    | charged hw hs hp hr =>
      rw [hrow] at hr
      cases hr
      obtain ⟨id, hid, u, hu, -, hk, hle⟩ := he.exists_seed h hf hrow hheard hw hs hp
      exact ⟨id, hid, u, hu, hk, hle⟩

/-- **A frame that is scored** stays exact. -/
theorem Exact.step_scored (h : Whole fast) (he : f.Exact fast) (hf : f.Ready size fast)
    (hs : f.Scores) : ∃ next, f.step = .ok next ∧ next.Exact fast := by
  obtain ⟨best, source, store, beam, next, hx, hprune, -, hready, hgrow, hstep, -⟩ :=
    hf.step_scored hs
  have hcursor : f.pass.source.cursor = f.frame := by
    refine he.cursor.resolve_right fun hnil => ?_
    rw [hnil] at hx
    exact AcousticSource.scoreFrame_nil hx
  obtain ⟨row, hrow, -, hnext, -, hheard⟩ :=
    AcousticSource.scoreFrame_scored (he.tokens ▸ List.nodup_range) hx
  rw [hcursor, hf.rows] at hrow
  have hpruned : beam = f.beam.prune store.score := by
    rw [hf.pruner, h.pruner] at hprune
    exact (Pruner.byWidths_eq_ok hprune).2
  subst hpruned
  have hunhindered := h.unhindered hready
  have hcharged : ∀ id ∈ (f.beam.prune store.score).tokens.filter
      (fun id => (f.beam.prune store.score).admits (store.score id)),
      ∃ u, store.get? id = some u ∧ Charged fast.graph fast.source.rows f.frame u :=
    fun _ hid => he.charged_seed hf hrow hheard hid
  obtain ⟨next', hgrow', hexact⟩ := h.grow hready (hnext.trans (congrArg (· + 1) hcursor)) rfl
    (hunhindered.seeded hcharged) (fun e hfin q x hw =>
      hunhindered.beats_charged hcharged (fun q x source p row' hw hs hp hr _ => by
        rw [hrow] at hr
        cases hr
        obtain ⟨id, hid, u, hu, hst, hk, hle⟩ := he.exists_seed h hf hrow hheard hw.walk hs hp
        exact ⟨id, hid, u, hu, hst, by rw [hk]; rfl, hle⟩) hfin hw) he.told
    (he.faithful h hf hrow hheard hready)
  rw [hgrow] at hgrow'
  cases hgrow'
  exact ⟨next, hstep, hexact⟩

/-- **A step** stays exact. -/
theorem Exact.step (h : Whole fast) (he : f.Exact fast) (hf : f.Ready size fast) :
    ∃ next, f.step = .ok next ∧ next.Exact fast := by
  by_cases hs : f.Scores
  · exact he.step_scored h hf hs
  · rw [step_eq]
    cases hended : f.ended with
    | true => exact ⟨f, rfl, he⟩
    | false =>
      have hend : ∀ {outcome source store},
          f.pass.source.scoreFrame f.store f.beam.tokens = .ok (outcome, source, store) →
          (∀ best, outcome ≠ .scored best) →
          Exact fast { f.heard source store with ended := true } := by
        intro outcome source store hx hno
        obtain ⟨rfl, -, hcursor⟩ := AcousticSource.scoreFrame_idle hx hno
          fun id _ t ht => (he.attained id t ht).1
        refine ⟨?_, he.widths, he.tokens, he.attained, he.complete, he.told⟩
        rcases hcursor with hc | hnil
        · exact he.cursor.imp_left fun heq => hc.trans heq
        · exact .inr hnil
      obtain ⟨⟨outcome, source, store⟩, hx⟩ :=
        AcousticSource.exists_scoreFrame f.pass.source hf.stored
      cases outcome with
      | scored best => exact absurd ⟨hended, best, source, store, hx⟩ hs
      | exhausted =>
        rw [hx]
        exact ⟨_, rfl, hend hx (by simp)⟩
      | streamEnd =>
        rw [hx]
        exact ⟨_, rfl, hend hx (by simp)⟩

theorem Exact.dropOldest (he : f.Exact fast) : f.dropOldest.Exact fast :=
  ⟨he.cursor, he.widths, he.tokens, he.attained, he.complete,
    fun e hmem => he.told e (List.mem_of_mem_drop hmem)⟩

/-- **Some steps,** by induction on their number. -/
theorem Exact.stepMany (h : Whole fast) : ∀ (n : Nat) {f : FastMatch}, f.Exact fast →
    f.Ready size fast → ∃ next, FastMatch.stepMany n f = .ok next ∧ next.Exact fast
  | 0, f, he, _ => ⟨f, rfl, he⟩
  | n + 1, f, he, hf => by
    obtain ⟨next, hstep, hexact⟩ := he.step h hf
    obtain ⟨next', hstep', hready⟩ := hf.step
    rw [hstep] at hstep'
    cases hstep'
    obtain ⟨last, hmany, hlast⟩ := Exact.stepMany h n hexact hready
    refine ⟨last, ?_, hlast⟩
    unfold FastMatch.stepMany
    rw [hstep]
    exact hmany

/-- **The start of an utterance** is exact. -/
theorem Whole.reset (h : Whole fast) (hf : f.Ready size fast) :
    ∃ next, f.reset = .ok next ∧ next.Exact fast := by
  obtain ⟨next, hfirst, hexact⟩ := h.first hf
  obtain ⟨next', hfirst', hready, -⟩ := hf.first
  rw [hfirst] at hfirst'
  cases hfirst'
  obtain ⟨last, hmany, hlast⟩ := Exact.stepMany h (f.windowSize - 1) hexact hready
  refine ⟨last, ?_, hlast⟩
  rw [reset_eq, hfirst]
  exact hmany

end SpeechDecoder.FastMatch

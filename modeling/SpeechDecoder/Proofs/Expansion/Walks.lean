import SpeechDecoder.Proofs.Expansion.Closure
import SpeechDecoder.Proofs.Graph.Walk
import SpeechDecoder.Proofs.Search.Scoring

/-!
# What an expansion makes of the walks over a graph

An expansion that cuts nothing but by the margin of the beam (`Unhindered`), in terms of walks.  If a
frame starts from the token of the initial state or from tokens that were charged with a row, then no
token is better than a walk, and in the end every walk within the margin is matched by a token.

* `Charged` is what is said of a token that was charged, and `Unhindered.seeded` that a frame may
  start from such tokens.
* `Unhindered.beats_first` and `Unhindered.beats_charged` say that no walk is missed.
-/

namespace SpeechDecoder.Expansion

/-- **A growth that cuts nothing but by a margin,** over a graph whose scores stay numbers. -/
structure Unhindered (g : Growth) (graph : Graph) (rows : Array (Array Score)) (margin : Score) :
    Prop where
  graph_eq : g.graph = graph
  phoneCut : g.phoneCut = none
  checkStateOrder : g.checkStateOrder = false
  wordMargin : g.wordMargin = .impossible
  margin_le : margin ≤ .certain
  proper : graph.Proper rows

/-- **A token that was charged** at the end of a walk of `t` charges. -/
def Charged (graph : Graph) (rows : Array (Array Score)) (t : Nat) (u : Token) : Prop :=
  ∃ source p x row, graph.state? u.state = some source ∧ source.kind = .emitting p ∧
    u.kind = .emitting p ∧ graph.Walk rows t u.state x ∧ rows[t]? = some row ∧
    u.score = x + AcousticSource.likelihood row p

variable {g : Growth} {graph : Graph} {rows : Array (Array Score)} {margin : Score} {base : Store}
  {seeds : List Nat} {e : Expansion} {t : Nat}

theorem Unhindered.free (h : Unhindered g graph rows margin) (t : Nat) :
    Free g ⟨0, margin⟩ (graph.Walk rows t) where
  phoneCut := h.phoneCut
  checkStateOrder := h.checkStateOrder
  wordMargin := h.wordMargin
  margin_le := h.margin_le
  finite q x hw := h.proper.walk t q x hw
  pass _ _ _ _ hw hs he hf ha := .pass hw (h.graph_eq ▸ hs) he hf ha

/-! ## What a frame starts from -/

/-- **The initial token** seeds the walks without a charge. -/
theorem Unhindered.seeded_initial (h : Unhindered g graph rows margin) {st : State}
    (hst : graph.state? graph.initial = some st)
    (hzero : base.get? 0 = some (.seed graph.initial st.kind 0)) :
    Seeded g base (graph.Walk rows 0) [0] := by
  refine ⟨fun c hc => ?_, fun c hc u hu hf source arc hs ha => ?_, fun c hc u hu _ => ?_⟩
  · rw [List.mem_singleton.1 hc]
    exact Store.lt_size_of_get? hzero
  · rw [List.mem_singleton.1 hc, hzero] at hu
    cases hu
    rw [h.graph_eq, show (Token.seed graph.initial st.kind 0).state = graph.initial from rfl,
      hst] at hs
    cases hs
    exact .first hst hf ha
  · rw [List.mem_singleton.1 hc, hzero] at hu
    cases hu
    exact ⟨by rw [List.mem_singleton.1 hc], fun x hx => hx.le_certain h.proper⟩

/-- **Charged tokens** seed the walks with one charge more. -/
theorem Unhindered.seeded (h : Unhindered g graph rows margin)
    (hseeds : ∀ c ∈ seeds, ∃ u, base.get? c = some u ∧ Charged graph rows t u) :
    Seeded g base (graph.Walk rows (t + 1)) seeds := by
  refine ⟨fun c hc => ?_, fun c hc u hu _ source arc hs ha => ?_, fun c hc u hu hk => ?_⟩
  · obtain ⟨u, hu, -⟩ := hseeds c hc
    exact Store.lt_size_of_get? hu
  · obtain ⟨u', hu', source', p, x, row, hs', hp, -, hw, hr, hscore⟩ := hseeds c hc
    rw [hu] at hu'
    cases hu'
    rw [h.graph_eq, hs'] at hs
    cases hs
    rw [hscore]
    exact .charge hw hs' hp hr ha
  · obtain ⟨u', hu', source', p, x, row, -, -, hk', -⟩ := hseeds c hc
    rw [hu] at hu'
    cases hu'
    rw [hk'] at hk
    cases hk

/-! ## Charging a beam -/

theorem exists_emitting {k : StateKind} (h : k.isEmitting = true) : ∃ p, k = .emitting p := by
  cases k <;> simp [StateKind.isEmitting] at h ⊢

/-- **A token at the end of a walk** is charged by the next row. -/
theorem Charged.heard {u : Token} {source : State} {row : Array Score}
    (hw : graph.Walk rows t u.state u.score) (hs : graph.state? u.state = some source)
    (hkind : u.kind = source.kind) (he : u.kind.isEmitting = true) (hr : rows[t]? = some row) :
    Charged graph rows t (u.heard row) := by
  obtain ⟨p, hp⟩ := exists_emitting he
  refine ⟨source, p, u.score, row, ?_, hkind ▸ hp, ?_, ?_, hr, Token.score_heard row u hp⟩
  · rwa [Token.heard_state]
  · rwa [Token.heard_kind]
  · rwa [Token.heard_state]

/-- A charge keeps the order of two walks. -/
theorem Unhindered.charge_le (h : Unhindered g graph rows margin) {u : Token} {source : State}
    {row : Array Score} {p : Nat} {x : Score} (hw : graph.Walk rows t u.state u.score)
    (hx : graph.Walk rows t u.state x) (hle : x ≤ u.score)
    (hs : graph.state? u.state = some source) (hkind : u.kind = source.kind)
    (hp : source.kind = .emitting p) (hr : rows[t]? = some row) :
    x + AcousticSource.likelihood row p ≤ (u.heard row).score := by
  rw [Token.score_heard row u (hkind.trans hp)]
  exact Score.add_le_add_right hle _
    (Score.isNumber_of_lt_infinity (h.proper.charge _ _ _ _ _ _ hx hs hp hr))
    (Score.isNumber_of_lt_infinity (h.proper.charge _ _ _ _ _ _ hw hs hp hr))

/-- **A charged token within the margin** is left by the pruning, and is worth expanding. -/
theorem Charged.mem_pruned {b : Beam} (hwidths : b.widths = ⟨0, margin⟩)
    (hcharged : ∀ c ∈ b.tokens, ∃ u, base.get? c = some u ∧ Charged graph rows t u)
    {row : Array Score} (hr : rows[t]? = some row) {y : Score}
    (hsurv : graph.Survives rows margin t row y) {c : Nat} (hc : c ∈ b.tokens) {u : Token}
    (hu : base.get? c = some u) (hle : y ≤ u.score) :
    c ∈ (b.prune base.score).tokens.filter fun c => (b.prune base.score).admits (base.score c) := by
  have hscore : ∀ {d : Nat} {v : Token}, base.get? d = some v → base.score d = v.score := by
    intro d v hv
    unfold Store.score
    rw [hv]
  obtain ⟨hmem, hadmits⟩ := Beam.mem_prune base.score (by rw [hwidths]) hc fun d hd => by
    obtain ⟨v, hv, source, p, x, row', hs, hp, -, hw, hr', heq⟩ := hcharged d hd
    rw [hr] at hr'
    cases hr'
    rw [hscore hv, hscore hu, hwidths, heq]
    exact Score.le_trans (hsurv _ _ _ _ hw hs hp) hle
  exact List.mem_filter.2 ⟨hmem, hadmits⟩

/-! ## No walk is missed -/

/-- What is handled and not refused by the beam is on its state. -/
theorem Unhindered.beats (h : Unhindered g graph rows margin) {q : Nat} {x : Score}
    (hfin : Finished g base (graph.Walk rows t) ⟨0, margin⟩ seeds e)
    (hhandled : Handled g e q x) (hw : graph.Walk rows t q x)
    (hin : graph.Enters rows margin t q x) : Beats e q x := by
  obtain ⟨done, hreach, -⟩ := hfin
  rcases hhandled with hbeats | ⟨⟨target, ht, he⟩, -, hlt⟩
  · exact hbeats
  · refine absurd hlt (Score.not_lt_of_le ?_)
    have hadmitted := hin target (h.graph_eq ▸ ht) he
    unfold Beam.threshold
    rw [hreach.widths_eq]
    rcases hreach.noted with hnone | ⟨q', source, hw', hs, he'⟩
    · have hm := h.margin_le
      rw [show e.next.bestScore = .impossible by unfold Beam.bestScore; rw [hnone]]
      exact Score.impossible_add_le (Score.le_iff.1 hm).1 (Score.not_lt_of_le hm)
        (Score.isNumber_of_lt_infinity (h.proper.walk t q x hw))
    · exact hadmitted q' _ source hw' (h.graph_eq ▸ hs) he'

/-- One more arc from a state that emits nothing. -/
theorem Unhindered.passed (h : Unhindered g graph rows margin) {q : Nat}
    (hfin : Finished g base (graph.Walk rows t) ⟨0, margin⟩ seeds e)
    (hseeds : Seeded g base (graph.Walk rows t) seeds) {x : Score} (hbeats : Beats e q x)
    {source : State} {arc : Arc} (hs : graph.state? q = some source)
    (he : source.kind.isEmitting = false) (hf : source.kind.isFinal = false)
    (ha : arc ∈ source.arcs) (hw : graph.Walk rows t arc.target (x + arc.probability))
    (hin : graph.Enters rows margin t arc.target (x + arc.probability)) :
    Beats e arc.target (x + arc.probability) :=
  h.beats hfin (hfin.passed (h.free t) hseeds hbeats (h.graph_eq ▸ hs) he hf ha
    (Score.isNumber_of_lt_infinity (h.proper.walk t _ _ hw))) hw hin

/-- **The first frame** misses no walk within the margin, by induction on the walk. -/
theorem Unhindered.beats_first (h : Unhindered g graph rows margin) {st : State}
    (hst : graph.state? graph.initial = some st)
    (hzero : base.get? 0 = some (.seed graph.initial st.kind 0))
    (hfin : Finished g base (graph.Walk rows 0) ⟨0, margin⟩ [0] e) {q : Nat} {x : Score}
    (hw : graph.Within rows margin 0 q x) : Beats e q x := by
  have hseeded := h.seeded_initial hst hzero
  generalize ht : 0 = t at hw
  induction hw with
  | charge => cases ht
  | pass hw hs he hf ha hin ih =>
    subst ht
    exact h.passed hfin hseeded (ih rfl) hs he hf ha (.pass hw.walk hs he hf ha) hin
  | first hs hf ha hin =>
    rw [hst] at hs
    cases hs
    exact h.beats hfin (hfin.seeded hseeded (by simp) hzero hf _ _ (h.graph_eq ▸ hst) ha)
      (.first hst hf ha) hin

/-- **A later frame** misses no walk within the margin, if every walk that was charged is matched by
a token that it starts from; by induction on the walk. -/
theorem Unhindered.beats_charged (h : Unhindered g graph rows margin)
    (hseeds : ∀ c ∈ seeds, ∃ u, base.get? c = some u ∧ Charged graph rows t u)
    (hcharged : ∀ q x source p row, graph.Within rows margin t q x →
      graph.state? q = some source → source.kind = .emitting p → rows[t]? = some row →
      graph.Survives rows margin t row (x + AcousticSource.likelihood row p) →
      ∃ c ∈ seeds, ∃ u, base.get? c = some u ∧ u.state = q ∧ u.kind.isFinal = false ∧
        x + AcousticSource.likelihood row p ≤ u.score)
    (hfin : Finished g base (graph.Walk rows (t + 1)) ⟨0, margin⟩ seeds e) {q : Nat} {x : Score}
    (hw : graph.Within rows margin (t + 1) q x) : Beats e q x := by
  have hseeded := h.seeded hseeds
  generalize hn : t + 1 = n at hw
  induction hw with
  | first => cases hn
  | pass hw hs he hf ha hin ih =>
    subst hn
    exact h.passed hfin hseeded (ih rfl) hs he hf ha (.pass hw.walk hs he hf ha) hin
  | charge hw hs hp hr ha hsurv hin =>
    cases hn
    obtain ⟨c, hc, u, hu, rfl, hf, hle⟩ := hcharged _ _ _ _ _ hw hs hp hr hsurv
    have hwalk := Graph.Walk.charge hw.walk hs hp hr ha
    have hhandled := hfin.seeded hseeded hc hu hf _ _ (h.graph_eq ▸ hs) ha
    refine h.beats hfin (hhandled.mono (Score.add_le_add_right hle _ ?_ ?_)) hwalk hin
    · exact Score.isNumber_of_lt_infinity (h.proper.walk _ _ _ hwalk)
    · exact Score.isNumber_of_lt_infinity ((h.free _).finite _ _
        (hseeded.feeds c hc u hu hf _ _ (h.graph_eq ▸ hs) ha))

end SpeechDecoder.Expansion

import SpeechDecoder.Proofs.Expansion.Closure
import SpeechDecoder.Proofs.Expansion.Peak
import SpeechDecoder.Proofs.Graph.Walk

/-!
# An expansion finds the best passages

The best score with which a state can be reached within a frame is a matter of the graph and of the
seeds: the greatest sum over a path that passes nothing but states that emit nothing (`Passage`,
`IsBest`).  If only the beam cuts, an expansion finds these scores, whatever the order in which the
seeds and the arcs come: a state that emits nothing has its best score, and so has an emitting state
unless it is below the threshold that the frame ends with.

* `Closed` is what an expansion leaves, and `Finished.closed` that it does.
* `Closed.agree`: two expansions with the same passages agree above the threshold.
* `closed_run` puts this together for a frame.
-/

namespace SpeechDecoder

/-- **The same graph but for the order of the arcs** of its states. -/
def Graph.Shuffled (graph graph' : Graph) : Prop :=
  ∀ s, Option.Rel (fun source source' => source'.kind = source.kind ∧ source'.arcs.Perm source.arcs)
    (graph.state? s) (graph'.state? s)

section Shuffled

variable {graph graph' : Graph} {s : Nat} {source : State}

theorem Graph.Shuffled.exists_state (h : graph.Shuffled graph') (hs : graph.state? s = some source) :
    ∃ source', graph'.state? s = some source' ∧ source'.kind = source.kind ∧
      source'.arcs.Perm source.arcs := by
  have hrel := h s
  rw [hs] at hrel
  cases hs' : graph'.state? s with
  | none =>
    rw [hs'] at hrel
    cases hrel
  | some source' =>
    rw [hs'] at hrel
    cases hrel with
    | some hst => exact ⟨source', rfl, hst⟩

theorem Graph.Shuffled.symm (h : graph.Shuffled graph') : graph'.Shuffled graph := by
  intro s
  have hrel := h s
  generalize graph.state? s = st at hrel ⊢
  generalize graph'.state? s = st' at hrel ⊢
  cases hrel with
  | none => exact .none
  | some hst => exact .some ⟨hst.1.symm, hst.2.symm⟩

end Shuffled

namespace Expansion

section Passages

variable (graph : Graph) (base : Store) (seeds : List Nat)

/-- **A path that a frame can take from a seed:** its last state, and the sum along it.  It has at
least one arc, leaves no final state and passes no emitting one. -/
inductive Passage : Nat → Score → Prop
  | first {c : Nat} {u : Token} {source : State} {arc : Arc} (hc : c ∈ seeds)
      (hu : base.get? c = some u) (hs : graph.state? u.state = some source)
      (hf : source.kind.isFinal = false) (ha : arc ∈ source.arcs) :
      Passage arc.target (u.score + arc.probability)
  | pass {s : Nat} {x : Score} {source : State} {arc : Arc} (h : Passage s x)
      (hs : graph.state? s = some source) (he : source.kind.isEmitting = false)
      (hf : source.kind.isFinal = false) (ha : arc ∈ source.arcs) :
      Passage arc.target (x + arc.probability)

/-- **The greatest score of a passage** to a state. -/
def IsBest (s : Nat) (v : Score) : Prop :=
  Passage graph base seeds s v ∧ ∀ x, Passage graph base seeds s x → x ≤ v

/-- A score with which an emitting state can be reached. -/
def Enters (x : Score) : Prop :=
  ∃ s source, graph.state? s = some source ∧ source.kind.isEmitting = true ∧
    Passage graph base seeds s x

/-- **What a frame leaves if only the beam cuts.** -/
structure Closed (widths : BeamWidths) (e : Expansion) : Prop where
  widths_eq : e.next.widths = widths
  best : Score.IsMaximum (Enters graph base seeds) e.next.bestScore
  /-- A state that emits nothing is held if it can be reached. -/
  held_iff : ∀ s source, graph.state? s = some source → source.kind.isEmitting = false →
    ((∃ id, e.resident? s = some id) ↔ ∃ x, Passage graph base seeds s x)
  /-- Whatever is held has the best score of its state. -/
  resident : ∀ s id, e.resident? s = some id →
    ∃ t, e.store.get? id = some t ∧ t.state = s ∧ IsBest graph base seeds s t.score
  /-- The beam has the tokens on emitting states. -/
  mem_next : ∀ id, id ∈ e.next.tokens ↔ ∃ t, e.store.get? id = some t ∧
    e.resident? t.state = some id ∧ t.kind.isEmitting = true
  /-- An emitting state is held if it can be reached with a score that is not below the threshold. -/
  admitted : ∀ s source x, graph.state? s = some source → source.kind.isEmitting = true →
    Passage graph base seeds s x → e.next.bestScore + widths.margin ≤ x →
    ∃ id ∈ e.next.tokens, e.resident? s = some id

/-- **What a frame starts from:** stored tokens with scores below infinity, which are on emitting
states unless there is only one. -/
structure Sown : Prop where
  stored : ∀ c ∈ seeds, ∃ u, base.get? c = some u ∧ u.score < Score.infinity
  shape : (∀ c ∈ seeds, ∀ u, base.get? c = some u → u.kind.isEmitting = true) ∨ ∃ c, seeds = [c]

end Passages

/-- **A growth that cuts nothing but by its beam,** over a graph without arcs that are not numbers. -/
structure Uncut (g : Growth) : Prop where
  phoneCut : g.phoneCut = none
  checkStateOrder : g.checkStateOrder = false
  wordMargin : g.wordMargin = .impossible
  numbers : ∀ source ∈ g.graph.states.toList, ∀ arc ∈ source.arcs, arc.probability.IsNumber

/-- The score of the token on a state, if it is not below the threshold. -/
def kept? (e : Expansion) (s : Nat) : Option Score :=
  (e.resident? s).bind fun id => (e.store.get? id).bind fun t =>
    if e.next.threshold ≤ t.score then some t.score else none

variable {g : Growth} {graph graph' : Graph} {base : Store} {widths : BeamWidths}
  {seeds seeds' : List Nat} {e e' : Expansion} {s : Nat} {x v w : Score}

/-! ## Passages -/

theorem Uncut.le_certain (h : Uncut g) {source : State} (hs : g.graph.state? s = some source)
    {arc : Arc} (ha : arc ∈ source.arcs) : arc.probability ≤ .certain :=
  Graph.probability_le_certain h.numbers hs ha

theorem Passage.lt_infinity (huncut : Uncut g) (hsown : Sown base seeds)
    (h : Passage g.graph base seeds s x) : x < Score.infinity := by
  induction h with
  | first hc hu hs hf ha =>
    obtain ⟨u', hu', hlt⟩ := hsown.stored _ hc
    rw [hu] at hu'
    cases hu'
    exact Score.add_lt_infinity hlt (huncut.le_certain hs ha)
  | pass h hs he hf ha ih => exact Score.add_lt_infinity ih (huncut.le_certain hs ha)

theorem Passage.exists_state (h : Passage graph base seeds s x) :
    ∃ source, graph.state? s = some source := by
  cases h with
  | first _ _ hs _ ha =>
    obtain ⟨target, ht, -⟩ := exists_target hs ha
    exact ⟨target, ht⟩
  | pass _ hs _ _ ha =>
    obtain ⟨target, ht, -⟩ := exists_target hs ha
    exact ⟨target, ht⟩

/-- **No passage is better than its seed,** by induction on the passage. -/
theorem Passage.le_seed (huncut : Uncut g) {c : Nat} (hsown : Sown base [c]) {u : Token}
    (hu : base.get? c = some u) (h : Passage g.graph base [c] s x) : x ≤ u.score := by
  induction h with
  | first hc hu' hs hf ha =>
    have hlt := (Passage.first hc hu' hs hf ha).lt_infinity huncut hsown
    obtain rfl := List.mem_singleton.1 hc
    rw [hu] at hu'
    cases hu'
    exact Graph.add_probability_le hs ha hlt
  | pass h hs he hf ha ih =>
    have hlt := (Passage.pass h hs he hf ha).lt_infinity huncut hsown
    exact Score.le_trans (Graph.add_probability_le hs ha hlt) ih

/-- **No passage has the negative zero** if no seed has it. -/
theorem Passage.ne_negativeZero
    (hseeds : ∀ c ∈ seeds, ∀ u, base.get? c = some u → u.score ≠ Score.negativeZero)
    (h : Passage graph base seeds s x) : x ≠ Score.negativeZero := by
  induction h with
  | first hc hu hs hf ha => exact Score.add_ne_negativeZero (hseeds _ hc _ hu) _
  | pass h hs he hf ha ih => exact Score.add_ne_negativeZero ih _

/-- The best score of a state is determined, but for the sign of a zero. -/
theorem IsBest.beq (h : IsBest graph base seeds s v) (h' : IsBest graph base seeds s w) :
    (v == w) = true :=
  Score.beq_of_le (h'.2 v h.1) (h.2 w h'.1)

/-! ## What an expansion finds -/

theorem Uncut.free (huncut : Uncut g) (hsown : Sown base seeds) (hmargin : widths.margin ≤ .certain) :
    Free g widths (Passage g.graph base seeds) where
  phoneCut := huncut.phoneCut
  checkStateOrder := huncut.checkStateOrder
  wordMargin := huncut.wordMargin
  margin_le := hmargin
  finite _ _ h := h.lt_infinity huncut hsown
  pass _ _ _ _ h hs he hf ha := .pass h hs he hf ha

theorem Sown.seeded (hsown : Sown base seeds) (huncut : Uncut g) (hfits : Fits g.graph base) :
    Seeded g base (Passage g.graph base seeds) seeds where
  old c hc := by
    obtain ⟨u, hu, -⟩ := hsown.stored c hc
    exact Store.lt_size_of_get? hu
  feeds c hc u hu hf source arc hs ha := by
    obtain ⟨st, hst, hkind⟩ := hfits c u hu
    rw [hs] at hst
    cases hst
    exact .first hc hu hs (hkind ▸ hf) ha
  alone c hc u hu hk := by
    rcases hsown.shape with hall | ⟨d, rfl⟩
    · rw [hall c hc u hu] at hk
      cases hk
    · obtain rfl := List.mem_singleton.1 hc
      exact ⟨rfl, fun x hx => hx.le_seed huncut hsown hu⟩

/-- A state that emits nothing is held as soon as something is handled there. -/
theorem Handled.beats (h : Handled g e s x) {source : State} (hs : g.graph.state? s = some source)
    (he : source.kind.isEmitting = false) : Beats e s x := by
  rcases h with hbeats | ⟨⟨target, ht, hemit⟩, -⟩
  · exact hbeats
  · rw [hs] at ht
    cases ht
    rw [he] at hemit
    cases hemit

/-- **Every passage is handled** in the end, by induction on the passage. -/
theorem Finished.passage (hfin : Finished g base (Passage g.graph base seeds) widths seeds e)
    (hfree : Free g widths (Passage g.graph base seeds))
    (hseeded : Seeded g base (Passage g.graph base seeds) seeds) (hfits : Fits g.graph base)
    (h : Passage g.graph base seeds s x) : Handled g e s x := by
  induction h with
  | first hc hu hs hf ha =>
    obtain ⟨st, hst, hkind⟩ := hfits _ _ hu
    rw [hs] at hst
    cases hst
    exact hfin.seeded hseeded hc hu (hkind ▸ hf) _ _ hs ha
  | pass h hs he hf ha ih =>
    exact hfin.passed hfree hseeded (ih.beats hs he) hs he hf ha
      (Score.isNumber_of_lt_infinity (hfree.finite _ _ (.pass h hs he hf ha)))

/-- A token of the frame has the best score of its state once every passage is handled. -/
theorem Reaching.isBest {done work : List Nat}
    (h : Reaching g base (Passage g.graph base seeds) widths seeds done work e)
    (hall : ∀ s x, Passage g.graph base seeds s x → Handled g e s x) {id : Nat}
    (hid : e.resident? s = some id) :
    ∃ t, e.store.get? id = some t ∧ t.state = s ∧ IsBest g.graph base seeds s t.score := by
  obtain ⟨hnew, t, ht, rfl⟩ := h.sound.resident_new s id hid
  refine ⟨t, ht, rfl, h.attained id t hnew ht, fun x hx => ?_⟩
  rcases hall t.state x hx with ⟨id', t', hid', ht', hle⟩ | ⟨-, hnone, -⟩
  · rw [hid] at hid'
    cases hid'
    rw [ht] at ht'
    cases ht'
    exact hle
  · rw [hid] at hnone
    cases hnone

/-- The token on an emitting state is in the beam. -/
theorem Sound.mem_next_of_resident {done : List Nat} (h : Sound g base done e) {id : Nat}
    (hid : e.resident? s = some id) {source : State} (hs : g.graph.state? s = some source)
    (he : source.kind.isEmitting = true) : id ∈ e.next.tokens := by
  obtain ⟨hnew, t, ht, rfl⟩ := h.resident_new s id hid
  obtain ⟨st, hst, hkind⟩ := h.fits id t ht
  rw [hs] at hst
  cases hst
  exact (h.mem_next id).2 ⟨hnew, t, ht, hkind ▸ he⟩

/-- **The best score of the beam** is the best one with which an emitting state can be reached: what
is refused is below the threshold, and so below the best score. -/
theorem Reaching.isMaximum {done work : List Nat}
    (h : Reaching g base (Passage g.graph base seeds) widths seeds done work e)
    (hfree : Free g widths (Passage g.graph base seeds))
    (hall : ∀ s x, Passage g.graph base seeds s x → Handled g e s x)
    (hpeak : e.next.Peak e.store.score) :
    Score.IsMaximum (Enters g.graph base seeds) e.next.bestScore := by
  refine Score.isMaximum_of ?_ ?_
  · rcases h.noted with hnone | ⟨s, source, hw, hs, he⟩
    · left
      unfold Beam.bestScore
      rw [hnone]
    · exact .inr ⟨s, source, hs, he, hw⟩
  · rintro x ⟨s, source, hs, he, hx⟩
    rcases hall s x hx with ⟨id, t, hid, ht, hle⟩ | ⟨-, -, hlt⟩
    · have hbelow := hpeak.below id (h.sound.mem_next_of_resident hid hs he)
      unfold Store.score at hbelow
      rw [ht] at hbelow
      exact Score.le_trans hle hbelow
    · have hmargin : ¬ Score.certain < e.next.widths.margin := by
        rw [h.widths_eq]
        exact Score.not_lt_of_le hfree.margin_le
      have hthreshold : e.next.threshold ≤ e.next.bestScore :=
        Score.add_le_self hmargin (h.isNumber_threshold hfree)
      exact Score.le_trans (Score.le_of_lt hlt) hthreshold

/-- **A frame leaves the best passages.** -/
theorem Finished.closed (hfin : Finished g base (Passage g.graph base seeds) widths seeds e)
    (hfree : Free g widths (Passage g.graph base seeds))
    (hseeded : Seeded g base (Passage g.graph base seeds) seeds) (hfits : Fits g.graph base)
    (hpeak : e.next.Peak e.store.score) : Closed g.graph base seeds widths e := by
  have hall : ∀ s x, Passage g.graph base seeds s x → Handled g e s x :=
    fun _ _ h => hfin.passage hfree hseeded hfits h
  obtain ⟨done, hreach, -⟩ := hfin
  have hsound := hreach.sound
  refine ⟨hreach.widths_eq, hreach.isMaximum hfree hall hpeak, fun s source hs he => ⟨?_, ?_⟩,
    fun s id hid => hreach.isBest hall hid, fun id => ⟨?_, ?_⟩, fun s source x hs he hx hle => ?_⟩
  · rintro ⟨id, hid⟩
    obtain ⟨t, -, -, hbest⟩ := hreach.isBest hall hid
    exact ⟨t.score, hbest.1⟩
  · rintro ⟨x, hx⟩
    obtain ⟨id, -, hid, -⟩ := (hall s x hx).beats hs he
    exact ⟨id, hid⟩
  · intro hid
    obtain ⟨hnew, t, ht, hk⟩ := (hsound.mem_next id).1 hid
    exact ⟨t, ht, hsound.resident_of id t hnew ht, hk⟩
  · rintro ⟨t, ht, hid, hk⟩
    exact (hsound.mem_next id).2 ⟨(hsound.resident_new _ _ hid).1, t, ht, hk⟩
  · rcases hall s x hx with ⟨id, -, hid, -⟩ | ⟨-, -, hlt⟩
    · exact ⟨id, hsound.mem_next_of_resident hid hs he, hid⟩
    · unfold Beam.threshold at hlt
      rw [hreach.widths_eq] at hlt
      exact absurd hlt (Score.not_lt_of_le hle)

/-! ## Whatever the order -/

theorem Passage.shuffled (hg : graph.Shuffled graph') (hperm : seeds'.Perm seeds)
    (h : Passage graph base seeds s x) : Passage graph' base seeds' s x := by
  induction h with
  | first hc hu hs hf ha =>
    obtain ⟨source', hs', hkind, harcs⟩ := hg.exists_state hs
    exact .first (hperm.mem_iff.2 hc) hu hs' (hkind ▸ hf) (harcs.mem_iff.2 ha)
  | pass h hs he hf ha ih =>
    obtain ⟨source', hs', hkind, harcs⟩ := hg.exists_state hs
    exact .pass ih hs' (hkind ▸ he) (hkind ▸ hf) (harcs.mem_iff.2 ha)

/-- The order of seeds and arcs does not matter for the passages. -/
theorem passage_eq (hg : graph.Shuffled graph') (hperm : seeds'.Perm seeds) :
    Passage graph' base seeds' = Passage graph base seeds :=
  funext fun _ => funext fun _ => propext
    ⟨fun h => h.shuffled hg.symm hperm.symm, fun h => h.shuffled hg hperm⟩

/-- **What is best in one order** is best in the other. -/
theorem Closed.shuffled (h : Closed graph' base seeds' widths e) (hg : graph.Shuffled graph')
    (hperm : seeds'.Perm seeds) : Closed graph base seeds widths e := by
  have hpassage : Passage graph' base seeds' = Passage graph base seeds := passage_eq hg hperm
  have hbest : IsBest graph' base seeds' = IsBest graph base seeds := by
    unfold IsBest
    rw [hpassage]
  have henters : Enters graph' base seeds' = Enters graph base seeds := by
    funext x
    refine propext ⟨fun ⟨s, source, hs, he, hx⟩ => ?_, fun ⟨s, source, hs, he, hx⟩ => ?_⟩
    · obtain ⟨source', hs', hkind, -⟩ := hg.symm.exists_state hs
      exact ⟨s, source', hs', hkind ▸ he, hpassage ▸ hx⟩
    · obtain ⟨source', hs', hkind, -⟩ := hg.exists_state hs
      exact ⟨s, source', hs', hkind ▸ he, hpassage ▸ hx⟩
  refine ⟨h.widths_eq, henters ▸ h.best, fun s source hs he => ?_, hbest ▸ h.resident, h.mem_next,
    fun s source x hs he hx hle => ?_⟩
  · obtain ⟨source', hs', hkind, -⟩ := hg.exists_state hs
    exact hpassage ▸ h.held_iff s source' hs' (hkind ▸ he)
  · obtain ⟨source', hs', hkind, -⟩ := hg.exists_state hs
    exact h.admitted s source' x hs' (hkind ▸ he) (hpassage ▸ hx) hle

theorem Uncut.shuffled (h : Uncut g) (hg : g.graph.Shuffled graph') :
    Uncut { g with graph := graph' } where
  phoneCut := h.phoneCut
  checkStateOrder := h.checkStateOrder
  wordMargin := h.wordMargin
  numbers source hsource arc ha := by
    obtain ⟨s, hs⟩ := List.getElem?_of_mem hsource
    rw [Array.getElem?_toList] at hs
    obtain ⟨source', hs', -, harcs⟩ := hg.symm.exists_state hs
    exact h.numbers source' (Array.mem_def.1 (Array.mem_of_getElem? hs')) arc (harcs.mem_iff.2 ha)

theorem Fits.shuffled (h : Fits graph base) (hg : graph.Shuffled graph') : Fits graph' base := by
  intro id t ht
  obtain ⟨st, hst, hkind⟩ := h id t ht
  obtain ⟨st', hst', hkind', -⟩ := hg.exists_state hst
  exact ⟨st', hst', hkind.trans hkind'.symm⟩

theorem Sown.perm (h : Sown base seeds) (hperm : seeds'.Perm seeds) : Sown base seeds' where
  stored c hc := h.stored c (hperm.mem_iff.1 hc)
  shape := h.shape.imp (fun hall c hc => hall c (hperm.mem_iff.1 hc)) fun ⟨c, hone⟩ =>
    ⟨c, List.perm_singleton.1 (hone ▸ hperm)⟩

/-! ## Above the threshold -/

theorem kept?_eq_some : e.kept? s = some x ↔ ∃ id t, e.resident? s = some id ∧
    e.store.get? id = some t ∧ e.next.threshold ≤ t.score ∧ t.score = x := by
  unfold kept?
  simp only [Option.bind_eq_some_iff, Option.ite_none_right_eq_some, Option.some.injEq]
  constructor
  · rintro ⟨id, hid, t, ht, hle, rfl⟩
    exact ⟨id, t, hid, ht, hle, rfl⟩
  · rintro ⟨id, t, hid, ht, hle, rfl⟩
    exact ⟨id, hid, t, ht, hle, rfl⟩

/-- **Two closed expansions** end with the same threshold. -/
theorem Closed.threshold_le (h : Closed g.graph base seeds widths e)
    (h' : Closed g.graph base seeds widths e') (huncut : Uncut g) (hsown : Sown base seeds)
    (hmargin : widths.margin ≤ .certain) : e.next.threshold ≤ e'.next.threshold := by
  have hlt : e'.next.bestScore < Score.infinity := by
    rcases h'.best.1 with ⟨s, source, -, -, hp⟩ | ⟨heq, -⟩
    · exact hp.lt_infinity huncut hsown
    · rw [heq]
      decide
  exact Beam.threshold_le (h.widths_eq ▸ hmargin) (h'.widths_eq.trans h.widths_eq.symm)
    (h.best.le h'.best) hlt

/-- What one of two closed expansions keeps on a state is kept by the other. -/
theorem Closed.kept (h : Closed g.graph base seeds widths e)
    (h' : Closed g.graph base seeds widths e') (huncut : Uncut g) (hsown : Sown base seeds)
    (hmargin : widths.margin ≤ .certain) (hx : e.kept? s = some x) :
    ∃ y, e'.kept? s = some y ∧ IsBest g.graph base seeds s x ∧ IsBest g.graph base seeds s y := by
  obtain ⟨id, t, hid, ht, hle, rfl⟩ := kept?_eq_some.1 hx
  obtain ⟨t', ht', -, hbest⟩ := h.resident s id hid
  rw [ht] at ht'
  cases ht'
  have hthreshold := Score.le_trans (h'.threshold_le h huncut hsown hmargin) hle
  obtain ⟨source, hs⟩ := hbest.1.exists_state
  -- an emitting state is held by the other one since it is above the threshold
  have hheld : ∃ id', e'.resident? s = some id' := by
    cases he : source.kind.isEmitting with
    | false => exact (h'.held_iff s source hs he).2 ⟨t.score, hbest.1⟩
    | true =>
      unfold Beam.threshold at hthreshold
      rw [h'.widths_eq] at hthreshold
      obtain ⟨id', -, hid'⟩ := h'.admitted s source t.score hs he hbest.1 hthreshold
      exact ⟨id', hid'⟩
  obtain ⟨id', hid'⟩ := hheld
  obtain ⟨u, hu, -, hbest'⟩ := h'.resident s id' hid'
  exact ⟨u.score, kept?_eq_some.2 ⟨id', u, hid', hu,
    Score.le_trans hthreshold (hbest'.2 _ hbest.1), rfl⟩, hbest, hbest'⟩

/-- **Two expansions agree above the threshold.** -/
structure Agree (e e' : Expansion) : Prop where
  best : (e.next.bestScore == e'.next.bestScore) = true
  kept : ∀ s, Option.Rel (fun x y => (x == y) = true) (e.kept? s) (e'.kept? s)

/-- **Closed expansions agree:** each keeps what the other one keeps. -/
theorem Closed.agree (h : Closed g.graph base seeds widths e)
    (h' : Closed g.graph base seeds widths e') (huncut : Uncut g) (hsown : Sown base seeds)
    (hmargin : widths.margin ≤ .certain) : Agree e e' := by
  refine ⟨Score.beq_of_le (h.best.le h'.best) (h'.best.le h.best), fun s => ?_⟩
  cases hx : e.kept? s with
  | none =>
    cases hy : e'.kept? s with
    | none => exact .none
    | some y =>
      obtain ⟨x, hx', -⟩ := h'.kept h huncut hsown hmargin hy
      rw [hx] at hx'
      cases hx'
  | some x =>
    obtain ⟨y, hy, hbest, hbest'⟩ := h.kept h' huncut hsown hmargin hx
    rw [hy]
    exact .some (hbest.beq hbest')

/-- Where the negative zero does not occur, they keep the very same scores. -/
theorem Closed.kept_eq (h : Closed g.graph base seeds widths e)
    (h' : Closed g.graph base seeds widths e') (huncut : Uncut g) (hsown : Sown base seeds)
    (hmargin : widths.margin ≤ .certain)
    (hzero : ∀ c ∈ seeds, ∀ u, base.get? c = some u → u.score ≠ Score.negativeZero) (s : Nat) :
    e'.kept? s = e.kept? s := by
  have hsome : ∀ {e e' : Expansion} {x : Score}, Closed g.graph base seeds widths e →
      Closed g.graph base seeds widths e' → e.kept? s = some x → e'.kept? s = some x := by
    intro e e' x h h' hx
    obtain ⟨y, hy, hbest, hbest'⟩ := h.kept h' huncut hsown hmargin hx
    rw [hy, Score.eq_of_level (hbest.1.ne_negativeZero hzero) (hbest'.1.ne_negativeZero hzero)
      (Score.beq_iff.1 (hbest.beq hbest')).2.2]
  exact Option.ext fun x => ⟨hsome h' h, hsome h h'⟩

/-! ## A whole frame -/

/-- A frame that only the beam cuts ends, with the best passages. -/
theorem exists_closed (huncut : Uncut g) (hmargin : widths.margin ≤ .certain)
    (hfits : Fits g.graph base) (hsown : Sown base seeds) (lattice : Lattice) (memo : PenaltyMemo) :
    ∃ e, (Expansion.start base (.empty widths) lattice memo).run g seeds = .ok e ∧
      Closed g.graph base seeds widths e := by
  have hfree := huncut.free hsown hmargin
  have hseeded := hsown.seeded huncut hfits
  have hstart : Reaching g base (Passage g.graph base seeds) widths seeds [] []
      (.start base (.empty widths) lattice memo) := .start hfits lattice memo
  have hrun := hstart.run hfree hseeded rfl
  have hpeak := peak_run hfits widths lattice memo hseeded.old
  cases hx : (Expansion.start base (.empty widths) lattice memo).run g seeds with
  | error err => exact (hrun.of_error hx).elim
  | ok e =>
    exact ⟨e, rfl, (hrun.of_ok hx).closed hfree hseeded hfits (hpeak.of_ok hx)⟩

/-- **A frame finds the best passages within its beam,** and another order of its seeds and of the
arcs changes nothing above the threshold: not even a bit, if no seed has the negative zero. -/
theorem closed_run (huncut : Uncut g) (hmargin : widths.margin ≤ .certain)
    (hfits : Fits g.graph base) (hsown : Sown base seeds) (lattice : Lattice) (memo : PenaltyMemo) :
    ∃ e, (Expansion.start base (.empty widths) lattice memo).run g seeds = .ok e ∧
      Closed g.graph base seeds widths e ∧
      ∀ graph' seeds', g.graph.Shuffled graph' → seeds'.Perm seeds →
        ∃ e', (Expansion.start base (.empty widths) lattice memo).run { g with graph := graph' }
            seeds' = .ok e' ∧ Agree e e' ∧
          ((∀ c ∈ seeds, ∀ u, base.get? c = some u → u.score ≠ Score.negativeZero) →
            ∀ s, e'.kept? s = e.kept? s) := by
  obtain ⟨e, hrun, hclosed⟩ := exists_closed huncut hmargin hfits hsown lattice memo
  refine ⟨e, hrun, hclosed, fun graph' seeds' hg hperm => ?_⟩
  obtain ⟨e', hrun', hclosed'⟩ := exists_closed (huncut.shuffled hg) hmargin (hfits.shuffled hg)
    (hsown.perm hperm) lattice memo
  have hback := hclosed'.shuffled hg hperm
  exact ⟨e', hrun', hclosed.agree hback huncut hsown hmargin,
    hclosed.kept_eq hback huncut hsown hmargin⟩

end Expansion

/-! ## An example -/

namespace Expansion.Fan

/-- Two emitting states, and a cycle that costs nothing.  `arcs` are those of the initial state. -/
def states (arcs : List Arc) : Array State :=
  #[⟨.branch, 0, arcs⟩, .ofKind (.emitting 0), .ofKind (.emitting 1),
    ⟨.branch, 0, [.new 0 .certain, .new 1 (Float32.ofBits 0xC0200000)]⟩]

/-- The poor arc comes before the good one. -/
def graph : Graph where
  initial := 0
  states := states [.new 1 (Float32.ofBits 0xC0400000), .new 2 (Float32.ofBits 0xBF800000),
    .new 3 .certain]
  initial_lt := by decide
  sound := by unfold State.Sound; decide

/-- The good arc comes before the poor one. -/
def turned : Graph where
  initial := 0
  states := states [.new 2 (Float32.ofBits 0xBF800000), .new 1 (Float32.ofBits 0xC0400000),
    .new 3 .certain]
  initial_lt := by decide
  sound := by unfold State.Sound; decide

def growth : Growth where
  graph := graph
  frame := 0
  keepAllTokens := false
  checkStateOrder := false
  wordMargin := .impossible
  phoneCut := none
  buildLattice := false

def base : Store := Store.empty.push (.seed 0 .branch 0)

def widths : BeamWidths := ⟨0, Float32.ofBits 0xBF800000⟩

theorem shuffled : graph.Shuffled turned := by
  intro s
  match s with
  | 0 => exact .some ⟨rfl, .swap _ _ _⟩
  | 1 => exact .some ⟨rfl, .refl _⟩
  | 2 => exact .some ⟨rfl, .refl _⟩
  | 3 => exact .some ⟨rfl, .refl _⟩
  | n + 4 => simp [Graph.state?, graph, turned, states]

theorem uncut : Uncut growth := ⟨rfl, rfl, rfl, by decide⟩

theorem sown : Sown base [0] where
  stored c hc := by
    rw [List.mem_singleton.1 hc]
    exact ⟨_, rfl, Score.certain_lt_infinity⟩
  shape := .inr ⟨0, rfl⟩

theorem fits : Fits graph base := by
  refine fits_single ?_ 0
  exact ⟨_, rfl, rfl⟩

end Expansion.Fan

/-- In one order the poor arrival is taken before the threshold rises, in the other it is refused;
above the threshold that makes no difference. -/
theorem Expansion.closed_run_fan : ∃ e e',
    (Expansion.start Fan.base (.empty Fan.widths) (.empty 0) .empty).run Fan.growth [0] = .ok e ∧
      (Expansion.start Fan.base (.empty Fan.widths) (.empty 0) .empty).run
        { Fan.growth with graph := Fan.turned } [0] = .ok e' ∧
      Closed Fan.graph Fan.base [0] Fan.widths e ∧ Agree e e' ∧
      e.resident? 1 = some 1 ∧ e'.resident? 1 = none := by
  have hmargin : Fan.widths.margin ≤ .certain := by decide
  obtain ⟨e, hrun, hclosed, hall⟩ := closed_run Fan.uncut hmargin Fan.fits Fan.sown (.empty 0) .empty
  obtain ⟨e', hrun', hagree, -⟩ := hall Fan.turned [0] Fan.shuffled (.refl _)
  have hheld : ((Expansion.start Fan.base (.empty Fan.widths) (.empty 0) .empty).run Fan.growth
      [0]).toOption.map (fun e => e.resident? 1) = some (some 1) := by decide +kernel
  have hrefused : ((Expansion.start Fan.base (.empty Fan.widths) (.empty 0) .empty).run
      { Fan.growth with graph := Fan.turned } [0]).toOption.map (fun e => e.resident? 1) =
      some none := by decide +kernel
  rw [hrun] at hheld
  rw [hrun'] at hrefused
  exact ⟨e, e', hrun, hrun', hclosed, hagree, Option.some.inj hheld, Option.some.inj hrefused⟩

end SpeechDecoder

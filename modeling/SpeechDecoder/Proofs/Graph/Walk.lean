import SpeechDecoder.Graph.Basic
import SpeechDecoder.Acoustics
import SpeechDecoder.Proofs.Score.Sum

/-!
# Walks over a graph

What a search looks for, without the search: paths over the arcs of a graph with the score that a
table of likelihoods gives them.  A walk of `t` charges has passed `t` emitting states, and the state
that it ends on is not charged yet.

* `Walk` are all paths, `IsBest` says which score is the greatest, and `exists_isBest` that there is
  one wherever there is a walk.
* `Within` are the paths that a beam with a margin never gives up: wherever a frame ends, no walk is
  better by more than the margin.  With an impossible margin these are all walks (`Walk.within`).
-/

namespace SpeechDecoder.Graph

variable (graph : Graph) (rows : Array (Array Score))

/-- **A path of at least one arc from the initial state:** its charges, its last state and its score.
It leaves no final state, and leaving an emitting one takes the next row. -/
inductive Walk : Nat → Nat → Score → Prop
  | first {source : State} {arc : Arc} (hs : graph.state? graph.initial = some source)
      (hf : source.kind.isFinal = false) (ha : arc ∈ source.arcs) :
      Walk 0 arc.target (.certain + arc.probability)
  | pass {t s : Nat} {x : Score} {source : State} {arc : Arc} (h : Walk t s x)
      (hs : graph.state? s = some source) (he : source.kind.isEmitting = false)
      (hf : source.kind.isFinal = false) (ha : arc ∈ source.arcs) :
      Walk t arc.target (x + arc.probability)
  | charge {t s p : Nat} {x : Score} {source : State} {row : Array Score} {arc : Arc}
      (h : Walk t s x) (hs : graph.state? s = some source) (hp : source.kind = .emitting p)
      (hr : rows[t]? = some row) (ha : arc ∈ source.arcs) :
      Walk (t + 1) arc.target (x + AcousticSource.likelihood row p + arc.probability)

/-- **The greatest score of a walk** with so many charges to a state. -/
def IsBest (t s : Nat) (v : Score) : Prop :=
  graph.Walk rows t s v ∧ ∀ x, graph.Walk rows t s x → x ≤ v

/-- **No path score becomes infinite or stops being a number,** after an arc or after a charge. -/
structure Proper : Prop where
  walk : ∀ t s x, graph.Walk rows t s x → x < Score.infinity
  charge : ∀ t s x source p row, graph.Walk rows t s x → graph.state? s = some source →
    source.kind = .emitting p → rows[t]? = some row →
    x + AcousticSource.likelihood row p < Score.infinity

/-- No walk to an emitting state is better than `x` by more than the margin. -/
def Admitted (margin : Score) (t : Nat) (x : Score) : Prop :=
  ∀ s y source, graph.Walk rows t s y → graph.state? s = some source →
    source.kind.isEmitting = true → y + margin ≤ x

/-- No walk that is charged with a row is better than `x` by more than the margin. -/
def Survives (margin : Score) (t : Nat) (row : Array Score) (x : Score) : Prop :=
  ∀ s y source p, graph.Walk rows t s y → graph.state? s = some source →
    source.kind = .emitting p → y + AcousticSource.likelihood row p + margin ≤ x

/-- An arrival that the beam does not refuse: only emitting states are entered through it. -/
def Enters (margin : Score) (t s : Nat) (x : Score) : Prop :=
  ∀ target, graph.state? s = some target → target.kind.isEmitting = true →
    graph.Admitted rows margin t x

/-- **The walks that stay within the margin** of the best ones, where they enter an emitting state
and where they are charged. -/
inductive Within (margin : Score) : Nat → Nat → Score → Prop
  | first {source : State} {arc : Arc} (hs : graph.state? graph.initial = some source)
      (hf : source.kind.isFinal = false) (ha : arc ∈ source.arcs)
      (hin : graph.Enters rows margin 0 arc.target (.certain + arc.probability)) :
      Within margin 0 arc.target (.certain + arc.probability)
  | pass {t s : Nat} {x : Score} {source : State} {arc : Arc} (h : Within margin t s x)
      (hs : graph.state? s = some source) (he : source.kind.isEmitting = false)
      (hf : source.kind.isFinal = false) (ha : arc ∈ source.arcs)
      (hin : graph.Enters rows margin t arc.target (x + arc.probability)) :
      Within margin t arc.target (x + arc.probability)
  | charge {t s p : Nat} {x : Score} {source : State} {row : Array Score} {arc : Arc}
      (h : Within margin t s x) (hs : graph.state? s = some source)
      (hp : source.kind = .emitting p) (hr : rows[t]? = some row) (ha : arc ∈ source.arcs)
      (hsurv : graph.Survives rows margin t row (x + AcousticSource.likelihood row p))
      (hin : graph.Enters rows margin (t + 1) arc.target
        (x + AcousticSource.likelihood row p + arc.probability)) :
      Within margin (t + 1) arc.target (x + AcousticSource.likelihood row p + arc.probability)

variable {graph rows} {t s : Nat} {x : Score}

theorem Within.walk {margin : Score} (h : graph.Within rows margin t s x) :
    graph.Walk rows t s x := by
  induction h with
  | first hs hf ha _ => exact .first hs hf ha
  | pass _ hs he hf ha _ ih => exact .pass ih hs he hf ha
  | charge _ hs hp hr ha _ _ ih => exact .charge ih hs hp hr ha

/-- **With an impossible margin every walk stays within it.** -/
theorem Walk.within (hproper : graph.Proper rows) (h : graph.Walk rows t s x) :
    graph.Within rows .impossible t s x := by
  have henters : ∀ {t s : Nat} {x : Score}, x.IsNumber →
      graph.Enters rows .impossible t s x := fun hx _ _ _ _ _ _ hy _ _ =>
    Score.add_impossible_le (hproper.walk _ _ _ hy) hx
  induction h with
  | first hs hf ha =>
    exact .first hs hf ha (henters (Score.isNumber_of_lt_infinity
      (hproper.walk _ _ _ (.first hs hf ha))))
  | pass h hs he hf ha ih =>
    exact .pass ih hs he hf ha (henters (Score.isNumber_of_lt_infinity
      (hproper.walk _ _ _ (.pass h hs he hf ha))))
  | charge h hs hp hr ha ih =>
    refine .charge ih hs hp hr ha (fun _ _ _ _ hy hsy hpy => ?_)
      (henters (Score.isNumber_of_lt_infinity (hproper.walk _ _ _ (.charge h hs hp hr ha))))
    exact Score.add_impossible_le (hproper.charge _ _ _ _ _ _ hy hsy hpy hr)
      (Score.isNumber_of_lt_infinity (hproper.charge _ _ _ _ _ _ h hs hp hr))

/-- No arc raises a score. -/
theorem add_probability_le {source : State} {arc : Arc} (hs : graph.state? s = some source)
    (ha : arc ∈ source.arcs) (hlt : x + arc.probability < Score.infinity) :
    x + arc.probability ≤ x := by
  have hmem : source ∈ graph.states.toList := Array.mem_def.1 (Array.mem_of_getElem? hs)
  exact Score.add_le_self (graph.sound source hmem arc ha).2 (Score.isNumber_of_lt_infinity hlt)

/-- Without a charge no walk has a positive score. -/
theorem Walk.le_certain (hproper : graph.Proper rows) (h : graph.Walk rows 0 s x) :
    x ≤ .certain := by
  generalize ht : 0 = t at h
  induction h with
  | first hs hf ha => exact add_probability_le hs ha (hproper.walk _ _ _ (.first hs hf ha))
  | pass h hs he hf ha ih =>
    exact Score.le_trans (add_probability_le hs ha (hproper.walk _ _ _ (.pass h hs he hf ha))) (ih ht)
  | charge => cases ht

/-- No arc that is a number is positive. -/
theorem probability_le_certain
    (harcs : ∀ source ∈ graph.states.toList, ∀ arc ∈ source.arcs, arc.probability.IsNumber)
    {source : State} {arc : Arc} (hs : graph.state? s = some source) (ha : arc ∈ source.arcs) :
    arc.probability ≤ .certain := by
  have hmem : source ∈ graph.states.toList := Array.mem_def.1 (Array.mem_of_getElem? hs)
  exact Score.le_of_not_lt (harcs source hmem arc ha) Score.isNumber_certain
    (graph.sound source hmem arc ha).2

theorem likelihood_le_certain (hrows : ∀ row ∈ rows, ∀ y ∈ row, y ≤ .certain) {p : Nat}
    {row : Array Score} (hr : rows[t]? = some row) : AcousticSource.likelihood row p ≤ .certain := by
  unfold AcousticSource.likelihood
  cases hp : row[p]? with
  | none => exact Score.impossible_le Score.isNumber_certain
  | some y => exact hrows row (Array.mem_of_getElem? hr) y (Array.mem_of_getElem? hp)

/-- **Where no likelihood is positive, every score is finite or impossible.** -/
theorem proper_of_le_certain
    (harcs : ∀ source ∈ graph.states.toList, ∀ arc ∈ source.arcs, arc.probability.IsNumber)
    (hrows : ∀ row ∈ rows, ∀ y ∈ row, y ≤ .certain) : graph.Proper rows := by
  have hwalk : ∀ t s x, graph.Walk rows t s x → x ≤ .certain := by
    intro t s x h
    induction h with
    | first hs hf ha =>
      exact Score.add_le_certain (Score.le_rfl Score.isNumber_certain)
        (probability_le_certain harcs hs ha)
    | pass _ hs _ _ ha ih => exact Score.add_le_certain ih (probability_le_certain harcs hs ha)
    | charge _ hs _ hr ha ih =>
      exact Score.add_le_certain (Score.add_le_certain ih (likelihood_le_certain hrows hr))
        (probability_le_certain harcs hs ha)
  refine ⟨fun t s x h => ?_, fun t s x source p row h _ _ hr => ?_⟩
  · exact Score.lt_infinity_of_le (hwalk t s x h) Score.certain_lt_infinity
  · exact Score.lt_infinity_of_le
      (Score.add_le_certain (hwalk t s x h) (likelihood_le_certain hrows hr))
      Score.certain_lt_infinity

/-- **Where there is a walk there is a best one:** scores have finitely many levels. -/
theorem exists_isBest (hproper : graph.Proper rows) (h : graph.Walk rows t s x) :
    ∃ v, graph.IsBest rows t s v := by
  obtain ⟨m, ⟨v, hv, rfl⟩, hmax⟩ := Int.exists_greatest_of_bdd
    (P := fun m => ∃ y, graph.Walk rows t s y ∧ y.level = m)
    ⟨Score.top, fun m ⟨y, hy, hm⟩ => hm ▸
      (Score.isNumber_of_lt_infinity (hproper.walk _ _ _ hy)).level_le⟩ ⟨x.level, x, h, rfl⟩
  refine ⟨v, hv, fun y hy => Score.le_iff.2 ⟨?_, ?_, hmax _ ⟨y, hy, rfl⟩⟩⟩
  · exact Score.isNumber_of_lt_infinity (hproper.walk _ _ _ hy)
  · exact Score.isNumber_of_lt_infinity (hproper.walk _ _ _ hv)

end SpeechDecoder.Graph

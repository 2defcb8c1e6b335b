import SpeechDecoder.Proofs.Graph.Walk
import SpeechDecoder.Proofs.Score.Greatest

/-!
# What may be heard of a phone

The evidence of the frames of an utterance, without a search: the score with which a path comes to
an emitting state and is charged there (`Heard`), and what it says about a phone in comparison with
the other phones (`Penalties`).

Two kinds of paths are compared: a walk leaves no final state, a `Trail` may leave any state.
-/

namespace SpeechDecoder.Graph

variable (graph : Graph) (rows : Array (Array Score))

/-- **A path of at least one arc that may leave final states too.** -/
inductive Trail : Nat → Nat → Score → Prop
  | first {source : State} {arc : Arc} (hs : graph.state? graph.initial = some source)
      (ha : arc ∈ source.arcs) : Trail 0 arc.target (.certain + arc.probability)
  | pass {t s : Nat} {x : Score} {source : State} {arc : Arc} (h : Trail t s x)
      (hs : graph.state? s = some source) (he : source.kind.isEmitting = false)
      (ha : arc ∈ source.arcs) : Trail t arc.target (x + arc.probability)
  | charge {t s p : Nat} {x : Score} {source : State} {row : Array Score} {arc : Arc}
      (h : Trail t s x) (hs : graph.state? s = some source) (hp : source.kind = .emitting p)
      (hr : rows[t]? = some row) (ha : arc ∈ source.arcs) :
      Trail (t + 1) arc.target (x + AcousticSource.likelihood row p + arc.probability)

/-- **A score with which a phone is heard in a frame.**  In frame 0 it is the phone of the initial
state.  Later a path of the given kind leads to an emitting state of the phone, and is charged there
with the row of the frame. -/
inductive Heard (path : Nat → Nat → Score → Prop) : Nat → Nat → Score → Prop
  | initial {source : State} {p : Nat} (hs : graph.state? graph.initial = some source)
      (hp : source.kind = .emitting p) : Heard path 0 p .certain
  | charged {t s p : Nat} {x : Score} {source : State} {row : Array Score} (h : path t s x)
      (hs : graph.state? s = some source) (hp : source.kind = .emitting p)
      (hr : rows[t]? = some row) : Heard path (t + 1) p (x + AcousticSource.likelihood row p)

/-- **What some frames say about the phones.**  A phone that is heard in a frame stands below the
best phone of the frame by the difference of their greatest scores; the penalty of a phone is its
best standing in the frames in which it is heard. -/
def Penalties (path : Nat → Nat → Score → Prop) (frames : List Nat) (penalty : Nat → Score) : Prop :=
  ∃ (best : Nat → Nat → Score) (top : Nat → Score),
    (∀ u ∈ frames, (∀ p, Score.IsMaximum (graph.Heard rows path u p) (best u p)) ∧
      (∀ q, best u q ≤ top u) ∧ ∃ q, top u = best u q) ∧
    ∀ p, penalty p = Score.greatest
      ((frames.filter fun u => decide (Score.impossible < best u p)).map fun u => best u p - top u)

variable {graph rows}

/-- Where no likelihood is positive, neither is the score of a trail. -/
theorem Trail.le_certain
    (harcs : ∀ source ∈ graph.states.toList, ∀ arc ∈ source.arcs, arc.probability.IsNumber)
    (hrows : ∀ row ∈ rows, ∀ y ∈ row, y ≤ .certain) {t s : Nat} {x : Score}
    (h : graph.Trail rows t s x) : x ≤ .certain := by
  induction h with
  | first hs ha =>
    exact Score.add_le_certain (Score.le_rfl Score.isNumber_certain)
      (probability_le_certain harcs hs ha)
  | pass _ hs _ ha ih => exact Score.add_le_certain ih (probability_le_certain harcs hs ha)
  | charge _ hs _ hr ha ih =>
    exact Score.add_le_certain (Score.add_le_certain ih (likelihood_le_certain hrows hr))
      (probability_le_certain harcs hs ha)

/-- The phones of a graph are counted. -/
theorem lt_phoneCount {s p : Nat} {source : State} (hs : graph.state? s = some source)
    (hp : source.kind = .emitting p) : p < graph.phoneCount := by
  have hle : ∀ (l : List Nat) (n : Nat), n ≤ l.foldl (fun n p => max n (p + 1)) n ∧
      ∀ q ∈ l, q < l.foldl (fun n p => max n (p + 1)) n := by
    intro l
    induction l with
    | nil => exact fun n => ⟨Nat.le_refl n, by simp⟩
    | cons q l ih =>
      intro n
      obtain ⟨hn, hl⟩ := ih (max n (q + 1))
      refine ⟨(Nat.le_max_left _ _).trans hn, fun r hr => ?_⟩
      rcases List.mem_cons.1 hr with rfl | hr
      · exact (Nat.le_max_right n (r + 1)).trans hn
      · exact hl r hr
  refine (hle _ 0).2 p (List.mem_filterMap.2 ⟨source, ?_, by rw [hp]; rfl⟩)
  exact Array.mem_def.1 (Array.mem_of_getElem? hs)

end SpeechDecoder.Graph

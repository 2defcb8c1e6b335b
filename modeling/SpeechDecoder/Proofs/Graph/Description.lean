import SpeechDecoder.Proofs.Graph.Calls
import SpeechDecoder.Proofs.Graph.Json

/-!
# Graphs and their descriptions

A description stands for some calls of a builder: its states with the orders that it names, then all
arcs, then the initial state (`Description.calls`).  The graph of a description is what the builder
makes of them (`ofDescription_eq_build`).

Describing and building are inverse to each other.  A graph is built again from its description, and
the description of a graph is the one that it was built from, without the orders that its kinds have
anyway (`describe_of_ofDescription`).
-/

namespace SpeechDecoder.Graph

/-! ## A description as calls -/

namespace StateDescription

/-- The described state before it gets its arcs. -/
def bare (d : StateDescription) : State := ⟨d.kind, d.order.getD d.kind.order, []⟩

/-- The calls that add a described state, under a number. -/
def stateCalls (d : StateDescription) (s : Nat) : List Call :=
  .addState d.kind :: (d.order.map (.setOrder s)).toList

/-- The calls that add its arcs. -/
def arcCalls (d : StateDescription) (s : Nat) : List Call := d.arcs.map (.addArc s)

/-- The description without an order that is that of the kind. -/
def normal (d : StateDescription) : StateDescription :=
  { d with order := d.order.filter fun o => decide (o ≠ d.kind.order) }

theorem state_normal (d : StateDescription) : d.normal.state = d.state := by
  unfold normal state
  cases h : d.order with
  | none => rfl
  | some o =>
    by_cases ho : o = d.kind.order <;> simp [Option.filter, ho]

/-- A state is described without an order that is that of its kind. -/
theorem override_state (d : StateDescription) : d.state.override = d.normal.order := by
  unfold State.override state normal
  cases h : d.order with
  | none => simp
  | some o =>
    by_cases ho : o = d.kind.order <;> simp [Option.filter, ho]

end StateDescription

namespace Description

/-- **The calls that a description stands for:** all states come before all arcs. -/
def calls (d : Description) : List Call :=
  d.states.zipIdx.flatMap (fun x => x.1.stateCalls x.2) ++
    d.states.zipIdx.flatMap (fun x => x.1.arcCalls x.2) ++ [.setInitial d.initial]

/-- The description without the orders that are those of the kinds. -/
def normal (d : Description) : Description :=
  { d with states := d.states.map StateDescription.normal }

end Description

namespace Builder

theorem modify_append_length (l : List State) (s : State) (rest : List State) (f : State → State) :
    (l ++ s :: rest).modify l.length f = l ++ f s :: rest := by
  induction l with
  | nil => rfl
  | cons t l ih => simp [ih]

/-- A described state is added without its arcs. -/
theorem foldl_stateCalls (d : StateDescription) (l : List State) (initial stray : Option Nat) :
    (d.stateCalls l.length).foldl call ⟨l.toArray, initial, stray⟩ =
      ⟨(l ++ [d.bare]).toArray, initial, stray⟩ := by
  cases ho : d.order with
  | none =>
    simp [StateDescription.stateCalls, StateDescription.bare, ho, call, addState, State.ofKind]
  | some o =>
    simp [StateDescription.stateCalls, StateDescription.bare, ho, call, addState, setOrder,
      State.ofKind, modify_append_length]

/-- The states of a description are added one after the other, by induction on them. -/
theorem foldl_states (initial stray : Option Nat) : ∀ (ds : List StateDescription) (l : List State),
    ((ds.zipIdx l.length).flatMap fun x => x.1.stateCalls x.2).foldl call
        ⟨l.toArray, initial, stray⟩ =
      ⟨(l ++ ds.map StateDescription.bare).toArray, initial, stray⟩
  | [], l => by simp
  | d :: ds, l => by
    have hrest := foldl_states initial stray ds (l ++ [d.bare])
    rw [List.length_append, List.length_singleton] at hrest
    rw [List.zipIdx_cons, List.flatMap_cons, List.foldl_append, foldl_stateCalls, hrest]
    simp

/-- The arcs of a state come after those it has, by induction on them. -/
theorem foldl_arcCalls (l rest : List State) (initial stray : Option Nat) (kind : StateKind)
    (order : Nat) : ∀ (arcs before : List Arc),
    (arcs.map (Call.addArc l.length)).foldl call
        ⟨(l ++ ⟨kind, order, before⟩ :: rest).toArray, initial, stray⟩ =
      ⟨(l ++ ⟨kind, order, before ++ arcs⟩ :: rest).toArray, initial, stray⟩
  | [], before => by simp
  | arc :: arcs, before => by
    have hstep : call ⟨(l ++ ⟨kind, order, before⟩ :: rest).toArray, initial, stray⟩
        (.addArc l.length arc) =
          ⟨(l ++ ⟨kind, order, before ++ [arc]⟩ :: rest).toArray, initial, stray⟩ := by
      simp [call, addArc, modify_append_length]
    have hrest := foldl_arcCalls l rest initial stray kind order arcs (before ++ [arc])
    rw [List.map_cons, List.foldl_cons, hstep, hrest, List.append_assoc]
    rfl

/-- The states of a description get their arcs one after the other, by induction on them. -/
theorem foldl_arcs (initial stray : Option Nat) : ∀ (ds : List StateDescription) (l : List State),
    ((ds.zipIdx l.length).flatMap fun x => x.1.arcCalls x.2).foldl call
        ⟨(l ++ ds.map StateDescription.bare).toArray, initial, stray⟩ =
      ⟨(l ++ ds.map StateDescription.state).toArray, initial, stray⟩
  | [], l => by simp
  | d :: ds, l => by
    have hfirst := foldl_arcCalls l (ds.map StateDescription.bare) initial stray d.kind
      (d.order.getD d.kind.order) d.arcs []
    have hrest := foldl_arcs initial stray ds (l ++ [d.state])
    rw [List.length_append, List.length_singleton, List.append_assoc, List.append_assoc] at hrest
    rw [List.zipIdx_cons, List.flatMap_cons, List.foldl_append, List.map_cons, List.map_cons]
    exact (congrArg (List.foldl call · _) hfirst).trans hrest

/-- **The builder of a description.** -/
theorem after_calls (d : Description) : after d.calls =
    ⟨(d.states.map StateDescription.state).toArray, some d.initial, none⟩ := by
  unfold after Description.calls
  have hstates := foldl_states none none d.states []
  have harcs := foldl_arcs none none d.states []
  simp only [List.nil_append, List.length_nil] at hstates harcs
  rw [List.foldl_append, List.foldl_append]
  unfold empty
  rw [hstates, harcs]
  rfl

end Builder

/-- **A description is built by its calls.** -/
theorem ofDescription_eq_build (d : Description) : ofDescription d = (Builder.after d.calls).build := by
  rw [Builder.after_calls]
  rfl

/-! ## There and back -/

theorem ofDescription_normal (d : Description) : ofDescription d.normal = ofDescription d := by
  have hstates : d.normal.states.map StateDescription.state =
      d.states.map StateDescription.state := by
    unfold Description.normal
    rw [List.map_map]
    exact List.map_congr_left fun s _ => s.state_normal
  unfold ofDescription
  rw [hstates]
  rfl

/-- **A graph is described as it was,** but for the orders that its kinds have anyway. -/
theorem describe_of_ofDescription {d : Description} {g : Graph} (h : ofDescription d = .ok g) :
    g.describe = d.normal := by
  obtain ⟨hi, hs, -⟩ := ofStates_eq_ok_iff.1 h
  unfold describe Description.normal
  rw [hi, hs, List.map_map]
  congr 1
  refine List.map_congr_left fun s _ => ?_
  change (⟨s.kind, s.state.override, s.arcs⟩ : StateDescription) = s.normal
  rw [s.override_state]
  rfl

/-- **Describing and building are inverse to each other.**  A description is built as its calls are.
A graph that was built, however it came about, is built again from its description.  A description
that is accepted is given back with the orders that differ from those of the kinds, and what is given
back is accepted as the same graph. -/
theorem describe_inverse :
    (∀ d, ofDescription d = (Builder.after d.calls).build) ∧
    (∀ calls g, (Builder.after calls).build = .ok g → ofDescription g.describe = .ok g) ∧
    ∀ d g, ofDescription d = .ok g → g.describe = d.normal ∧ ofDescription d.normal = .ok g :=
  ⟨ofDescription_eq_build, fun _ g _ => ofDescription_describe g,
    fun d _ h => ⟨describe_of_ofDescription h, (ofDescription_normal d).trans h⟩⟩

/-- A description that names two orders, one of which the kind has anyway. -/
def spelled : Description where
  initial := 1
  states :=
    [⟨.emitting 3, some 2, [.new 1 .impossible]⟩, ⟨.branch, some 0, [.new 0 .certain]⟩]

/-- The order of the branch is left out. -/
theorem describe_inverse_spelled : ∃ g, ofDescription spelled = .ok g ∧
    g.describe = ⟨1, [⟨.emitting 3, some 2, [.new 1 .impossible]⟩,
      ⟨.branch, none, [.new 0 .certain]⟩]⟩ ∧
    ofDescription g.describe = .ok g := by
  obtain ⟨hbuild, hagain, hthere⟩ := describe_inverse
  obtain ⟨g, hg⟩ : ∃ g, ofDescription spelled = .ok g :=
    ⟨⟨1, (spelled.states.map StateDescription.state).toArray, by decide,
      by unfold State.Sound; decide⟩, ofStates_eq_ok_iff.2 ⟨rfl, rfl, rfl⟩⟩
  exact ⟨g, hg, (hthere _ g hg).1, hagain spelled.calls g (hbuild spelled ▸ hg)⟩

end SpeechDecoder.Graph

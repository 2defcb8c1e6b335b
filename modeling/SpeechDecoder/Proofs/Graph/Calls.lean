import SpeechDecoder.Graph.Builder
import Mathlib

/-!
# What a builder was asked for

A builder takes calls in any order.  What they amount to is read off the list of calls alone: the
states are those that were added, an arc and an order count only if their state was there when they
were named (`Call.dated`), and of several orders, or of several initial states, the last one counts.

* `Call.states`, `Call.strays` and `Call.initials` are what the calls say.
* `Builder.holds_after` says that a builder holds just that, by one step for every kind of call
  (`Builder.Holds.call`).
-/

namespace SpeechDecoder.Graph

/-- **What a builder may be asked for.** -/
inductive Call where
  | addState (kind : StateKind)
  | addArc (source : Nat) (arc : Arc)
  | setInitial (state : Nat)
  | setOrder (state order : Nat)
  deriving DecidableEq

namespace Call

variable (calls : List Call)

/-- The kind of a state that is added. -/
def kind? : Call → Option StateKind
  | addState kind => some kind
  | _ => none

/-- **The kinds of the states that are added,** in their order. -/
def kinds : List StateKind := calls.filterMap kind?

/-- How many states are added. -/
def count : Nat := (kinds calls).length

/-- **The calls, each with the number of states that were there when it was made.** -/
def dated : List (Nat × Call) := calls.zipIdx.map fun (c, i) => (count (calls.take i), c)

/-- The arc that is added to a state which is there. -/
def arc? (s : Nat) : Nat × Call → Option Arc
  | (there, addArc source arc) => if source = s ∧ s < there then some arc else none
  | _ => none

/-- The order that is given to a state which is there. -/
def order? (s : Nat) : Nat × Call → Option Nat
  | (there, setOrder state order) => if state = s ∧ s < there then some order else none
  | _ => none

/-- The source of an arc, if it is not there. -/
def stray? : Nat × Call → Option Nat
  | (there, addArc source _) => if there ≤ source then some source else none
  | _ => none

/-- The state that is chosen as the initial one. -/
def initial? : Call → Option Nat
  | setInitial state => some state
  | _ => none

/-- **The arcs of a state,** in the order in which they were added. -/
def arcs (s : Nat) : List Arc := (dated calls).filterMap (arc? s)

/-- **The orders that a state was given,** one after the other. -/
def orders (s : Nat) : List Nat := (dated calls).filterMap (order? s)

/-- **The sources of arcs that were not there,** in the order in which they were named. -/
def strays : List Nat := (dated calls).filterMap stray?

/-- **The states that were chosen as the initial one,** one after the other. -/
def initials : List Nat := calls.filterMap initial?

/-- **The state with a number,** if it is of that kind: the last order counts, or else that of the
kind. -/
def state (s : Nat) (kind : StateKind) : State :=
  ⟨kind, (orders calls s).getLast?.getD kind.order, arcs calls s⟩

/-- **The states that the calls describe.** -/
def states : List State := (kinds calls).mapIdx (state calls)

/-- The initial state, the first one unless another is chosen. -/
def initial : Nat := (initials calls).getLast?.getD 0

variable {calls} {s : Nat}

theorem kinds_concat (c : Call) : kinds (calls ++ [c]) = kinds calls ++ (kind? c).toList := by
  cases c <;> simp [kinds, kind?]

/-- **One more call** is made when all states before it are there. -/
theorem dated_concat (c : Call) : dated (calls ++ [c]) = dated calls ++ [(count calls, c)] := by
  unfold dated
  rw [List.zipIdx_append, List.map_append]
  congr 1
  · refine List.map_congr_left fun ⟨c', i⟩ hx => ?_
    have hi : i < calls.length := List.snd_lt_of_mem_zipIdx hx
    dsimp only
    rw [List.take_append_of_le_length hi.le]
  · simp

theorem le_count {d : Nat × Call} (hd : d ∈ dated calls) : d.1 ≤ count calls := by
  obtain ⟨x, -, rfl⟩ := List.mem_map.1 hd
  exact ((List.take_sublist x.2 calls).filterMap kind?).length_le

/-- What is given to states that are there is given to one of all states. -/
theorem lt_count_of_mem {α : Type} {f : Nat × Call → Option α} {x : α}
    (hf : ∀ d, f d = some x → s < d.1) (hx : x ∈ (dated calls).filterMap f) : s < count calls := by
  obtain ⟨d, hd, hfd⟩ := List.mem_filterMap.1 hx
  exact (hf d hfd).trans_le (le_count hd)

theorem lt_count_of_mem_arcs {a : Arc} (ha : a ∈ arcs calls s) : s < count calls := by
  refine lt_count_of_mem (fun ⟨there, c⟩ hc => ?_) ha
  cases c with
  | addArc source arc => exact (Option.ite_none_right_eq_some.1 hc).1.2
  | _ => cases hc

theorem lt_count_of_mem_orders {order : Nat} (ho : order ∈ orders calls s) : s < count calls := by
  refine lt_count_of_mem (fun ⟨there, c⟩ hc => ?_) ho
  cases c with
  | setOrder state order => exact (Option.ite_none_right_eq_some.1 hc).1.2
  | _ => cases hc

/-- **Where no arc comes from an unknown state,** every arc is one of its state. -/
theorem mem_arcs_of_strays (h : strays calls = []) {a : Arc} (ha : addArc s a ∈ calls) :
    a ∈ arcs calls s := by
  obtain ⟨i, hi, hget⟩ := List.getElem_of_mem ha
  have hdated : (count (calls.take i), addArc s a) ∈ dated calls := by
    refine List.mem_map.2 ⟨(addArc s a, i), List.mem_zipIdx_iff_getElem?.2 ?_, rfl⟩
    rw [← hget]
    exact List.getElem?_eq_getElem hi
  have hthere : s < count (calls.take i) := by
    by_contra hle
    have hnone := List.filterMap_eq_nil_iff.1 h _ hdated
    simp [stray?, Nat.not_lt.1 hle] at hnone
  exact List.mem_filterMap.2 ⟨_, hdated, if_pos ⟨rfl, hthere⟩⟩

/-- What is read off one more call comes after what is read off the calls before it. -/
theorem filterMap_dated_concat {α : Type} (f : Nat × Call → Option α) (c : Call) :
    (dated (calls ++ [c])).filterMap f =
      (dated calls).filterMap f ++ (f (count calls, c)).toList := by
  rw [dated_concat, List.filterMap_append]
  cases h : f (count calls, c) <;> simp [h]

theorem arcs_concat (c : Call) (s : Nat) :
    arcs (calls ++ [c]) s = arcs calls s ++ (arc? s (count calls, c)).toList :=
  filterMap_dated_concat (arc? s) c

theorem orders_concat (c : Call) (s : Nat) :
    orders (calls ++ [c]) s = orders calls s ++ (order? s (count calls, c)).toList :=
  filterMap_dated_concat (order? s) c

theorem strays_concat (c : Call) :
    strays (calls ++ [c]) = strays calls ++ (stray? (count calls, c)).toList :=
  filterMap_dated_concat stray? c

theorem initials_concat (c : Call) :
    initials (calls ++ [c]) = initials calls ++ (initial? c).toList := by
  cases c <;> simp [initials, initial?]

theorem length_states : (states calls).length = count calls := List.length_mapIdx

theorem getElem?_states (s : Nat) : (states calls)[s]? = (kinds calls)[s]?.map (state calls s) :=
  List.getElem?_mapIdx

/-- A described state has the arcs of its number. -/
theorem arcs_of_getElem? {source : State} (h : (states calls)[s]? = some source) :
    source.arcs = arcs calls s := by
  rw [getElem?_states] at h
  obtain ⟨kind, -, rfl⟩ := Option.map_eq_some_iff.1 h
  rfl

/-- The state with a number, if a call names arcs of it. -/
theorem exists_state {a : Arc} (ha : a ∈ arcs calls s) :
    ∃ source, (states calls)[s]? = some source := by
  have hlt := lt_count_of_mem_arcs ha
  rw [← length_states] at hlt
  exact ⟨_, List.getElem?_eq_getElem hlt⟩

/-- **A state that is added** comes after the others, without arcs and in the order of its kind. -/
theorem states_addState (kind : StateKind) :
    states (calls ++ [addState kind]) = states calls ++ [.ofKind kind] := by
  have harcs : arcs calls (kinds calls).length = [] :=
    List.eq_nil_iff_forall_not_mem.2 fun a ha => lt_irrefl _ (lt_count_of_mem_arcs ha)
  have horders : orders calls (kinds calls).length = [] :=
    List.eq_nil_iff_forall_not_mem.2 fun o ho => lt_irrefl _ (lt_count_of_mem_orders ho)
  have hstate : ∀ s k, state (calls ++ [addState kind]) s k = state calls s k := by
    intro s k
    simp [state, orders_concat, order?, arcs_concat, arc?]
  unfold states
  rw [kinds_concat, funext₂ hstate]
  simp only [kind?, Option.toList_some, List.mapIdx_concat]
  simp [state, harcs, horders, State.ofKind]

/-- **A call that adds no state** changes at most one of them. -/
theorem states_concat {c : Call} (hc : kind? c = none) (s : Nat) (f : State → State)
    (hf : ∀ t kind, t < count calls → state (calls ++ [c]) t kind =
      if s = t then f (state calls t kind) else state calls t kind) :
    states (calls ++ [c]) = (states calls).modify s f := by
  refine List.ext_getElem? fun t => ?_
  rw [List.getElem?_modify, getElem?_states, getElem?_states, kinds_concat, hc,
    Option.toList_none, List.append_nil]
  cases hk : (kinds calls)[t]? with
  | none => rfl
  | some kind =>
    have ht : t < count calls := (List.getElem?_eq_some_iff.1 hk).1
    simp only [Option.map_some, Option.map_eq_map, hf t kind ht]

end Call

namespace Builder

/-- A builder after a call. -/
def call (b : Builder) : Call → Builder
  | .addState kind => b.addState kind
  | .addArc source arc => b.addArc source arc
  | .setInitial state => b.setInitial state
  | .setOrder state order => b.setOrder state order

/-- **The builder after some calls.** -/
def after (calls : List Call) : Builder := calls.foldl call empty

/-- **A builder holds what the calls say.** -/
structure Holds (calls : List Call) (b : Builder) : Prop where
  states : b.states = (Call.states calls).toArray
  initial : b.initial = (Call.initials calls).getLast?
  stray : b.stray = (Call.strays calls).head?

variable {calls : List Call} {b : Builder}

theorem Holds.addState (h : Holds calls b) (kind : StateKind) :
    Holds (calls ++ [.addState kind]) (b.addState kind) where
  states := by
    rw [Call.states_addState, ← List.push_toArray, ← h.states]
    rfl
  initial := by
    rw [Call.initials_concat]
    simpa [Call.initial?, Builder.addState] using h.initial
  stray := by
    rw [Call.strays_concat]
    simpa [Call.stray?, Builder.addState] using h.stray

theorem Holds.addArc (h : Holds calls b) (source : Nat) (arc : Arc) :
    Holds (calls ++ [.addArc source arc]) (b.addArc source arc) := by
  have hsize : b.states.size = Call.count calls := by
    rw [h.states, List.size_toArray, Call.length_states]
  have hstates : Call.states (calls ++ [.addArc source arc]) =
      (Call.states calls).modify source fun s => { s with arcs := s.arcs ++ [arc] } := by
    refine Call.states_concat rfl source _ fun t kind ht => ?_
    by_cases hs : source = t <;> simp [Call.state, Call.orders_concat, Call.order?,
      Call.arcs_concat, Call.arc?, hs, ht]
  have hinitial : Call.initials (calls ++ [.addArc source arc]) = Call.initials calls := by
    rw [Call.initials_concat]
    exact List.append_nil _
  have hstrays : Call.strays (calls ++ [.addArc source arc]) = _ := Call.strays_concat _
  unfold Builder.addArc
  rw [hsize]
  by_cases hin : source < Call.count calls
  · rw [if_pos hin]
    refine ⟨?_, hinitial ▸ h.initial, ?_⟩
    · rw [hstates, ← List.modify_toArray, ← h.states]
    · rw [hstrays]
      simpa [Call.stray?, Nat.not_le.2 hin] using h.stray
  · -- the arc is left out, and its source remembered unless there is one already
    rw [if_neg hin]
    refine ⟨?_, hinitial ▸ h.initial, ?_⟩
    · rw [hstates, List.modify_eq_self (by rw [Call.length_states]; omega)]
      exact h.states
    · rw [hstrays, List.head?_append, ← h.stray]
      simp [Call.stray?, Nat.not_lt.1 hin]

theorem Holds.setInitial (h : Holds calls b) (state : Nat) :
    Holds (calls ++ [.setInitial state]) (b.setInitial state) where
  states := by
    have hstates : Call.states (calls ++ [.setInitial state]) = (Call.states calls).modify 0 id := by
      refine Call.states_concat rfl 0 id fun t kind _ => ?_
      simp [Call.state, Call.orders_concat, Call.order?, Call.arcs_concat, Call.arc?]
    rw [hstates, List.modify_id]
    exact h.states
  initial := by
    rw [Call.initials_concat]
    simp [Builder.setInitial, Call.initial?]
  stray := by
    rw [Call.strays_concat]
    simpa [Call.stray?, Builder.setInitial] using h.stray

theorem Holds.setOrder (h : Holds calls b) (state order : Nat) :
    Holds (calls ++ [.setOrder state order]) (b.setOrder state order) where
  states := by
    have hstates : Call.states (calls ++ [.setOrder state order]) =
        (Call.states calls).modify state fun s => { s with order } := by
      refine Call.states_concat rfl state _ fun t kind ht => ?_
      by_cases hs : state = t <;> simp [Call.state, Call.orders_concat, Call.order?,
        Call.arcs_concat, Call.arc?, hs, ht]
    rw [hstates, ← List.modify_toArray, ← h.states]
    rfl
  initial := by
    rw [Call.initials_concat]
    simpa [Call.initial?, Builder.setOrder] using h.initial
  stray := by
    rw [Call.strays_concat]
    simpa [Call.stray?, Builder.setOrder] using h.stray

/-- **One more call** is held too. -/
theorem Holds.call (h : Holds calls b) (c : Call) : Holds (calls ++ [c]) (b.call c) := by
  cases c with
  | addState kind => exact h.addState kind
  | addArc source arc => exact h.addArc source arc
  | setInitial state => exact h.setInitial state
  | setOrder state order => exact h.setOrder state order

/-- **A builder holds what it was asked for,** by induction on the calls from the last one. -/
theorem holds_after (calls : List Call) : Holds calls (after calls) := by
  induction calls using List.reverseRecOn with
  | nil => exact ⟨rfl, rfl, rfl⟩
  | append_singleton calls c ih =>
    unfold after
    rw [List.foldl_concat]
    exact ih.call c

end Builder

end SpeechDecoder.Graph

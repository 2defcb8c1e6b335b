import SpeechDecoder.Proofs.Graph.Calls
import SpeechDecoder.Proofs.Graph.Heard

/-!
# Which graphs are built

Exactly the calls that describe a closed graph are accepted, and otherwise the first defect is
reported: no states before an unknown initial state, before an arc from an unknown state, before the
defects of the arcs of the first state that has one (`Verdict`, `verdict_build`).  In a graph that was
built nothing is looked up in vain (`Closed`).

* `firstDefect?_eq_some` finds the first defect among states.
* `Call.Flawless` says of the calls alone that there is none.
-/

namespace SpeechDecoder

namespace State

variable {count source : Nat} {s : State} {a : Arc}

theorem defect?_of_target (h : s.arcs.find? (fun a => decide (count ≤ a.target)) = some a) :
    s.defect? count source = some (.unknownTarget source a.target) := by
  unfold defect?
  rw [h]

theorem defect?_of_probability (hin : ∀ a ∈ s.arcs, a.target < count)
    (h : s.arcs.find? (fun a => decide (Score.certain < a.probability)) = some a) :
    s.defect? count source = some (.positiveProbability source a.target a.probability) := by
  have hnone : s.arcs.find? (fun a => decide (count ≤ a.target)) = none :=
    List.find?_eq_none.2 fun a ha => by simpa using hin a ha
  unfold defect?
  rw [hnone, h]

end State

namespace Graph

/-- **The first defect among states** is the defect of the first state that has one. -/
theorem firstDefect?_eq_some {states : Array State} {s : Nat} {source : State} {e : GraphError}
    (hs : states[s]? = some source)
    (hbefore : ∀ t < s, ∀ other, states[t]? = some other → other.Sound states.size)
    (h : source.defect? states.size s = some e) : firstDefect? states = some e := by
  have hlen : s < states.toList.zipIdx.length := by
    simpa using (Array.getElem?_eq_some_iff.1 hs).1
  have hsplit : states.toList.zipIdx =
      states.toList.zipIdx.take s ++ (source, s) :: states.toList.zipIdx.drop (s + 1) := by
    have hget : states.toList.zipIdx[s] = (source, s) := by
      have hsource := (Array.getElem?_eq_some_iff.1 hs).2
      simp [hsource]
    rw [← hget, List.getElem_cons_drop, List.take_append_drop]
  refine List.findSome?_eq_some_iff.2 ⟨_, _, _, hsplit, h, ?_⟩
  rintro ⟨other, t⟩ hin
  obtain ⟨i, hi, heq⟩ := List.getElem_of_mem hin
  rw [List.getElem_take, List.getElem_zipIdx, Nat.zero_add] at heq
  obtain ⟨rfl, rfl⟩ := Prod.mk.inj heq
  have hlt : i < s := by
    rw [List.length_take] at hi
    omega
  exact State.defect?_eq_none_iff.2 (hbefore i hlt _ (Array.getElem?_eq_getElem _))

/-- **Every lookup from the initial state on succeeds,** and every phone has its place in the
inventory. -/
structure Closed (g : Graph) : Prop where
  initial : ∃ source, g.state? g.initial = some source
  successor : ∀ s source, g.state? s = some source → ∀ a ∈ source.arcs,
    ∃ target, g.state? a.target = some target
  phone : ∀ s source p, g.state? s = some source → source.kind = .emitting p → p < g.phoneCount

theorem closed (g : Graph) : g.Closed where
  initial := ⟨_, Array.getElem?_eq_getElem g.initial_lt⟩
  successor := fun s source hs a ha => by
    have hmem : source ∈ g.states.toList := Array.mem_def.1 (Array.mem_of_getElem? hs)
    exact ⟨_, Array.getElem?_eq_getElem (g.sound source hmem a ha).1⟩
  phone := fun _ _ _ hs hp => lt_phoneCount hs hp

namespace Call

variable (calls : List Call)

/-- **A defective arc:** its target is not there, or it would raise a score. -/
def Defective (a : Arc) : Prop := count calls ≤ a.target ∨ Score.certain < a.probability

instance (a : Arc) : Decidable (Defective calls a) := inferInstanceAs (Decidable (_ ∨ _))

/-- **The calls describe a closed graph.** -/
structure Flawless : Prop where
  initial : initial calls < count calls
  sources : strays calls = []
  arcs : ∀ s, ∀ a ∈ arcs calls s, ¬ Defective calls a

variable {calls} {s : Nat} {source : State}

/-- A described state is sound if its arcs have no defect. -/
theorem sound_of_not_defective (hs : (states calls)[s]? = some source)
    (h : ∀ a ∈ arcs calls s, ¬ Defective calls a) : source.Sound (count calls) := by
  intro a ha
  rw [arcs_of_getElem? hs] at ha
  exact ⟨Nat.not_le.1 fun hle => h a ha (.inl hle), fun hlt => h a ha (.inr hlt)⟩

theorem not_defective_of_sound (hs : (states calls)[s]? = some source)
    (h : source.Sound (count calls)) : ∀ a ∈ arcs calls s, ¬ Defective calls a := by
  rw [← arcs_of_getElem? hs]
  rintro a ha (hle | hlt)
  · exact Nat.not_le.2 (h a ha).1 hle
  · exact (h a ha).2 hlt

theorem size_states : (states calls).toArray.size = count calls := by
  rw [List.size_toArray, length_states]

theorem isEmpty_states (h : 0 < count calls) : (states calls).toArray.isEmpty = false := by
  rw [Array.isEmpty_eq_false_iff, ← Array.size_pos_iff, size_states]
  exact h

theorem build_after (calls : List Call) : (Builder.after calls).build =
    ofStates (initial calls) (strays calls).head? (states calls).toArray := by
  have h := Builder.holds_after calls
  unfold Builder.build initial
  rw [h.initial, h.stray, h.states]

/-- Where there is an initial state and no stray arc, the first defect of the states counts. -/
theorem build_of_defect {e : GraphError} (hi : initial calls < count calls)
    (hstrays : strays calls = []) (hs : (states calls)[s]? = some source)
    (hbefore : ∀ t < s, ∀ a ∈ arcs calls t, ¬ Defective calls a)
    (h : source.defect? (count calls) s = some e) : (Builder.after calls).build = .error e := by
  have hfirst : firstDefect? (states calls).toArray = some e := by
    refine firstDefect?_eq_some (by simpa using hs) (fun t ht other hother => ?_)
      (by rwa [size_states])
    rw [size_states]
    exact sound_of_not_defective (by simpa using hother) (hbefore t ht)
  rw [build_after, hstrays]
  unfold ofStates
  rw [isEmpty_states (Nat.zero_lt_of_lt hi), if_neg Bool.false_ne_true,
    dif_pos (by rwa [size_states])]
  dsimp only [List.head?_nil]
  split
  · next e' he =>
    rw [hfirst] at he
    rw [Option.some.inj he]
  · next he =>
    rw [hfirst] at he
    cases he

/-- **Only closed graphs are built,** -/
theorem flawless_of_build {g : Graph} (h : (Builder.after calls).build = .ok g) :
    Flawless calls := by
  obtain ⟨hi, hstates, hstrays⟩ := ofStates_eq_ok_iff.1 (build_after calls ▸ h)
  have hsize : g.states.size = count calls := by rw [hstates, size_states]
  refine ⟨?_, List.head?_eq_none_iff.1 hstrays, fun s a ha => ?_⟩
  · rw [← hi, ← hsize]
    exact g.initial_lt
  · obtain ⟨source, hs⟩ := exists_state ha
    refine not_defective_of_sound hs ?_ a ha
    rw [← hsize]
    exact g.sound source (by rw [hstates]; exact List.mem_of_getElem? hs)

/-- **and all of them are.** -/
theorem build_of_flawless (h : Flawless calls) : ∃ g : Graph,
    (Builder.after calls).build = .ok g ∧ g.initial = initial calls ∧
      g.states.toList = states calls := by
  have hsound : ∀ source ∈ (states calls).toArray.toList,
      source.Sound (states calls).toArray.size := by
    intro source hsource
    obtain ⟨s, hs⟩ := List.mem_iff_getElem?.1 hsource
    rw [size_states]
    exact sound_of_not_defective hs (h.arcs s)
  refine ⟨⟨initial calls, (states calls).toArray, size_states ▸ h.initial, hsound⟩, ?_, rfl, rfl⟩
  rw [build_after, h.sources]
  exact ofStates_eq_ok_iff.2 ⟨rfl, rfl, rfl⟩

/-- **What becomes of some calls,** the earlier cases first. -/
structure Verdict (calls : List Call) (result : Except GraphError Graph) : Prop where
  noStates : kinds calls = [] → result = .error .noStates
  unknownInitial : kinds calls ≠ [] → count calls ≤ initial calls →
    result = .error (.unknownInitial (initial calls))
  unknownSource : initial calls < count calls → ∀ source, (strays calls).head? = some source →
    result = .error (.unknownSource source)
  /-- The first state with a defective arc has one whose target is not there. -/
  unknownTarget : initial calls < count calls → strays calls = [] →
    ∀ s a, (∀ t < s, ∀ b ∈ arcs calls t, ¬ Defective calls b) →
      (arcs calls s).find? (fun b => decide (count calls ≤ b.target)) = some a →
      result = .error (.unknownTarget s a.target)
  /-- The first state with a defective arc has none of that kind. -/
  positiveProbability : initial calls < count calls → strays calls = [] →
    ∀ s a, (∀ t < s, ∀ b ∈ arcs calls t, ¬ Defective calls b) →
      (∀ b ∈ arcs calls s, b.target < count calls) →
      (arcs calls s).find? (fun b => decide (Score.certain < b.probability)) = some a →
      result = .error (.positiveProbability s a.target a.probability)
  built : Flawless calls → ∃ g : Graph, result = .ok g ∧ g.initial = initial calls ∧
    g.states.toList = states calls ∧ g.Closed
  flawless : ∀ g, result = .ok g → Flawless calls

/-- **Exactly the closed graphs are built, and of any other calls the first defect is reported.** -/
theorem verdict_build (calls : List Call) : Verdict calls (Builder.after calls).build where
  noStates := fun h => by
    have hstates : states calls = [] := by simp [states, h]
    rw [build_after, hstates]
    rfl
  unknownInitial := fun h hi => by
    rw [build_after]
    unfold ofStates
    rw [isEmpty_states (List.length_pos_iff.2 h), if_neg Bool.false_ne_true,
      dif_neg (by rw [size_states]; exact Nat.not_lt.2 hi)]
  unknownSource := fun hi source hs => by
    rw [build_after, hs]
    unfold ofStates
    rw [isEmpty_states (Nat.zero_lt_of_lt hi), if_neg Bool.false_ne_true,
      dif_pos (by rwa [size_states])]
  unknownTarget := fun hi hstrays s a hbefore ha => by
    obtain ⟨source, hs⟩ := exists_state (List.mem_of_find?_eq_some ha)
    rw [← arcs_of_getElem? hs] at ha
    exact build_of_defect hi hstrays hs hbefore (State.defect?_of_target ha)
  positiveProbability := fun hi hstrays s a hbefore hin ha => by
    obtain ⟨source, hs⟩ := exists_state (List.mem_of_find?_eq_some ha)
    rw [← arcs_of_getElem? hs] at hin ha
    exact build_of_defect hi hstrays hs hbefore (State.defect?_of_probability hin ha)
  built := fun h => by
    obtain ⟨g, hg, hi, hs⟩ := build_of_flawless h
    exact ⟨g, hg, hi, hs, g.closed⟩
  flawless := fun _ => flawless_of_build

/-- Two states, the second of which has an arc of either defect. -/
def tangle : List Call :=
  [.addState .branch, .addState (.emitting 3), .addArc 1 (.new 0 (Float32.ofBits 0x3F800000)),
    .addArc 0 (.new 1 .certain), .addArc 1 (.new 9 .certain), .setOrder 1 2, .setInitial 1]

/-- The unknown target is reported, though the positive probability came first; and an unknown source
before both. -/
theorem verdict_build_tangle :
    (Builder.after tangle).build = .error (.unknownTarget 1 9) ∧
      (Builder.after (.addArc 7 (.new 0 .certain) :: tangle)).build = .error (.unknownSource 7) :=
  ⟨(verdict_build tangle).unknownTarget (by decide) (by decide) 1 (.new 9 .certain) (by decide)
      (by decide),
    (verdict_build (.addArc 7 (.new 0 .certain) :: tangle)).unknownSource (by decide) 7 (by decide)⟩

end Call

end Graph

end SpeechDecoder

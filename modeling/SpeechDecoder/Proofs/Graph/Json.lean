import SpeechDecoder.Graph.Text
import SpeechDecoder.Proofs.Decimal.ReadBack
import SpeechDecoder.Proofs.Json.Text

/-!
# Graphs are read back from JSON

The JSON text of a graph is read back as the graph, whose arcs then have their scores bit for bit,
as long as all its scores are finite (`ofText_toText`).  A score that is not finite is written as
null, which no reader of a score accepts: such a text describes no graph (`ofText_toText_error`).

* `Fits` bounds the numbers of a graph by the machine words that hold them.
* `Description.ofJson?_toJson` reads a description back from its value.
-/

namespace SpeechDecoder

open Decimal

/-- **An arc with finite scores.** -/
def Arc.IsFinite (a : Arc) : Prop :=
  a.acoustic.isFinite = true ∧ a.insertion.isFinite = true ∧ a.language.isFinite = true

instance (a : Arc) : Decidable a.IsFinite := inferInstanceAs (Decidable (_ ∧ _))

theorem mapM_map_eq_some {α β : Type} {f : α → β} {g : β → Option α} {xs : List α}
    (h : ∀ x ∈ xs, g (f x) = some x) : (xs.map f).mapM g = some xs := by
  induction xs with
  | nil => rfl
  | cons x xs ih =>
    rw [List.map_cons, List.mapM_cons, h x (List.mem_cons_self ..),
      ih fun y hy => h y (List.mem_cons_of_mem _ hy)]
    rfl

theorem mapM_map_eq_none {α β γ : Type} {f : α → β} {g : β → Option γ} {xs : List α}
    {x : α} (hx : x ∈ xs) (h : g (f x) = none) : (xs.map f).mapM g = none := by
  induction xs with
  | nil => cases hx
  | cons y ys ih =>
    rw [List.map_cons, List.mapM_cons]
    rcases List.mem_cons.1 hx with rfl | hx
    · rw [h]
      rfl
    · rw [ih hx]
      cases g (f y) <;> rfl

namespace Graph

namespace Description

/-! ## The parts of a description -/

theorem natBelow?_int {n bound : Nat} (h : n < bound) : (Json.int n).natBelow? bound = some n := by
  have hint : (Numeral.ofInt n).int? = some (n : Int) := by
    have hneg : decide ((n : Int) < 0) = false := by simp
    simp only [Numeral.ofInt, Numeral.int?, hneg, ofDigits_digits, Int.natAbs_natCast,
      Option.isSome_none, Bool.or_self, Bool.false_eq_true, if_false]
  simp only [Json.int, Json.natBelow?, Numeral.natBelow?, hint]
  exact if_pos h

/-- The numbers of a kind fit the machine words that hold them. -/
def KindFits : StateKind → Prop
  | .emitting p => p < phoneBound
  | .word w => w < wordBound
  | _ => True

theorem kindOfJson?_kindToJson {k : StateKind} (hk : KindFits k) :
    kindOfJson? (kindToJson k) = some k := by
  cases k with
  | emitting p =>
    simp [kindOfJson?, kindToJson, Json.case?, Json.record, Json.fields?, Json.member?,
      natBelow?_int hk]
  | branch => rfl
  | phoneBoundary => rfl
  | word w =>
    simp [kindOfJson?, kindToJson, nonEmittingOfJson?, Json.case?, Json.record, natBelow?_int hk]
  | endOfUnit => rfl
  | final => rfl

/-- **A score is read back if it is finite,** and is refused if it is not. -/
theorem score?_scoreToJson (x : Score) :
    (scoreToJson x).score? = if x.isFinite then some x else none := by
  have hsome := scoreLayout.isSome_numeral? x
  unfold scoreToJson
  cases hn : scoreLayout.numeral? x with
  | none =>
    rw [hn] at hsome
    rw [← hsome]
    rfl
  | some n =>
    rw [hn] at hsome
    rw [← hsome]
    exact Layout.score?_numeral? hn

theorem arcOfJson?_arcToJson_eq (a : Arc) : arcOfJson? (arcToJson a) = do
    return ⟨← (Json.int a.target).natBelow? wordBound, ← (scoreToJson a.acoustic).score?,
      ← (scoreToJson a.insertion).score?, ← (scoreToJson a.language).score?⟩ := by
  simp [arcOfJson?, arcToJson, Json.fields?, Json.record, Json.member?, scoreOfJson?]

theorem arcOfJson?_arcToJson {a : Arc} (ht : a.target < wordBound) (ha : a.IsFinite) :
    arcOfJson? (arcToJson a) = some a := by
  obtain ⟨hac, hin, hla⟩ := ha
  rw [arcOfJson?_arcToJson_eq, natBelow?_int ht, score?_scoreToJson, score?_scoreToJson,
    score?_scoreToJson, if_pos hac, if_pos hin, if_pos hla]
  rfl

theorem arcOfJson?_arcToJson_none {a : Arc} (ha : ¬ a.IsFinite) :
    arcOfJson? (arcToJson a) = none := by
  rw [arcOfJson?_arcToJson_eq]
  simp only [score?_scoreToJson]
  cases (Json.int a.target).natBelow? wordBound with
  | none => rfl
  | some t =>
    unfold Arc.IsFinite at ha
    split_ifs with hac hin hla
    · exact absurd ⟨hac, hin, hla⟩ ha
    all_goals rfl

theorem stateOfJson?_stateToJson_eq (s : StateDescription) : stateOfJson? (stateToJson s) = do
    return ⟨← kindOfJson? (kindToJson s.kind), ← orderOfJson? (s.order.map fun o => Json.int o),
      ← (s.arcs.map arcToJson).mapM arcOfJson?⟩ := by
  cases h : s.order <;>
    simp [stateOfJson?, stateToJson, Json.fields?, Json.record, Json.member?, arcsOfJson?, h,
      Json.items?]

/-- The numbers of a described state fit the machine words that hold them. -/
structure StateFits (s : StateDescription) : Prop where
  kind : KindFits s.kind
  order : ∀ o, s.order = some o → o < wordBound
  arcs : ∀ a ∈ s.arcs, a.target < wordBound

theorem stateOfJson?_stateToJson {s : StateDescription} (hs : StateFits s)
    (hf : ∀ a ∈ s.arcs, a.IsFinite) : stateOfJson? (stateToJson s) = some s := by
  have horder : orderOfJson? (s.order.map fun o => Json.int o) = some s.order := by
    cases ho : s.order with
    | none => rfl
    | some o =>
      change ((Json.int o).natBelow? wordBound).map some = _
      rw [natBelow?_int (hs.order o ho)]
      rfl
  rw [stateOfJson?_stateToJson_eq, kindOfJson?_kindToJson hs.kind, horder,
    mapM_map_eq_some fun a ha => arcOfJson?_arcToJson (hs.arcs a ha) (hf a ha)]
  rfl

theorem stateOfJson?_stateToJson_none {s : StateDescription} {a : Arc} (ha : a ∈ s.arcs)
    (hf : ¬ a.IsFinite) : stateOfJson? (stateToJson s) = none := by
  rw [stateOfJson?_stateToJson_eq, mapM_map_eq_none ha (arcOfJson?_arcToJson_none hf)]
  cases kindOfJson? (kindToJson s.kind) with
  | none => rfl
  | some k => cases orderOfJson? (s.order.map fun o => Json.int o) <;> rfl

/-! ## Descriptions -/

theorem ofJson?_toJson_eq (d : Description) : ofJson? d.toJson = do
    return ⟨← (Json.int d.initial).natBelow? wordBound,
      ← (d.states.map stateToJson).mapM stateOfJson?⟩ := by
  simp [ofJson?, toJson, Json.fields?, Json.record, Json.member?, Json.items?]

/-- **A description is read back from its value,** if all its scores are finite. -/
theorem ofJson?_toJson {d : Description} (hi : d.initial < wordBound)
    (hs : ∀ s ∈ d.states, StateFits s) (hf : ∀ s ∈ d.states, ∀ a ∈ s.arcs, a.IsFinite) :
    ofJson? d.toJson = some d := by
  rw [ofJson?_toJson_eq, natBelow?_int hi,
    mapM_map_eq_some fun s hm => stateOfJson?_stateToJson (hs s hm) (hf s hm)]
  rfl

/-- The value of a description with another score describes nothing. -/
theorem ofJson?_toJson_none {d : Description} {s : StateDescription} (hs : s ∈ d.states) {a : Arc}
    (ha : a ∈ s.arcs) (hf : ¬ a.IsFinite) : ofJson? d.toJson = none := by
  rw [ofJson?_toJson_eq, mapM_map_eq_none hs (stateOfJson?_stateToJson_none ha hf)]
  cases (Json.int d.initial).natBelow? wordBound <;> rfl

/-! ## Their texts -/

theorem proper_record {members : List (String × Json)} (h : ∀ m ∈ members, m.2.Proper) :
    (Json.record members).Proper := by
  refine .object ?_ ?_
  · intro m hm
    obtain ⟨m, -, rfl⟩ := List.mem_map.1 hm
    rfl
  · intro m hm
    obtain ⟨m', hm', rfl⟩ := List.mem_map.1 hm
    exact h m' hm'

theorem proper_int (i : Int) : (Json.int i).Proper := .number (Numeral.proper_ofInt i)

theorem proper_scoreToJson (x : Score) : (scoreToJson x).Proper := by
  unfold scoreToJson
  split
  · next n hn => exact .number (Layout.proper_numeral? hn)
  · exact .null

theorem proper_kindToJson (k : StateKind) : (kindToJson k).Proper := by
  have hcase : ∀ (name : String) (v : Json), v.Proper → (Json.record [(name, v)]).Proper :=
    fun name v hv => proper_record (by simpa using hv)
  cases k with
  | emitting p => exact hcase _ _ (hcase _ _ (proper_int p))
  | branch => exact hcase _ _ (.text _)
  | phoneBoundary => exact hcase _ _ (.text _)
  | word w => exact hcase _ _ (hcase _ _ (proper_int w))
  | endOfUnit => exact hcase _ _ (.text _)
  | final => exact .text _

theorem proper_stateToJson (s : StateDescription) : (stateToJson s).Proper := by
  have harcs : (Json.array (s.arcs.map arcToJson)).Proper := by
    refine .array fun v hv => ?_
    obtain ⟨a, -, rfl⟩ := List.mem_map.1 hv
    exact proper_record (by simp [proper_int, proper_scoreToJson])
  have hkind := proper_kindToJson s.kind
  unfold stateToJson
  cases s.order with
  | none => exact proper_record (by simp [hkind, harcs])
  | some o => exact proper_record (by simp [hkind, harcs, proper_int])

/-- **A description has a text of its own.** -/
theorem proper_toJson (d : Description) : d.toJson.Proper := by
  have hstates : (Json.array (d.states.map stateToJson)).Proper := by
    refine .array fun v hv => ?_
    obtain ⟨s, -, rfl⟩ := List.mem_map.1 hv
    exact proper_stateToJson s
  exact proper_record (by simp [proper_int, hstates])

end Description

/-! ## Graphs -/

/-- The state that a state is described as. -/
theorem state_describe (s : State) :
    StateDescription.state ⟨s.kind, s.override, s.arcs⟩ = s := by
  unfold StateDescription.state State.override
  split_ifs with h
  · rw [Option.getD_none, ← h]
  · rfl

/-- **A graph is built again from its description.** -/
theorem ofDescription_describe (g : Graph) : ofDescription g.describe = .ok g := by
  refine ofStates_eq_ok_iff.2 ⟨rfl, ?_, rfl⟩
  have hstates : (g.describe.states.map StateDescription.state) = g.states.toList := by
    unfold describe
    rw [List.map_map]
    exact (List.map_congr_left fun s _ => state_describe s).trans (List.map_id _)
  rw [hstates, Array.toArray_toList]

/-- **The numbers of a graph fit the machine words that hold them.** -/
structure Fits (g : Graph) : Prop where
  size : g.size ≤ wordBound
  kind : ∀ s ∈ g.states.toList, Description.KindFits s.kind
  order : ∀ s ∈ g.states.toList, s.order < wordBound

/-- **A graph with finite scores.** -/
def IsFinite (g : Graph) : Prop := ∀ s ∈ g.states.toList, ∀ a ∈ s.arcs, a.IsFinite

instance (g : Graph) : Decidable g.IsFinite := inferInstanceAs (Decidable (∀ _ ∈ _, _))

theorem Fits.state {g : Graph} (hg : g.Fits) {s : State} (hs : s ∈ g.states.toList) :
    Description.StateFits ⟨s.kind, s.override, s.arcs⟩ where
  kind := hg.kind s hs
  order := by
    intro o ho
    simp only [State.override] at ho
    split_ifs at ho
    cases ho
    exact hg.order s hs
  arcs := fun a ha => (g.sound s hs a ha).1.trans_le hg.size

theorem describe?_toText (g : Graph) :
    TextFormat.describe? .json g.toText = Description.ofJson? g.describe.toJson := by
  change (Json.parse? g.describe.toJson.pretty).bind Description.ofJson? = _
  rw [Json.parse?_pretty (Description.proper_toJson _), Option.bind_some]

/-- **A graph is read back from its text,** if all its scores are finite. -/
theorem ofText_toText {g : Graph} (hg : g.Fits) (hf : g.IsFinite) :
    ofText .json g.toText = .ok g := by
  have hread : Description.ofJson? g.describe.toJson = some g.describe := by
    refine Description.ofJson?_toJson (g.initial_lt.trans_le hg.size) ?_ ?_
    · intro d hd
      obtain ⟨s, hs, rfl⟩ := List.mem_map.1 hd
      exact hg.state hs
    · intro d hd
      obtain ⟨s, hs, rfl⟩ := List.mem_map.1 hd
      exact hf s hs
  unfold ofText
  rw [describe?_toText, hread]
  change (ofDescription g.describe).mapError _ = _
  rw [ofDescription_describe]
  rfl

/-- **The text of a graph with another score describes no graph.** -/
theorem ofText_toText_error {g : Graph} (hf : ¬ g.IsFinite) :
    ofText .json g.toText = .error (.malformed .json) := by
  unfold IsFinite at hf
  push Not at hf
  obtain ⟨s, hs, a, ha, hf⟩ := hf
  unfold ofText
  rw [describe?_toText, Description.ofJson?_toJson_none (List.mem_map_of_mem hs) ha hf]

end Graph

end SpeechDecoder

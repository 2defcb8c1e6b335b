import SpeechDecoder.Proofs.Graph.Description
import SpeechDecoder.Proofs.Graph.Verdict
import SpeechDecoder.Proofs.Score.Cancellation

/-!
# Arcs that raise no score

Best first search is exact as long as no arc raises a score.  A graph is refused for an arc with a
positive probability, which says nothing about a probability that is not a number: an arc is accepted
also if its fields do not add up (`Arc.AddsUp`).

* `Arc.Lowers` says what an accepted arc does to a score: it raises none, and leaves a number unless
  its fields do not add up or it leads from positive infinity to the impossible score.
* A `Source` of a graph, be it calls, a description or a text, amounts to some calls of a builder
  (`Source.graph?_eq`).
* `lowers_of_accepted` says that every arc of an accepted graph lowers scores, and that nothing else is
  asked of the probabilities.
-/

namespace SpeechDecoder

namespace Arc

variable {a : Arc}

/-- **The fields of an arc add up:** they are numbers, and no opposite infinities meet where they are
summed from left to right. -/
structure AddsUp (a : Arc) : Prop where
  acoustic : a.acoustic.IsNumber
  insertion : a.insertion.IsNumber
  language : a.language.IsNumber
  first : ¬ Score.Opposite a.acoustic a.insertion
  second : ¬ Score.Opposite (a.acoustic + a.insertion) a.language

theorem isNumber_probability_iff : a.probability.IsNumber ↔ a.AddsUp := by
  unfold probability
  rw [Score.isNumber_add_iff, Score.isNumber_add_iff]
  exact ⟨fun ⟨⟨hac, hin, h1⟩, hla, h2⟩ => ⟨hac, hin, hla, h1, h2⟩,
    fun h => ⟨⟨h.acoustic, h.insertion, h.first⟩, h.language, h.second⟩⟩

/-- **What an arc does to scores that follow it.**  The sum with a score that can be compared can be
compared in turn, with two exceptions, and is never above the score. -/
structure Lowers (a : Arc) : Prop where
  le_certain_iff : a.probability ≤ .certain ↔ a.AddsUp
  comparable : ∀ x : Score, x.IsNumber → ((x + a.probability).IsNumber ↔
    a.AddsUp ∧ ¬ (x = .infinity ∧ a.probability = .impossible))
  le_self : ∀ x : Score, (x + a.probability).IsNumber → x + a.probability ≤ x

/-- **An arc without a positive probability raises no score.** -/
theorem lowers_of_not_lt (h : ¬ Score.certain < a.probability) : a.Lowers where
  le_certain_iff := by
    refine ⟨fun hle => isNumber_probability_iff.1 (Score.le_iff.1 hle).1, fun hadd => ?_⟩
    exact Score.le_of_not_lt (isNumber_probability_iff.2 hadd) Score.isNumber_certain h
  comparable := fun x hx => by
    rw [Score.isNumber_add_iff, isNumber_probability_iff]
    refine ⟨fun ⟨_, hadd, hno⟩ => ⟨hadd, fun heq => hno (.inl heq)⟩,
      fun ⟨hadd, hno⟩ => ⟨hx, hadd, ?_⟩⟩
    rintro (heq | ⟨-, hp⟩)
    · exact hno heq
    · rw [hp] at h
      exact h (by decide)
  le_self := fun _ hsum => Score.add_le_self h hsum

/-- The check of a probability tells nothing where the fields do not add up. -/
theorem not_lt_probability_iff :
    ¬ Score.certain < a.probability ↔ (a.AddsUp → a.probability ≤ .certain) := by
  refine ⟨fun h => (lowers_of_not_lt h).le_certain_iff.2, fun h hlt => ?_⟩
  have hadd := isNumber_probability_iff.1 (Score.lt_iff.1 hlt).2.1
  exact Score.not_lt_of_le (h hadd) hlt

end Arc

namespace Graph

variable {calls : List Call} {g : Graph}

/-! ## Sources of graphs -/

/-- **How a graph is given.** -/
inductive Source where
  | builder (calls : List Call)
  | description (d : Description)
  | text (format : TextFormat) (content : String)

namespace Source

/-- **The graph, if it is accepted.** -/
def graph? : Source → Option Graph
  | .builder calls => (Builder.after calls).build.toOption
  | .description d => (ofDescription d).toOption
  | .text format content => (ofText format content).toOption

/-- **The calls that a source amounts to,** unless it is a text that describes nothing. -/
def calls? : Source → Option (List Call)
  | .builder calls => some calls
  | .description d => some d.calls
  | .text format content => (format.describe? content).map Description.calls

/-- **Every graph is built by calls.** -/
theorem graph?_eq (source : Source) :
    source.graph? = source.calls?.bind fun calls => (Builder.after calls).build.toOption := by
  cases source with
  | builder calls => rfl
  | description d => exact congrArg Except.toOption (ofDescription_eq_build d)
  | text format content =>
    simp only [graph?, calls?, ofText]
    cases format.describe? content with
    | none => rfl
    | some d =>
      simp only [Option.map_some, Option.bind_some, ← ofDescription_eq_build]
      cases ofDescription d <;> rfl

theorem graph?_eq_some_iff {source : Source} : source.graph? = some g ↔
    ∃ calls, source.calls? = some calls ∧ (Builder.after calls).build = .ok g := by
  rw [graph?_eq, Option.bind_eq_some_iff]
  refine exists_congr fun calls => and_congr_right fun _ => ?_
  cases (Builder.after calls).build <;> simp [Except.toOption]

end Source

/-! ## Accepted arcs -/

/-- **What is asked of calls.** -/
theorem exists_build_iff : (∃ g, (Builder.after calls).build = .ok g) ↔
    Call.initial calls < Call.count calls ∧ Call.strays calls = [] ∧
      ∀ s, ∀ a ∈ Call.arcs calls s,
        a.target < Call.count calls ∧ (a.AddsUp → a.probability ≤ .certain) := by
  have harc : ∀ a, ¬ Call.Defective calls a ↔
      a.target < Call.count calls ∧ (a.AddsUp → a.probability ≤ .certain) := fun a => by
    rw [← Arc.not_lt_probability_iff, ← Nat.not_le, ← not_or]
    rfl
  simp only [← harc]
  constructor
  · rintro ⟨g, hg⟩
    have hflawless := Call.flawless_of_build hg
    exact ⟨hflawless.initial, hflawless.sources, hflawless.arcs⟩
  · rintro ⟨hi, hs, ha⟩
    obtain ⟨g, hg, -⟩ := Call.build_of_flawless ⟨hi, hs, ha⟩
    exact ⟨g, hg⟩

theorem lowers_of_build (h : (Builder.after calls).build = .ok g) {s : Nat} {a : Arc}
    (ha : .addArc s a ∈ calls) : a.Lowers := by
  have hflawless := Call.flawless_of_build h
  have hin := Call.mem_arcs_of_strays hflawless.sources ha
  exact Arc.lowers_of_not_lt fun hlt => hflawless.arcs s a hin (.inr hlt)

theorem lowers_of_state? {s : Nat} {source : State} (hs : g.state? s = some source) {a : Arc}
    (ha : a ∈ source.arcs) : a.Lowers := by
  have hmem : source ∈ g.states.toList := Array.mem_def.1 (Array.mem_of_getElem? hs)
  exact Arc.lowers_of_not_lt (g.sound source hmem a ha).2

/-- **No graph is accepted with an arc that raises a score.**  A source is accepted if the graph is
closed and every arc whose fields add up has at most the probability of a certain one.  So every arc
that was given, and every arc of the graph, leads to no higher score. -/
theorem lowers_of_accepted (source : Source) :
    ((∃ g, source.graph? = some g) ↔ ∃ calls, source.calls? = some calls ∧
      Call.initial calls < Call.count calls ∧ Call.strays calls = [] ∧
        ∀ s, ∀ a ∈ Call.arcs calls s,
          a.target < Call.count calls ∧ (a.AddsUp → a.probability ≤ .certain)) ∧
    ∀ g, source.graph? = some g →
      (∀ calls, source.calls? = some calls → ∀ s a, .addArc s a ∈ calls → a.Lowers) ∧
      ∀ s state, g.state? s = some state → ∀ a ∈ state.arcs, a.Lowers := by
  refine ⟨?_, fun g hg => ⟨fun calls hcalls s a ha => ?_, fun s state hs a ha => ?_⟩⟩
  · simp only [Source.graph?_eq_some_iff, ← exists_build_iff]
    exact ⟨fun ⟨g, calls, hcalls, hg⟩ => ⟨calls, hcalls, g, hg⟩,
      fun ⟨calls, hcalls, g, hg⟩ => ⟨g, calls, hcalls, hg⟩⟩
  · obtain ⟨calls', hcalls', hbuild⟩ := Source.graph?_eq_some_iff.1 hg
    obtain rfl := Option.some.inj (hcalls.symm.trans hcalls')
    exact lowers_of_build hbuild ha
  · exact lowers_of_state? hs ha

/-- A loop whose cost is not a number. -/
def muddle : Arc := .new 0 (Float32.ofBits 0x7FC00000)

/-- One state with that loop. -/
def muddled : List Call := [.addState .branch, .addArc 0 muddle]

/-- **A cost that is not a number is accepted,** and no score that follows it can be compared. -/
theorem lowers_of_accepted_muddle :
    (∃ g, (Source.builder muddled).graph? = some g) ∧
      ∀ x : Score, x.IsNumber → ¬ (x + muddle.probability).IsNumber := by
  obtain ⟨haccepts, hlowers⟩ := lowers_of_accepted (.builder muddled)
  have hno : ¬ muddle.AddsUp := fun h => absurd h.acoustic (by decide)
  obtain ⟨g, hg⟩ : ∃ g, (Source.builder muddled).graph? = some g := by
    refine haccepts.2 ⟨muddled, rfl, by decide, by decide, fun s a ha => ?_⟩
    obtain rfl : s = 0 := Nat.lt_one_iff.1 (Call.lt_count_of_mem_arcs ha)
    obtain rfl := List.mem_singleton.1 ha
    exact ⟨by decide, fun h => absurd h hno⟩
  have hlower := (hlowers g hg).1 muddled rfl 0 muddle (by simp [muddled])
  exact ⟨⟨g, hg⟩, fun x hx hsum => hno ((hlower.comparable x hx).1 hsum).1⟩

end Graph

end SpeechDecoder

import SpeechDecoder.Proofs.Search.Trials

/-!
# The order of states

If the order of states is checked, a call is halted at the first arc that leads to a lower order and
leaves a state that does not hold the highest one, whatever the states are: the check looks at their
orders, and never at whether they emit.

* `stepFrames_breaks` follows the arcs that are tried through the turns of a call; the fast match
  tries its arcs unchecked.
* `order_checked` is the theorem about all calls.  In a graph whose emitting states hold the highest
  order, and no others do, the arcs that are reported are those that leave a state that does not
  emit.
-/

namespace SpeechDecoder

namespace FastMatch

open Expansion (Unordered unordered_dangling)

/-- **The fast match checks no order.** -/
theorem unordered_grow (f : FastMatch) : Outcome (fun _ => True) Unordered f.grow := by
  rw [grow_eq]
  split
  · exact unordered_dangling _
  · next seeds _ =>
    have hrun := Expansion.run_breaks f.growth
      (.start f.store (.empty f.pass.widths) (.empty 0) .empty) seeds
    split
    · next err hx =>
      rcases hrun.of_error hx with ⟨hcheck, -⟩ | ⟨-, hother⟩
      · cases hcheck
      · exact hother
    · split
      · exact unordered_dangling _
      · trivial

theorem unordered_step (f : FastMatch) : Outcome (fun _ => True) Unordered f.step := by
  rw [step_eq]
  split
  · trivial
  · split
    · exact unordered_dangling _
    · trivial
    · trivial
    · split
      · exact unordered_dangling _
      · exact unordered_grow _

theorem unordered_stepMany : ∀ (n : Nat) (f : FastMatch),
    Outcome (fun _ => True) Unordered (stepMany n f)
  | 0, _ => trivial
  | n + 1, f => f.unordered_step.bind fun next _ => unordered_stepMany n next

theorem unordered_reset (f : FastMatch) : Outcome (fun _ => True) Unordered f.reset := by
  rw [reset_eq]
  have hfirst : Outcome (fun _ => True) Unordered f.first := by
    unfold FastMatch.first
    obtain ⟨seed, hseed⟩ := f.pass.exists_seed
    rw [hseed]
    exact unordered_grow _
  exact hfirst.bind fun next _ => unordered_stepMany _ next

end FastMatch

namespace Search

open Expansion (Fine HaltsAt fine_nil unordered_dangling)

variable {s t : Search}

/-! ## One frame -/

theorem grow_breaks (s : Search) :
    Outcome (fun _ => Fine s.settings.checkStateOrder s.growTrials)
      (fun h => HaltsAt s.settings.checkStateOrder s.growTrials h.error) s.grow := by
  rw [grow_eq]
  unfold growTrials
  cases s.beam.seeds s.store s.settings.acousticLookahead with
  | error f => exact fine_nil.haltsAt f
  | ok seeds =>
    have hrun := Expansion.run_breaks s.growth
      (.start s.store (.empty s.pass.widths) s.lattice s.memo) seeds
    dsimp only
    split
    · next err hx => exact hrun.of_error hx
    · next e hx => exact hrun.of_ok hx

/-- **One frame** is halted at the first arc that leads to a lower order. -/
theorem stepFrame_breaks (s : Search) :
    Outcome (fun _ => Fine s.settings.checkStateOrder s.frameTrials)
      (fun h => HaltsAt s.settings.checkStateOrder s.frameTrials h.error) s.stepFrame := by
  unfold frameTrials
  cases hs : s.grown? with
  | none =>
    refine (stepFrame_of_not_grown hs).mono (fun _ _ => fine_nil) ?_
    rintro err ⟨-, f, hf⟩
    exact hf ▸ fine_nil.haltsAt f
  | some t =>
    obtain ⟨outcome, source, store, beam, -, rfl, hstep⟩ := exists_of_grown hs
    rw [hstep]
    exact (grow_breaks _).map _ fun _ h => h

/-- A frame changes neither the settings nor the graph. -/
theorem stepFrame_keeps (s : Search) :
    Outcome (fun r => r.2.settings = s.settings ∧ r.2.pass.graph = s.pass.graph)
      (fun h => h.state.settings = s.settings ∧ h.state.pass.graph = s.pass.graph) s.stepFrame :=
  stepFrame_outcome (Q := fun t => t.settings = s.settings ∧ t.pass.graph = s.pass.graph)
    ⟨rfl, rfl⟩ (fun _ _ _ _ => ⟨rfl, rfl⟩) (fun _ h => h) (fun _ _ h => h) fun t h =>
      (grow_spares t).mono (fun _ h' => ⟨h'.settings.trans h.1, (congrArg _ h'.pass).trans h.2⟩)
        fun _ h' => ⟨h'.settings.trans h.1, (congrArg _ h'.pass).trans h.2⟩

/-! ## One call -/

/-- **Up to so many frames,** by induction on their number. -/
theorem stepFrames_breaks (check : Bool) : ∀ (n : Nat) (s : Search),
    s.settings.checkStateOrder = check →
    Outcome (fun _ => Fine check ((turnsOf n s).flatMap frameTrials))
      (fun h => HaltsAt check ((turnsOf n s).flatMap frameTrials) h.error) (stepFrames n s)
  | 0, _, _ => fine_nil
  | n + 1, s, hs => by
    rw [stepFrames_succ]
    unfold turnsOf
    cases ha : s.lookAhead with
    | error err =>
      have hother := s.fastMatch.unordered_step
      rw [lookAhead_eq] at ha
      split at ha
      · next e hx =>
        cases ha
        exact .inr ⟨fine_nil, hother.of_error hx⟩
      · cases ha
    | ok t =>
      have ht : t.settings.checkStateOrder = check := by
        obtain ⟨_, -, rfl⟩ := lookAhead_eq_ok ha
        exact hs
      have hframe := stepFrame_breaks t
      have hkeeps := stepFrame_keeps t
      rw [ht] at hframe
      simp only [bind, Except.bind]
      cases hx : t.stepFrame with
      | error err =>
        rw [List.flatMap_singleton]
        exact hframe.of_error hx
      | ok r =>
        obtain ⟨done, u⟩ := r
        have hfine := hframe.of_ok hx
        cases done with
        | true =>
          rw [List.flatMap_singleton]
          exact hfine
        | false =>
          rw [List.flatMap_cons]
          exact (stepFrames_breaks check n u ((hkeeps.of_ok hx).1 ▸ ht)).mono
            (fun _ h => hfine.append h) fun _ h => h.append hfine

/-- Only a fault halts a call after its last frame. -/
theorem conclude_faults (initial : Nat) (r : Bool × Search) :
    Outcome (fun _ => True) (fun h => ∃ f, h.error = .dangling f) (conclude initial r) := by
  unfold conclude
  split
  · trivial
  · split
    · split
      · exact ⟨_, rfl⟩
      · trivial
    · trivial

theorem recognize_breaks (s : Search) (n : Nat) :
    Outcome (fun _ => Fine s.settings.checkStateOrder ((s.turnsIn n).flatMap frameTrials))
      (fun h => HaltsAt s.settings.checkStateOrder ((s.turnsIn n).flatMap frameTrials) h.error)
      (s.recognize n) := by
  unfold turnsIn
  cases hi : s.initial with
  | none =>
    rw [recognize_eq, hi]
    exact .inr ⟨fine_nil, fun _ _ _ _ heq => by cases heq⟩
  | some initial =>
    rw [recognize_of_started hi, Option.isSome_some, if_pos rfl, ← hi]
    refine (stepFrames_breaks _ n { s with streamEnded := false } rfl).bind fun r hfine =>
      (conclude_faults initial r).mono (fun _ _ => hfine) ?_
    rintro err ⟨f, hf⟩
    exact hf ▸ hfine.haltsAt f

theorem start_breaks (s : Search) :
    Outcome (fun _ => Fine s.settings.checkStateOrder s.startTrials)
      (fun h => HaltsAt s.settings.checkStateOrder s.startTrials h.error) s.start := by
  have hother := s.fastMatch.unordered_reset
  obtain ⟨seed, hseed⟩ := s.pass.exists_seed
  rw [start_eq]
  unfold startTrials opened?
  cases hreset : s.fastMatch.reset with
  | error err => exact .inr ⟨fine_nil, hother.of_error hreset⟩
  | ok f =>
    rw [hseed]
    exact grow_breaks (s.begun f seed)

/-- **A call is halted at the first arc that leads to a lower order,** if the order is checked, and
it tries no such arc if it is answered. -/
theorem perform_breaks (s : Search) (c : Call) :
    Outcome (fun _ => Fine s.settings.checkStateOrder (s.trialsIn c))
      (HaltsAt s.settings.checkStateOrder (s.trialsIn c)) (s.perform c).1 := by
  rcases c with _ | n
  · have hstart := s.start_breaks
    rcases hx : s.start with err | t <;> simp only [Search.perform, hx]
    · exact hstart.of_error hx
    · exact hstart.of_ok hx
  · have hframes := s.recognize_breaks n
    rcases hx : s.recognize n with err | r <;> simp only [Search.perform, hx]
    · exact hframes.of_error hx
    · exact hframes.of_ok hx

/-! ## The arcs of a call -/

/-- **Exactly the emitting states hold the highest order.** -/
def OrdersTell (graph : Graph) : Prop :=
  ∀ i st, graph.state? i = some st → (st.order + 1 = numStateOrders ↔ st.kind.isEmitting = true)

/-- So it is if every state has the order of its kind. -/
theorem ordersTell_of_kind {graph : Graph}
    (h : ∀ i st, graph.state? i = some st → st.order = st.kind.order) : OrdersTell graph := by
  intro i st hst
  rw [h i st hst]
  cases st.kind <;> simp [StateKind.order, StateKind.isEmitting, numStateOrders]

/-- No turn changes the graph. -/
theorem graph_of_mem_turnsOf (n : Nat) {s : Search} : ∀ t ∈ turnsOf n s,
    t.pass.graph = s.pass.graph :=
  Steady.turnsOf (Q := fun t => t.pass.graph = s.pass.graph)
    ⟨fun _ _ _ _ _ h => h, fun _ _ _ h _ => h, fun _ t h =>
      (stepFrame_keeps t).mono (fun _ h' => h'.2.trans h) fun _ h' => h'.2.trans h⟩ n rfl

theorem leaves_of_mem_growTrials (s : Search) : ∀ x ∈ s.growTrials, x.Leaves s.pass.graph := by
  unfold growTrials
  split
  · intro x hx
    cases hx
  · exact Expansion.leaves_of_mem_trials s.growth _ _

/-- **The arcs that a call tries** are arcs of the graph. -/
theorem leaves_of_mem_trialsIn (s : Search) (c : Call) :
    ∀ x ∈ s.trialsIn c, x.Leaves s.pass.graph := by
  intro x hx
  rcases c with _ | n
  · change x ∈ s.startTrials at hx
    unfold startTrials opened? at hx
    split at hx
    · next f seed _ _ => exact leaves_of_mem_growTrials (s.begun f seed) x hx
    · cases hx
  · obtain ⟨t, ht, hxt⟩ := List.mem_flatMap.1 hx
    have hgraph : t.pass.graph = s.pass.graph := by
      unfold turnsIn at ht
      split at ht
      · exact graph_of_mem_turnsOf (s := { s with streamEnded := false }) n t ht
      · cases ht
    unfold frameTrials at hxt
    cases hg : t.grown? with
    | none =>
      rw [hg] at hxt
      cases hxt
    | some u =>
      obtain ⟨_, _, _, _, -, hu, -⟩ := exists_of_grown hg
      rw [hg] at hxt
      rw [← hgraph, show t.pass.graph = u.pass.graph by rw [hu]; rfl]
      exact leaves_of_mem_growTrials u x hxt

/-- **Where the order of states is checked.**  A call reports an arc if and only if the order is
checked and the arc is the first one of those that the call tries that is not cut, leaves a state
that does not hold the highest order, and leads to a lower one; and then it is the last arc that the
call tries.  If exactly the emitting states of the graph hold the highest order, these arcs are those
that leave a state that does not emit and lead to a lower order. -/
theorem order_checked (s : Search) (c : Call) :
    (∀ x ∈ s.trialsIn c, x.Leaves s.pass.graph) ∧
      (∀ source target m n, (s.perform c).1 = .error (.stateOrder source target m n) ↔
        s.settings.checkStateOrder = true ∧ ∃ earlier x, s.trialsIn c = earlier ++ [x] ∧
          (∀ y ∈ earlier, ¬ y.Breaks) ∧ x.Breaks ∧ x.report = .stateOrder source target m n) ∧
      (s.settings.checkStateOrder = true → (∃ x ∈ s.trialsIn c, x.Breaks) →
        ∃ x ∈ s.trialsIn c, x.Breaks ∧ (s.perform c).1 = .error x.report) ∧
      (OrdersTell s.pass.graph → ∀ x ∈ s.trialsIn c, (x.Breaks ↔ x.isCut = false ∧
        x.source.kind.isEmitting = false ∧ x.target.order < x.source.order)) := by
  have hleaves := s.leaves_of_mem_trialsIn c
  have hends := s.perform_breaks c
  refine ⟨hleaves, fun source target m n => ⟨fun herr => ?_, ?_⟩, fun hcheck hsome => ?_,
    fun htell x hx => ?_⟩
  · rcases hends.of_error herr with ⟨hcheck, earlier, x, hlog, hfine, hbreaks, hreport⟩ | ⟨-, hother⟩
    · exact ⟨hcheck, earlier, x, hlog, hfine, hbreaks, hreport.symm⟩
    · exact absurd rfl (hother source target m n)
  · rintro ⟨hcheck, earlier, x, hlog, hfine, hbreaks, hreport⟩
    have hmem : x ∈ s.trialsIn c := by rw [hlog]; simp
    rcases hc : (s.perform c).1 with err | answer
    · rcases hends.of_error hc with ⟨-, earlier', x', hlog', -, -, herr⟩ | ⟨hall, -⟩
      · obtain ⟨-, hlast⟩ := List.append_inj' (hlog.symm.trans hlog') rfl
        rw [herr, ← List.singleton_inj.1 hlast, hreport]
      · exact absurd hbreaks (hall hcheck x hmem)
    · exact absurd hbreaks (hends.of_ok hc hcheck x hmem)
  · obtain ⟨x, hx, hbreaks⟩ := hsome
    rcases hc : (s.perform c).1 with err | answer
    · rcases hends.of_error hc with ⟨-, earlier, y, hlog, -, hy, herr⟩ | ⟨hall, -⟩
      · exact ⟨y, by rw [hlog]; simp, hy, by rw [herr]⟩
      · exact absurd hbreaks (hall hcheck x hx)
    · exact absurd hbreaks (hends.of_ok hc hcheck x hx)
  · unfold Trial.Breaks
    rw [ne_eq, htell _ _ (hleaves x hx).source, Bool.not_eq_true]

/-- The word of the word loop leads to a branch: the start of an utterance is halted there. -/
theorem order_checked_wordLoop :
    ∃ x ∈ checkedLoop.trialsIn .start, x.source.kind = .word 0 ∧ x.target.kind = .branch ∧
      (x.isCut = false ∧ x.source.kind.isEmitting = false ∧ x.target.order < x.source.order) ∧
      (checkedLoop.perform .start).1 = .error x.report := by
  obtain ⟨-, -, hreported, htell⟩ := order_checked checkedLoop .start
  obtain ⟨x, hx, hbreaks, hreport⟩ := hreported rfl (by decide +kernel)
  have hkind : ∀ st ∈ WordLoop.graph.states, st.order = st.kind.order := by decide
  have honly : ∀ y ∈ checkedLoop.trialsIn .start, y.Breaks →
      y.source.kind = .word 0 ∧ y.target.kind = .branch := by decide +kernel
  have hat := (htell (ordersTell_of_kind fun i st hst => hkind st (Array.mem_of_getElem? hst)) x
    hx).1 hbreaks
  exact ⟨x, hx, (honly x hx hbreaks).1, (honly x hx hbreaks).2, hat, hreport⟩

end Search

end SpeechDecoder

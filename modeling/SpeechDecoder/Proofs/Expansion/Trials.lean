import SpeechDecoder.Proofs.Expansion.Trace

/-!
# The arcs that an expansion tries

An expansion follows the arcs of the tokens that it expands, one after the other, and whatever it
asks, refuses or reports it does at one of them.  `Expansion.trials` lists them in the order in which
they are tried, the one at which the expansion is halted included.

* `Follows.run` carries an invariant that speaks of the arcs tried so far through a frame; it has to
  be kept by an arc, and must not depend on what is done between arcs.
* `run_breaks` says that the expansion is halted at the first arc that leads to a lower order, and
  `run_memo` that the penalties it asked for are those of the arcs into phones.
-/

namespace SpeechDecoder

namespace Trial

/-- The arc is not cut, leaves a state that does not hold the highest order, and leads to a lower
one. -/
def Breaks (x : Trial) : Prop :=
  x.isCut = false ∧ x.source.order + 1 ≠ numStateOrders ∧ x.target.order < x.source.order

instance (x : Trial) : Decidable x.Breaks := inferInstanceAs (Decidable (_ ∧ _ ∧ _))

/-- What is reported of an arc that leads to a lower order. -/
def report (x : Trial) : SearchError :=
  .stateOrder x.token.state x.arc.target x.source.order x.target.order

/-- The phone that the lookahead tests, between states of two kinds. -/
def tested (g : Growth) (source kind : StateKind) : Option Nat :=
  match g.phoneCut, (if source.entersPhones then kind.phone? else none) with
  | some c, some p => if c.window.isEmpty then none else some p
  | _, _ => none

/-- **The phone whose penalty is asked for,** if the lookahead tests the arc. -/
def phone? (g : Growth) (x : Trial) : Option Nat := tested g x.token.kind x.target.kind

/-- The arc is one of the graph, and leaves the state of the token. -/
structure Leaves (graph : Graph) (x : Trial) : Prop where
  source : graph.state? x.token.state = some x.source
  arc : x.arc ∈ x.source.arcs
  target : graph.state? x.arc.target = some x.target

theorem breaks_iff {x : Trial} : x.Breaks ↔
    x.isCut = false ∧ Expansion.breaksOrder x.source.order x.target.order = true := by
  unfold Breaks Expansion.breaksOrder
  rw [Bool.and_eq_true, bne_iff_ne, decide_eq_true_eq]

end Trial

namespace Expansion

/-! ## Invariants that speak of the trials -/

variable (g : Growth)

/-- **What an invariant has to survive that speaks of the arcs tried so far.**  `I` holds as long as
the expansion goes on, and `H` of what it is halted with. -/
structure Follows (I : List Trial → Expansion → Prop) (H : List Trial → Halted Expansion → Prop) :
    Prop where
  follow : ∀ log e t source link arc, I log e → g.graph.state? t.state = some source →
    arc ∈ source.arcs → Outcome (I (log ++ (trial? g e t source arc).toList))
      (H (log ++ (trial? g e t source arc).toList)) (Expansion.follow g e t source link arc)
  /-- What is done between arcs is no concern of it. -/
  rest : ∀ log (e : Expansion) results expanded queue, I log e →
    I log { e with results, expanded, queue }
  /-- Where a reference leads nowhere. -/
  lost : ∀ log e f, I log e → H log ⟨.dangling f, e⟩

variable {g} {e e₀ : Expansion} {I : List Trial → Expansion → Prop}
  {H : List Trial → Halted Expansion → Prop} {log : List Trial} {t : Token}

/-- **The arcs of a token.** -/
theorem Follows.arcs (hF : Follows g I H) {source : State} (hs : g.graph.state? t.state = some source)
    (link : Option Nat) (h : I log e) :
    Outcome (I (log ++ (momentsOver g t source link source.arcs e).map Moment.trial))
      (H (log ++ (momentsOver g t source link source.arcs e).map Moment.trial))
      (source.arcs.foldlM (fun e arc => Expansion.follow g e t source link arc) e) := by
  refine over_rule (J := fun moments => I (log ++ moments.map Moment.trial))
    (H := fun moments => H (log ++ moments.map Moment.trial)) (fun moments e arc harc h => ?_) ?_
  · rw [List.map_append, trial_moment?, ← List.append_assoc]
    exact hF.follow _ e t source link arc h hs harc
  · rw [List.map_nil, List.append_nil]
    exact h

theorem Follows.expandToken (hF : Follows g I H) (h : I log e) (id : Nat) (t : Token) :
    Outcome (I (log ++ (e.momentsOfToken g id t).map Moment.trial))
      (H (log ++ (e.momentsOfToken g id t).map Moment.trial)) (e.expandToken g id t) := by
  unfold Expansion.expandToken momentsOfToken
  cases hfinal : t.kind.isFinal with
  | true =>
    rw [if_pos rfl, Bool.true_or, if_pos rfl, List.map_nil, List.append_nil]
    exact hF.rest log e _ e.expanded e.queue h
  | false =>
    rw [if_neg Bool.false_ne_true, Bool.false_or]
    by_cases hpoor : e.isPoor g t = true
    · rw [if_pos hpoor, if_pos hpoor, List.map_nil, List.append_nil]
      exact h
    · rw [if_neg hpoor, if_neg hpoor]
      cases hs : g.graph.state? t.state with
      | none =>
        rw [List.map_nil, List.append_nil]
        exact hF.lost log e _ h
      | some source => exact hF.arcs hs _ h

/-- **A frame,** by induction on its course. -/
theorem Follows.course (hF : Follows g I H) (h : I [] e₀) {seeds : List Nat} {log : List Taking}
    {out : Except (Halted Expansion) Expansion} (hc : Course g seeds e₀ log out) :
    Outcome (I (tried log)) (H (tried log)) out := by
  induction hc with
  | start => exact h
  | @seed log e e' id t _ _ _ _ ho ih =>
    obtain ⟨expanded, rfl⟩ := ho.eq
    rw [tried_concat]
    exact hF.expandToken (hF.rest (tried log) e e.results expanded e.queue ih) id t
  | @round log e p rest t _ _ _ ih =>
    rw [tried_concat]
    exact hF.expandToken (hF.rest (tried log) e e.results (t.state :: e.expanded) rest ih) p.token t
  | @clear log e _ _ ih => exact hF.rest (tried log) e e.results e.expanded [] ih
  | @lost log e id _ _ _ ih => exact hF.lost (tried log) e _ ih

/-- **A frame.** -/
theorem Follows.run (hF : Follows g I H) (h : I [] e) (seeds : List Nat) :
    Outcome (I (e.trials g seeds)) (H (e.trials g seeds)) (e.run g seeds) :=
  hF.course h (course_run g e seeds)

/-! ## The order of states -/

/-- The error is not about the order of states. -/
def Unordered (err : SearchError) : Prop := ∀ s t so to_, err ≠ .stateOrder s t so to_

theorem unordered_dangling (f : Fault) : Unordered (.dangling f) := fun _ _ _ _ h => by cases h

/-- No arc leads to a lower order, if the order is checked. -/
def Fine (check : Bool) (log : List Trial) : Prop := check = true → ∀ y ∈ log, ¬ y.Breaks

/-- **How it ends where the order of states is checked:** at the first arc that leads to a lower
one, or for another reason. -/
def HaltsAt (check : Bool) (log : List Trial) (err : SearchError) : Prop :=
  (check = true ∧ ∃ earlier x, log = earlier ++ [x] ∧ (∀ y ∈ earlier, ¬ y.Breaks) ∧ x.Breaks ∧
    err = x.report) ∨
  Fine check log ∧ Unordered err

variable {check : Bool} {err : SearchError} {later : List Trial}

theorem fine_nil : Fine check [] := fun _ _ hy => by cases hy

theorem fine_singleton {x : Trial} (h : check = true → ¬ x.Breaks) : Fine check [x] :=
  fun hcheck _ hy => List.mem_singleton.1 hy ▸ h hcheck

theorem Fine.append (h : Fine check log) (h' : Fine check later) : Fine check (log ++ later) :=
  fun hcheck y hy => (List.mem_append.1 hy).elim (h hcheck y) (h' hcheck y)

theorem HaltsAt.append (h : Fine check log) (h' : HaltsAt check later err) :
    HaltsAt check (log ++ later) err := by
  rcases h' with ⟨hcheck, earlier, x, rfl, hfine, hbreaks⟩ | ⟨hfine, hother⟩
  · refine .inl ⟨hcheck, log ++ earlier, x, (List.append_assoc ..).symm, fun y hy => ?_, hbreaks⟩
    exact (List.mem_append.1 hy).elim (h hcheck y) (hfine y)
  · exact .inr ⟨h.append hfine, hother⟩

/-- A fault, after arcs that are fine. -/
theorem Fine.haltsAt (h : Fine check log) (f : Fault) : HaltsAt check log (.dangling f) :=
  .inr ⟨h, unordered_dangling f⟩

theorem follows_breaks (g : Growth) : Follows g (fun log _ => Fine g.checkStateOrder log)
    fun log h => HaltsAt g.checkStateOrder log h.error where
  follow log e t source link arc h hs harc := by
    unfold trial?
    cases ht : g.graph.state? arc.target with
    | none =>
      rw [follow_lost ht, Option.map_none, Option.toList_none, List.append_nil]
      exact h.haltsAt _
    | some target =>
      obtain ⟨isCut, memo, heq, hcase⟩ := follow_cases ht e t source link
      rw [Option.map_some, Option.toList_some, heq]
      rcases hcase with ⟨rfl, hx⟩ | ⟨rfl, hcheck, hbreaks, hx⟩ | ⟨rfl, hfine, hx⟩
      · rw [hx]
        exact h.append (fine_singleton fun _ hbreaks => Bool.noConfusion hbreaks.1)
      · rw [hx]
        exact .inl ⟨hcheck, log, _, rfl, h hcheck, Trial.breaks_iff.2 ⟨rfl, hbreaks⟩, rfl⟩
      · have hlast : Fine g.checkStateOrder [⟨t, source, arc, target, false⟩] :=
          fine_singleton fun hcheck hbreaks =>
            Bool.eq_false_iff.1 (hfine hcheck) (Trial.breaks_iff.1 hbreaks).2
        rw [hx]
        cases arrive g { e with memo } link arc target.kind (t.score + arc.probability) with
        | error f => exact (h.append hlast).haltsAt f
        | ok e' => exact h.append hlast
  rest _ _ _ _ _ h := h
  lost _ _ f h := h.haltsAt f

/-- **An expansion is halted at the first arc that leads to a lower order,** if the order is checked,
and there is no such arc if it is finished. -/
theorem run_breaks (g : Growth) (e : Expansion) (seeds : List Nat) :
    Outcome (fun _ => Fine g.checkStateOrder (e.trials g seeds))
      (fun h => HaltsAt g.checkStateOrder (e.trials g seeds) h.error) (e.run g seeds) :=
  (follows_breaks g).run fine_nil seeds

/-- The arcs that are tried are arcs of the graph. -/
theorem leaves_of_mem_trials (g : Growth) (e : Expansion) (seeds : List Nat) :
    ∀ x ∈ e.trials g seeds, x.Leaves g.graph := by
  have hF : Follows g (fun log _ => ∀ x ∈ log, x.Leaves g.graph)
      fun log _ => ∀ x ∈ log, x.Leaves g.graph := by
    refine ⟨fun log e t source link arc h hs harc => ?_, fun _ _ _ _ _ h => h, fun _ _ _ h => h⟩
    have hlog : ∀ x ∈ log ++ (e.trial? g t source arc).toList, x.Leaves g.graph := by
      intro x hx
      rcases List.mem_append.1 hx with hx | hx
      · exact h x hx
      · obtain ⟨target, ht, rfl⟩ := Option.map_eq_some_iff.1 (Option.mem_toList.1 hx)
        exact ⟨hs, harc, ht⟩
    exact (Outcome.trivial _).mono (fun _ _ => hlog) fun _ _ => hlog
  have hrun := hF.run (e := e) (by simp) seeds
  cases hx : e.run g seeds with
  | ok e' => exact hrun.of_ok hx
  | error err => exact hrun.of_error hx

end Expansion

end SpeechDecoder

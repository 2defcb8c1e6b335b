import SpeechDecoder.Proofs.Expansion.Roster
import SpeechDecoder.Proofs.Expansion.Trials

/-!
# An expansion under the check

The check of the order of states does nothing but halt.  So an expansion with the check is the one
without it, stopped where an arc leads to a lower order.

* `stoppedAt` is a computation that is stopped at the first of its moments whose arc leads to a lower
  order.
* `follow_checked` says that this is what the check does to an arc, `stoppedAt_bind` are two steps, and
  the other lemmas follow the expansion of a frame up to `run_eq_stoppedAt`.
* `run_checked` is the theorem about a frame.
-/

namespace SpeechDecoder

/-- **The same expansion under the check** of the order of states. -/
def Growth.checked (g : Growth) : Growth := { g with checkStateOrder := true }

/-- What the check halts with at an arc. -/
def Moment.halt (m : Moment) : Halted Expansion :=
  ⟨m.trial.report, { m.before with memo := m.memo }⟩

namespace Expansion

/-! ## Stopped at an arc -/

/-- **A computation that is stopped** at the first moment whose arc leads to a lower order. -/
def stoppedAt (log : List Moment) (x : Except (Halted Expansion) Expansion) :
    Except (Halted Expansion) Expansion :=
  match log.find? fun m => decide m.trial.Breaks with
  | some m => .error m.halt
  | none => x

/-- Whether a single moment stops it. -/
theorem stoppedAt_singleton (m : Moment) (x : Except (Halted Expansion) Expansion) :
    stoppedAt [m] x = if m.trial.Breaks then .error m.halt else x := by
  unfold stoppedAt
  by_cases h : m.trial.Breaks <;> simp [h]

theorem stoppedAt_append (log later : List Moment) (x : Except (Halted Expansion) Expansion) :
    stoppedAt (log ++ later) x = stoppedAt log (stoppedAt later x) := by
  unfold stoppedAt
  rw [List.find?_append]
  cases log.find? fun m => decide m.trial.Breaks <;> rfl

/-- **Two steps:** the second one is stopped if the first one is not. -/
theorem stoppedAt_bind {log : List Moment} {x y : Except (Halted Expansion) Expansion}
    {rest : Expansion → List Moment} {f f' : Expansion → Except (Halted Expansion) Expansion}
    (h : y = stoppedAt log x) (hf : ∀ e, f' e = stoppedAt (rest e) (f e)) :
    y >>= f' = stoppedAt (log ++ onward x rest) (x >>= f) := by
  rw [h, stoppedAt_append]
  cases x with
  | error err =>
    unfold stoppedAt
    cases log.find? fun m => decide m.trial.Breaks <;> rfl
  | ok e =>
    have hrest : stoppedAt (onward (.ok e) rest) (.ok e >>= f) = f' e := (hf e).symm
    rw [hrest]
    unfold stoppedAt
    cases log.find? fun m => decide m.trial.Breaks <;> rfl

/-! ## The expansion of a frame -/

section Checked

variable {g : Growth} (hcheck : g.checkStateOrder = false)

include hcheck

/-- **One arc.** -/
theorem follow_checked (e : Expansion) (t : Token) (source : State) (link : Option Nat) (arc : Arc) :
    e.follow g.checked t source link arc =
      stoppedAt (e.moment? g t source arc).toList (e.follow g t source link arc) := by
  unfold Expansion.follow moment? trial?
  rw [show g.checked.graph = g.graph from rfl]
  cases g.graph.state? arc.target with
  | none => rfl
  | some target =>
    obtain ⟨isCut, memo, heq⟩ := cut_eq g e t.kind target.kind (t.score + arc.probability)
    -- the lookahead does not know of the check
    have heq' : cut g.checked e t.kind target.kind (t.score + arc.probability) =
        (isCut, { e with memo }) := heq
    simp only [Option.map_some, Option.toList_some, heq, heq', hcheck, Bool.false_and,
      show g.checked.checkStateOrder = true from rfl, Bool.true_and, Bool.false_eq_true, if_false]
    rw [stoppedAt_singleton]
    cases isCut with
    | true => exact (if_neg fun hbreaks => Bool.noConfusion hbreaks.1).symm
    | false =>
      by_cases horder : breaksOrder source.order target.order = true
      · rw [if_pos horder, if_pos (Trial.breaks_iff.2 ⟨rfl, horder⟩)]
        rfl
      · rw [if_neg horder, if_neg fun hbreaks => horder (Trial.breaks_iff.1 hbreaks).2]
        rfl

/-- **Some arcs of a token,** by induction on them. -/
theorem over_checked (t : Token) (source : State) (link : Option Nat) :
    ∀ (arcs : List Arc) (e : Expansion),
      arcs.foldlM (fun e arc => Expansion.follow g.checked e t source link arc) e =
        stoppedAt (momentsOver g t source link arcs e)
          (arcs.foldlM (fun e arc => Expansion.follow g e t source link arc) e)
  | [], _ => rfl
  | arc :: arcs, e => by
    rw [momentsOver, List.foldlM_cons, List.foldlM_cons]
    exact stoppedAt_bind (follow_checked hcheck e t source link arc) (over_checked t source link arcs)

theorem expandToken_checked (e : Expansion) (id : Nat) (t : Token) :
    e.expandToken g.checked id t = stoppedAt (e.momentsOfToken g id t) (e.expandToken g id t) := by
  unfold Expansion.expandToken momentsOfToken
  rw [show e.isPoor g.checked t = e.isPoor g t from rfl, show g.checked.graph = g.graph from rfl]
  cases t.kind.isFinal with
  | true => rfl
  | false =>
    cases e.isPoor g t with
    | true => rfl
    | false =>
      cases g.graph.state? t.state with
      | none => rfl
      | some source => exact over_checked hcheck t source _ source.arcs e

theorem expandSeed_checked (e : Expansion) (id : Nat) :
    e.expandSeed g.checked id =
      stoppedAt ((e.takenSeed g id).flatMap Taking.moments) (e.expandSeed g id) := by
  unfold Expansion.expandSeed takenSeed
  cases e.store.get? id with
  | none => rfl
  | some t =>
    dsimp only
    cases e.mark? t with
    | none => rfl
    | some e' =>
      rw [Option.map_some, Option.toList_some, List.flatMap_singleton]
      exact expandToken_checked hcheck e' id t

/-- The tokens that the frame starts from, by induction on them. -/
theorem expandSeeds_checked : ∀ (ids : List Nat) (e : Expansion),
    ids.foldlM (fun e id => Expansion.expandSeed g.checked e id) e =
      stoppedAt ((takenSeeds g ids e).flatMap Taking.moments)
        (ids.foldlM (fun e id => Expansion.expandSeed g e id) e)
  | [], _ => rfl
  | id :: ids, e => by
    rw [takenSeeds, List.foldlM_cons, List.foldlM_cons, List.flatMap_append, flatMap_onward]
    exact stoppedAt_bind (expandSeed_checked hcheck e id) (expandSeeds_checked ids)

/-- The rounds of the queue, by induction on their number. -/
theorem drain_checked : ∀ (rounds : Nat) (e : Expansion),
    e.drain g.checked rounds =
      stoppedAt ((takenRounds g rounds e).flatMap Taking.moments) (e.drain g rounds)
  | 0, _ => rfl
  | rounds + 1, e => by
    unfold Expansion.drain takenRounds
    cases e.queue.dropWhile e.isStale with
    | nil => rfl
    | cons p rest =>
      dsimp only
      cases e.store.get? p.token with
      | none => rfl
      | some t =>
        dsimp only
        rw [List.flatMap_cons, flatMap_onward]
        exact stoppedAt_bind (expandToken_checked hcheck _ p.token t) (drain_checked rounds)

/-- **A frame.** -/
theorem run_eq_stoppedAt (e : Expansion) (seeds : List Nat) :
    e.run g.checked seeds = stoppedAt (e.moments g seeds) (e.run g seeds) := by
  unfold moments taken Expansion.run
  rw [List.flatMap_append, flatMap_onward]
  exact stoppedAt_bind (expandSeeds_checked hcheck seeds e) (drain_checked hcheck (g.graph.size + 1))

end Checked

/-- **The check changes nothing but where it halts.**  Without the check the expansion of a frame is
finished, and its trace tells what it does.  With it either no arc that is tried leads to a lower
order and the result is the same, or the expansion is halted at the first such arc, in the state in
which the expansion without the check was before it: only the penalty of the arc may have been asked
for. -/
theorem run_checked (g : Growth) (base : Store) (next : Beam) (lattice : Lattice)
    (memo : PenaltyMemo) (seeds : List Nat) (hcheck : g.checkStateOrder = false)
    (hfits : Fits g.graph base) (hseeds : ∀ id ∈ seeds, id < base.size) :
    let e := Expansion.start base next lattice memo
    Traces g seeds e (e.taken g seeds) (e.run g seeds) ∧
    ∃ e', e.run g seeds = .ok e' ∧
      ((∀ x ∈ e.trials g seeds, ¬ x.Breaks) ∧ e.run g.checked seeds = .ok e' ∨
        ∃ earlier m later, e.moments g seeds = earlier ++ m :: later ∧
          (∀ m' ∈ earlier, ¬ m'.trial.Breaks) ∧ m.trial.Breaks ∧
          e.run g.checked seeds = .error ⟨m.trial.report, { m.before with memo := m.memo }⟩) := by
  intro e
  have hstopped := run_eq_stoppedAt hcheck e seeds
  refine ⟨traces_run g e seeds, ?_⟩
  have hrun := (run_adds g base next lattice memo seeds).1
  cases hx : e.run g seeds with
  | error err =>
    obtain ⟨hon, -⟩ := hrun.of_error hx hfits hseeds
    exact absurd (hcheck.symm.trans hon) Bool.false_ne_true
  | ok e' =>
    refine ⟨e', rfl, ?_⟩
    rw [hstopped, hx, stoppedAt]
    cases hfind : (e.moments g seeds).find? fun m => decide m.trial.Breaks with
    | none =>
      refine .inl ⟨fun x hmem hbreaks => ?_, rfl⟩
      obtain ⟨m, hm, rfl⟩ := List.mem_map.1 hmem
      exact List.find?_eq_none.1 hfind m hm (decide_eq_true hbreaks)
    | some m =>
      obtain ⟨hbreaks, earlier, later, hsplit, hearlier⟩ := List.find?_eq_some_iff_append.1 hfind
      refine .inr ⟨earlier, m, later, hsplit, fun m' hm' => ?_, of_decide_eq_true hbreaks, rfl⟩
      simpa using hearlier m' hm'

end Expansion

/-! ## An example -/

namespace Expansion.Descent

/-- The order falls from state 1, of order 3, to state 3. -/
def graph : Graph where
  initial := 0
  states := #[⟨.branch, 0, [.new 1 .certain]⟩,
    ⟨.phoneBoundary, 3, [.new 2 .certain, .new 3 .certain, .new 4 .certain]⟩,
    .ofKind (.emitting 0), .ofKind .branch, .ofKind .final]
  initial_lt := by decide
  sound := by unfold State.Sound; decide

def growth : Growth where
  graph := graph
  frame := 0
  keepAllTokens := false
  checkStateOrder := false
  wordMargin := .impossible
  phoneCut := none
  buildLattice := false

def base : Store := Store.empty.push (.seed 0 .branch 0)

theorem fits : Fits graph base := by
  refine fits_single ?_ 0
  exact ⟨_, rfl, rfl⟩

end Expansion.Descent

namespace Expansion

/-- Without the check the final state is reached.  With it there are two tokens besides the first one
when the expansion is halted. -/
theorem run_checked_descent :
    let e := Expansion.start Descent.base (.empty ⟨0, .impossible⟩) (.empty 4) .empty
    ∃ e' m, e.run Descent.growth [0] = .ok e' ∧ e'.results = [4] ∧
      e.run Descent.growth.checked [0] =
        .error ⟨.stateOrder 1 3 3 0, { m.before with memo := m.memo }⟩ ∧
      m ∈ e.moments Descent.growth [0] ∧ m.before.store.size = 3 := by
  intro e
  obtain ⟨-, e', he', hends⟩ := run_checked Descent.growth Descent.base
    (.empty ⟨0, .impossible⟩) (.empty 4) .empty [0] rfl Descent.fits (by decide)
  obtain ⟨x, hx, hresults⟩ := exists_of_any (x := e.run Descent.growth [0])
    (p := fun e => e.results = [4]) (by decide +kernel)
  have hbroken : ∃ x ∈ e.trials Descent.growth [0], x.Breaks := by decide +kernel
  have honly : ∀ m ∈ e.moments Descent.growth [0], m.trial.Breaks →
      m.trial.report = .stateOrder 1 3 3 0 ∧ m.before.store.size = 3 := by decide +kernel
  rcases hends with ⟨hfine, -⟩ | ⟨earlier, m, later, hsplit, -, hbreaks, hhalt⟩
  · obtain ⟨x, hx, hbreaks⟩ := hbroken
    exact absurd hbreaks (hfine x hx)
  · have hmem : m ∈ e.moments Descent.growth [0] := by rw [hsplit]; simp
    obtain ⟨hreport, hsize⟩ := honly m hmem hbreaks
    rw [hreport] at hhalt
    cases he'.symm.trans hx
    exact ⟨e', m, he', of_decide_eq_true hresults, hhalt, hmem, hsize⟩

end Expansion

end SpeechDecoder

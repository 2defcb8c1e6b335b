import SpeechDecoder.Proofs.Expansion.Steps

/-!
# The trace of a frame

What the expansion of a frame does, in its order: the tokens that it expands, each with the expansion
before it and with the arcs that are tried for it.  `Expansion.taken` makes this list by following the
expansion.  Whatever else is listed of a frame is read off it: the arcs (`Expansion.moments` and
`Expansion.trials`), the tokens (`Expansion.processed`), and those of them whose arcs are followed
(`Expansion.led`).

* `Traces` says that a list tells what a computation does: `Course`, that the computation comes from
  expanding the tokens of the list one after the other, and `Yields`, that what comes of each of them
  comes from the arcs that are listed with it.  `traces_run` says so of a frame.
* `over_rule` is the induction over the arcs of a token, and `Course` also the one over a frame: an
  invariant has to be kept by a token that is expanded, as a seed or from the queue.  Invariants may
  speak of the list so far, and with it of the tokens that were taken from the queue (`drawn`).
-/

namespace SpeechDecoder

/-- **An arc that is tried:** the token that it leaves, the states at its ends, and whether the
lookahead cuts it. -/
structure Trial where
  token : Token
  source : State
  arc : Arc
  target : State
  isCut : Bool
  deriving DecidableEq

/-- **An arc that is tried, and when:** the expansion before it, and the penalties after the lookahead
was asked. -/
structure Moment where
  before : Expansion
  trial : Trial
  memo : PenaltyMemo

/-- **A token that is expanded, and when:** its entry in the queue if it is not a seed, the expansion
before it, and the moments of its arcs. -/
structure Taking where
  entry : Option Pending
  id : Nat
  token : Token
  before : Expansion
  moments : List Moment

namespace Expansion

section Defs

variable (g : Growth) (e : Expansion)

/-- The trial of an arc that leads to a state of the graph. -/
def trial? (t : Token) (source : State) (arc : Arc) : Option Trial :=
  (g.graph.state? arc.target).map fun target =>
    ⟨t, source, arc, target, (e.cut g t.kind target.kind (t.score + arc.probability)).1⟩

/-- The moment of an arc that leads to a state of the graph. -/
def moment? (t : Token) (source : State) (arc : Arc) : Option Moment :=
  (e.trial? g t source arc).map fun x =>
    ⟨e, x, (e.cut g t.kind x.target.kind (t.score + arc.probability)).2.memo⟩

/-- What is listed after a step, unless the step is halted. -/
def onward {α : Type} (x : Except (Halted Expansion) Expansion) (rest : Expansion → List α) :
    List α :=
  match x with
  | .ok e => rest e
  | .error _ => []

/-- The moments of some arcs of a token. -/
def momentsOver (t : Token) (source : State) (link : Option Nat) : List Arc → Expansion → List Moment
  | [], _ => []
  | arc :: arcs, e => (e.moment? g t source arc).toList ++
    onward (e.follow g t source link arc) (momentsOver t source link arcs)

/-- The moments of a token that is expanded. -/
def momentsOfToken (id : Nat) (t : Token) : List Moment :=
  if t.kind.isFinal || e.isPoor g t then []
  else
    match g.graph.state? t.state with
    | none => []
    | some source => momentsOver g t source (Store.link g.keepAllTokens id t) source.arcs e

/-- A token that is expanded now. -/
def taking (entry : Option Pending) (id : Nat) (t : Token) : Taking :=
  ⟨entry, id, t, e, e.momentsOfToken g id t⟩

/-- The token of a seed, if the seed is expanded. -/
def takenSeed (id : Nat) : List Taking :=
  match e.store.get? id with
  | none => []
  | some t => ((e.mark? t).map fun e' => e'.taking g none id t).toList

/-- The tokens that some seeds expand. -/
def takenSeeds : List Nat → Expansion → List Taking
  | [], _ => []
  | id :: ids, e => e.takenSeed g id ++ onward (e.expandSeed g id) (takenSeeds ids)

/-- The tokens that are taken from the queue. -/
def takenRounds : Nat → Expansion → List Taking
  | 0, _ => []
  | rounds + 1, e =>
    match e.queue.dropWhile e.isStale with
    | [] => []
    | p :: rest =>
      match e.store.get? p.token with
      | none => []
      | some t =>
        let e' := { e with queue := rest, expanded := t.state :: e.expanded }
        e'.taking g (some p) p.token t :: onward (e'.expandToken g p.token t) (takenRounds rounds)

/-- **The tokens that the expansion of a frame expands, and when,** in their order. -/
def taken (seeds : List Nat) : List Taking :=
  takenSeeds g seeds e ++
    onward (seeds.foldlM (fun e id => expandSeed g e id) e) (takenRounds g (g.graph.size + 1))

end Defs

/-! ## What is read off a trace -/

/-- The arcs that were tried. -/
def tried (log : List Taking) : List Trial := (log.flatMap Taking.moments).map Moment.trial

/-- The tokens whose arcs were followed. -/
def ledIn (log : List Taking) : List Nat :=
  (log.filter fun x => !x.moments.isEmpty).map Taking.id

/-- The tokens that were taken from the queue, the latest first. -/
def drawn (log : List Taking) : List Nat := ((log.filterMap Taking.entry).map Pending.token).reverse

section Defs

variable (g : Growth) (e : Expansion) (seeds : List Nat)

/-- **The arcs that the expansion of a frame tries, and when,** in their order. -/
def moments : List Moment := (e.taken g seeds).flatMap Taking.moments

/-- **The arcs that the expansion of a frame tries,** in their order. -/
def trials : List Trial := tried (e.taken g seeds)

/-- **The tokens that a frame expands,** as they are then. -/
def processed : List Token := (e.taken g seeds).map Taking.token

/-- **The tokens that a frame leads on:** their arcs are followed. -/
def led : List Nat := ledIn (e.taken g seeds)

end Defs

/-! ## What a trace tells -/

/-- **Arcs that are tried** one after the other, and what comes of it. -/
inductive Tries (g : Growth) (t : Token) (source : State) (link : Option Nat) :
    List Arc → Expansion → List Moment → Except (Halted Expansion) Expansion → Prop where
  | nil {e : Expansion} : Tries g t source link [] e [] (.ok e)
  | lost {arc : Arc} {arcs : List Arc} {e : Expansion} : g.graph.state? arc.target = none →
      Tries g t source link (arc :: arcs) e [] (.error ⟨.dangling (.state arc.target), e⟩)
  | halted {arc : Arc} {arcs : List Arc} {e : Expansion} {m : Moment} {err : Halted Expansion} :
      e.moment? g t source arc = some m → e.follow g t source link arc = .error err →
      Tries g t source link (arc :: arcs) e [m] (.error err)
  | cons {arc : Arc} {arcs : List Arc} {e e' : Expansion} {m : Moment} {log : List Moment}
      {out : Except (Halted Expansion) Expansion} :
      e.moment? g t source arc = some m → e.follow g t source link arc = .ok e' →
      Tries g t source link arcs e' log out → Tries g t source link (arc :: arcs) e (m :: log) out

/-- **What comes of a token that is expanded,** told by the arcs that are tried for it: a final one is
a result, and another one is left as it is, or all its arcs are tried until one halts. -/
inductive Yields (g : Growth) (x : Taking) : Except (Halted Expansion) Expansion → Prop where
  | result : x.token.kind.isFinal = true → x.moments = [] →
      Yields g x (.ok { x.before with results := x.before.results ++ [x.id] })
  | left : x.token.kind.isFinal = false → x.moments = [] → Yields g x (.ok x.before)
  | lost : g.graph.state? x.token.state = none → x.moments = [] →
      Yields g x (.error ⟨.dangling (.state x.token.state), x.before⟩)
  | led {source : State} {out : Except (Halted Expansion) Expansion} :
      x.token.kind.isFinal = false → g.graph.state? x.token.state = some source →
      Tries g x.token source (Store.link g.keepAllTokens x.id x.token) source.arcs x.before x.moments
        out →
      Yields g x out

/-- **The course of a frame** that starts with `e₀`: the tokens that have been expanded, and what came
of it.  The seeds come first, and are left if their states are marked; then it is always the best entry
of the queue that is not stale. -/
inductive Course (g : Growth) (seeds : List Nat) (e₀ : Expansion) :
    List Taking → Except (Halted Expansion) Expansion → Prop where
  | start : Course g seeds e₀ [] (.ok e₀)
  | seed {log : List Taking} {e e' : Expansion} {id : Nat} {t : Token} :
      Course g seeds e₀ log (.ok e) → (∀ x ∈ log, x.entry = none) → id ∈ seeds →
      e.store.get? id = some t → Opens e t e' →
      Course g seeds e₀ (log ++ [e'.taking g none id t]) (e'.expandToken g id t)
  | round {log : List Taking} {e : Expansion} {p : Pending} {rest : List Pending} {t : Token} :
      Course g seeds e₀ log (.ok e) → e.queue.dropWhile e.isStale = p :: rest →
      e.store.get? p.token = some t →
      Course g seeds e₀
        (log ++
          [taking g { e with queue := rest, expanded := t.state :: e.expanded } (some p) p.token t])
        ({ e with queue := rest, expanded := t.state :: e.expanded }.expandToken g p.token t)
  | clear {log : List Taking} {e : Expansion} : Course g seeds e₀ log (.ok e) →
      e.queue.dropWhile e.isStale = [] → Course g seeds e₀ log (.ok { e with queue := [] })
  | lost {log : List Taking} {e : Expansion} {id : Nat} : Course g seeds e₀ log (.ok e) →
      (id ∈ seeds ∨ ∃ p ∈ e.queue, p.token = id) → e.store.get? id = none →
      Course g seeds e₀ log (.error ⟨.dangling (.token id), e⟩)

/-- **A list that tells a frame:** its tokens are those that are expanded, and what comes of each of
them comes from the arcs that are listed with it. -/
structure Traces (g : Growth) (seeds : List Nat) (e₀ : Expansion) (log : List Taking)
    (out : Except (Halted Expansion) Expansion) : Prop where
  course : Course g seeds e₀ log out
  yields : ∀ x ∈ log, Yields g x (x.before.expandToken g x.id x.token)

variable {g : Growth} {seeds : List Nat} {e₀ e : Expansion} {log : List Taking} {id : Nat}
  {t : Token} {source : State} {link : Option Nat} {out : Except (Halted Expansion) Expansion}

theorem ledIn_concat (log : List Taking) (x : Taking) :
    ledIn (log ++ [x]) = ledIn log ++ if x.moments = [] then [] else [x.id] := by
  unfold ledIn
  cases hx : x.moments <;> simp [List.filter_append, hx]

theorem drawn_seed (log : List Taking) (e : Expansion) (id : Nat) (t : Token) :
    drawn (log ++ [e.taking g none id t]) = drawn log := by
  simp [drawn, taking]

theorem drawn_round (log : List Taking) (e : Expansion) (p : Pending) (id : Nat) (t : Token) :
    drawn (log ++ [e.taking g (some p) id t]) = p.token :: drawn log := by
  simp [drawn, taking]

theorem drawn_eq_nil (h : ∀ x ∈ log, x.entry = none) : drawn log = [] := by
  simp [drawn, List.filterMap_eq_nil_iff.2 h]

theorem tried_concat (log : List Taking) (x : Taking) :
    tried (log ++ [x]) = tried log ++ x.moments.map Moment.trial := by
  simp [tried]

theorem flatMap_onward {α β : Type} (f : α → List β) (x : Except (Halted Expansion) Expansion)
    (rest : Expansion → List α) :
    (onward x rest).flatMap f = onward x fun e => (rest e).flatMap f := by
  cases x <;> rfl

theorem trial_moment? (g : Growth) (e : Expansion) (t : Token) (source : State) (arc : Arc) :
    (e.moment? g t source arc).toList.map Moment.trial = (e.trial? g t source arc).toList := by
  unfold moment?
  cases e.trial? g t source arc <;> rfl

theorem before_of_mem_moment? {arc : Arc} {m : Moment}
    (hm : m ∈ (e.moment? g t source arc).toList) : m.before = e := by
  obtain ⟨_, -, rfl⟩ := Option.map_eq_some_iff.1 (Option.mem_toList.1 hm)
  rfl

/-! ## One token -/

/-- **What survives an arc,** and may speak of the moments so far, survives some arcs, by induction on
them. -/
theorem over_rule {J : List Moment → Expansion → Prop} {H : List Moment → Halted Expansion → Prop}
    {arcs : List Arc}
    (hfollow : ∀ log e, ∀ arc ∈ arcs, J log e →
      Outcome (J (log ++ (moment? g e t source arc).toList))
        (H (log ++ (moment? g e t source arc).toList)) (Expansion.follow g e t source link arc))
    (h : J [] e) :
    Outcome (J (momentsOver g t source link arcs e)) (H (momentsOver g t source link arcs e))
      (arcs.foldlM (fun e arc => Expansion.follow g e t source link arc) e) := by
  induction arcs generalizing e J H with
  | nil => exact h
  | cons arc arcs ih =>
    have hone := hfollow [] e arc List.mem_cons_self h
    rw [List.nil_append] at hone
    rw [momentsOver, List.foldlM_cons]
    cases hx : e.follow g t source link arc with
    | error err =>
      rw [onward, List.append_nil]
      exact hone.of_error hx
    | ok e' =>
      refine ih (J := fun log => J ((e.moment? g t source arc).toList ++ log))
        (H := fun log => H ((e.moment? g t source arc).toList ++ log))
        (fun log e a ha h => ?_) ?_
      · rw [← List.append_assoc]
        exact hfollow _ e a (List.mem_cons_of_mem arc ha) h
      · rw [List.append_nil]
        exact hone.of_ok hx

/-- **The moments of some arcs** tell what comes of them, by induction on the arcs. -/
theorem tries_over (g : Growth) (t : Token) (source : State) (link : Option Nat) :
    ∀ (arcs : List Arc) (e : Expansion), Tries g t source link arcs e
      (momentsOver g t source link arcs e)
      (arcs.foldlM (fun e arc => follow g e t source link arc) e)
  | [], _ => .nil
  | arc :: arcs, e => by
    rw [momentsOver, List.foldlM_cons]
    cases ht : g.graph.state? arc.target with
    | none =>
      rw [follow_lost ht, moment?, trial?, ht]
      exact .lost ht
    | some target =>
      have hm : ∃ m, e.moment? g t source arc = some m := by simp [moment?, trial?, ht]
      obtain ⟨m, hm⟩ := hm
      rw [hm]
      cases hx : e.follow g t source link arc with
      | error err => exact .halted hm hx
      | ok e' => exact .cons hm hx (tries_over g t source link arcs e')

/-- **The moments of a token** tell what comes of it. -/
theorem yields_taking (g : Growth) (e : Expansion) (entry : Option Pending) (id : Nat) (t : Token) :
    Yields g (e.taking g entry id t) (e.expandToken g id t) := by
  have hmoments : (e.taking g entry id t).moments = e.momentsOfToken g id t := rfl
  unfold momentsOfToken at hmoments
  unfold Expansion.expandToken
  cases hfinal : t.kind.isFinal with
  | true =>
    rw [if_pos rfl]
    exact .result hfinal (by simpa [hfinal] using hmoments)
  | false =>
    rw [if_neg Bool.false_ne_true]
    by_cases hpoor : e.isPoor g t = true
    · rw [if_pos hpoor]
      exact .left hfinal (by simpa [hpoor] using hmoments)
    · rw [if_neg hpoor]
      rw [hfinal, Bool.false_or, if_neg hpoor] at hmoments
      cases hs : g.graph.state? t.state with
      | none => exact .lost hs (by rw [hmoments, hs])
      | some source =>
        rw [hs] at hmoments
        exact .led hfinal hs (hmoments ▸ tries_over g t source _ source.arcs e)

/-- All arcs are tried, if none halts. -/
theorem Tries.arcs_eq {arcs : List Arc} {moments : List Moment}
    (h : Tries g t source link arcs e moments out) :
    Outcome (fun _ => moments.map (fun m => m.trial.arc) = arcs) (fun _ => True) out := by
  induction h with
  | nil => rfl
  | lost _ => trivial
  | halted _ _ => trivial
  | cons hm _ _ ih =>
    obtain ⟨x, hx, rfl⟩ := Option.map_eq_some_iff.1 hm
    obtain ⟨target, -, rfl⟩ := Option.map_eq_some_iff.1 hx
    exact ih.imp fun _ h => congrArg _ h

/-- **The arcs of a token** that is not final, and whose expansion is not halted. -/
theorem arcs_of_expandToken (hfinal : t.kind.isFinal = false)
    (hs : g.graph.state? t.state = some source) {e' : Expansion}
    (hx : e.expandToken g id t = .ok e') :
    (e.momentsOfToken g id t).map (fun m => m.trial.arc) =
      if e.isPoor g t then [] else source.arcs := by
  unfold Expansion.expandToken at hx
  unfold momentsOfToken
  rw [hfinal, Bool.false_or]
  rw [if_neg (by simp [hfinal])] at hx
  cases hpoor : e.isPoor g t with
  | true => rfl
  | false =>
    simp only [hpoor, Bool.false_eq_true, if_false, hs] at hx ⊢
    exact (tries_over g t source _ source.arcs e).arcs_eq.of_ok hx

/-! ## The course of a frame -/

/-- A seed. -/
theorem Course.takenSeed (h : Course g seeds e₀ log (.ok e)) (hlog : ∀ x ∈ log, x.entry = none)
    (hid : id ∈ seeds) :
    Course g seeds e₀ (log ++ e.takenSeed g id) (e.expandSeed g id) := by
  unfold Expansion.takenSeed Expansion.expandSeed
  cases ht : e.store.get? id with
  | none =>
    rw [List.append_nil]
    exact h.lost (.inl hid) ht
  | some t =>
    dsimp only
    cases hmark : e.mark? t with
    | none =>
      rw [Option.map_none, Option.toList_none, List.append_nil]
      exact h
    | some e' => exact h.seed hlog hid ht (mark?_eq_some.1 hmark)

theorem entry_of_mem_takenSeed {x : Taking} (hx : x ∈ e.takenSeed g id) : x.entry = none := by
  unfold Expansion.takenSeed at hx
  split at hx
  · cases hx
  · obtain ⟨e', -, rfl⟩ := Option.map_eq_some_iff.1 (Option.mem_toList.1 hx)
    rfl

/-- The seeds, by induction on them. -/
theorem Course.takenSeeds : ∀ (ids : List Nat) {log : List Taking} {e : Expansion},
    Course g seeds e₀ log (.ok e) → (∀ x ∈ log, x.entry = none) → (∀ id ∈ ids, id ∈ seeds) →
    Course g seeds e₀ (log ++ Expansion.takenSeeds g ids e)
      (ids.foldlM (fun e id => Expansion.expandSeed g e id) e)
  | [], log, e, h, _, _ => by
    rw [Expansion.takenSeeds, List.append_nil]
    exact h
  | id :: ids, log, e, h, hlog, hids => by
    have hone := h.takenSeed hlog (hids id (by simp))
    rw [Expansion.takenSeeds, List.foldlM_cons, ← List.append_assoc]
    cases hx : e.expandSeed g id with
    | error err =>
      rw [hx] at hone
      rw [onward, List.append_nil]
      exact hone
    | ok e' =>
      rw [hx] at hone
      refine Course.takenSeeds ids hone (fun x hx => ?_) fun c hc => hids c (List.mem_cons_of_mem id hc)
      exact (List.mem_append.1 hx).elim (hlog x) entry_of_mem_takenSeed

/-- The rounds, by induction on their number. -/
theorem Course.takenRounds : ∀ (rounds : Nat) {log : List Taking} {e : Expansion},
    Course g seeds e₀ log (.ok e) →
    Course g seeds e₀ (log ++ Expansion.takenRounds g rounds e) (e.drain g rounds)
  | 0, log, e, h => by
    rw [Expansion.takenRounds, List.append_nil]
    exact h
  | rounds + 1, log, e, h => by
    unfold Expansion.takenRounds Expansion.drain
    cases hq : e.queue.dropWhile e.isStale with
    | nil =>
      rw [List.append_nil]
      exact h.clear hq
    | cons p rest =>
      dsimp only
      cases ht : e.store.get? p.token with
      | none =>
        have hmem : p ∈ e.queue := (List.dropWhile_suffix _).subset (by rw [hq]; simp)
        rw [List.append_nil]
        exact h.lost (.inr ⟨p, hmem, rfl⟩) ht
      | some t =>
        have hone := h.round hq ht
        dsimp only
        rw [← List.singleton_append, ← List.append_assoc]
        cases hx : Expansion.expandToken g
            { e with queue := rest, expanded := t.state :: e.expanded } p.token t with
        | error err =>
          rw [hx] at hone
          rw [onward, List.append_nil]
          exact hone
        | ok e' =>
          rw [hx] at hone
          exact Course.takenRounds rounds hone

/-- **The course of a frame.** -/
theorem course_run (g : Growth) (e : Expansion) (seeds : List Nat) :
    Course g seeds e (e.taken g seeds) (e.run g seeds) := by
  have hstart : Course g seeds e [] (.ok e) := .start
  have hseeds := hstart.takenSeeds seeds (fun _ hx => by cases hx) fun _ h => h
  unfold taken Expansion.run
  rw [List.nil_append] at hseeds
  cases hx : seeds.foldlM (fun e id => Expansion.expandSeed g e id) e with
  | error err =>
    rw [hx] at hseeds
    rw [onward, List.append_nil]
    exact hseeds
  | ok e' =>
    rw [hx] at hseeds
    exact hseeds.takenRounds _

/-- The moments that are listed with a token are those of its arcs. -/
theorem Course.eq_taking (h : Course g seeds e₀ log out) :
    ∀ x ∈ log, x = x.before.taking g x.entry x.id x.token := by
  induction h with
  | start => exact fun _ hx => by cases hx
  | seed _ _ _ _ _ ih =>
    exact fun x hx => (List.mem_append.1 hx).elim (ih x) fun hx => by rw [List.mem_singleton.1 hx]; rfl
  | round _ _ _ ih =>
    exact fun x hx => (List.mem_append.1 hx).elim (ih x) fun hx => by rw [List.mem_singleton.1 hx]; rfl
  | clear _ _ ih => exact ih
  | lost _ _ _ ih => exact ih

/-- In a frame that is not halted no token halts it. -/
theorem Course.exists_ok (h : Course g seeds e₀ log out) :
    Outcome (fun _ => ∀ x ∈ log, ∃ e', x.before.expandToken g x.id x.token = .ok e') (fun _ => True)
      out := by
  have hconcat : ∀ {log : List Taking} (x : Taking),
      (∀ y ∈ log, ∃ e', y.before.expandToken g y.id y.token = .ok e') →
      Outcome (fun _ => ∀ y ∈ log ++ [x], ∃ e', y.before.expandToken g y.id y.token = .ok e')
        (fun _ => True) (x.before.expandToken g x.id x.token) := by
    intro log x hlog
    cases hx : x.before.expandToken g x.id x.token with
    | error err => trivial
    | ok e' =>
      intro y hy
      rcases List.mem_append.1 hy with hy | hy
      · exact hlog y hy
      · exact ⟨e', List.mem_singleton.1 hy ▸ hx⟩
  induction h with
  | start => exact fun _ hx => by cases hx
  | seed _ _ _ _ _ ih => exact hconcat (taking g _ none _ _) ih
  | round _ _ _ ih => exact hconcat (taking g _ (some _) _ _) ih
  | clear _ _ ih => exact ih
  | lost _ _ _ _ => trivial

/-- **The trace tells the frame.** -/
theorem traces_run (g : Growth) (e : Expansion) (seeds : List Nat) :
    Traces g seeds e (e.taken g seeds) (e.run g seeds) := by
  refine ⟨course_run g e seeds, fun x hx => ?_⟩
  rw [(course_run g e seeds).eq_taking x hx]
  exact yields_taking g x.before x.entry x.id x.token

end Expansion

end SpeechDecoder

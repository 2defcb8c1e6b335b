import SpeechDecoder.Proofs.Expansion.Writes
import SpeechDecoder.Proofs.Outcome
import SpeechDecoder.Proofs.Token.Renaming

/-!
# The steps of an expansion

What a step of an expansion comes to: the tests it passed, and its result as an update of the
expansion before it.  The invariants of a frame go by these cases.

* `arrive_keeps` is for an arrival, `follow_cases` for an arc, `expandToken_cases` for a token that is
  expanded, and `expandSeed_cases` for one that the frame starts from.
* `Opens` is the expansion that a seed is expanded in.
* `matched_follow`, `matched_expandToken` and `matched_expandSeed` are for a step in two expansions
  at once, which passes the same tests in both.
-/

namespace SpeechDecoder.Expansion

variable {g : Growth} {e e' : Expansion} {t : Token} {source target : State} {arc : Arc} {id : Nat}

/-- **An arrival** leaves the marks, the results and the penalties that are known, and no token
goes. -/
theorem arrive_keeps (g : Growth) (e : Expansion) (link : Option Nat) (arc : Arc) (kind : StateKind)
    (score : Score) :
    Outcome (fun e' => e'.expanded = e.expanded ∧ e'.results = e.results ∧ e'.memo = e.memo ∧
        e.store.size ≤ e'.store.size)
      (fun _ => True) (e.arrive g link arc kind score) := by
  unfold Expansion.arrive
  split
  · cases h : (kind.isEmitting && !e.next.admits score) with
    | true =>
      rw [settle_refused h]
      exact ⟨rfl, rfl, rfl, le_rfl⟩
    | false =>
      obtain ⟨_, _, heq⟩ := settle_eq (g := g) h link arc
      rw [heq]
      exact ⟨rfl, rfl, rfl, by simp⟩
  · next id _ =>
    refine Outcome.bind (P := fun _ => True) (Outcome.trivial _) fun t _ => ?_
    by_cases h : t.score < score
    · obtain ⟨_, _, heq⟩ := contest_better (g := g) (e := e) h link arc kind id
      rw [heq]
      exact ⟨rfl, rfl, rfl, by simp⟩
    · obtain ⟨_, heq⟩ := contest_worse (g := g) (e := e) h link arc kind id
      rw [heq]
      exact ⟨rfl, rfl, rfl, le_rfl⟩

/-- An arc that leads to no state of the graph. -/
theorem follow_lost (ht : g.graph.state? arc.target = none) (e : Expansion) (t : Token)
    (source : State) (link : Option Nat) :
    e.follow g t source link arc = .error ⟨.dangling (.state arc.target), e⟩ := by
  unfold Expansion.follow
  rw [ht]

/-- **Following an arc:** it is cut, or it leads to a lower order, or there is an arrival.  The test
of the cut leaves what it learned, whatever comes of it. -/
theorem follow_cases (ht : g.graph.state? arc.target = some target) (e : Expansion) (t : Token)
    (source : State) (link : Option Nat) :
    ∃ isCut memo,
      e.cut g t.kind target.kind (t.score + arc.probability) = (isCut, { e with memo }) ∧
      (isCut = true ∧ e.follow g t source link arc = .ok { e with memo } ∨
        isCut = false ∧ g.checkStateOrder = true ∧ breaksOrder source.order target.order = true ∧
          e.follow g t source link arc =
            .error ⟨.stateOrder t.state arc.target source.order target.order, { e with memo }⟩ ∨
        isCut = false ∧
          (g.checkStateOrder = true → breaksOrder source.order target.order = false) ∧
          e.follow g t source link arc =
            (arrive g { e with memo } link arc target.kind (t.score + arc.probability)).mapError
              fun f => ⟨.dangling f, { e with memo }⟩) := by
  obtain ⟨isCut, memo, heq⟩ := cut_eq g e t.kind target.kind (t.score + arc.probability)
  refine ⟨isCut, memo, heq, ?_⟩
  unfold Expansion.follow
  simp only [ht, heq]
  cases isCut with
  | true => exact .inl ⟨rfl, rfl⟩
  | false =>
    by_cases hbroken : g.checkStateOrder = true ∧ breaksOrder source.order target.order = true
    · refine .inr (.inl ⟨rfl, hbroken.1, hbroken.2, ?_⟩)
      rw [if_neg Bool.false_ne_true, if_pos (Bool.and_eq_true_iff.2 hbroken)]
    · refine .inr (.inr ⟨rfl, fun hcheck => ?_, ?_⟩)
      · exact Bool.eq_false_iff.2 fun hbreaks => hbroken ⟨hcheck, hbreaks⟩
      · rw [if_neg Bool.false_ne_true, if_neg fun h => hbroken (Bool.and_eq_true_iff.1 h)]

theorem isPoor_iff : e.isPoor g t = true ↔
    t.kind.isWord = true ∧ t.score < e.bestWord + g.wordMargin := by
  unfold isPoor
  rw [Bool.and_eq_true, decide_eq_true_eq]

/-- **The expansion of a token:** a final one is a result, a poor word is left, and else its arcs are
followed. -/
theorem expandToken_cases (g : Growth) (e : Expansion) (id : Nat) (t : Token) :
    t.kind.isFinal = true ∧ e.expandToken g id t = .ok { e with results := e.results ++ [id] } ∨
      t.kind.isFinal = false ∧ t.kind.isWord = true ∧ t.score < e.bestWord + g.wordMargin ∧
        e.expandToken g id t = .ok e ∨
      t.kind.isFinal = false ∧ (t.kind.isWord = true → ¬ t.score < e.bestWord + g.wordMargin) ∧
        (g.graph.state? t.state = none ∧
            e.expandToken g id t = .error ⟨.dangling (.state t.state), e⟩ ∨
          ∃ source, g.graph.state? t.state = some source ∧ e.expandToken g id t =
            source.arcs.foldlM
              (fun e arc => follow g e t source (Store.link g.keepAllTokens id t) arc) e) := by
  unfold Expansion.expandToken
  cases hfinal : t.kind.isFinal with
  | true => exact .inl ⟨rfl, rfl⟩
  | false =>
    rw [if_neg Bool.false_ne_true]
    by_cases hpoor : e.isPoor g t = true
    · exact .inr (.inl ⟨rfl, (isPoor_iff.1 hpoor).1, (isPoor_iff.1 hpoor).2, if_pos hpoor⟩)
    · rw [if_neg hpoor]
      refine .inr (.inr ⟨rfl, fun hword hlt => hpoor (isPoor_iff.2 ⟨hword, hlt⟩), ?_⟩)
      cases hs : g.graph.state? t.state with
      | none => exact .inl ⟨rfl, rfl⟩
      | some source => exact .inr ⟨source, rfl, rfl⟩

/-! ## Seeds -/

/-- **The expansion that a seed is expanded in:** its state is marked if it emits nothing, and was
not marked before. -/
inductive Opens (e : Expansion) (t : Token) : Expansion → Prop where
  | emitting : t.kind.isEmitting = true → Opens e t e
  | idle : t.kind.isEmitting = false → t.state ∉ e.expanded →
      Opens e t { e with expanded := t.state :: e.expanded }

/-- Nothing but the states that are marked changes. -/
theorem Opens.eq (h : Opens e t e') : ∃ expanded, e' = { e with expanded } := by
  cases h with
  | emitting _ => exact ⟨e.expanded, rfl⟩
  | idle _ _ => exact ⟨_, rfl⟩

theorem mark?_eq_some : e.mark? t = some e' ↔ Opens e t e' := by
  unfold mark?
  constructor
  · intro h
    split_ifs at h with hemits hmarked
    · cases h
      exact .emitting hemits
    · cases h
      exact .idle (by simpa using hemits) fun hmem => hmarked (List.contains_iff_mem.2 hmem)
  · rintro (hemits | ⟨hidle, hno⟩)
    · exact if_pos hemits
    · simp [hidle, hno]

/-- Only a state that is marked is left. -/
theorem mark?_eq_none : e.mark? t = none ↔ t.kind.isEmitting = false ∧ t.state ∈ e.expanded := by
  unfold mark?
  cases t.kind.isEmitting <;> simp

/-- A seed that is no token of the store. -/
theorem expandSeed_lost (ht : e.store.get? id = none) (g : Growth) :
    e.expandSeed g id = .error ⟨.dangling (.token id), e⟩ := by
  unfold Expansion.expandSeed
  rw [ht]

/-- **The expansion of a seed:** it is left if its state is marked, and else expanded. -/
theorem expandSeed_cases (ht : e.store.get? id = some t) (g : Growth) :
    t.kind.isEmitting = false ∧ t.state ∈ e.expanded ∧ e.expandSeed g id = .ok e ∨
      ∃ e', Opens e t e' ∧ e.expandSeed g id = e'.expandToken g id t := by
  unfold Expansion.expandSeed
  simp only [ht]
  cases hmark : e.mark? t with
  | none => exact .inl ⟨(mark?_eq_none.1 hmark).1, (mark?_eq_none.1 hmark).2, rfl⟩
  | some e' => exact .inr ⟨e', mark?_eq_some.1 hmark, rfl⟩

/-! ## Two expansions -/

section Matched

variable {g' : Growth} {t' : Token} {id' : Nat} {R : Expansion → Expansion → Prop}
  {S : Halted Expansion → Halted Expansion → Prop}

/-- **Following an arc in two expansions** that test it alike. -/
theorem matched_follow {link link' : Option Nat} (hgraph : g'.graph = g.graph)
    (hcheck : g'.checkStateOrder = g.checkStateOrder) (halike : t'.detached = t.detached)
    (ht : g.graph.state? arc.target = some target)
    (hsame : (e'.cut g' t.kind target.kind (t.score + arc.probability)).1 =
      (e.cut g t.kind target.kind (t.score + arc.probability)).1)
    (hcut : R (e.cut g t.kind target.kind (t.score + arc.probability)).2
      (e'.cut g' t.kind target.kind (t.score + arc.probability)).2)
    (hhalt : S
      ⟨.stateOrder t.state arc.target source.order target.order,
        (e.cut g t.kind target.kind (t.score + arc.probability)).2⟩
      ⟨.stateOrder t.state arc.target source.order target.order,
        (e'.cut g' t.kind target.kind (t.score + arc.probability)).2⟩)
    (harrive : Matched R
      (fun f f' => S ⟨.dangling f, (e.cut g t.kind target.kind (t.score + arc.probability)).2⟩
        ⟨.dangling f', (e'.cut g' t.kind target.kind (t.score + arc.probability)).2⟩)
      ((e.cut g t.kind target.kind (t.score + arc.probability)).2.arrive g link arc target.kind
        (t.score + arc.probability))
      ((e'.cut g' t.kind target.kind (t.score + arc.probability)).2.arrive g' link' arc target.kind
        (t.score + arc.probability))) :
    Matched R S (e.follow g t source link arc) (e'.follow g' t' source link' arc) := by
  obtain ⟨hstate, hkind, hscore, -⟩ := Store.detached_eq_iff.1 halike
  unfold Expansion.follow
  simp only [hgraph, hcheck, hstate, hkind, hscore, ht]
  rw [hsame]
  split
  · exact hcut
  · split
    · exact hhalt
    · exact harrive.mapError

/-- **Expanding a token in two expansions** that judge words alike. -/
theorem matched_expandToken (hgraph : g'.graph = g.graph)
    (hmargin : e'.bestWord + g'.wordMargin = e.bestWord + g.wordMargin)
    (halike : t'.detached = t.detached)
    (hresult : R { e with results := e.results ++ [id] } { e' with results := e'.results ++ [id'] })
    (hpoor : R e e')
    (hlost : g.graph.state? t.state = none → ∀ err, S ⟨err, e⟩ ⟨err, e'⟩)
    (harcs : t.kind.isFinal = false → ∀ source, g.graph.state? t.state = some source → Matched R S
      (source.arcs.foldlM
        (fun e arc => follow g e t source (Store.link g.keepAllTokens id t) arc) e)
      (source.arcs.foldlM
        (fun e arc => follow g' e t' source (Store.link g'.keepAllTokens id' t') arc) e')) :
    Matched R S (e.expandToken g id t) (e'.expandToken g' id' t') := by
  obtain ⟨hstate, hkind, hscore, -⟩ := Store.detached_eq_iff.1 halike
  unfold Expansion.expandToken isPoor
  rw [hgraph, hmargin, hstate, hkind, hscore]
  split
  · exact hresult
  · next hfinal =>
    split
    · exact hpoor
    · cases hs : g.graph.state? t.state with
      | none => exact hlost hs _
      | some source => exact harcs (by simpa using hfinal) source hs

/-- **Expanding a seed in two expansions** with the same states marked. -/
theorem matched_expandSeed (ht : e.store.get? id = some t) (ht' : e'.store.get? id' = some t')
    (halike : t'.detached = t.detached) (hmarked : e'.expanded = e.expanded) (hleft : R e e')
    (hopens : ∀ expanded, Opens e t { e with expanded } → Opens e' t' { e' with expanded } →
      Matched R S (expandToken g { e with expanded } id t)
        (expandToken g' { e' with expanded } id' t')) :
    Matched R S (e.expandSeed g id) (e'.expandSeed g' id') := by
  obtain ⟨hstate, hkind, -⟩ := Store.detached_eq_iff.1 halike
  have hsame : { e' with expanded := e.expanded } = e' := by rw [← hmarked]
  unfold Expansion.expandSeed mark?
  simp only [ht, ht', hstate, hkind, hmarked]
  cases hemits : t.kind.isEmitting with
  | true =>
    have hopen : Opens e' t' { e' with expanded := e.expanded } := by
      rw [hsame]
      exact .emitting (hkind ▸ hemits)
    have hboth := hopens e.expanded (.emitting hemits) hopen
    rw [hsame] at hboth
    exact hboth
  | false =>
    by_cases hin : t.state ∈ e.expanded
    · simp only [List.contains_iff_mem, hin, if_true, Bool.false_eq_true, if_false]
      exact hleft
    · simp only [List.contains_iff_mem, hin, Bool.false_eq_true, if_false]
      have hopen := Opens.idle (e := e') (t := t') (hkind ▸ hemits) (by rw [hstate, hmarked]; exact hin)
      rw [hstate, hmarked] at hopen
      exact hopens _ (.idle hemits hin) hopen

end Matched

end SpeechDecoder.Expansion

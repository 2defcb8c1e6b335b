import SpeechDecoder.Proofs.Expansion.Frame

/-!
# The tokens that are led on

A token that is expanded is a result, is left because it is too poor a word, or is led on: its arcs
are followed.

* `Sound.taking_cases` are these cases, with the arcs that are tried in each.
* `Leads.arcs_rule` says what the arcs of a token keep that is led on.
-/

namespace SpeechDecoder.Expansion

variable {g : Growth} {base : Store} {done : List Nat} {e e' : Expansion} {c id : Nat} {t u : Token}
  {source : State}

/-! ## The arcs that are tried -/

/-- **A token that is expanded:** it is a result, it is too poor a word, or its arcs are tried. -/
theorem Sound.taking_cases (h : Sound g base done e) (hc : Settled base done c)
    (hu : e.store.get? c = some u)
    (hlead : ∀ d ∈ done, ∀ t, e.store.get? d = some t → ¬ t.score < u.score) :
    u.kind.isFinal = true ∧ e.momentsOfToken g c u = [] ∧
        e.expandToken g c u = .ok { e with results := e.results ++ [c] } ∨
      e.isPoor g u = true ∧ e.momentsOfToken g c u = [] ∧ e.expandToken g c u = .ok e ∨
      Leads g base done e c u ∧ e.isPoor g u = false ∧ ∃ source,
        g.graph.state? u.state = some source ∧
        e.momentsOfToken g c u =
          momentsOver g u source (Store.link g.keepAllTokens c u) source.arcs e ∧
        e.expandToken g c u = source.arcs.foldlM
          (fun e arc => Expansion.follow g e u source (Store.link g.keepAllTokens c u) arc) e := by
  unfold momentsOfToken
  rcases h.expandToken_cases hc hu hlead with
    ⟨hfinal, hx⟩ | ⟨-, hword, hlt, hx⟩ | ⟨hl, hrich, source, hs, hx⟩
  · exact .inl ⟨hfinal, by rw [hfinal, Bool.true_or, if_pos rfl], hx⟩
  · have hpoor : e.isPoor g u = true := isPoor_iff.2 ⟨hword, hlt⟩
    exact .inr (.inl ⟨hpoor, by rw [hpoor, Bool.or_true, if_pos rfl], hx⟩)
  · have hnot : e.isPoor g u = false := Bool.eq_false_iff.2 fun hpoor =>
      hrich (isPoor_iff.1 hpoor).1 (isPoor_iff.1 hpoor).2
    refine .inr (.inr ⟨hl, hnot, source, hs, ?_, hx⟩)
    rw [hl.notFinal, hnot, Bool.or_self, if_neg Bool.false_ne_true, hs]

/-- The first arc of a token is tried, since it leads to a state of the graph. -/
theorem momentsOver_eq_nil (hs : g.graph.state? u.state = some source) (t : Token)
    (link : Option Nat) (e : Expansion) :
    momentsOver g t source link source.arcs e = [] ↔ source.arcs = [] := by
  cases harcs : source.arcs with
  | nil => exact iff_of_true rfl rfl
  | cons arc arcs =>
    have hmem : arc ∈ source.arcs := harcs ▸ List.mem_cons_self
    obtain ⟨target, ht, -⟩ := exists_target hs hmem
    simp [momentsOver, moment?, trial?, ht]

/-! ## Arcs -/

/-- What is cut leads to an emitting state. -/
theorem isEmitting_of_cut (g : Growth) (e : Expansion) {source kind : StateKind} {score : Score}
    (h : (e.cut g source kind score).1 = true) : kind.isEmitting = true := by
  unfold Expansion.cut at h
  split at h
  · next c p _ hp =>
    split at hp
    · exact StateKind.isEmitting_iff.2 ⟨p, hp⟩
    · cases hp
  · cases h

/-- **The arcs of a token that is led on,** by induction on them.  The invariant may speak of the
arcs that have been followed. -/
theorem Leads.arcs_rule {I : List Arc → Expansion → Prop} (hl : Leads g base done e c u)
    (h : Sound g base done e) (hs : g.graph.state? u.state = some source)
    (hcut : ∀ followed arc target e memo, g.graph.state? arc.target = some target →
      target.kind.isEmitting = true → I followed e → I (followed ++ [arc]) { e with memo })
    (harrive : ∀ followed arc target e memo e', arc ∈ source.arcs →
      g.graph.state? arc.target = some target → Sound g base done e → Leads g base done e c u →
      I followed e →
      { e with memo }.arrive g (Store.link g.keepAllTokens c u) arc target.kind
        (u.score + arc.probability) = .ok e' →
      Sound g base done e' → (∀ d, Settled base done d → e'.store.get? d = e.store.get? d) →
      I (followed ++ [arc]) e')
    (hI : I [] e) :
    Outcome (fun e' => Sound g base done e' ∧ Leads g base done e' c u ∧ I source.arcs e' ∧
        ∀ d, Settled base done d → e'.store.get? d = e.store.get? d) (fun _ => True)
      (source.arcs.foldlM
        (fun e arc => follow g e u source (Store.link g.keepAllTokens c u) arc) e) := by
  have hall := Outcome.foldlM_rest (H := fun _ => True)
    (I := fun rest e' => Sound g base done e' ∧ Leads g base done e' c u ∧
      (∀ d, Settled base done d → e'.store.get? d = e.store.get? d) ∧
      ∃ followed, followed ++ rest = source.arcs ∧ I followed e')
    (f := fun e arc => follow g e u source (Store.link g.keepAllTokens c u) arc)
    (fun arc rest e₁ ⟨h₁, hl₁, hstay₁, followed, hsplit, hI₁⟩ => by
      have harc : arc ∈ source.arcs := by
        rw [← hsplit]
        simp
      have hsplit' : followed ++ [arc] ++ rest = source.arcs := by simpa using hsplit
      obtain ⟨target, ht, -⟩ := exists_target hs harc
      refine hl₁.follow_rule h₁ hs harc ht (fun memo hc => ?_) (fun _ _ => trivial)
        fun memo e₂ he₂ h₂ hl₂ hstay₂ => ?_
      · exact ⟨h₁.memo memo, hl₁.memo memo, hstay₁, followed ++ [arc], hsplit',
          hcut followed arc target e₁ memo ht (isEmitting_of_cut g e₁ hc) hI₁⟩
      · exact ⟨h₂, hl₂, fun d hd => (hstay₂ d hd).trans (hstay₁ d hd), followed ++ [arc], hsplit',
          harrive followed arc target e₁ memo e₂ harc ht h₁ hl₁ hI₁ he₂ h₂ hstay₂⟩)
    source.arcs e ⟨h, hl, fun _ _ => rfl, [], rfl, hI⟩
  refine hall.imp fun e' ⟨h', hl', hstay, followed, hsplit, hI'⟩ => ⟨h', hl', ?_, hstay⟩
  rw [List.append_nil] at hsplit
  exact hsplit ▸ hI'

/-- **Expanding a settled token** does not touch what is settled. -/
theorem Sound.expandToken_stay (h : Sound g base done e) (hc : Settled base done c)
    (hu : e.store.get? c = some u)
    (hlead : ∀ d ∈ done, ∀ t, e.store.get? d = some t → ¬ t.score < u.score) :
    Outcome (fun e' => Sound g base done e' ∧
        ∀ d, Settled base done d → e'.store.get? d = e.store.get? d) (fun _ => True)
      (e.expandToken g c u) := by
  rcases h.expandToken_cases hc hu hlead with ⟨-, hx⟩ | ⟨-, -, -, hx⟩ | ⟨hl, -, source, hs, hx⟩
  · rw [hx]
    exact ⟨h.results _, fun _ _ => rfl⟩
  · rw [hx]
    exact ⟨h, fun _ _ => rfl⟩
  · rw [hx]
    refine (hl.arcs_rule (I := fun _ _ => True) h hs (fun _ _ _ _ _ _ _ _ => trivial) ?_
      trivial).imp fun _ h => ⟨h.1, h.2.2.2⟩
    exact fun _ _ _ _ _ _ _ _ _ _ _ _ _ _ => trivial

end SpeechDecoder.Expansion

/-! ## An example -/

namespace SpeechDecoder.Expansion.Relay

/-- The word on state 2 is reached from the start, and better through the word on state 1.  State 3
emits, and state 4 is final. -/
def graph : Graph where
  initial := 0
  states := #[⟨.branch, 0, [.new 1 (Float32.ofBits 0xBF800000), .new 2 (Float32.ofBits 0xC0400000)]⟩,
    ⟨.word 0, 2, [.new 2 (Float32.ofBits 0xBF800000), .new 3 .certain, .new 4 .certain]⟩,
    ⟨.word 1, 2, [.new 3 .certain]⟩, ⟨.emitting 0, 5, [.new 0 .certain]⟩, .ofKind .final]
  initial_lt := by decide
  sound := by unfold State.Sound; decide

/-- The first frame, in which a word is led on if it is no more than 0.5 below the best one. -/
def growth : Growth where
  graph := graph
  frame := 0
  keepAllTokens := false
  checkStateOrder := false
  wordMargin := Float32.ofBits 0xBF000000
  phoneCut := none
  buildLattice := true

/-- The token that the frame starts from. -/
def base : Store := Store.empty.push (.seed 0 .branch 0)

theorem numbers : ∀ source ∈ graph.states.toList, ∀ arc ∈ source.arcs, arc.probability.IsNumber := by
  decide +kernel

theorem fits : Fits graph base := by
  refine fits_single ?_ 0
  exact ⟨_, rfl, rfl⟩

end SpeechDecoder.Expansion.Relay

import SpeechDecoder.Proofs.Expansion.Edges
import SpeechDecoder.Proofs.Expansion.Led

/-!
# Arcs to emitting states

An arc to an emitting state is cut, or its arrival is refused by the beam, or a token waits there
for the next frame.  Whichever it is, it changes nothing about the other states.  As long as the beam
has no token, its threshold is the least score there is: nothing is cut or refused, and the first
token that may wait does.

* `Side` is the invariant; part of it is that a beam without tokens has no best score.
* `Mutes` is what an arc to an emitting state leaves, and `Leads.follow_emitting` follows one.
* `Leads.follow_silent` follows an arc to another state, which is never cut.
-/

namespace SpeechDecoder.Expansion

variable {g : Growth} {base : Store} {done done' : List Nat} {e e₁ : Expansion} {i c : Nat}
  {t u : Token} {link : Option Nat}

/-- **An expansion whose beam started without tokens.** -/
structure Side (g : Growth) (base : Store) (done : List Nat) (e : Expansion) : Prop where
  sound : Sound g base done e
  /-- What is no token yet has no alternates. -/
  fresh : ∀ id, e.store.size ≤ id → e.lattice.alternates id = []
  /-- Without tokens there is no best score. -/
  best : e.next.tokens = [] → e.next.best = none
  margin : e.next.widths.margin ≤ .certain

theorem Side.congr (h : Side g base done e) (hsound : Sound g base done' e₁)
    (hstore : e₁.store = e.store) (hlattice : e₁.lattice = e.lattice) (hnext : e₁.next = e.next) :
    Side g base done' e₁ := by
  refine ⟨hsound, ?_, ?_, ?_⟩
  · rw [hstore, hlattice]
    exact h.fresh
  · rw [hnext]
    exact h.best
  · rw [hnext]
    exact h.margin

/-- The penalties that are known and the results are no concern of it. -/
theorem Side.aside (h : Side g base done e) (memo : PenaltyMemo) (results : List Nat) :
    Side g base done { e with memo, results } :=
  h.congr (h.sound.congr rfl rfl rfl rfl rfl) rfl rfl rfl

/-- **Without tokens the threshold is no greater than any number.** -/
theorem Side.threshold_le (h : Side g base done e) (hnil : e.next.tokens = []) {score : Score}
    (hnumber : score.IsNumber) : e.next.threshold ≤ score := by
  unfold Beam.threshold Beam.bestScore
  rw [h.best hnil]
  exact Score.impossible_add_le (Score.le_iff.1 h.margin).1 (Score.not_lt_of_le h.margin) hnumber

theorem Side.admits_iff (h : Side g base done e) (hnil : e.next.tokens = []) (score : Score) :
    e.next.admits score = true ↔ score.IsNumber := by
  unfold Beam.admits
  rw [decide_eq_true_eq]
  exact ⟨fun hle => (Score.le_iff.1 hle).2.1, h.threshold_le hnil⟩

/-- Without tokens nothing is cut. -/
theorem Side.cut_eq_false (h : Side g base done e) (hnil : e.next.tokens = [])
    (source kind : StateKind) (score : Score) : (e.cut g source kind score).1 = false := by
  have hlow : ∀ x : Score, ¬ x < e.next.threshold := fun x hx =>
    Score.not_lt_of_le (h.threshold_le hnil (Score.lt_iff.1 hx).1) hx
  unfold Expansion.cut
  split
  · split
    · rfl
    · exact decide_eq_false (hlow _)
  · rfl

/-- **What an arrival on an emitting state, cut or not, leaves:** it changes nothing about the silent
tokens, and afterwards the beam has tokens unless it had none before and the score is no number. -/
structure Mutes (g : Growth) (score : Score) (e e₁ : Expansion) : Prop where
  residents : ∀ s st, g.graph.state? s = some st → st.kind.isEmitting = false →
    e₁.resident? s = e.resident? s
  store : ∀ id t, e.store.get? id = some t → t.kind.isEmitting = false →
    e₁.store.get? id = some t
  queue : e₁.queue = e.queue
  expanded : e₁.expanded = e.expanded
  bestWord : e₁.bestWord = e.bestWord
  results : e₁.results = e.results
  lattice : e₁.lattice = e.lattice
  next : e₁.next.tokens = [] ↔ e.next.tokens = [] ∧ ¬ score.IsNumber

/-! ## Arrivals -/

/-- The resident of an emitting state is in the beam. -/
theorem Sound.tokens_ne_nil (h : Sound g base done e) (hi : base.size ≤ i)
    (ht : e.store.get? i = some t) (hemits : t.kind.isEmitting = true) : e.next.tokens ≠ [] :=
  List.ne_nil_of_mem ((h.mem_next i).2 ⟨hi, t, ht, hemits⟩)

/-- **An arrival** keeps the invariant. -/
theorem Side.arrive (h : Side g base done e) {arc : Arc} {target : State} {score : Score}
    (ht : g.graph.state? arc.target = some target)
    (he : e.arrive g link arc target.kind score = .ok e₁) (hsound : Sound g base done e₁) :
    Side g base done e₁ := by
  rcases h.sound.arrive_cases ht he with ⟨-, rfl⟩ | ⟨id, t, -, hid, hget, -, hkind, rfl⟩
  · have hfresh := fresh_settle (g := g) h.fresh link arc target.kind score
    cases hemits : target.kind.isEmitting with
    | true =>
      rw [settle_emitting hemits] at hsound hfresh ⊢
      split_ifs at hsound hfresh ⊢
      · refine ⟨hsound, hfresh, fun hnil => ?_, ?_⟩
        · rw [Beam.tokens_push] at hnil
          simp at hnil
        · exact (Beam.widths_note _ _ _).symm ▸ h.margin
      · exact h
    | false =>
      rw [settle_silent hemits] at hsound hfresh ⊢
      exact ⟨hsound, hfresh, h.best, h.margin⟩
  · have hnext : (e.contest g link arc target.kind score id t).next = e.next ∨
        e.next.tokens ≠ [] ∧
          (e.contest g link arc target.kind score id t).next = e.next.note id score := by
      cases hemits : target.kind.isEmitting with
      | true =>
        rw [contest_emitting hemits]
        split_ifs
        · exact .inr ⟨h.sound.tokens_ne_nil hid hget (hkind ▸ hemits), rfl⟩
        · exact .inl rfl
      | false =>
        rw [contest_silent hemits]
        split_ifs <;> exact .inl rfl
    refine ⟨hsound, fresh_contest h.fresh hget link arc target.kind score, fun hnil => ?_, ?_⟩
    · rcases hnext with heq | ⟨hne, heq⟩
      · rw [heq] at hnil ⊢
        exact h.best hnil
      · rw [heq, Beam.tokens_note] at hnil
        exact absurd hnil hne
    · rcases hnext with heq | ⟨-, heq⟩
      · rw [heq]
        exact h.margin
      · rw [heq, Beam.widths_note]
        exact h.margin

/-- **An arrival on an emitting state.** -/
theorem Side.mutes (h : Side g base done e) {arc : Arc} {target : State} {score : Score}
    (ht : g.graph.state? arc.target = some target) (hemits : target.kind.isEmitting = true)
    (he : e.arrive g link arc target.kind score = .ok e₁) : Mutes g score e e₁ := by
  rcases h.sound.arrive_cases ht he with ⟨-, rfl⟩ | ⟨id, t, -, hid, hget, -, hkind, rfl⟩
  · rw [settle_emitting hemits]
    split_ifs with hadmits
    · refine ⟨fun s st hs hst => ?_, fun id t hget _ => ?_, rfl, rfl, rfl, rfl, rfl, ?_⟩
      · rw [resident?_eq, lookup_cons_eq, if_neg]
        · rfl
        · rintro rfl
          rw [ht] at hs
          cases hs
          rw [hemits] at hst
          cases hst
      · exact (get?_push_of_lt (Store.lt_size_of_get? hget)).trans hget
      · rw [Beam.tokens_push]
        refine iff_of_false (by simp) fun ⟨hnil, hno⟩ => hno ((h.admits_iff hnil score).1 hadmits)
    · refine ⟨fun _ _ _ _ => rfl, fun _ _ hget _ => hget, rfl, rfl, rfl, rfl, rfl,
        fun hnil => ⟨hnil, fun hnumber => hadmits ((h.admits_iff hnil score).2 hnumber)⟩,
        fun hnil => hnil.1⟩
  · have hne := h.sound.tokens_ne_nil hid hget (hkind ▸ hemits)
    rw [contest_emitting hemits]
    split_ifs
    · refine ⟨fun _ _ _ _ => rfl, fun x u hu hsilent => ?_, rfl, rfl, rfl, rfl, rfl, ?_⟩
      · refine (Store.get?_set _ _ _ _).trans ((if_neg ?_).trans hu)
        rintro rfl
        rw [hget] at hu
        cases hu
        rw [hkind, hemits] at hsilent
        cases hsilent
      · rw [Beam.tokens_note]
        exact iff_of_false hne fun hnil => hne hnil.1
    · exact ⟨fun _ _ _ _ => rfl, fun _ _ hget _ => hget, rfl, rfl, rfl, rfl, rfl,
        iff_of_false hne fun hnil => hne hnil.1⟩

/-! ## Arcs -/

/-- **Following an arc to an emitting state,** whether it is cut or not. -/
theorem Leads.follow_emitting (hl : Leads g base done e c u) (h : Side g base done e)
    (hcheck : g.checkStateOrder = false) {source : State}
    (hs : g.graph.state? u.state = some source) {arc : Arc} (harc : arc ∈ source.arcs)
    {target : State} (ht : g.graph.state? arc.target = some target)
    (hemits : target.kind.isEmitting = true) :
    ∃ e₁, e.follow g u source (Store.link g.keepAllTokens c u) arc = .ok e₁ ∧
      Side g base done e₁ ∧ Leads g base done e₁ c u ∧
        Mutes g (u.score + arc.probability) e e₁ := by
  have hside : ∀ memo, Side g base done { e with memo } := fun memo => h.aside memo e.results
  refine (hl.follow_rule (P := fun e₁ => Side g base done e₁ ∧ Leads g base done e₁ c u ∧
      Mutes g (u.score + arc.probability) e e₁) h.sound hs harc ht (fun memo hcut => ?_)
    (fun _ hc => by rw [hcheck] at hc; cases hc) fun memo e₁ he₁ hsound hl₁ _ => ?_).exists_ok
  · have hne : e.next.tokens ≠ [] := fun hnil => by
      rw [h.cut_eq_false hnil] at hcut
      cases hcut
    exact ⟨hside memo, hl.memo memo, fun _ _ _ _ => rfl,
      fun _ _ hget _ => hget, rfl, rfl, rfl, rfl, rfl, iff_of_false hne fun hnil => hne hnil.1⟩
  · obtain ⟨hresidents, hstore, hqueue, hexpanded, hbest, hresults, hlattice, hnext⟩ :=
      (hside memo).mutes ht hemits he₁
    exact ⟨(hside memo).arrive ht he₁ hsound, hl₁, hresidents, hstore, hqueue, hexpanded, hbest,
      hresults, hlattice, hnext⟩

/-- **Following an arc to a state that emits nothing** is an arrival. -/
theorem Leads.follow_silent (hl : Leads g base done e c u) (h : Side g base done e)
    (hcheck : g.checkStateOrder = false) {source : State}
    (hs : g.graph.state? u.state = some source) {arc : Arc} (harc : arc ∈ source.arcs)
    {target : State} (ht : g.graph.state? arc.target = some target)
    (hsilent : target.kind.isEmitting = false) :
    ∃ memo e₁, e.follow g u source (Store.link g.keepAllTokens c u) arc = .ok e₁ ∧
      { e with memo }.arrive g (Store.link g.keepAllTokens c u) arc target.kind
        (u.score + arc.probability) = .ok e₁ ∧
      Side g base done e₁ ∧ Leads g base done e₁ c u := by
  have hrule := hl.follow_rule (P := fun e₁ => ∃ memo,
      { e with memo }.arrive g (Store.link g.keepAllTokens c u) arc target.kind
        (u.score + arc.probability) = .ok e₁ ∧
      Side g base done e₁ ∧ Leads g base done e₁ c u) (H := fun _ => False) h.sound hs harc ht
    (fun memo hcut => ?_) (fun _ hc => by rw [hcheck] at hc; cases hc)
    fun memo e₁ he₁ hsound hl₁ _ => ?_
  · obtain ⟨e₁, he₁, memo, harrive⟩ := hrule.exists_ok
    exact ⟨memo, e₁, he₁, harrive⟩
  · rw [isEmitting_of_cut g e hcut] at hsilent
    cases hsilent
  · have hside : Side g base done { e with memo } := h.aside memo e.results
    exact ⟨memo, he₁, hside.arrive ht he₁ hsound, hl₁⟩

end SpeechDecoder.Expansion

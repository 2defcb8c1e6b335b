import SpeechDecoder.Proofs.Expansion.Muted

/-!
# Expansions that cut differently

Two expansions of the same frame, whose lookahead and whose beams cut differently, do the same with
all tokens that emit nothing, the *silent* ones: what waits for the next frame is never expanded in
this one.  They number the silent tokens differently, since the tokens in between are not the same.
But the silent tokens are created in the same order, and the queue looks at the order of the numbers
only.

* `Partner` pairs the tokens of the two expansions, and `Quiet` is the relation between them.
* `Quiet.mute` says that it does not matter what becomes of arcs to emitting states.
* `Quiet.arrive` is an arrival on another state; `Quiet.follow`, `Quiet.expandToken` and `Quiet.run`
  carry the relation through an arc, a token and a frame.
-/

namespace SpeechDecoder

/-- **Growths that differ in what the lookahead cuts only.** -/
def Growth.Recut (g g' : Growth) : Prop := ∃ phoneCut, g' = { g with phoneCut }

namespace Expansion

variable {g g' : Growth} {base : Store} {done done' : List Nat} {pairs pairs' : List (Nat × Nat)}
  {e e' e₁ e₁' : Expansion} {i j i' j' c c' : Nat} {t t' u u' : Token} {link link' : Option Nat}

/-! ## Partners -/

/-- **Tokens that correspond to each other** in two expansions: a token of an earlier frame to
itself, and tokens of the frame in pairs. -/
def Partner (base : Store) (pairs : List (Nat × Nat)) (i j : Nat) : Prop :=
  i = j ∧ i < base.size ∨ (i, j) ∈ pairs

/-- **The pairs of two expansions:** new tokens, in the order of their numbers on both sides. -/
structure Paired (base : Store) (pairs : List (Nat × Nat)) : Prop where
  new : ∀ x ∈ pairs, base.size ≤ x.1 ∧ base.size ≤ x.2
  ordered : pairs.Pairwise fun x y => x.1 < y.1 ∧ x.2 < y.2

theorem Partner.mono (hsub : pairs ⊆ pairs') (h : Partner base pairs i j) :
    Partner base pairs' i j :=
  h.imp_right fun hmem => hsub hmem

theorem Paired.concat (h : Paired base pairs) (hi : base.size ≤ i) (hj : base.size ≤ j)
    (hlast : ∀ x ∈ pairs, x.1 < i ∧ x.2 < j) : Paired base (pairs ++ [(i, j)]) where
  new x hx := by
    rcases List.mem_append.1 hx with hx | hx
    · exact h.new x hx
    · rw [List.mem_singleton.1 hx]
      exact ⟨hi, hj⟩
  ordered := List.pairwise_append.2 ⟨h.ordered, List.pairwise_singleton _ _,
    fun x hx y hy => List.mem_singleton.1 hy ▸ hlast x hx⟩

/-- **Partners are in the same order** on both sides. -/
theorem Paired.lt_iff (h : Paired base pairs) (hij : Partner base pairs i j)
    (hij' : Partner base pairs i' j') : i < i' ↔ j < j' := by
  rcases hij with ⟨rfl, hi⟩ | hij <;> rcases hij' with ⟨rfl, hi'⟩ | hij'
  · exact .rfl
  · obtain ⟨hl, hr⟩ := h.new _ hij'
    exact iff_of_true (hi.trans_le hl) (hi.trans_le hr)
  · obtain ⟨hl, hr⟩ := h.new _ hij
    exact iff_of_false (Nat.not_lt.2 (hi'.le.trans hl)) (Nat.not_lt.2 (hi'.le.trans hr))
  · let R (x y : Nat × Nat) : Prop := x.1 < y.1 ∧ x.2 < y.2 ∨ y.1 < x.1 ∧ y.2 < x.2
    have : Std.Symm R := ⟨fun _ _ => Or.symm⟩
    have hall := (h.ordered.imp (S := R) Or.inl).forall
    by_cases heq : (i, j) = (i', j')
    · cases heq
      exact iff_of_false (lt_irrefl _) (lt_irrefl _)
    · rcases hall hij hij' heq with ⟨hl, hr⟩ | ⟨hl, hr⟩
      · exact iff_of_true hl hr
      · exact iff_of_false hl.le.not_gt hr.le.not_gt

theorem Paired.eq_iff (h : Paired base pairs) (hij : Partner base pairs i j)
    (hij' : Partner base pairs i' j') : i = i' ↔ j = j' := by
  have hlt := h.lt_iff hij hij'
  have hgt := h.lt_iff hij' hij
  omega

/-- What is linked back to is compared with the same outcome on both sides. -/
theorem Paired.some_bne (h : Paired base pairs) (hij : Partner base pairs i j)
    (hlink : Option.Rel (Partner base pairs) link link') :
    (some i != link) = (some j != link') := by
  cases hlink with
  | none => rfl
  | some hij' =>
    rw [Bool.eq_iff_iff, bne_iff_ne, bne_iff_ne, ne_eq, ne_eq, Option.some_inj, Option.some_inj]
    exact not_congr (h.eq_iff hij hij')

theorem rel_imp {R S : Nat → Nat → Prop} (hRS : ∀ i j, R i j → S i j)
    (h : Option.Rel R link link') : Option.Rel S link link' := by
  cases h with
  | none => exact .none
  | some h => exact .some (hRS _ _ h)

theorem rel_mono (hsub : pairs ⊆ pairs') (h : Option.Rel (Partner base pairs) link link') :
    Option.Rel (Partner base pairs') link link' :=
  rel_imp (fun _ _ => Partner.mono hsub) h

theorem isNone_eq (h : Option.Rel (Partner base pairs) link link') : link'.isNone = link.isNone := by
  cases h <;> rfl

/-! ## Queues -/

/-- Entries of partners, with the same score. -/
def Queued (pairs : List (Nat × Nat)) (p p' : Pending) : Prop :=
  p'.score = p.score ∧ (p.token, p'.token) ∈ pairs

/-- **Queues of partners** stay so when partners are queued. -/
theorem forall₂_enqueue (h : Paired base pairs) (score : Score) (hij : (i, j) ∈ pairs)
    {l l' : List Pending} (hl : List.Forall₂ (Queued pairs) l l') :
    List.Forall₂ (Queued pairs) (Pending.enqueue ⟨score, i⟩ l) (Pending.enqueue ⟨score, j⟩ l') := by
  have hnew : Queued pairs ⟨score, i⟩ ⟨score, j⟩ := ⟨rfl, hij⟩
  induction hl with
  | nil => exact .cons hnew .nil
  | @cons q q' rest rest' hq hrest ih =>
    have hsame : Pending.notAfter ⟨score, j⟩ q' = Pending.notAfter ⟨score, i⟩ q := by
      have hle := h.lt_iff (.inr hq.2) (.inr hij)
      unfold Pending.notAfter
      rw [hq.1]
      simp only [← Nat.not_lt, hle]
    unfold Pending.enqueue
    rw [hsame]
    split
    · exact .cons hnew (.cons hq hrest)
    · exact .cons hq ih

theorem forall₂_dropWhile {α β : Type} {R : α → β → Prop} {f : α → Bool} {k : β → Bool}
    (hf : ∀ a b, R a b → k b = f a) {l : List α} {m : List β} (h : List.Forall₂ R l m) :
    List.Forall₂ R (l.dropWhile f) (m.dropWhile k) := by
  induction h with
  | nil => exact .nil
  | cons hab hrest ih =>
    rw [List.dropWhile_cons, List.dropWhile_cons, hf _ _ hab]
    split
    · exact ih
    · exact .cons hab hrest

/-! ## The relation -/

/-- **The same token but for the predecessors,** which are partners. -/
structure Counterpart (base : Store) (pairs : List (Nat × Nat)) (t t' : Token) : Prop where
  alike : t'.detached = t.detached
  linked : Option.Rel (Partner base pairs) t.predecessor t'.predecessor

theorem Counterpart.mono (hsub : pairs ⊆ pairs') (h : Counterpart base pairs t t') :
    Counterpart base pairs' t t' :=
  ⟨h.alike, rel_mono hsub h.linked⟩

/-- What partners hand on are partners. -/
theorem Counterpart.handOn (h : Counterpart base pairs t t') (keepAll : Bool)
    (hij : Partner base pairs i j) :
    Option.Rel (Partner base pairs) (Store.link keepAll i t) (Store.link keepAll j t') := by
  obtain ⟨-, hkind, -⟩ := Store.detached_eq_iff.1 h.alike
  have hnone : t'.predecessor.isNone = t.predecessor.isNone := isNone_eq h.linked
  unfold Store.link
  rw [hkind, hnone]
  split
  · exact .some hij
  · exact h.linked

/-- **The relation between two expansions:** their silent tokens are the same ones, in pairs. -/
structure Quiet (g g' : Growth) (base : Store) (done done' : List Nat) (pairs : List (Nat × Nat))
    (e e' : Expansion) : Prop where
  left : Side g base done e
  right : Side g' base done' e'
  paired : Paired base pairs
  held : ∀ s st, g.graph.state? s = some st → st.kind.isEmitting = false →
    Option.Rel (fun i j => (i, j) ∈ pairs) (e.resident? s) (e'.resident? s)
  tokens : ∀ x ∈ pairs, ∃ t t', e.store.get? x.1 = some t ∧ e'.store.get? x.2 = some t' ∧
    t.kind.isEmitting = false ∧ Counterpart base pairs t t'
  alternates : ∀ x ∈ pairs, List.Forall₂ (Partner base pairs) (e.lattice.alternates x.1)
    (e'.lattice.alternates x.2)
  queue : List.Forall₂ (Queued pairs) e.queue e'.queue
  expanded : e'.expanded = e.expanded
  bestWord : e'.bestWord = e.bestWord
  results : List.Forall₂ (Partner base pairs) e.results e'.results
  next : e.next.tokens = [] ↔ e'.next.tokens = []

section Quiet

variable (hg : g.Recut g') (h : Quiet g g' base done done' pairs e e')

include hg h

/-- **What becomes of arcs to emitting states** does not matter. -/
theorem Quiet.mute {score : Score} (hl : Side g base done e₁) (hr : Side g' base done' e₁')
    (hm : Mutes g score e e₁) (hm' : Mutes g' score e' e₁') :
    Quiet g g' base done done' pairs e₁ e₁' := by
  obtain ⟨phoneCut, rfl⟩ := hg
  refine ⟨hl, hr, h.paired, fun s st hs hst => ?_, fun x hx => ?_, fun x hx => ?_, ?_, ?_, ?_, ?_,
    ?_⟩
  · rw [hm.residents s st hs hst, hm'.residents s st hs hst]
    exact h.held s st hs hst
  · obtain ⟨t, t', ht, ht', hk, hpart⟩ := h.tokens x hx
    obtain ⟨-, hkind, -⟩ := Store.detached_eq_iff.1 hpart.alike
    exact ⟨t, t', hm.store _ _ ht hk, hm'.store _ _ ht' (hkind ▸ hk), hk, hpart⟩
  · rw [hm.lattice, hm'.lattice]
    exact h.alternates x hx
  · rw [hm.queue, hm'.queue]
    exact h.queue
  · rw [hm.expanded, hm'.expanded, h.expanded]
  · rw [hm.bestWord, hm'.bestWord, h.bestWord]
  · rw [hm.results, hm'.results]
    exact h.results
  · rw [hm.next, hm'.next, h.next]

/-- The first arrival on a state that emits nothing makes a new pair. -/
theorem Quiet.settle {arc : Arc} {kind : StateKind} {score : Score}
    (hsilent : kind.isEmitting = false) (hlink : Option.Rel (Partner base pairs) link link')
    (hl : Side g base done (e.settle g link arc kind score))
    (hr : Side g' base done' (e'.settle g' link' arc kind score)) :
    Quiet g g' base done done' (pairs ++ [(e.store.size, e'.store.size)])
      (e.settle g link arc kind score) (e'.settle g' link' arc kind score) := by
  obtain ⟨phoneCut, rfl⟩ := hg
  have hsub : pairs ⊆ pairs ++ [(e.store.size, e'.store.size)] := List.subset_append_left _ _
  have hnew : (e.store.size, e'.store.size) ∈ pairs ++ [(e.store.size, e'.store.size)] := by simp
  have hlast : ∀ x ∈ pairs, x.1 < e.store.size ∧ x.2 < e'.store.size := fun x hx => by
    obtain ⟨t, t', ht, ht', -⟩ := h.tokens x hx
    exact ⟨Store.lt_size_of_get? ht, Store.lt_size_of_get? ht'⟩
  have hpaired := h.paired.concat h.left.sound.size_le h.right.sound.size_le hlast
  rw [settle_silent hsilent] at hl hr
  rw [settle_silent hsilent, settle_silent hsilent]
  refine ⟨hl, hr, hpaired, fun s st hs hst => ?_, fun x hx => ?_, fun x hx => ?_, ?_, h.expanded,
    ?_, h.results.imp fun _ _ => Partner.mono hsub, h.next⟩
  · rw [resident?_eq, resident?_eq, lookup_cons_eq, lookup_cons_eq]
    split_ifs
    · exact .some hnew
    · exact rel_imp (fun _ _ hmem => hsub hmem) (h.held s st hs hst)
  · rcases List.mem_append.1 hx with hx | hx
    · obtain ⟨t, t', ht, ht', hk, hpart⟩ := h.tokens x hx
      obtain ⟨hlt, hlt'⟩ := hlast x hx
      exact ⟨t, t', (get?_push_of_lt hlt).trans ht, (get?_push_of_lt hlt').trans ht', hk,
        hpart.mono hsub⟩
    · rw [List.mem_singleton.1 hx]
      exact ⟨_, _, (Store.get?_push _ _ _).trans (if_pos rfl),
        (Store.get?_push _ _ _).trans (if_pos rfl), hsilent, rfl, rel_mono hsub hlink⟩
  · rcases List.mem_append.1 hx with hx | hx
    · exact (h.alternates x hx).imp fun _ _ => Partner.mono hsub
    · rw [List.mem_singleton.1 hx]
      dsimp only
      rw [h.left.fresh _ le_rfl, h.right.fresh _ le_rfl]
      exact .nil
  · exact forall₂_enqueue hpaired score hnew (h.queue.imp fun _ _ hq => ⟨hq.1, hsub hq.2⟩)
  · dsimp only
    rw [h.bestWord]

/-- What is remembered on both sides are partners. -/
theorem Quiet.remembered (hij : (i, j) ∈ pairs) {loser loser' winner winner' : Option Nat}
    (hloser : Option.Rel (Partner base pairs) loser loser')
    (hwinner : Option.Rel (Partner base pairs) winner winner') (x : Nat × Nat) (hx : x ∈ pairs) :
    List.Forall₂ (Partner base pairs) ((e.remember g i loser winner).lattice.alternates x.1)
      ((e'.remember g' j loser' winner').lattice.alternates x.2) := by
  obtain ⟨phoneCut, rfl⟩ := hg
  have halternates := h.alternates x hx
  cases hloser with
  | none => exact halternates
  | some hpart =>
    unfold Expansion.remember
    dsimp only
    rw [h.paired.some_bne hpart hwinner]
    split
    · dsimp only
      rw [Lattice.alternates_add, Lattice.alternates_add]
      by_cases heq : x.1 = i
      · rw [if_pos heq, if_pos ((h.paired.eq_iff (.inr hx) (.inr hij)).1 heq)]
        exact List.rel_append halternates (.cons hpart .nil)
      · rw [if_neg heq, if_neg fun heq' => heq ((h.paired.eq_iff (.inr hx) (.inr hij)).2 heq')]
        exact halternates
    · exact halternates

/-- **A later arrival on a state that emits nothing** meets partners. -/
theorem Quiet.contest {arc : Arc} {kind : StateKind} {score : Score}
    (hsilent : kind.isEmitting = false) (hlink : Option.Rel (Partner base pairs) link link')
    (hij : (i, j) ∈ pairs) (ht : e.store.get? i = some t) (ht' : e'.store.get? j = some t')
    (hl : Side g base done (e.contest g link arc kind score i t))
    (hr : Side g' base done' (e'.contest g' link' arc kind score j t')) :
    Quiet g g' base done done' pairs (e.contest g link arc kind score i t)
      (e'.contest g' link' arc kind score j t') := by
  obtain ⟨hpart, hk⟩ : Counterpart base pairs t t' ∧ t.kind.isEmitting = false := by
    obtain ⟨u, u', hu, hu', hk, hpart⟩ := h.tokens _ hij
    cases ht.symm.trans hu
    cases ht'.symm.trans hu'
    exact ⟨hpart, hk⟩
  obtain ⟨hstate, hkind, hscore, hacoustic, -⟩ := Store.detached_eq_iff.1 hpart.alike
  have hremembered : ∀ {loser loser' winner winner' : Option Nat},
      Option.Rel (Partner base pairs) loser loser' →
      Option.Rel (Partner base pairs) winner winner' → ∀ x ∈ pairs,
      List.Forall₂ (Partner base pairs)
        ((if kind.isWord then (e.remember g i loser winner).lattice
          else e.lattice).alternates x.1)
        ((if kind.isWord then (e'.remember g' j loser' winner').lattice
          else e'.lattice).alternates x.2) := by
    intro loser loser' winner winner' hloser hwinner x hx
    split
    · exact h.remembered hg hij hloser hwinner x hx
    · exact h.alternates x hx
  rw [contest_silent hsilent] at hl hr
  rw [contest_silent hsilent, contest_silent hsilent, hscore]
  rw [hscore] at hr
  obtain ⟨phoneCut, rfl⟩ := hg
  by_cases hlt : t.score < score
  · rw [if_pos hlt] at hl hr
    rw [if_pos hlt, if_pos hlt]
    refine ⟨hl, hr, h.paired, h.held, fun x hx => ?_, hremembered hpart.linked hlink, ?_,
      h.expanded, ?_, h.results, h.next⟩
    · by_cases heq : x.1 = i
      · have heq' := (h.paired.eq_iff (.inr hx) (.inr hij)).1 heq
        refine ⟨t.rerouted link arc score g.frame, t'.rerouted link' arc score g.frame, ?_, ?_, hk,
          Store.detached_eq_iff.2 ⟨hstate, hkind, rfl, hacoustic, rfl, rfl, rfl⟩, hlink⟩
        · rw [heq, Store.get?_set, if_pos rfl, if_pos (Store.lt_size_of_get? ht)]
        · rw [heq', Store.get?_set, if_pos rfl, if_pos (Store.lt_size_of_get? ht')]
      · have heq' : x.2 ≠ j := fun heq' => heq ((h.paired.eq_iff (.inr hx) (.inr hij)).2 heq')
        obtain ⟨v, v', hv, hv', hrest⟩ := h.tokens x hx
        refine ⟨v, v', ?_, ?_, hrest⟩
        · rw [Store.get?_set, if_neg (Ne.symm heq), hv]
        · rw [Store.get?_set, if_neg (Ne.symm heq'), hv']
    · exact forall₂_enqueue h.paired score hij h.queue
    · dsimp only
      rw [h.bestWord]
  · rw [if_neg hlt] at hl hr
    rw [if_neg hlt, if_neg hlt]
    exact ⟨hl, hr, h.paired, h.held, h.tokens, hremembered hlink hpart.linked, h.queue, h.expanded,
      h.bestWord, h.results, h.next⟩

/-- **An arrival on a state that emits nothing,** in both expansions. -/
theorem Quiet.arrive {arc : Arc} {target : State} {score : Score}
    (ht : g.graph.state? arc.target = some target) (hsilent : target.kind.isEmitting = false)
    (hlink : Option.Rel (Partner base pairs) link link')
    (he : e.arrive g link arc target.kind score = .ok e₁)
    (he' : e'.arrive g' link' arc target.kind score = .ok e₁') (hl : Side g base done e₁)
    (hr : Side g' base done' e₁') :
    ∃ pairs', pairs ⊆ pairs' ∧ Quiet g g' base done done' pairs' e₁ e₁' := by
  have ht' : g'.graph.state? arc.target = some target := by
    obtain ⟨phoneCut, rfl⟩ := hg
    exact ht
  have hheld := h.held _ _ ht hsilent
  rcases h.left.sound.arrive_cases ht he with ⟨hres, rfl⟩ | ⟨i, t, hres, -, hget, -, -, rfl⟩ <;>
    rcases h.right.sound.arrive_cases ht' he' with
      ⟨hres', rfl⟩ | ⟨j, t', hres', -, hget', -, -, rfl⟩ <;>
    rw [hres, hres'] at hheld
  · exact ⟨_, List.subset_append_left _ _, h.settle hg hsilent hlink hl hr⟩
  · cases hheld
  · cases hheld
  · cases hheld with
    | some hij => exact ⟨pairs, List.Subset.refl _, h.contest hg hsilent hlink hij hget hget' hl hr⟩

/-- **Following an arc,** in both expansions. -/
theorem Quiet.follow (hcheck : g.checkStateOrder = false) (hl : Leads g base done e c u)
    (hl' : Leads g' base done' e' c' u') (halike : u'.detached = u.detached)
    (hlink : Option.Rel (Partner base pairs) (Store.link g.keepAllTokens c u)
      (Store.link g'.keepAllTokens c' u'))
    {source : State} (hs : g.graph.state? u.state = some source) {arc : Arc}
    (harc : arc ∈ source.arcs) :
    ∃ e₁ e₁' pairs', e.follow g u source (Store.link g.keepAllTokens c u) arc = .ok e₁ ∧
      e'.follow g' u' source (Store.link g'.keepAllTokens c' u') arc = .ok e₁' ∧ pairs ⊆ pairs' ∧
      Quiet g g' base done done' pairs' e₁ e₁' ∧ Leads g base done e₁ c u ∧
      Leads g' base done' e₁' c' u' := by
  obtain ⟨hstate, -, hscore, -⟩ := Store.detached_eq_iff.1 halike
  obtain ⟨target, ht, -⟩ := exists_target hs harc
  obtain ⟨hcheck', hs', ht'⟩ : g'.checkStateOrder = false ∧
      g'.graph.state? u'.state = some source ∧ g'.graph.state? arc.target = some target := by
    obtain ⟨phoneCut, rfl⟩ := hg
    exact ⟨hcheck, hstate ▸ hs, ht⟩
  cases hemits : target.kind.isEmitting with
  | true =>
    obtain ⟨e₁, he₁, hleft, hl₁, hm⟩ := hl.follow_emitting h.left hcheck hs harc ht hemits
    obtain ⟨e₁', he₁', hright, hl₁', hm'⟩ :=
      hl'.follow_emitting h.right hcheck' hs' harc ht' hemits
    rw [hscore] at hm'
    exact ⟨e₁, e₁', pairs, he₁, he₁', List.Subset.refl _, h.mute hg hleft hright hm hm', hl₁, hl₁'⟩
  | false =>
    obtain ⟨memo, e₁, he₁, harrive, hleft, hl₁⟩ :=
      hl.follow_silent h.left hcheck hs harc ht hemits
    obtain ⟨memo', e₁', he₁', harrive', hright, hl₁'⟩ :=
      hl'.follow_silent h.right hcheck' hs' harc ht' hemits
    rw [hscore] at harrive'
    have hmemo : Quiet g g' base done done' pairs { e with memo } { e' with memo := memo' } :=
      { h with left := h.left.aside memo _, right := h.right.aside memo' _ }
    obtain ⟨pairs', hsub, h₁⟩ := hmemo.arrive hg ht hemits hlink harrive harrive' hleft hright
    exact ⟨e₁, e₁', pairs', he₁, he₁', hsub, h₁, hl₁, hl₁'⟩

/-- **Expanding a settled token,** in both expansions. -/
theorem Quiet.expandToken (hcheck : g.checkStateOrder = false) (hc : Settled base done c)
    (hc' : Settled base done' c') (hu : e.store.get? c = some u) (hu' : e'.store.get? c' = some u')
    (hpart : Partner base pairs c c') (hcounter : Counterpart base pairs u u')
    (hlead : ∀ d ∈ done, ∀ t, e.store.get? d = some t → ¬ t.score < u.score)
    (hlead' : ∀ d ∈ done', ∀ t, e'.store.get? d = some t → ¬ t.score < u'.score) :
    Matched (fun e₁ e₁' => ∃ pairs', Quiet g g' base done done' pairs' e₁ e₁')
      (fun _ _ => False) (e.expandToken g c u) (e'.expandToken g' c' u') := by
  obtain ⟨-, hkind, -⟩ := Store.detached_eq_iff.1 hcounter.alike
  obtain ⟨hgraph, hmargin, hkeep⟩ : g'.graph = g.graph ∧
      e'.bestWord + g'.wordMargin = e.bestWord + g.wordMargin ∧
      g'.keepAllTokens = g.keepAllTokens := by
    obtain ⟨phoneCut, rfl⟩ := hg
    exact ⟨rfl, by rw [h.bestWord], rfl⟩
  refine matched_expandToken hgraph hmargin hcounter.alike ?_ ⟨pairs, h⟩ (fun hnone => ?_)
    fun hfinal source hs => ?_
  · exact ⟨pairs, { h with
      left := h.left.aside _ _
      right := h.right.aside _ _
      results := List.rel_append h.results (.cons hpart .nil) }⟩
  · obtain ⟨source, hs, -⟩ := h.left.sound.fits c u hu
    cases hs.symm.trans hnone
  · refine (Matched.foldlM (l := source.arcs) (S := fun _ _ => False)
      (R := fun e₁ e₁' => ∃ pairs', Quiet g g' base done done' pairs' e₁ e₁' ∧
        Leads g base done e₁ c u ∧ Leads g' base done' e₁' c' u' ∧
        Option.Rel (Partner base pairs') (Store.link g.keepAllTokens c u)
          (Store.link g'.keepAllTokens c' u'))
      (fun e₁ e₁' arc harc hr => ?_) e e' ⟨pairs, h, ⟨hc, hu, hfinal, hlead⟩,
        ⟨hc', hu', hkind ▸ hfinal, hlead'⟩, ?_⟩).mono
      (fun _ _ ⟨pairs', h', _⟩ => ⟨pairs', h'⟩) fun _ _ h => h
    · obtain ⟨pairs₁, h₁, hl, hl', hlink⟩ := hr
      obtain ⟨e₂, e₂', pairs₂, he₂, he₂', hsub, h₂, hl₂, hl₂'⟩ :=
        h₁.follow hg hcheck hl hl' hcounter.alike hlink hs harc
      rw [he₂, he₂']
      exact ⟨pairs₂, h₂, hl₂, hl₂', rel_mono hsub hlink⟩
    · rw [hkeep]
      exact hcounter.handOn g.keepAllTokens hpart

/-! ## A frame -/

/-- **Expanding a seed,** in both expansions. -/
theorem Quiet.expandSeed (hcheck : g.checkStateOrder = false) (hclosed : base.Closed)
    (hdone : done = []) (hdone' : done' = []) {id : Nat} (hid : id < base.size) :
    Matched (fun e₁ e₁' => ∃ pairs', Quiet g g' base [] [] pairs' e₁ e₁') (fun _ _ => False)
      (e.expandSeed g id) (e'.expandSeed g' id) := by
  subst hdone hdone'
  obtain ⟨t, ht⟩ := Store.exists_get? hid
  have hl := (h.left.sound.old id hid).trans ht
  have hr := (h.right.sound.old id hid).trans ht
  have hcounter : Counterpart base pairs t t := by
    refine ⟨rfl, ?_⟩
    cases hp : t.predecessor with
    | none => exact .none
    | some p => exact .some (.inl ⟨rfl, hclosed id t p ht hp⟩)
  have hpart : Partner base pairs id id := .inl ⟨rfl, hid⟩
  refine matched_expandSeed hl hr rfl h.expanded ⟨pairs, h⟩ fun expanded ho ho' => ?_
  have hopen : Quiet g g' base [] [] pairs { e with expanded } { e' with expanded } :=
    { h with
      left := h.left.congr (h.left.sound.opens hl ho) rfl rfl rfl
      right := h.right.congr (h.right.sound.opens hr ho') rfl rfl rfl
      expanded := rfl }
  exact hopen.expandToken hg hcheck (.inl hid) (.inl hid) hl hr hpart hcounter
    (fun _ hd => by cases hd) fun _ hd => by cases hd

end Quiet

/-- An entry and its counterpart are stale together. -/
theorem Quiet.isStale_eq (h : Quiet g g' base done done' pairs e e') {p p' : Pending}
    (hp : Queued pairs p p') : e'.isStale p' = e.isStale p := by
  obtain ⟨t, t', ht, ht', -, hpart⟩ := h.tokens _ hp.2
  obtain ⟨hstate, -⟩ := Store.detached_eq_iff.1 hpart.alike
  rw [Expansion.isStale_eq ht, Expansion.isStale_eq ht', hstate, h.expanded]

/-- **Working off the queues,** by induction on the rounds. -/
theorem Quiet.drain (hg : g.Recut g') (hcheck : g.checkStateOrder = false) : ∀ (rounds : Nat)
    {done done' : List Nat} {pairs : List (Nat × Nat)} {e e' : Expansion},
    Quiet g g' base done done' pairs e e' →
    Matched (fun e₁ e₁' => ∃ done₁ done₁' pairs', Quiet g g' base done₁ done₁' pairs' e₁ e₁')
      (fun _ _ => False) (e.drain g rounds) (e'.drain g' rounds)
  | 0, done, done', pairs, _, _, h => ⟨done, done', pairs, h⟩
  | rounds + 1, done, done', pairs, e, e', h => by
    have hqueues := forall₂_dropWhile (fun _ _ hp => h.isStale_eq hp) h.queue
    unfold Expansion.drain
    cases hq : e.queue.dropWhile e.isStale with
    | nil =>
      rw [hq] at hqueues
      have hq' := List.forall₂_nil_left_iff.1 hqueues
      rw [hq']
      exact ⟨done, done', pairs, { h with
        left := h.left.congr (h.left.sound.clear hq) rfl rfl rfl
        right := h.right.congr (h.right.sound.clear hq') rfl rfl rfl
        queue := .nil }⟩
    | cons p rest =>
      rw [hq] at hqueues
      obtain ⟨p', rest', hp, hrest, hq'⟩ := List.forall₂_cons_left_iff.1 hqueues
      obtain ⟨t, t', ht, ht', -, hcounter⟩ := h.tokens _ hp.2
      obtain ⟨hstate, -⟩ := Store.detached_eq_iff.1 hcounter.alike
      obtain ⟨hpop, hlead⟩ := h.left.sound.pop hq ht
      obtain ⟨hpop', hlead'⟩ := h.right.sound.pop hq' ht'
      rw [hq']
      simp only [ht, ht']
      have hopen : Quiet g g' base (p.token :: done) (p'.token :: done') pairs
          { e with queue := rest, expanded := t.state :: e.expanded }
          { e' with queue := rest', expanded := t'.state :: e'.expanded } :=
        { h with
          left := h.left.congr hpop rfl rfl rfl
          right := h.right.congr hpop' rfl rfl rfl
          queue := hrest
          expanded := by rw [hstate, h.expanded] }
      refine (hopen.expandToken hg hcheck (.inr (by simp)) (.inr (by simp)) ht ht' (.inr hp.2)
        hcounter hlead hlead').bind fun e₁ e₁' hnext => ?_
      obtain ⟨pairs', h₁⟩ := hnext
      exact Quiet.drain hg hcheck rounds h₁

/-- **A frame,** in both expansions. -/
theorem Quiet.run (h : Quiet g g' base [] [] pairs e e') (hg : g.Recut g')
    (hcheck : g.checkStateOrder = false) (hclosed : base.Closed) {seeds : List Nat}
    (hseeds : ∀ id ∈ seeds, id < base.size) :
    Matched (fun e₁ e₁' => ∃ done₁ done₁' pairs', Quiet g g' base done₁ done₁' pairs' e₁ e₁')
      (fun _ _ => False) (e.run g seeds) (e'.run g' seeds) := by
  have hgraph : g'.graph = g.graph := by
    obtain ⟨phoneCut, rfl⟩ := hg
    rfl
  unfold Expansion.run
  rw [hgraph]
  refine (Matched.foldlM (l := seeds) (S := fun _ _ => False)
    (R := fun e₁ e₁' => ∃ pairs', Quiet g g' base [] [] pairs' e₁ e₁')
    (fun e₁ e₁' id hid ⟨_, hr⟩ => ?_) e e' ⟨pairs, h⟩).bind
    fun e₁ e₁' ⟨_, h₁⟩ => Quiet.drain hg hcheck _ h₁
  exact hr.expandSeed hg hcheck hclosed rfl rfl (hseeds id hid)

/-- Two expansions that have not begun. -/
theorem Quiet.start (hg : g.Recut g') (hfits : Fits g.graph base) {widths widths' : BeamWidths}
    (hmargin : widths.margin ≤ .certain) (hmargin' : widths'.margin ≤ .certain) {lattice : Lattice}
    (hfresh : ∀ id, base.size ≤ id → lattice.alternates id = []) (memo memo' : PenaltyMemo) :
    Quiet g g' base [] [] [] (Expansion.start base (.empty widths) lattice memo)
      (Expansion.start base (.empty widths') lattice memo') := by
  have hfits' : Fits g'.graph base := by
    obtain ⟨phoneCut, rfl⟩ := hg
    exact hfits
  exact ⟨⟨.start hfits widths lattice memo, hfresh, fun _ => rfl, hmargin⟩,
    ⟨.start hfits' widths' lattice memo', hfresh, fun _ => rfl, hmargin'⟩,
    ⟨fun _ hx => by (cases hx), .nil⟩, fun _ _ _ _ => .none, fun _ hx => by (cases hx),
    fun _ hx => by (cases hx), .nil, rfl, rfl, .nil, .rfl⟩

end Expansion

end SpeechDecoder

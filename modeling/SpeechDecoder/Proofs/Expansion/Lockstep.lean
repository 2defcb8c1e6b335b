import SpeechDecoder.Proofs.Expansion.Frame
import SpeechDecoder.Proofs.Lattice
import SpeechDecoder.Proofs.Token.Collapse

/-!
# Expansions in step with each other

Two expansions of the same frame, one that keeps every token on its path and one that keeps what it
is told to, with or without a lattice.  They take the same decisions, since none of them looks at a
predecessor, and their stores stay linked (`Store.Linked`): what the second one copies from a token
is settled, so that it stays what the full path says.

* `Lockstep` is the relation; `Lockstep.arrive`, `Lockstep.follow` and `Lockstep.run` carry it
  through an arrival, an arc and a whole frame.
-/

namespace SpeechDecoder

/-- All alternates are numbers below `n`. -/
def Lattice.Within (l : Lattice) (n : Nat) : Prop := ∀ q ∈ l.links, ∀ p ∈ q.2, p < n

theorem Lattice.Within.mono {l : Lattice} {n m : Nat} (h : l.Within n) (hnm : n ≤ m) : l.Within m :=
  fun q hq p hp => (h q hq p hp).trans_le hnm

theorem Lattice.Within.over {l : Lattice} {n : Nat} (h : l.Within n) :
    l.Over (fun _ => True) (· < n) :=
  fun q hq => ⟨trivial, h q hq⟩

theorem Lattice.Over.within {l : Lattice} {K : Nat → Prop} {n : Nat} (h : l.Over K (· < n)) :
    l.Within n :=
  fun q hq => (h q hq).2

theorem Lattice.Within.add {l : Lattice} {n id p : Nat} (h : l.Within n) (hp : p < n) :
    (l.add id p).Within n :=
  (h.over.add trivial hp).within

/-- **Growths that differ in how paths are kept only.** -/
def Growth.Alike (g g' : Growth) : Prop :=
  ∃ keepAllTokens buildLattice, g' = { g with keepAllTokens, buildLattice }

namespace Expansion

/-- **Expansions that differ in their links and alternates only.** -/
def Alike (e e' : Expansion) : Prop :=
  ∃ store lattice, e' = { e with store, lattice } ∧ e.store.Alike store

variable {g g' : Growth} {base base' : Store} {done : List Nat} {e e' : Expansion}

/-! ## The same decisions -/

theorem Alike.remember (h : e.Alike e') (id id' : Nat) (loser loser' winner winner' : Option Nat) :
    (e.remember g id loser winner).Alike (e'.remember g' id' loser' winner') := by
  obtain ⟨store, lattice, rfl, ha⟩ := h
  obtain ⟨l, hl⟩ := remember_eq g e id loser winner
  obtain ⟨l', hl'⟩ := remember_eq g' { e with store, lattice } id' loser' winner'
  rw [hl, hl']
  exact ⟨store, l', rfl, ha⟩

theorem Alike.settle (h : e.Alike e') (hg : g.Alike g') (link link' : Option Nat) (arc : Arc)
    (kind : StateKind) (score : Score) :
    (e.settle g link arc kind score).Alike (e'.settle g' link' arc kind score) := by
  obtain ⟨store, lattice, rfl, ha⟩ := h
  obtain ⟨k, b, rfl⟩ := hg
  have hsize := ha.size_eq
  unfold Expansion.settle
  dsimp only
  split
  · exact ⟨store, lattice, rfl, ha⟩
  · rw [hsize]
    split
    · exact ⟨_, lattice, rfl, ha.push rfl⟩
    · exact ⟨_, lattice, rfl, ha.push rfl⟩

theorem Alike.contest (h : e.Alike e') (hg : g.Alike g') (link link' : Option Nat) (arc : Arc)
    (kind : StateKind) (score : Score) (id : Nat) {t t' : Token} (ht : t'.detached = t.detached) :
    (e.contest g link arc kind score id t).Alike (e'.contest g' link' arc kind score id t') := by
  have hscore : t'.score = t.score := (Store.detached_eq_iff.1 ht).2.2.1
  have hrerouted : (t'.rerouted link' arc score g'.frame).detached =
      (t.rerouted link arc score g.frame).detached := by
    obtain ⟨k, b, rfl⟩ := hg
    obtain ⟨hst, hk, -, hac, -⟩ := Store.detached_eq_iff.1 ht
    exact Store.detached_eq_iff.2 ⟨hst, hk, rfl, hac, rfl, rfl, rfl⟩
  unfold Expansion.contest
  rw [hscore]
  split
  · have hwritten : ∀ f : Expansion → Expansion,
        (∀ e store lattice, f { e with store, lattice } = { f e with store, lattice }) →
        (f { e with store := e.store.set id (t.rerouted link arc score g.frame) }).Alike
          (f { e' with store := e'.store.set id (t'.rerouted link' arc score g'.frame) }) := by
      obtain ⟨store, lattice, rfl, ha⟩ := h
      intro f hf
      have hleft := hf e (e.store.set id (t.rerouted link arc score g.frame)) e.lattice
      have hright := hf e (store.set id (t'.rerouted link' arc score g'.frame)) lattice
      exact ⟨_, lattice, by rw [hleft]; exact hright, by rw [hleft]; exact ha.set hrerouted id⟩
    dsimp only
    cases kind.isEmitting
    · have := hwritten (fun e => e.enqueue id kind score) fun _ _ _ => rfl
      split
      · exact this.remember _ _ _ _ _ _
      · exact this
    · have := hwritten (fun e => { e with next := e.next.note id score }) fun _ _ _ => rfl
      split
      · exact this.remember _ _ _ _ _ _
      · exact this
  · split
    · exact h.remember _ _ _ _ _ _
    · exact h

theorem Alike.cut (h : e.Alike e') (hg : g.Alike g') (source kind : StateKind) (score : Score) :
    (e'.cut g' source kind score).1 = (e.cut g source kind score).1 ∧
      (e.cut g source kind score).2.Alike (e'.cut g' source kind score).2 := by
  obtain ⟨store, lattice, rfl, ha⟩ := h
  obtain ⟨k, b, rfl⟩ := hg
  unfold Expansion.cut
  dsimp only
  split
  · split
    · exact ⟨rfl, store, lattice, rfl, ha⟩
    · exact ⟨rfl, store, lattice, rfl, ha⟩
  · exact ⟨rfl, store, lattice, rfl, ha⟩

theorem Alike.store (h : e.Alike e') : e.store.Alike e'.store := by
  obtain ⟨store, lattice, rfl, ha⟩ := h
  exact ha

/-! ## The relation -/

/-- **Two expansions in step with each other:** they have settled the same tokens, and the second one
links its tokens to what those hand on. -/
structure Lockstep (g g' : Growth) (base base' : Store) (done : List Nat) (e e' : Expansion) :
    Prop where
  left : Sound g base done e
  right : Sound g' base' done e'
  size_eq : base'.size = base.size
  alike : e.Alike e'
  linked : Store.Linked g'.keepAllTokens (Settled base done) e.store e'.store
  closed : e'.store.Closed
  within : e'.lattice.Within e'.store.size

/-- **A settled token at work in both expansions.** -/
structure LeadBoth (g g' : Growth) (base base' : Store) (done : List Nat) (e e' : Expansion)
    (c : Nat) (u u' : Token) : Prop where
  left : Leads g base done e c u
  right : Leads g' base' done e' c u'
  alike : u'.detached = u.detached

theorem within_remember {n : Nat} (h : e.lattice.Within n) (id : Nat) {loser : Option Nat}
    (winner : Option Nat) (hloser : ∀ p, loser = some p → p < n) :
    (e.remember g id loser winner).lattice.Within n := by
  unfold Expansion.remember
  split
  · exact h
  · next p =>
    split
    · exact h.add (hloser p rfl)
    · exact h

theorem within_contest {n : Nat} (h : e.lattice.Within n) {link : Option Nat} (arc : Arc)
    (kind : StateKind) (score : Score) (id : Nat) {t : Token}
    (hlink : ∀ p, link = some p → p < n) (ht : ∀ p, t.predecessor = some p → p < n) :
    (e.contest g link arc kind score id t).lattice.Within n := by
  unfold Expansion.contest
  split
  · dsimp only
    split
    · refine within_remember ?_ id link ht
      split <;> exact h
    · split <;> exact h
  · split
    · exact within_remember h id _ hlink
    · exact h

/-- **An arrival in step** leaves both stores as they are, or writes the same token that was not
settled. -/
theorem Lockstep.arrive_writes (h : Lockstep g g' base base' done e e') (hg : g.Alike g')
    {link link' : Option Nat} {arc : Arc} {kind : StateKind} {score : Score}
    (hlink : ∀ p, link' = some p → p < e'.store.size)
    (hlead : ∀ c ∈ done, ∀ t, e.store.get? c = some t → ¬ t.score < score) {e₁ e₁' : Expansion}
    (he₁ : e.arrive g link arc kind score = .ok e₁)
    (he₁' : e'.arrive g' link' arc kind score = .ok e₁') :
    e₁.Alike e₁' ∧ e₁'.lattice.Within e'.store.size ∧
      (e₁.store = e.store ∧ e₁'.store = e'.store ∨
        ∃ id t t', ¬ Settled base done id ∧ t.predecessor = link ∧ t'.predecessor = link' ∧
          (∀ x, e₁.store.get? x = if x = id then some t else e.store.get? x) ∧
          (∀ x, e₁'.store.get? x = if x = id then some t' else e'.store.get? x) ∧
          e'.store.size ≤ e₁'.store.size) := by
  have hsize := h.alike.store.size_eq
  have hres' : e'.resident? arc.target = e.resident? arc.target := by
    obtain ⟨store, lattice, rfl, -⟩ := h.alike
    rfl
  unfold Expansion.arrive at he₁ he₁'
  rw [hres'] at he₁'
  cases hres : e.resident? arc.target with
  | none =>
    rw [hres] at he₁ he₁'
    cases he₁
    cases he₁'
    refine ⟨h.alike.settle hg _ _ _ _ _, ?_, ?_⟩
    · rw [lattice_settle]
      exact h.within
    · rw [store_settle, store_settle,
        show e'.next = e.next by obtain ⟨store, lattice, rfl, -⟩ := h.alike; rfl]
      split
      · exact .inl ⟨rfl, rfl⟩
      · refine .inr ⟨e.store.size, .entering link arc kind score g.frame,
          .entering link' arc kind score g'.frame,
          fun hs => absurd (h.left.settled_lt hs) (lt_irrefl _), rfl, rfl,
          fun x => Store.get?_push _ _ _, fun x => ?_, ?_⟩
        · rw [Store.get?_push, hsize]
        · rw [Store.size_push]
          exact Nat.le_succ _
  | some id =>
    rw [hres] at he₁ he₁'
    obtain ⟨hid, t, ht, -⟩ := h.left.resident_new _ _ hres
    obtain ⟨t', ht', halike⟩ := h.alike.store.exists_get? ht
    have hscore := (Store.detached_eq_iff.1 halike).2.2.1
    simp only [Store.get_eq_ok ht, bind, Except.bind, pure, Except.pure] at he₁
    simp only [Store.get_eq_ok ht', bind, Except.bind, pure, Except.pure] at he₁'
    cases he₁
    cases he₁'
    refine ⟨h.alike.contest hg _ _ _ _ _ _ halike,
      within_contest h.within _ _ _ _ hlink fun p hp => h.closed id t' p ht' hp, ?_⟩
    rw [store_contest, store_contest, hscore]
    split
    · next hlt =>
      refine .inr ⟨id, t.rerouted link arc score g.frame, t'.rerouted link' arc score g'.frame,
        fun hs => ?_, rfl, rfl, fun x => ?_, fun x => ?_, ?_⟩
      · rcases hs with hs | hs
        · omega
        · exact hlead id hs t ht hlt
      · rw [Store.get?_set, if_pos (Store.lt_size_of_get? ht)]
        simp only [eq_comm]
      · rw [Store.get?_set, if_pos (Store.lt_size_of_get? ht')]
        simp only [eq_comm]
      · rw [Store.size_set]
    · exact .inl ⟨rfl, rfl⟩

/-- **An arrival in step.** -/
theorem Lockstep.arrive (h : Lockstep g g' base base' done e e') (hg : g.Alike g')
    (hfull : g.keepAllTokens = true) {c : Nat} {u u' : Token}
    (hl : LeadBoth g g' base base' done e e' c u u') {source target : State} {arc : Arc}
    (hs : g.graph.state? u.state = some source) (harc : arc ∈ source.arcs)
    (htarget : g.graph.state? arc.target = some target) :
    ∃ e₁ e₁', e.arrive g (Store.link g.keepAllTokens c u) arc target.kind
        (u.score + arc.probability) = .ok e₁ ∧
      e'.arrive g' (Store.link g'.keepAllTokens c u') arc target.kind
        (u'.score + arc.probability) = .ok e₁' ∧
      Lockstep g g' base base' done e₁ e₁' ∧ LeadBoth g g' base base' done e₁ e₁' c u u' := by
  obtain ⟨-, -, hp⟩ := exists_target hs harc
  obtain ⟨hstate, -, hscore, -⟩ := Store.detached_eq_iff.1 hl.alike
  have hgraph : g'.graph = g.graph := by
    obtain ⟨k, b, rfl⟩ := hg
    rfl
  obtain ⟨e₁, he₁, hsound, hl₁, -⟩ := hl.left.arrive h.left hs harc htarget
  have hs' : g'.graph.state? u'.state = some source := by rw [hgraph, hstate, hs]
  have htarget' : g'.graph.state? arc.target = some target := by rw [hgraph, htarget]
  obtain ⟨e₁', he₁', hsound', hl₁', -⟩ := hl.right.arrive h.right hs' harc htarget'
  have hlink : Store.link g.keepAllTokens c u = some c := by simp [Store.link, hfull]
  obtain ⟨halike, hwithin, hwrites⟩ := h.arrive_writes hg
    (fun p hp => h.closed.lt_of_link hl.right.get hp)
    (fun d hd t hdt hlt => hl.left.lead d hd t hdt (Score.lt_of_lt_add hp hlt)) he₁ (hscore ▸ he₁')
  refine ⟨e₁, e₁', he₁, he₁', ?_, hl₁, hl₁', hl.alike⟩
  rcases hwrites with ⟨heq, heq'⟩ | ⟨id, t, t', hid, ht, ht', hget, hget', hsize⟩
  · exact ⟨hsound, hsound', h.size_eq, halike, by rw [heq, heq']; exact h.linked,
      by rw [heq']; exact h.closed, by rw [heq']; exact hwithin⟩
  · exact ⟨hsound, hsound', h.size_eq, halike,
      h.linked.write hget hget' hid hl.left.settled hl.right.get (ht.trans hlink) ht',
      h.closed.write hget' hsize fun p hp => h.closed.lt_of_link hl.right.get (ht' ▸ hp),
      hwithin.mono hsize⟩

/-- The relation does not speak of the other parts of an expansion. -/
theorem Lockstep.congr (h : Lockstep g g' base base' done e e') {done' : List Nat}
    {e₁ e₁' : Expansion} (hleft : Sound g base done' e₁) (hright : Sound g' base' done' e₁')
    (hdone : ∀ c ∈ done, c ∈ done') (halike : e₁.Alike e₁') (hs : e₁.store = e.store)
    (hs' : e₁'.store = e'.store) (hl' : e₁'.lattice = e'.lattice) :
    Lockstep g g' base base' done' e₁ e₁' :=
  ⟨hleft, hright, h.size_eq, halike, by
    rw [hs, hs']
    exact h.linked.mono fun c hc => hc.mono hdone, by rw [hs']; exact h.closed, by
    rw [hs', hl']
    exact h.within⟩

/-! ## A token in step -/

/-- **Two expansions that are halted in step.** -/
def HaltBoth (g g' : Growth) (base base' : Store) (h h' : Halted Expansion) : Prop :=
  h.error = h'.error ∧ ∃ done, Lockstep g g' base base' done h.state h'.state

/-- **Following an arc in step.** -/
theorem Lockstep.follow (h : Lockstep g g' base base' done e e') (hg : g.Alike g')
    (hfull : g.keepAllTokens = true) {c : Nat} {u u' : Token}
    (hl : LeadBoth g g' base base' done e e' c u u') {source : State}
    (hs : g.graph.state? u.state = some source) {arc : Arc} (harc : arc ∈ source.arcs) :
    Matched (fun e₁ e₁' => Lockstep g g' base base' done e₁ e₁' ∧
        LeadBoth g g' base base' done e₁ e₁' c u u') (HaltBoth g g' base base')
      (e.follow g u source (Store.link g.keepAllTokens c u) arc)
      (e'.follow g' u' source (Store.link g'.keepAllTokens c u') arc) := by
  obtain ⟨target, ht, -⟩ := exists_target hs harc
  obtain ⟨-, -, hscore, -⟩ := Store.detached_eq_iff.1 hl.alike
  obtain ⟨hgraph, hcheck⟩ : g'.graph = g.graph ∧ g'.checkStateOrder = g.checkStateOrder := by
    obtain ⟨k, b, rfl⟩ := hg
    exact ⟨rfl, rfl⟩
  obtain ⟨hsame, halike⟩ := h.alike.cut hg u.kind target.kind (u.score + arc.probability)
  obtain ⟨isCut, memo, heq⟩ := cut_eq g e u.kind target.kind (u.score + arc.probability)
  obtain ⟨isCut', memo', heq'⟩ := cut_eq g' e' u.kind target.kind (u.score + arc.probability)
  rw [heq, heq'] at halike
  have hcut : Lockstep g g' base base' done { e with memo } { e' with memo := memo' } :=
    h.congr (h.left.memo memo) (h.right.memo memo') (fun _ h => h) halike rfl rfl rfl
  have hl₁ : LeadBoth g g' base base' done { e with memo } { e' with memo := memo' } c u u' :=
    ⟨hl.left.memo memo, hl.right.memo memo', hl.alike⟩
  obtain ⟨e₂, e₂', he₂, he₂', h₂, hl₂⟩ := hcut.arrive hg hfull hl₁ hs harc ht
  refine matched_follow hgraph hcheck hl.alike ht hsame ?_ ?_ ?_ <;> rw [heq, heq']
  · exact ⟨hcut, hl₁⟩
  · exact ⟨rfl, done, hcut⟩
  · rw [hscore] at he₂'
    rw [he₂, he₂']
    exact ⟨h₂, hl₂⟩

/-- **Expanding a settled token in step.** -/
theorem Lockstep.expandToken (h : Lockstep g g' base base' done e e') (hg : g.Alike g')
    (hfull : g.keepAllTokens = true) {c : Nat} {u u' : Token} (hc : Settled base done c)
    (hu : e.store.get? c = some u) (hu' : e'.store.get? c = some u')
    (hlead : ∀ d ∈ done, ∀ t, e.store.get? d = some t → ¬ t.score < u.score) :
    Matched (Lockstep g g' base base' done) (HaltBoth g g' base base')
      (e.expandToken g c u) (e'.expandToken g' c u') := by
  have halike : u'.detached = u.detached := by
    obtain ⟨v, hv, heq⟩ := h.alike.store.exists_get? hu
    rw [hu'] at hv
    cases hv
    exact heq
  obtain ⟨-, hkind, hscore, -⟩ := Store.detached_eq_iff.1 halike
  have hlead' : ∀ d ∈ done, ∀ t, e'.store.get? d = some t → ¬ t.score < u'.score := by
    intro d hd t' ht'
    obtain ⟨t, -, ht⟩ := h.left.chained.mem d hd
    obtain ⟨v, hv, heq⟩ := h.alike.store.exists_get? ht
    rw [ht'] at hv
    cases hv
    rw [hscore, (Store.detached_eq_iff.1 heq).2.2.1]
    exact hlead d hd t ht
  obtain ⟨hgraph, hmargin⟩ : g'.graph = g.graph ∧
      e'.bestWord + g'.wordMargin = e.bestWord + g.wordMargin := by
    obtain ⟨k, b, rfl⟩ := hg
    obtain ⟨store, lattice, rfl, -⟩ := h.alike
    exact ⟨rfl, rfl⟩
  refine matched_expandToken hgraph hmargin halike ?_ h (fun hnone => ?_) fun hfinal source hs => ?_
  · refine h.congr (h.left.results _) (h.right.results _) (fun _ h => h) ?_ rfl rfl rfl
    obtain ⟨store, lattice, rfl, ha⟩ := h.alike
    exact ⟨store, lattice, rfl, ha⟩
  · obtain ⟨source, hs, -⟩ := h.left.fits c u hu
    cases hs.symm.trans hnone
  · have hsize := h.size_eq
    refine (Matched.foldlM (l := source.arcs) (S := HaltBoth g g' base base')
      (R := fun e₁ e₁' => Lockstep g g' base base' done e₁ e₁' ∧
        LeadBoth g g' base base' done e₁ e₁' c u u')
      (fun e₁ e₁' arc harc hr => ?_) e e' ⟨h, ⟨hc, hu, hfinal, hlead⟩,
        ⟨hc.imp_left fun hc => hsize ▸ hc, hu', hkind ▸ hfinal, hlead'⟩, halike⟩).mono
      (fun _ _ h => h.1) fun _ _ h => h
    exact hr.1.follow hg hfull hr.2 hs harc

/-! ## A frame in step -/

/-- **Expanding a seed in step.** -/
theorem Lockstep.expandSeed (h : Lockstep g g' base base' [] e e') (hg : g.Alike g')
    (hfull : g.keepAllTokens = true) {id : Nat} (hid : id < base.size) :
    Matched (Lockstep g g' base base' []) (HaltBoth g g' base base')
      (e.expandSeed g id) (e'.expandSeed g' id) := by
  obtain ⟨t, ht⟩ := Store.exists_get? (Nat.lt_of_lt_of_le hid h.left.size_le)
  obtain ⟨t', ht', halike⟩ := h.alike.store.exists_get? ht
  have hexpanded : e'.expanded = e.expanded := by
    obtain ⟨store, lattice, rfl, -⟩ := h.alike
    rfl
  refine matched_expandSeed ht ht' halike hexpanded h fun expanded ho ho' => ?_
  have hopen : Lockstep g g' base base' [] { e with expanded } { e' with expanded } := by
    refine h.congr (h.left.opens ht ho) (h.right.opens ht' ho') (fun _ h => h) ?_ rfl rfl rfl
    obtain ⟨store, lattice, rfl, ha⟩ := h.alike
    exact ⟨store, lattice, rfl, ha⟩
  exact hopen.expandToken hg hfull (.inl hid) ht ht' fun _ hd => by cases hd

/-- **Working off the queues in step,** by induction on the rounds. -/
theorem Lockstep.drain (hg : g.Alike g') (hfull : g.keepAllTokens = true) :
    ∀ (rounds : Nat) {done : List Nat} {e e' : Expansion}, Lockstep g g' base base' done e e' →
      Matched (fun e₁ e₁' => ∃ done', Lockstep g g' base base' done' e₁ e₁')
        (HaltBoth g g' base base') (e.drain g rounds) (e'.drain g' rounds)
  | 0, done, _, _, h => ⟨done, h⟩
  | rounds + 1, done, e, e', h => by
    have hstale : e'.isStale = e.isStale := by
      funext p
      unfold Expansion.isStale
      cases hp : e.store.get? p.token with
      | none => rw [h.alike.store.get?_eq_none hp]
      | some t =>
        obtain ⟨t', ht', halike⟩ := h.alike.store.exists_get? hp
        rw [ht']
        obtain ⟨store, lattice, rfl, -⟩ := h.alike
        simp only [(Store.detached_eq_iff.1 halike).1]
    have hqueue : e'.queue = e.queue ∧ e'.expanded = e.expanded := by
      obtain ⟨store, lattice, rfl, -⟩ := h.alike
      exact ⟨rfl, rfl⟩
    unfold Expansion.drain
    rw [hqueue.1, hstale]
    cases hq : e.queue.dropWhile e.isStale with
    | nil =>
      refine ⟨done, h.congr (h.left.clear hq) (h.right.clear (by rw [hqueue.1, hstale, hq]))
        (fun _ h => h) ?_ rfl rfl rfl⟩
      obtain ⟨store, lattice, rfl, ha⟩ := h.alike
      exact ⟨store, lattice, rfl, ha⟩
    | cons p rest =>
      obtain ⟨-, t, ht, -⟩ := h.left.queued p (mem_of_fresh hq)
      obtain ⟨t', ht', halike⟩ := h.alike.store.exists_get? ht
      have hstate := (Store.detached_eq_iff.1 halike).1
      simp only [ht, ht', hstate, hqueue.2]
      obtain ⟨hpop, hlead⟩ := h.left.pop hq ht
      obtain ⟨hpop', -⟩ := h.right.pop (by rw [hqueue.1, hstale, hq]) ht'
      rw [hstate, hqueue.2] at hpop'
      have hboth : Lockstep g g' base base' (p.token :: done)
          { e with queue := rest, expanded := t.state :: e.expanded }
          { e' with queue := rest, expanded := t.state :: e.expanded } := by
        refine h.congr hpop hpop' (fun c hc => List.mem_cons_of_mem _ hc) ?_ rfl rfl rfl
        obtain ⟨store, lattice, rfl, ha⟩ := h.alike
        exact ⟨store, lattice, rfl, ha⟩
      exact (hboth.expandToken hg hfull (.inr (by simp)) ht ht' hlead).bind fun e₁ e₁' h₁ =>
        Lockstep.drain hg hfull rounds h₁

/-- **A frame in step.** -/
theorem Lockstep.run (h : Lockstep g g' base base' [] e e') (hg : g.Alike g')
    (hfull : g.keepAllTokens = true) {seeds : List Nat} (hseeds : ∀ id ∈ seeds, id < base.size) :
    Matched (fun e₁ e₁' => ∃ done, Lockstep g g' base base' done e₁ e₁')
      (HaltBoth g g' base base') (e.run g seeds) (e'.run g' seeds) := by
  have hgraph : g'.graph = g.graph := by
    obtain ⟨k, b, rfl⟩ := hg
    rfl
  unfold Expansion.run
  rw [hgraph]
  refine (Matched.foldlM (l := seeds) (fun e₁ e₁' id hid hr => ?_) e e' h).bind
    fun e₁ e₁' h₁ => Lockstep.drain hg hfull _ h₁
  exact hr.expandSeed hg hfull (hseeds id hid)

end Expansion

end SpeechDecoder

import SpeechDecoder.Proofs.Expansion.Threads
import SpeechDecoder.Proofs.Lattice

/-!
# What an expansion remembers

An expansion never looks at the alternates.  Two expansions that start with different lattices and
are otherwise the same stay so, and remember the same losing predecessors in the same order
(`Twins.run`).  What they remember is settled, and so its score is final; and they remember it about
tokens of the frame only.

* `Twins` is the relation; `Twins.arrive`, `Twins.follow`, `Twins.expandToken` and `Twins.run` carry
  it through an arrival, an arc, the expansion of a token and a whole frame.
-/

namespace SpeechDecoder.Expansion

variable {g : Growth} {base : Store} {done : List Nat} {l l' : Lattice} {e e' : Expansion}

/-! ## Settled predecessors -/

/-- **The predecessor of a settled token is settled,** by induction on the order in which they were
expanded. -/
theorem Sound.settled_predecessor (h : Sound g base done e) (hbase : base.Closed) {c p : Nat}
    {u : Token} (hc : Settled base done c) (hu : e.store.get? c = some u)
    (hp : u.predecessor = some p) : Settled base done p := by
  have hold : ∀ c < base.size, ∀ u p, e.store.get? c = some u → u.predecessor = some p →
      p < base.size := fun c hc u p hu hp => hbase c u p (h.old c hc ▸ hu) hp
  have hdone : ∀ rest, Chained g base e.store rest → ∀ c ∈ rest, ∀ u p,
      e.store.get? c = some u → u.predecessor = some p → Settled base rest p := by
    intro rest
    induction rest with
    | nil => exact fun _ c hc => by cases hc
    | cons c rest ih =>
      rintro ⟨⟨t, -, ht, d, v, source, arc, target, hd, hv, -, -, -, -, rfl⟩, hrest⟩ x hx u p hu hp
      have hlater : ∀ q, Settled base rest q → Settled base (c :: rest) q :=
        fun q hq => hq.mono fun y hy => List.mem_cons_of_mem c hy
      rcases List.mem_cons.1 hx with rfl | hx
      · rw [ht] at hu
        cases hu
        rcases Store.link_eq_some hp with rfl | hvp
        · exact hlater _ hd
        · refine hlater p ?_
          exact hd.elim (fun hd => .inl (hold d hd v p hv hvp)) fun hd => ih hrest d hd v p hv hvp
      · exact hlater p (ih hrest x hx u p hu hp)
  exact hc.elim (fun hc => .inl (hold c hc u p hu hp)) fun hc => hdone done h.chained c hc u p hu hp

/-- What is linked back to from a settled token is settled. -/
theorem Sound.settled_link (h : Sound g base done e) (hbase : base.Closed) {c p : Nat} {u : Token}
    (hc : Settled base done c) (hu : e.store.get? c = some u)
    (hp : Store.link g.keepAllTokens c u = some p) : Settled base done p := by
  rcases Store.link_eq_some hp with rfl | hup
  · exact hc
  · exact h.settled_predecessor hbase hc hu hup

/-- **The predecessor of a token of the frame is settled.** -/
theorem Sound.settled_of_new (h : Sound g base done e) (hbase : base.Closed) {id p : Nat} {t : Token}
    (hid : base.size ≤ id) (ht : e.store.get? id = some t) (hp : t.predecessor = some p) :
    Settled base done p := by
  obtain ⟨c, u, source, arc, target, hc, hu, -, -, -, -, rfl⟩ := h.arrived id t hid ht
  exact h.settled_link hbase hc hu hp

/-- A frame keeps the predecessors in the store. -/
theorem Sound.closed (h : Sound g base done e) (hbase : base.Closed) : e.store.Closed := by
  intro id t p ht hp
  rcases Nat.lt_or_ge id base.size with hid | hid
  · exact (hbase id t p (h.old id hid ▸ ht) hp).trans_le h.size_le
  · exact h.settled_lt (h.settled_of_new hbase hid ht hp)

/-- A settled token waits for no row. -/
theorem Sound.settled_not_next (h : Sound g base done e) {p : Nat} (hp : Settled base done p) :
    p ∉ e.next.tokens := by
  intro hmem
  obtain ⟨hb, t, ht, hk⟩ := (h.mem_next p).1 hmem
  rcases hp with hp | hp
  · omega
  · rw [(h.expanded_done p hp t ht).1] at hk
    cases hk

/-! ## What one arrival remembers -/

theorem remember_recordAll (g : Growth) (e : Expansion) (id : Nat) (loser winner : Option Nat) :
    ∃ edges : List (Nat × Nat), (∀ x ∈ edges, x.1 = id ∧ loser = some x.2) ∧
      ∀ m, remember g { e with lattice := m } id loser winner =
        { e with lattice := m.recordAll edges } := by
  unfold Expansion.remember
  cases loser with
  | none => exact ⟨[], by simp, fun _ => rfl⟩
  | some p =>
    cases hb : g.buildLattice && some p != winner
    · exact ⟨[], by simp, fun m => by simp only [hb]; rfl⟩
    · exact ⟨[(id, p)], by simp, fun m => by simp only [hb]; rfl⟩

/-- A first arrival remembers nothing. -/
theorem settle_lattice (g : Growth) (e : Expansion) (link : Option Nat) (arc : Arc)
    (kind : StateKind) (score : Score) (m : Lattice) :
    settle g { e with lattice := m } link arc kind score =
      { e.settle g link arc kind score with lattice := m } := by
  unfold Expansion.settle
  dsimp only
  split
  · rfl
  · split <;> rfl

/-- **A later arrival** remembers the predecessor that lost, the one on the state or the new one. -/
theorem contest_recordAll (g : Growth) (e : Expansion) (link : Option Nat) (arc : Arc)
    (kind : StateKind) (score : Score) (id : Nat) (t : Token) :
    ∃ edges : List (Nat × Nat),
      (∀ x ∈ edges, x.1 = id ∧ (t.predecessor = some x.2 ∨ link = some x.2)) ∧
      ∀ m, contest g { e with lattice := m } link arc kind score id t =
        { e.contest g link arc kind score id t with lattice := m.recordAll edges } := by
  have hsame : ∀ f : Lattice → Expansion, (∀ m, f m = { f e.lattice with lattice := m }) →
      ∃ edges : List (Nat × Nat),
        (∀ x ∈ edges, x.1 = id ∧ (t.predecessor = some x.2 ∨ link = some x.2)) ∧
        ∀ m, f m = { f e.lattice with lattice := m.recordAll edges } :=
    fun f hf => ⟨[], by simp, hf⟩
  have hremember : ∀ (f : Expansion) (loser winner : Option Nat),
      (loser = t.predecessor ∨ loser = link) →
      ∃ edges : List (Nat × Nat),
        (∀ x ∈ edges, x.1 = id ∧ (t.predecessor = some x.2 ∨ link = some x.2)) ∧
        ∀ m, remember g { f with lattice := m } id loser winner =
          { f.remember g id loser winner with lattice := m.recordAll edges } := by
    intro f loser winner hloser
    obtain ⟨edges, hedges, hf⟩ := remember_recordAll g f id loser winner
    refine ⟨edges, fun x hx => ⟨(hedges x hx).1, ?_⟩, fun m => ?_⟩
    · have hx' := (hedges x hx).2
      rcases hloser with rfl | rfl
      · exact .inl hx'
      · exact .inr hx'
    · rw [hf m, show f.remember g id loser winner = _ from hf f.lattice]
  unfold Expansion.contest
  by_cases hlt : t.score < score
  · simp only [if_pos hlt]
    cases kind.isWord
    · refine hsame _ fun m => ?_
      cases kind.isEmitting <;> rfl
    · cases kind.isEmitting
      · exact hremember ({ e with
          store := e.store.set id (t.rerouted link arc score g.frame) }.enqueue id kind score)
          _ _ (.inl rfl)
      · exact hremember { e with
          store := e.store.set id (t.rerouted link arc score g.frame)
          next := e.next.note id score } _ _ (.inl rfl)
  · simp only [if_neg hlt]
    cases kind.isWord
    · exact hsame _ fun m => rfl
    · exact hremember e _ _ (.inr rfl)

/-! ## Two lattices -/

/-- **Two expansions that differ in their lattices only:** one started with `l` and the other one
with `l'`, and both remembered the same since then. -/
structure Twins (g : Growth) (base : Store) (done : List Nat) (l l' : Lattice)
    (e e' : Expansion) : Prop where
  sound : Sound g base done e
  recorded : ∃ edges : List (Nat × Nat),
    (∀ x ∈ edges, base.size ≤ x.1 ∧ x.1 < e.store.size ∧ Settled base done x.2) ∧
    e.lattice = l.recordAll edges ∧ e' = { e with lattice := l'.recordAll edges }

/-- What does not concern the lattice keeps the relation. -/
theorem Twins.congr (h : Twins g base done l l' e e') {done' : List Nat} {f : Expansion → Expansion}
    (hsound : Sound g base done' (f e)) (hdone : ∀ c ∈ done, c ∈ done')
    (hsize : e.store.size ≤ (f e).store.size)
    (hf : ∀ m, f { e with lattice := m } = { f e with lattice := m }) :
    Twins g base done' l l' (f e) (f e') := by
  obtain ⟨edges, hedges, hl, rfl⟩ := h.recorded
  refine ⟨hsound, edges, fun x hx => ?_, ?_, hf _⟩
  · obtain ⟨hb, hlt, hs⟩ := hedges x hx
    exact ⟨hb, hlt.trans_le hsize, hs.mono hdone⟩
  · rw [show f e = { f e with lattice := e.lattice } from hf e.lattice]
    exact hl

/-- **A later arrival in twins.** -/
theorem Twins.contest (h : Twins g base done l l' e e') {link : Option Nat} {arc : Arc}
    {kind : StateKind} {score : Score} {id : Nat} {t : Token} (hid : base.size ≤ id)
    (ht : e.store.get? id = some t)
    (hsettled : ∀ p, t.predecessor = some p ∨ link = some p → Settled base done p)
    (hsound : Sound g base done (e.contest g link arc kind score id t)) :
    Twins g base done l l' (e.contest g link arc kind score id t)
      (e'.contest g link arc kind score id t) := by
  obtain ⟨edges, hedges, hl, rfl⟩ := h.recorded
  obtain ⟨new, hnew, hcontest⟩ := contest_recordAll g e link arc kind score id t
  refine ⟨hsound, edges ++ new, fun x hx => ?_, ?_, ?_⟩
  · rw [size_contest]
    rcases List.mem_append.1 hx with hx | hx
    · exact hedges x hx
    · obtain ⟨hxid, hpred⟩ := hnew x hx
      rw [hxid]
      exact ⟨hid, Store.lt_size_of_get? ht, hsettled _ hpred⟩
  · rw [show e.contest g link arc kind score id t = _ from hcontest e.lattice,
      Lattice.recordAll_append, ← hl]
  · rw [hcontest, Lattice.recordAll_append]

/-- **An arrival in twins.** -/
theorem Twins.arrive (h : Twins g base done l l' e e') (hbase : base.Closed) {c : Nat} {u : Token}
    (hl : Leads g base done e c u) {source target : State} {arc : Arc}
    (hs : g.graph.state? u.state = some source) (harc : arc ∈ source.arcs)
    (ht : g.graph.state? arc.target = some target) :
    ∃ e₁ e₁', e.arrive g (Store.link g.keepAllTokens c u) arc target.kind
        (u.score + arc.probability) = .ok e₁ ∧
      e'.arrive g (Store.link g.keepAllTokens c u) arc target.kind
        (u.score + arc.probability) = .ok e₁' ∧
      Twins g base done l l' e₁ e₁' ∧ Leads g base done e₁ c u := by
  obtain ⟨e₁, he₁, hsound, hl₁, -⟩ := hl.arrive h.sound hs harc ht
  have hsame : e'.resident? arc.target = e.resident? arc.target ∧ e'.store = e.store := by
    obtain ⟨edges, -, -, rfl⟩ := h.recorded
    exact ⟨rfl, rfl⟩
  have harrive := he₁
  unfold Expansion.arrive at harrive ⊢
  rw [hsame.1, hsame.2]
  cases hres : e.resident? arc.target with
  | none =>
    simp only [hres, Except.ok.injEq] at harrive
    subst harrive
    refine ⟨_, _, rfl, rfl, h.congr (f := fun e => e.settle g _ arc target.kind _) hsound
      (fun _ h => h) ?_ (settle_lattice _ _ _ _ _ _), hl₁⟩
    rw [store_settle]
    split
    · exact le_rfl
    · rw [Store.size_push]
      exact Nat.le_succ _
  | some id =>
    obtain ⟨hid, t, hget, -⟩ := h.sound.resident_new _ _ hres
    simp only [hres, Store.get_eq_ok hget, bind, Except.bind, pure, Except.pure,
      Except.ok.injEq] at harrive
    subst harrive
    simp only [Store.get_eq_ok hget]
    refine ⟨_, _, rfl, rfl, h.contest hid hget (fun p hp => ?_) hsound, hl₁⟩
    exact hp.elim (h.sound.settled_of_new hbase hid hget)
      (h.sound.settled_link hbase hl.settled hl.get)

/-! ## A token in twins -/

/-- **Two expansions that are halted as twins.** -/
def TwinHalts (g : Growth) (base : Store) (l l' : Lattice) (h h' : Halted Expansion) : Prop :=
  h.error = h'.error ∧ (∃ s t so to_, h.error = .stateOrder s t so to_) ∧
    ∃ done, Twins g base done l l' h.state h'.state

/-- The test of an arc does not look at the lattice. -/
theorem cut_lattice (g : Growth) (e : Expansion) (source kind : StateKind) (score : Score)
    (m : Lattice) : cut g { e with lattice := m } source kind score =
      ((e.cut g source kind score).1, { (e.cut g source kind score).2 with lattice := m }) := by
  unfold Expansion.cut
  dsimp only
  split
  · split <;> rfl
  · rfl

/-- **Following an arc in twins.** -/
theorem Twins.follow (h : Twins g base done l l' e e') (hbase : base.Closed) {c : Nat} {u : Token}
    (hl : Leads g base done e c u) {source : State} (hs : g.graph.state? u.state = some source)
    {arc : Arc} (harc : arc ∈ source.arcs) :
    Matched (fun e₁ e₁' => Twins g base done l l' e₁ e₁' ∧ Leads g base done e₁ c u)
      (TwinHalts g base l l') (e.follow g u source (Store.link g.keepAllTokens c u) arc)
      (e'.follow g u source (Store.link g.keepAllTokens c u) arc) := by
  obtain ⟨target, ht, -⟩ := exists_target hs harc
  have hsame : (e'.cut g u.kind target.kind (u.score + arc.probability)).1 =
      (e.cut g u.kind target.kind (u.score + arc.probability)).1 := by
    obtain ⟨edges, -, -, rfl⟩ := h.recorded
    rw [cut_lattice]
  obtain ⟨isCut, memo, heq⟩ := cut_eq g e u.kind target.kind (u.score + arc.probability)
  have hcut : Twins g base done l l' (e.cut g u.kind target.kind (u.score + arc.probability)).2
      (e'.cut g u.kind target.kind (u.score + arc.probability)).2 := by
    refine h.congr (f := fun e => (e.cut g u.kind target.kind _).2) ?_ (fun _ h => h) ?_
      fun m => congrArg Prod.snd (cut_lattice g e _ _ _ m)
    · rw [heq]
      exact h.sound.memo memo
    · rw [heq]
  have hl₁ : Leads g base done (e.cut g u.kind target.kind (u.score + arc.probability)).2 c u := by
    rw [heq]
    exact hl.memo memo
  obtain ⟨e₂, e₂', he₂, he₂', h₂, hl₂⟩ := hcut.arrive hbase hl₁ hs harc ht
  refine matched_follow rfl rfl rfl ht hsame ⟨hcut, hl₁⟩ ⟨rfl, ⟨_, _, _, _, rfl⟩, done, hcut⟩ ?_
  rw [he₂, he₂']
  exact ⟨h₂, hl₂⟩

/-- **Expanding a settled token in twins.** -/
theorem Twins.expandToken (h : Twins g base done l l' e e') (hbase : base.Closed) {c : Nat}
    {u : Token} (hc : Settled base done c) (hu : e.store.get? c = some u)
    (hlead : ∀ d ∈ done, ∀ t, e.store.get? d = some t → ¬ t.score < u.score) :
    Matched (Twins g base done l l') (TwinHalts g base l l') (e.expandToken g c u)
      (e'.expandToken g c u) := by
  have hbest : e'.bestWord = e.bestWord := by
    obtain ⟨edges, -, -, rfl⟩ := h.recorded
    rfl
  refine matched_expandToken rfl (by rw [hbest]) rfl ?_ h (fun hnone => ?_) fun hfinal source hs => ?_
  · obtain ⟨edges, -, -, rfl⟩ := h.recorded
    exact h.congr (f := fun e => { e with results := e.results ++ [c] }) (h.sound.results _)
      (fun _ h => h) le_rfl fun _ => rfl
  · obtain ⟨source, hs, -⟩ := h.sound.fits c u hu
    cases hs.symm.trans hnone
  · refine (Matched.foldlM (l := source.arcs) (S := TwinHalts g base l l')
      (R := fun e₁ e₁' => Twins g base done l l' e₁ e₁' ∧ Leads g base done e₁ c u)
      (fun e₁ e₁' arc harc hr => ?_) e e' ⟨h, hc, hu, hfinal, hlead⟩).mono (fun _ _ h => h.1)
        fun _ _ h => h
    exact hr.1.follow hbase hr.2 hs harc

/-! ## A frame in twins -/

/-- **Expanding a seed in twins.** -/
theorem Twins.expandSeed (h : Twins g base [] l l' e e') (hbase : base.Closed) {id : Nat}
    (hid : id < base.size) :
    Matched (Twins g base [] l l') (TwinHalts g base l l') (e.expandSeed g id)
      (e'.expandSeed g id) := by
  obtain ⟨t, ht⟩ := Store.exists_get? (Nat.lt_of_lt_of_le hid h.sound.size_le)
  obtain ⟨edges, -, -, rfl⟩ := h.recorded
  refine matched_expandSeed ht ht rfl rfl h fun expanded ho _ => ?_
  have hopen := h.congr (f := fun e => { e with expanded }) (h.sound.opens ht ho) (fun _ h => h)
    le_rfl fun _ => rfl
  exact hopen.expandToken hbase (.inl hid) ht fun _ hd => by cases hd

/-- **Working off the queues in twins,** by induction on the rounds. -/
theorem Twins.drain (hbase : base.Closed) :
    ∀ (rounds : Nat) {done : List Nat} {e e' : Expansion}, Twins g base done l l' e e' →
      Matched (fun e₁ e₁' => ∃ done', Twins g base done' l l' e₁ e₁') (TwinHalts g base l l')
        (e.drain g rounds) (e'.drain g rounds)
  | 0, done, _, _, h => ⟨done, h⟩
  | rounds + 1, done, e, e', h => by
    obtain ⟨edges, -, -, rfl⟩ := h.recorded
    unfold Expansion.drain
    rw [show isStale { e with lattice := l'.recordAll edges } = e.isStale from rfl]
    cases hq : e.queue.dropWhile e.isStale with
    | nil =>
      exact ⟨done, h.congr (f := fun e => { e with queue := [] }) (h.sound.clear hq)
        (fun _ h => h) le_rfl fun _ => rfl⟩
    | cons p rest =>
      obtain ⟨-, t, ht, -⟩ := h.sound.queued p (mem_of_fresh hq)
      simp only [ht]
      obtain ⟨hpop, hlead⟩ := h.sound.pop hq ht
      have hboth := h.congr
        (f := fun e => { e with queue := rest, expanded := t.state :: e.expanded }) hpop
        (fun c hc => List.mem_cons_of_mem _ hc) le_rfl fun _ => rfl
      exact (hboth.expandToken hbase (.inr (by simp)) ht hlead).bind fun e₁ e₁' h₁ =>
        Twins.drain hbase rounds h₁

/-- Two expansions that have not begun. -/
theorem Twins.start (hfits : Fits g.graph base) (widths : BeamWidths) (l l' : Lattice)
    (memo : PenaltyMemo) :
    Twins g base [] l l' (.start base (.empty widths) l memo)
      (.start base (.empty widths) l' memo) :=
  ⟨.start hfits _ _ _, [], by simp, rfl, rfl⟩

/-- **A frame in twins:** both remember the same about tokens of the frame, and what they remember
is settled. -/
theorem Twins.run (h : Twins g base [] l l' e e') (hbase : base.Closed) {seeds : List Nat}
    (hseeds : ∀ id ∈ seeds, id < base.size) :
    Matched (fun e₁ e₁' => ∃ done, Twins g base done l l' e₁ e₁') (TwinHalts g base l l')
      (e.run g seeds) (e'.run g seeds) := by
  unfold Expansion.run
  refine (Matched.foldlM (l := seeds) (fun e₁ e₁' id hid hr => ?_) e e' h).bind
    fun e₁ e₁' h₁ => Twins.drain hbase _ h₁
  exact hr.expandSeed hbase (hseeds id hid)

end SpeechDecoder.Expansion

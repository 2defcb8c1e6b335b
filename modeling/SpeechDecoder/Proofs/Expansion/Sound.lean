import SpeechDecoder.Proofs.Beam
import SpeechDecoder.Proofs.Expansion.Steps
import SpeechDecoder.Proofs.Outcome
import SpeechDecoder.Proofs.Score.Sum
import SpeechDecoder.Proofs.Token.Path

/-!
# What holds throughout an expansion

The expansion of a frame starts from a store `base`.  The tokens of `base` and those that have been
taken from the queue, listed in `done` with the latest first, are *settled*: they do not change any
more.  Every token of the frame is what arrives from a settled token over an arc of the graph
(`Arrived`), so whatever it copied from there stays true.

That settled tokens are not rerouted is due to the order of the queue and to the arcs, none of which
raises a score: what waits is never better than what was taken (`Sound.settled`), and neither is
anything that arrives later (`Score.lt_of_lt_add`).

* `Sound` is the invariant; `Sound.arrive`, `Sound.follow`, `Sound.expandToken` and
  `Sound.expandSeed` carry it through an arrival, an arc and the expansion of a token.
* `Sound.arrive_cases`, `Leads.follow_rule` and `Sound.expandToken_cases` are the steps from a sound
  expansion, where nothing leads nowhere.
* An expansion only halts at an arc that breaks the order of states (`Halts`).
-/

namespace SpeechDecoder.Expansion

/-- A token of an earlier frame, or one that has been expanded. -/
def Settled (base : Store) (done : List Nat) (id : Nat) : Prop := id < base.size ∨ id ∈ done

/-- **What arrives from a settled token over an arc.** -/
def Arrived (g : Growth) (base : Store) (done : List Nat) (a : Store) (t : Token) : Prop :=
  ∃ c u source arc target, Settled base done c ∧ a.get? c = some u ∧ u.kind.isFinal = false ∧
    g.graph.state? u.state = some source ∧ arc ∈ source.arcs ∧
    g.graph.state? arc.target = some target ∧
    t = .entering (Store.link g.keepAllTokens c u) arc target.kind (u.score + arc.probability)
      g.frame

/-- Every expanded token arrived from one that was settled before it. -/
def Chained (g : Growth) (base a : Store) : List Nat → Prop
  | [] => True
  | c :: rest => (∃ t, base.size ≤ c ∧ a.get? c = some t ∧ Arrived g base rest a t) ∧
      Chained g base a rest

/-- Every token stands on a state of the graph, and is of its kind. -/
def Fits (graph : Graph) (a : Store) : Prop :=
  ∀ id t, a.get? id = some t → ∃ st, graph.state? t.state = some st ∧ t.kind = st.kind

theorem fits_single {graph : Graph} {s : Nat} {kind : StateKind}
    (h : ∃ st, graph.state? s = some st ∧ kind = st.kind) (frame : Nat) :
    Fits graph (Store.empty.push (.seed s kind frame)) := by
  intro id t ht
  obtain ⟨-, rfl⟩ := Store.eq_of_get?_single ht
  exact h

/-- **The invariant of an expansion.** -/
structure Sound (g : Growth) (base : Store) (done : List Nat) (e : Expansion) : Prop where
  size_le : base.size ≤ e.store.size
  old : ∀ id < base.size, e.store.get? id = base.get? id
  fits : Fits g.graph e.store
  /-- A resident is a token of the frame on its state. -/
  resident_new : ∀ s id, e.resident? s = some id →
    base.size ≤ id ∧ ∃ t, e.store.get? id = some t ∧ t.state = s
  /-- A token of the frame is the resident of its state. -/
  resident_of : ∀ id t, base.size ≤ id → e.store.get? id = some t → e.resident? t.state = some id
  arrived : ∀ id t, base.size ≤ id → e.store.get? id = some t → Arrived g base done e.store t
  chained : Chained g base e.store done
  expanded_done : ∀ c ∈ done, ∀ t, e.store.get? c = some t → t.kind.isEmitting = false ∧
    t.state ∈ e.expanded
  expanded_nodup : e.expanded.Nodup
  expanded_lt : ∀ s ∈ e.expanded, s < g.graph.size
  sorted : e.queue.Pairwise fun p q => p.notAfter q = true
  /-- An entry of the queue is no better than its token is now. -/
  queued : ∀ p ∈ e.queue, base.size ≤ p.token ∧ ∃ t, e.store.get? p.token = some t ∧
    t.kind.isEmitting = false ∧ p.score.rank ≤ t.score.rank
  /-- A token that is still to be expanded waits with the score that it has. -/
  waiting : ∀ id t, base.size ≤ id → e.store.get? id = some t → t.kind.isEmitting = false →
    t.state ∉ e.expanded → ⟨t.score, id⟩ ∈ e.queue
  /-- Nothing that waits is better than what was expanded. -/
  settled : ∀ c ∈ done, ∀ t, e.store.get? c = some t → ∀ p ∈ e.queue, ¬ t.score < p.score
  next_sorted : e.next.tokens.Pairwise (· < ·)
  mem_next : ∀ id, id ∈ e.next.tokens ↔
    base.size ≤ id ∧ ∃ t, e.store.get? id = some t ∧ t.kind.isEmitting = true

variable {g : Growth} {base : Store} {done : List Nat} {e : Expansion}

/-! ## First facts -/

theorem resident?_eq (e : Expansion) (s : Nat) : e.resident? s = e.residents.lookup s := rfl

theorem lookup_cons_eq (s s' id : Nat) (l : List (Nat × Nat)) :
    ((s', id) :: l).lookup s = if s = s' then some id else l.lookup s := by
  rw [List.lookup_cons]
  by_cases h : s = s'
  · simp [h]
  · rw [if_neg h, beq_eq_false_iff_ne.2 h]

theorem Chained.mem {a : Store} : ∀ {done : List Nat}, Chained g base a done → ∀ c ∈ done,
    ∃ t, base.size ≤ c ∧ a.get? c = some t
  | _ :: _, ⟨⟨t, hb, ht, _⟩, hrest⟩, c, hc => by
    rcases List.mem_cons.1 hc with rfl | hc
    · exact ⟨t, hb, ht⟩
    · exact hrest.mem c hc

theorem Settled.mono {rest : List Nat} (h : ∀ c ∈ rest, c ∈ done) {c : Nat}
    (hc : Settled base rest c) : Settled base done c :=
  hc.imp_right (h c)

theorem Arrived.mono {rest : List Nat} {a a' : Store} {t : Token} (h : Arrived g base rest a t)
    (hsub : ∀ c ∈ rest, c ∈ done) (hget : ∀ c, Settled base done c → a'.get? c = a.get? c) :
    Arrived g base done a' t := by
  obtain ⟨c, u, source, arc, target, hc, hu, hrest⟩ := h
  exact ⟨c, u, source, arc, target, hc.mono hsub, by rw [hget c (hc.mono hsub), hu], hrest⟩

theorem Chained.congr {a a' : Store} : ∀ {done : List Nat}, Chained g base a done →
    (∀ c, Settled base done c → a'.get? c = a.get? c) → Chained g base a' done
  | [], _, _ => trivial
  | c :: rest, ⟨⟨t, hb, ht, harr⟩, hrest⟩, hget => by
    have hget' : ∀ d, Settled base rest d → a'.get? d = a.get? d :=
      fun d hd => hget d (hd.mono fun x hx => List.mem_cons_of_mem c hx)
    exact ⟨⟨t, hb, by rw [hget c (.inr (by simp)), ht], harr.mono (fun _ h => h) hget'⟩,
      hrest.congr hget'⟩

theorem Sound.settled_lt (h : Sound g base done e) {c : Nat} (hc : Settled base done c) :
    c < e.store.size := by
  rcases hc with hc | hc
  · exact Nat.lt_of_lt_of_le hc h.size_le
  · obtain ⟨t, -, ht⟩ := h.chained.mem c hc
    exact Store.lt_size_of_get? ht

/-- The tokens of the beam are stored. -/
theorem Sound.next_lt (h : Sound g base done e) {id : Nat} (hid : id ∈ e.next.tokens) :
    id < e.store.size := by
  obtain ⟨-, t, ht, -⟩ := (h.mem_next id).1 hid
  exact Store.lt_size_of_get? ht

/-- The invariant does not speak of the other parts of an expansion. -/
theorem Sound.congr {e' : Expansion} (h : Sound g base done e) (hs : e'.store = e.store)
    (hn : e'.next.tokens = e.next.tokens) (hr : e'.residents = e.residents)
    (hx : e'.expanded = e.expanded) (hq : e'.queue = e.queue) : Sound g base done e' := by
  obtain ⟨h1, h2, h3, h4, h5, h6, h7, h8, h9, h10, h11, h12, h13, h14, h15, h16⟩ := h
  refine ⟨?_, ?_, ?_, ?_, ?_, ?_, ?_, ?_, ?_, ?_, ?_, ?_, ?_, ?_, ?_, ?_⟩ <;>
    simp only [resident?_eq, hs, hn, hr, hx, hq] <;> assumption

/-- Nothing here speaks of the penalties that are known. -/
theorem Sound.memo (h : Sound g base done e) (memo : PenaltyMemo) :
    Sound g base done { e with memo } :=
  h.congr rfl rfl rfl rfl rfl

theorem Sound.results (h : Sound g base done e) (results : List Nat) :
    Sound g base done { e with results } :=
  h.congr rfl rfl rfl rfl rfl

/-! ## Arrivals -/

/-- **What putting a token on its state changes:** it is a new one, or a better one in place of one
that has not been expanded. -/
structure Put (g : Growth) (base : Store) (done : List Nat) (e e' : Expansion) (id : Nat)
    (t : Token) : Prop where
  new : base.size ≤ id
  not_done : id ∉ done
  size_le : e.store.size ≤ e'.store.size
  get : ∀ x, e'.store.get? x = if x = id then some t else e.store.get? x
  better : ∀ u, e.store.get? id = some u → u.score.rank ≤ t.score.rank
  fits : ∃ st, g.graph.state? t.state = some st ∧ t.kind = st.kind
  arrived : Arrived g base done e.store t
  lead : ∀ c ∈ done, ∀ u, e.store.get? c = some u → ¬ u.score < t.score
  resident : ∀ s, e'.resident? s = if s = t.state then some id else e.resident? s
  own : ∀ x u, base.size ≤ x → e.store.get? x = some u → (x = id ↔ u.state = t.state)
  expanded : e'.expanded = e.expanded
  queue : e'.queue =
    if t.kind.isEmitting then e.queue else Pending.enqueue ⟨t.score, id⟩ e.queue
  sorted : e'.next.tokens.Pairwise (· < ·)
  mem_next : ∀ x, x ∈ e'.next.tokens ↔ x ∈ e.next.tokens ∨ x = id ∧ t.kind.isEmitting = true

section Put

variable {e' : Expansion} {id : Nat} {t : Token}

theorem Put.self (hp : Put g base done e e' id t) : e'.store.get? id = some t := by
  rw [hp.get id, if_pos rfl]

theorem Put.get_cases (hp : Put g base done e e' id t) {x : Nat} {u : Token}
    (hu : e'.store.get? x = some u) : x = id ∧ u = t ∨ x ≠ id ∧ e.store.get? x = some u := by
  rw [hp.get x] at hu
  split_ifs at hu with hxi
  · exact .inl ⟨hxi, (Option.some.inj hu).symm⟩
  · exact .inr ⟨hxi, hu⟩

/-- Nothing that is settled changes. -/
theorem Put.stay (hp : Put g base done e e' id t) (c : Nat) (hc : Settled base done c) :
    e'.store.get? c = e.store.get? c := by
  have hne : c ≠ id := by
    rintro rfl
    rcases hc with hc | hc
    · exact absurd hp.new (Nat.not_le.2 hc)
    · exact hp.not_done hc
  rw [hp.get c, if_neg hne]

/-- A state has the kind that it had. -/
theorem Put.kind (hp : Put g base done e e' id t) (h : Sound g base done e) {u : Token}
    (hu : e.store.get? id = some u) : u.kind = t.kind := by
  obtain ⟨st, hst, hk⟩ := hp.fits
  obtain ⟨st', hst', hk'⟩ := h.fits id u hu
  rw [(hp.own id u hp.new hu).1 rfl, hst] at hst'
  cases hst'
  rw [hk, hk']

theorem Put.mem_queue (hp : Put g base done e e' id t) {p : Pending} :
    p ∈ e'.queue ↔ p = ⟨t.score, id⟩ ∧ t.kind.isEmitting = false ∨ p ∈ e.queue := by
  rw [hp.queue]
  cases t.kind.isEmitting <;> simp

theorem Put.queued (hp : Put g base done e e' id t) (h : Sound g base done e) {p : Pending}
    (hmem : p ∈ e'.queue) : base.size ≤ p.token ∧ ∃ u, e'.store.get? p.token = some u ∧
      u.kind.isEmitting = false ∧ p.score.rank ≤ u.score.rank := by
  rcases hp.mem_queue.1 hmem with ⟨rfl, hk⟩ | hmem
  · exact ⟨hp.new, t, hp.self, hk, le_rfl⟩
  · obtain ⟨hb, u, hu, hk, hr⟩ := h.queued p hmem
    by_cases hxi : p.token = id
    · rw [hxi] at hu
      exact ⟨hb, t, by rw [hxi, hp.self], hp.kind h hu ▸ hk, hr.trans (hp.better u hu)⟩
    · exact ⟨hb, u, by rw [hp.get, if_neg hxi, hu], hk, hr⟩

theorem Put.next (hp : Put g base done e e' id t) (h : Sound g base done e) (x : Nat) :
    x ∈ e'.next.tokens ↔
      base.size ≤ x ∧ ∃ u, e'.store.get? x = some u ∧ u.kind.isEmitting = true := by
  rw [hp.mem_next x, h.mem_next x]
  by_cases hxi : x = id
  · subst hxi
    constructor
    · rintro (⟨hb, u, hu, hk⟩ | ⟨-, hk⟩)
      · exact ⟨hb, t, hp.self, hp.kind h hu ▸ hk⟩
      · exact ⟨hp.new, t, hp.self, hk⟩
    · rintro ⟨-, u, hu, hk⟩
      rw [hp.self] at hu
      cases hu
      exact .inr ⟨rfl, hk⟩
  · simp [hp.get x, hxi]

/-- **Putting a token on its state** keeps the invariant. -/
theorem Sound.put (h : Sound g base done e) (id : Nat) (t : Token)
    (hp : Put g base done e e' id t) : Sound g base done e' where
  size_le := h.size_le.trans hp.size_le
  old x hx := (hp.stay x (.inl hx)).trans (h.old x hx)
  fits x u hu := by
    rcases hp.get_cases hu with ⟨-, rfl⟩ | ⟨-, hu⟩
    · exact hp.fits
    · exact h.fits x u hu
  resident_new s x hs := by
    rw [hp.resident s] at hs
    split_ifs at hs with hst
    · cases hs
      exact ⟨hp.new, t, hp.self, hst.symm⟩
    · obtain ⟨hb, u, hu, hus⟩ := h.resident_new s x hs
      have hne : x ≠ id := fun hxi => hst (hus ▸ (hp.own x u hb hu).1 hxi)
      exact ⟨hb, u, by rw [hp.get x, if_neg hne, hu], hus⟩
  resident_of x u hb hu := by
    rw [hp.resident]
    rcases hp.get_cases hu with ⟨rfl, rfl⟩ | ⟨hxi, hu⟩
    · rw [if_pos rfl]
    · rw [if_neg fun hst => hxi ((hp.own x u hb hu).2 hst)]
      exact h.resident_of x u hb hu
  arrived x u hb hu := by
    rcases hp.get_cases hu with ⟨-, rfl⟩ | ⟨-, hu⟩
    · exact hp.arrived.mono (fun _ h => h) hp.stay
    · exact (h.arrived x u hb hu).mono (fun _ h => h) hp.stay
  chained := h.chained.congr hp.stay
  expanded_done c hc u hu := by
    rw [hp.stay c (.inr hc)] at hu
    rw [hp.expanded]
    exact h.expanded_done c hc u hu
  expanded_nodup := hp.expanded ▸ h.expanded_nodup
  expanded_lt := hp.expanded ▸ h.expanded_lt
  sorted := by
    rw [hp.queue]
    split_ifs
    · exact h.sorted
    · exact Pending.pairwise_enqueue h.sorted
  queued p hmem := hp.queued h hmem
  waiting x u hb hu he hs := by
    rw [hp.expanded] at hs
    rcases hp.get_cases hu with ⟨rfl, rfl⟩ | ⟨-, hu⟩
    · exact hp.mem_queue.2 (.inl ⟨rfl, he⟩)
    · exact hp.mem_queue.2 (.inr (h.waiting x u hb hu he hs))
  settled c hc u hu p hmem := by
    rw [hp.stay c (.inr hc)] at hu
    rcases hp.mem_queue.1 hmem with ⟨rfl, -⟩ | hmem
    · exact hp.lead c hc u hu
    · exact h.settled c hc u hu p hmem
  next_sorted := hp.sorted
  mem_next := hp.next h

end Put

/-- **The first arrival on a state.** -/
theorem Sound.settle (h : Sound g base done e) {link : Option Nat} {arc : Arc} {kind : StateKind}
    {score : Score} (hno : e.resident? arc.target = none)
    (hfits : ∃ st, g.graph.state? arc.target = some st ∧ kind = st.kind)
    (harr : Arrived g base done e.store (.entering link arc kind score g.frame))
    (hlead : ∀ c ∈ done, ∀ t, e.store.get? c = some t → ¬ t.score < score) :
    Sound g base done (e.settle g link arc kind score) := by
  cases hadm : (kind.isEmitting && !e.next.admits score) with
  | true =>
    rw [settle_refused hadm]
    exact h
  | false =>
    obtain ⟨bestWord, created, heq⟩ := settle_eq (g := g) hadm link arc
    have hfresh : ∀ x u, base.size ≤ x → e.store.get? x = some u →
        (x = e.store.size ↔ u.state = arc.target) := by
      intro x u hx hu
      refine iff_of_false (Store.lt_size_of_get? hu).ne fun hst => ?_
      have := h.resident_of x u hx hu
      rw [hst, hno] at this
      cases this
    have hnone : e.store.get? e.store.size = none := (Store.get?_eq_none_iff _).2 le_rfl
    have hnew : e.store.size ∉ done := fun hd => absurd (h.settled_lt (.inr hd)) (lt_irrefl _)
    have hlast : ∀ x ∈ e.next.tokens, x < e.store.size := fun x hx => h.next_lt hx
    rw [heq]
    refine h.put e.store.size (.entering link arc kind score g.frame)
      ⟨h.size_le, hnew, by simp, fun x => Store.get?_push _ _ _, fun u hu => ?_, hfits, harr, hlead,
        fun s => lookup_cons_eq _ _ _ _, hfresh, rfl, rfl, ?_, fun x => ?_⟩
    · rw [hnone] at hu
      cases hu
    · cases kind.isEmitting
      · exact h.next_sorted
      · simp only [if_true, Beam.tokens_push, List.pairwise_append]
        exact ⟨h.next_sorted, by simp, fun x hx y hy => List.mem_singleton.1 hy ▸ hlast x hx⟩
    · rw [show (Token.entering link arc kind score g.frame).kind = kind from rfl]
      cases kind.isEmitting
      · simp
      · simp [Beam.tokens_push]

/-- A rerouted token of the frame is as if it had arrived over the new arc only. -/
theorem rerouted_eq_entering {a : Store} {t : Token} (h : Arrived g base done a t) {arc : Arc}
    (hst : t.state = arc.target) (link : Option Nat) (score : Score) :
    t.rerouted link arc score g.frame = .entering link arc t.kind score g.frame := by
  obtain ⟨c, u, source, arc', target, -, -, -, -, -, -, rfl⟩ := h
  simp only [Token.rerouted, Token.entering] at hst ⊢
  rw [hst]

/-- **A later arrival on a state.** -/
theorem Sound.contest (h : Sound g base done e) {link : Option Nat} {arc : Arc} {kind : StateKind}
    {score : Score} {id : Nat} {t : Token} (hres : e.resident? arc.target = some id)
    (ht : e.store.get? id = some t)
    (hfits : ∃ st, g.graph.state? arc.target = some st ∧ kind = st.kind)
    (harr : Arrived g base done e.store (.entering link arc kind score g.frame))
    (hlead : ∀ c ∈ done, ∀ t, e.store.get? c = some t → ¬ t.score < score) :
    Sound g base done (e.contest g link arc kind score id t) := by
  obtain ⟨hid, u, hu, hst⟩ := h.resident_new _ _ hres
  rw [ht] at hu
  cases hu
  have hkind : t.kind = kind := by
    obtain ⟨st, hst', hk⟩ := hfits
    obtain ⟨st', hst'', hk'⟩ := h.fits id t ht
    rw [hst, hst'] at hst''
    cases hst''
    rw [hk, hk']
  by_cases hlt : t.score < score
  · obtain ⟨lattice, bestWord, heq⟩ := contest_better (g := g) (e := e) hlt link arc kind id
    rw [heq, rerouted_eq_entering (h.arrived id t hid ht) hst, hkind]
    have hown : ∀ x u, base.size ≤ x → e.store.get? x = some u →
        (x = id ↔ u.state = arc.target) := by
      intro x u hx hu
      refine ⟨fun hxi => ?_, fun hus => ?_⟩
      · rw [hxi, ht] at hu
        cases hu
        exact hst
      · have := h.resident_of x u hx hu
        rw [hus, hres] at this
        exact (Option.some.inj this).symm
    have hnext : (if kind.isEmitting then e.next.note id score else e.next).tokens =
        e.next.tokens := by
      split
      · exact Beam.tokens_note _ _ _
      · rfl
    refine h.put id (.entering link arc kind score g.frame)
      ⟨hid, fun hd => hlead id hd t ht hlt, (Store.size_set _ _ _).ge, fun x => ?_, fun u hu => ?_,
        hfits, harr, hlead, fun s => ?_, hown, rfl, rfl, hnext ▸ h.next_sorted, fun x => ?_⟩
    · rw [Store.get?_set]
      by_cases hxi : id = x
      · rw [if_pos hxi, if_pos (Store.lt_size_of_get? ht), if_pos hxi.symm]
      · rw [if_neg hxi, if_neg (Ne.symm hxi)]
    · rw [ht] at hu
      cases hu
      exact (Score.rank_lt_of_lt hlt).le
    · change e.resident? s = _
      split_ifs with hs
      · rw [hs]
        exact hres
      · rfl
    · rw [hnext]
      refine ⟨.inl, fun hx => hx.elim (fun hx => hx) fun ⟨hxi, hk⟩ => ?_⟩
      rw [hxi]
      exact (h.mem_next id).2 ⟨hid, t, ht, by rw [hkind]; exact hk⟩
  · obtain ⟨lattice, heq⟩ := contest_worse (g := g) (e := e) hlt link arc kind id
    rw [heq]
    exact h.congr rfl rfl rfl rfl rfl

/-- What is appended to the store does not concern the tokens in it. -/
theorem get?_push_of_lt {a : Store} {t : Token} {id : Nat} (h : id < a.size) :
    (a.push t).get? id = a.get? id := by
  rw [Store.get?_push, if_neg (by omega)]

/-- **An arrival** finds its resident in the store, and does not touch what is settled. -/
theorem Sound.arrive (h : Sound g base done e) {link : Option Nat} {arc : Arc} {kind : StateKind}
    {score : Score} (hfits : ∃ st, g.graph.state? arc.target = some st ∧ kind = st.kind)
    (harr : Arrived g base done e.store (.entering link arc kind score g.frame))
    (hlead : ∀ c ∈ done, ∀ t, e.store.get? c = some t → ¬ t.score < score) :
    ∃ e', e.arrive g link arc kind score = .ok e' ∧ Sound g base done e' ∧
      ∀ c, Settled base done c → e'.store.get? c = e.store.get? c := by
  unfold Expansion.arrive
  cases hres : e.resident? arc.target with
  | none =>
    refine ⟨_, rfl, h.settle hres hfits harr hlead, fun c hc => ?_⟩
    rw [store_settle]
    split_ifs
    · rfl
    · exact get?_push_of_lt (h.settled_lt hc)
  | some id =>
    obtain ⟨hb, t, ht, -⟩ := h.resident_new _ _ hres
    simp only [Store.get_eq_ok ht]
    refine ⟨_, rfl, h.contest hres ht hfits harr hlead, fun c hc => ?_⟩
    rw [store_contest]
    split_ifs with hlt
    · rw [Store.get?_set, if_neg]
      rintro rfl
      rcases hc with hc | hc
      · omega
      · exact hlead _ hc t ht hlt
    · rfl

/-- **An arrival** is the first one on its state, or meets the token that is there. -/
theorem Sound.arrive_cases (h : Sound g base done e) {e' : Expansion} {link : Option Nat} {arc : Arc}
    {target : State} {score : Score} (ht : g.graph.state? arc.target = some target)
    (he : e.arrive g link arc target.kind score = .ok e') :
    e.resident? arc.target = none ∧ e' = e.settle g link arc target.kind score ∨
      ∃ id t, e.resident? arc.target = some id ∧ base.size ≤ id ∧ e.store.get? id = some t ∧
        t.state = arc.target ∧ t.kind = target.kind ∧
        e' = e.contest g link arc target.kind score id t := by
  unfold Expansion.arrive at he
  cases hres : e.resident? arc.target with
  | none =>
    simp only [hres, Except.ok.injEq] at he
    exact .inl ⟨rfl, he.symm⟩
  | some id =>
    obtain ⟨hid, t, hget, hstate⟩ := h.resident_new _ _ hres
    simp only [hres, Store.get_eq_ok hget, bind, Except.bind, pure, Except.pure,
      Except.ok.injEq] at he
    obtain ⟨st, hst, hkind⟩ := h.fits id t hget
    rw [hstate, ht] at hst
    cases hst
    exact .inr ⟨id, t, rfl, hid, hget, hstate, hkind, he.symm⟩

/-! ## Following the arcs of a token -/

/-- **A settled token at work:** nothing that was expanded is worse. -/
structure Leads (g : Growth) (base : Store) (done : List Nat) (e : Expansion) (c : Nat) (u : Token) :
    Prop where
  settled : Settled base done c
  get : e.store.get? c = some u
  notFinal : u.kind.isFinal = false
  lead : ∀ d ∈ done, ∀ t, e.store.get? d = some t → ¬ t.score < u.score

theorem Leads.memo {c : Nat} {u : Token} (hl : Leads g base done e c u) (memo : PenaltyMemo) :
    Leads g base done { e with memo } c u :=
  ⟨hl.settled, hl.get, hl.notFinal, hl.lead⟩

/-- **How an expansion halts:** at an arc that leads to a lower order, and soundly. -/
def Halts (g : Growth) (base : Store) (h : Halted Expansion) : Prop :=
  (g.checkStateOrder = true ∧ ∃ s t so to_, h.error = .stateOrder s t so to_) ∧
    ∃ done, Sound g base done h.state

/-- The arcs of a state lead to states of the graph, and none raises a score. -/
theorem exists_target {graph : Graph} {s : Nat} {source : State}
    (hs : graph.state? s = some source) {arc : Arc} (harc : arc ∈ source.arcs) :
    ∃ target, graph.state? arc.target = some target ∧ ¬ Score.certain < arc.probability := by
  have hmem : source ∈ graph.states.toList := Array.mem_def.1 (Array.mem_of_getElem? hs)
  obtain ⟨hlt, hp⟩ := graph.sound source hmem arc harc
  exact ⟨_, Array.getElem?_eq_getElem hlt, hp⟩

/-- **An arrival over an arc of a settled token.** -/
theorem Leads.arrive {c : Nat} {u : Token} (hl : Leads g base done e c u)
    (h : Sound g base done e) {source target : State} (hs : g.graph.state? u.state = some source)
    {arc : Arc} (harc : arc ∈ source.arcs) (ht : g.graph.state? arc.target = some target) :
    ∃ e', e.arrive g (Store.link g.keepAllTokens c u) arc target.kind (u.score + arc.probability) =
        .ok e' ∧ Sound g base done e' ∧ Leads g base done e' c u ∧
      ∀ d, Settled base done d → e'.store.get? d = e.store.get? d := by
  obtain ⟨-, -, hp⟩ := exists_target hs harc
  obtain ⟨e', he, hsound, hstay⟩ := h.arrive (g := g) ⟨target, ht, rfl⟩
    ⟨c, u, source, arc, target, hl.settled, hl.get, hl.notFinal, hs, harc, ht, rfl⟩
    (fun d hd t hdt hlt => hl.lead d hd t hdt (Score.lt_of_lt_add hp hlt))
  refine ⟨e', he, hsound, ⟨hl.settled, by rw [hstay c hl.settled, hl.get], hl.notFinal,
    fun d hd t hdt => ?_⟩, hstay⟩
  rw [hstay d (.inr hd)] at hdt
  exact hl.lead d hd t hdt

/-- **What following an arc comes to:** the arc is cut, or the expansion is halted by the order of
the states, or there is an arrival. -/
theorem Leads.follow_rule {P : Expansion → Prop} {H : Halted Expansion → Prop} {c : Nat} {u : Token}
    (hl : Leads g base done e c u) (h : Sound g base done e) {source : State}
    (hs : g.graph.state? u.state = some source) {arc : Arc} (harc : arc ∈ source.arcs)
    {target : State} (ht : g.graph.state? arc.target = some target)
    (hcut : ∀ memo, (e.cut g u.kind target.kind (u.score + arc.probability)).1 = true →
      P { e with memo })
    (hhalt : ∀ memo, g.checkStateOrder = true →
      H ⟨.stateOrder u.state arc.target source.order target.order, { e with memo }⟩)
    (harrive : ∀ memo e', { e with memo }.arrive g (Store.link g.keepAllTokens c u) arc target.kind
      (u.score + arc.probability) = .ok e' → Sound g base done e' → Leads g base done e' c u →
      (∀ d, Settled base done d → e'.store.get? d = e.store.get? d) → P e') :
    Outcome P H (e.follow g u source (Store.link g.keepAllTokens c u) arc) := by
  obtain ⟨isCut, memo, heq, ⟨rfl, hx⟩ | ⟨rfl, hcheck, -, hx⟩ | ⟨rfl, -, hx⟩⟩ :=
    follow_cases ht e u source (Store.link g.keepAllTokens c u)
  · rw [hx]
    exact hcut memo (by rw [heq])
  · rw [hx]
    exact hhalt memo hcheck
  · obtain ⟨e', he', hsound, hl', hstay⟩ := (hl.memo memo).arrive (h.memo memo) hs harc ht
    rw [hx, he']
    exact harrive memo e' he' hsound hl' hstay

/-- **Following an arc.** -/
theorem Sound.follow (h : Sound g base done e) {c : Nat} {u : Token} (hl : Leads g base done e c u)
    {source : State} (hs : g.graph.state? u.state = some source) {arc : Arc}
    (harc : arc ∈ source.arcs) :
    Outcome (fun e' => Sound g base done e' ∧ Leads g base done e' c u) (Halts g base)
      (e.follow g u source (Store.link g.keepAllTokens c u) arc) := by
  obtain ⟨target, ht, -⟩ := exists_target hs harc
  refine hl.follow_rule h hs harc ht (fun memo _ => ⟨h.memo memo, hl.memo memo⟩)
    (fun memo hcheck => ⟨⟨hcheck, _, _, _, _, rfl⟩, _, h.memo memo⟩) ?_
  exact fun _ _ _ hsound hl' _ => ⟨hsound, hl'⟩

/-- A token on a state of the graph is a result, a poor word, or its arcs are followed. -/
theorem Sound.expandToken_cases (h : Sound g base done e) {c : Nat} {u : Token}
    (hc : Settled base done c) (hu : e.store.get? c = some u)
    (hlead : ∀ d ∈ done, ∀ t, e.store.get? d = some t → ¬ t.score < u.score) :
    u.kind.isFinal = true ∧ e.expandToken g c u = .ok { e with results := e.results ++ [c] } ∨
      u.kind.isFinal = false ∧ u.kind.isWord = true ∧ u.score < e.bestWord + g.wordMargin ∧
        e.expandToken g c u = .ok e ∨
      Leads g base done e c u ∧ (u.kind.isWord = true → ¬ u.score < e.bestWord + g.wordMargin) ∧
        ∃ source, g.graph.state? u.state = some source ∧ e.expandToken g c u =
          source.arcs.foldlM
            (fun e arc => Expansion.follow g e u source (Store.link g.keepAllTokens c u) arc) e := by
  rcases Expansion.expandToken_cases g e c u with hx | hx | ⟨hfinal, hrich, hx⟩
  · exact .inl hx
  · exact .inr (.inl hx)
  · rcases hx with ⟨hnone, -⟩ | hx
    · obtain ⟨source, hs, -⟩ := h.fits c u hu
      cases hs.symm.trans hnone
    · exact .inr (.inr ⟨⟨hc, hu, hfinal, hlead⟩, hrich, hx⟩)

/-- **Expanding a settled token.** -/
theorem Sound.expandToken (h : Sound g base done e) {c : Nat} {u : Token}
    (hc : Settled base done c) (hu : e.store.get? c = some u)
    (hlead : ∀ d ∈ done, ∀ t, e.store.get? d = some t → ¬ t.score < u.score) :
    Outcome (Sound g base done) (Halts g base) (e.expandToken g c u) := by
  rcases h.expandToken_cases hc hu hlead with ⟨-, hx⟩ | ⟨-, -, -, hx⟩ | ⟨hl, -, source, hs, hx⟩
  · rw [hx]
    exact h.results _
  · rw [hx]
    exact h
  · have harcs := Outcome.foldlM (H := Halts g base)
      (I := fun e' => Sound g base done e' ∧ Leads g base done e' c u)
      (fun e' arc harc he' => he'.1.follow he'.2 hs harc) e ⟨h, hl⟩
    rw [hx]
    exact harcs.imp fun _ h => h.1

/-! ## Seeds -/

/-- Marking a state before the tokens in the queue are expanded. -/
theorem Sound.mark (h : Sound g base [] e) {s : Nat} (hs : s < g.graph.size)
    (hno : s ∉ e.expanded) : Sound g base [] { e with expanded := s :: e.expanded } where
  size_le := h.size_le
  old := h.old
  fits := h.fits
  resident_new := h.resident_new
  resident_of := h.resident_of
  arrived := h.arrived
  chained := trivial
  expanded_done _ hc := by cases hc
  expanded_nodup := List.nodup_cons.2 ⟨hno, h.expanded_nodup⟩
  expanded_lt x hx := (List.mem_cons.1 hx).elim (fun hx => hx ▸ hs) (h.expanded_lt x)
  sorted := h.sorted
  queued := h.queued
  waiting id t hb ht hk hx := h.waiting id t hb ht hk fun hx' => hx (List.mem_cons_of_mem s hx')
  settled _ hc := by cases hc
  next_sorted := h.next_sorted
  mem_next := h.mem_next

theorem lt_size_of_state? {graph : Graph} {s : Nat} {st : State} (h : graph.state? s = some st) :
    s < graph.size := by
  unfold Graph.state? at h
  exact (Array.getElem?_eq_some_iff.1 h).1

/-- The expansion that a seed is expanded in. -/
theorem Sound.opens {e' : Expansion} {t : Token} {id : Nat} (h : Sound g base [] e)
    (ht : e.store.get? id = some t) (ho : Opens e t e') : Sound g base [] e' := by
  cases ho with
  | emitting _ => exact h
  | idle _ hno =>
    obtain ⟨st, hst, -⟩ := h.fits id t ht
    exact h.mark (lt_size_of_state? hst) hno

/-- **Expanding a seed.** -/
theorem Sound.expandSeed (h : Sound g base [] e) {id : Nat} (hid : id < base.size) :
    Outcome (Sound g base []) (Halts g base) (e.expandSeed g id) := by
  obtain ⟨t, ht⟩ := Store.exists_get? (Nat.lt_of_lt_of_le hid h.size_le)
  rcases expandSeed_cases ht g with ⟨-, -, hx⟩ | ⟨e', ho, hx⟩
  · rw [hx]
    exact h
  · have hopen := h.opens ht ho
    obtain ⟨expanded, rfl⟩ := ho.eq
    rw [hx]
    exact hopen.expandToken (.inl hid) ht fun _ hd => by cases hd

/-- **Some seeds.** -/
theorem Sound.expandSeeds (h : Sound g base [] e) {seeds : List Nat}
    (hseeds : ∀ id ∈ seeds, id < base.size) :
    Outcome (Sound g base []) (Halts g base)
      (seeds.foldlM (fun e id => Expansion.expandSeed g e id) e) :=
  Outcome.foldlM (fun _ id hid he => Sound.expandSeed he (hseeds id hid)) e h

end SpeechDecoder.Expansion

import Mathlib.Data.List.Nodup
import SpeechDecoder.Proofs.Expansion.Frame

/-!
# One token for each state

An expansion creates a token when a state is first entered, and from then on reroutes that token.  So
the tokens of a frame are numbered by the states that it entered, and there are no more of them than
states.  Nothing of this depends on scores: it holds for any graph, with arcs that are no numbers and
cycles that emit nothing, and for any beam, lookahead and order of the seeds.

* `Roster` is the invariant; `Roster.settle` and `Roster.contest` are the two kinds of arrival, and
  `Roster.expandToken` and `Roster.expandSeed` the steps of a frame.
* `Roster.drain`: every round marks a state of the graph that was not marked, so the rounds come to
  an end, and further ones change nothing.
* `processed_nodup` says that of the tokens that are expanded and do not emit no two stand on one
  state.
* `run_adds` is the theorem about a frame.
-/

namespace SpeechDecoder.Expansion

/-- Whether a token stands on an emitting state. -/
def emits (a : Store) (id : Nat) : Bool := (a.get? id).any fun t => t.kind.isEmitting

/-- **A token of a frame,** on a state of the graph. -/
structure Placed (g : Growth) (s : Nat) (t : Token) : Prop where
  state : t.state = s
  frame : t.frame = g.frame
  kind : ∃ st, g.graph.state? s = some st ∧ t.kind = st.kind

/-- **The tokens that an expansion has added** to a store and to the tokens `first` of a beam. -/
structure Roster (g : Growth) (base : Store) (first : List Nat) (e : Expansion) : Prop where
  size : e.store.size = base.size + e.created
  old : ∀ id < base.size, e.store.get? id = base.get? id
  /-- The tokens that were created, the latest first. -/
  ids : e.residents.map Prod.snd = (List.range' base.size e.created).reverse
  nodup : (e.residents.map Prod.fst).Nodup
  placed : ∀ s id, (s, id) ∈ e.residents → ∃ t, e.store.get? id = some t ∧ Placed g s t
  next : e.next.tokens = first ++ (List.range' base.size e.created).filter (emits e.store)
  queued : ∀ p ∈ e.queue, ∃ s, (s, p.token) ∈ e.residents

/-- The order of states is checked, and an arc leads to a lower one. -/
def Disordered (g : Growth) (err : SearchError) : Prop :=
  g.checkStateOrder = true ∧ ∃ s t so to_, err = .stateOrder s t so to_

/-- **What halts an expansion:** an arc to a lower order, where the seeds are `sane`. -/
def HaltRoster (g : Growth) (base : Store) (first : List Nat) (sane : Prop)
    (h : Halted Expansion) : Prop :=
  Roster g base first h.state ∧ (sane → Disordered g h.error)

variable {g : Growth} {base : Store} {first : List Nat} {e : Expansion} {sane : Prop}

/-! ## First facts -/

theorem mem_of_lookup {s id : Nat} {l : List (Nat × Nat)} (h : l.lookup s = some id) :
    (s, id) ∈ l := by
  obtain ⟨l₁, l₂, rfl, -⟩ := List.lookup_eq_some_iff.1 h
  simp

theorem lookup_of_mem : ∀ {l : List (Nat × Nat)} {s id : Nat}, (l.map Prod.fst).Nodup →
    (s, id) ∈ l → l.lookup s = some id
  | (s', id') :: l, s, id, hnodup, hmem => by
    rw [List.map_cons, List.nodup_cons] at hnodup
    rw [lookup_cons_eq]
    rcases List.mem_cons.1 hmem with heq | htail
    · cases heq
      exact if_pos rfl
    · have hne : s ≠ s' := fun heq => hnodup.1 (heq ▸ List.mem_map.2 ⟨_, htail, rfl⟩)
      rw [if_neg hne]
      exact lookup_of_mem hnodup.2 htail

theorem not_mem_of_lookup {s : Nat} {l : List (Nat × Nat)} (h : l.lookup s = none) :
    s ∉ l.map Prod.fst := by
  intro hmem
  obtain ⟨⟨s', id⟩, hentry, rfl⟩ := List.mem_map.1 hmem
  have := List.lookup_eq_none_iff.1 h _ hentry
  simp at this

theorem Roster.lt_of_mem (h : Roster g base first e) {s id : Nat} (hmem : (s, id) ∈ e.residents) :
    base.size ≤ id ∧ id < e.store.size := by
  have hid : id ∈ e.residents.map Prod.snd := List.mem_map.2 ⟨_, hmem, rfl⟩
  rw [h.ids, List.mem_reverse, List.mem_range'_1] at hid
  rw [h.size]
  exact hid

/-- A token of the frame has an entry. -/
theorem Roster.exists_mem (h : Roster g base first e) {id : Nat} (hb : base.size ≤ id)
    (hlt : id < e.store.size) : ∃ s, (s, id) ∈ e.residents := by
  have hid : id ∈ e.residents.map Prod.snd := by
    rw [h.ids, List.mem_reverse, List.mem_range'_1, ← h.size]
    exact ⟨hb, hlt⟩
  obtain ⟨⟨s, id'⟩, hmem, rfl⟩ := List.mem_map.1 hid
  exact ⟨s, hmem⟩

/-- **No more tokens than states.** -/
theorem Roster.created_le (h : Roster g base first e) : e.created ≤ g.graph.size := by
  have hsub : e.residents.map Prod.fst ⊆ List.range g.graph.size := by
    intro s hs
    obtain ⟨⟨s, id⟩, hmem, rfl⟩ := List.mem_map.1 hs
    obtain ⟨t, -, -, -, st, hst, -⟩ := h.placed s id hmem
    exact List.mem_range.2 (lt_size_of_state? hst)
  have hcount := congrArg List.length h.ids
  have hle := (List.subperm_of_subset h.nodup hsub).length_le
  simp only [List.length_map, List.length_reverse, List.length_range', List.length_range] at *
  omega

theorem roster_start (g : Growth) (base : Store) (next : Beam) (lattice : Lattice)
    (memo : PenaltyMemo) : Roster g base next.tokens (.start base next lattice memo) where
  size := rfl
  old _ _ := rfl
  ids := rfl
  nodup := .nil
  placed _ _ h := by cases h
  next := (List.append_nil _).symm
  queued _ h := by cases h

/-- The other parts of an expansion do not count, and the queue may get shorter. -/
theorem Roster.congr (h : Roster g base first e) {e' : Expansion} (hs : e'.store = e.store)
    (hc : e'.created = e.created) (hr : e'.residents = e.residents)
    (hn : e'.next.tokens = e.next.tokens) (hq : ∀ p ∈ e'.queue, p ∈ e.queue) :
    Roster g base first e' := by
  refine ⟨?_, ?_, ?_, ?_, ?_, ?_, fun p hp => ?_⟩
  · rw [hs, hc, h.size]
  · rw [hs]
    exact h.old
  · rw [hr, hc, h.ids]
  · rw [hr]
    exact h.nodup
  · rw [hr, hs]
    exact h.placed
  · rw [hn, hc, hs, h.next]
  · rw [hr]
    exact h.queued p (hq p hp)

/-! ## Arrivals -/

/-- **The first arrival on a state,** if it is not refused, adds a token and its entry. -/
theorem Roster.settle (h : Roster g base first e) {arc : Arc} {target : State}
    (ht : g.graph.state? arc.target = some target) (hnone : e.resident? arc.target = none)
    (link : Option Nat) (score : Score) :
    Roster g base first (e.settle g link arc target.kind score) := by
  have hcreated : (e.settle g link arc target.kind score).created =
      if target.kind.isEmitting && !e.next.admits score then e.created else e.created + 1 := by
    unfold Expansion.settle
    split
    · rfl
    · split <;> rfl
  cases hadm : (target.kind.isEmitting && !e.next.admits score) with
  | true =>
    rw [settle_refused hadm]
    exact h
  | false =>
    rw [hadm, if_neg Bool.false_ne_true] at hcreated
    obtain ⟨bestWord, created, heq⟩ := settle_eq (g := g) hadm link arc
    rw [heq] at hcreated ⊢
    dsimp only at hcreated
    subst hcreated
    have hlast : (e.store.push (.entering link arc target.kind score g.frame)).get? e.store.size =
        some (.entering link arc target.kind score g.frame) := by
      rw [Store.get?_push, if_pos rfl]
    have hkept : ∀ id < e.store.size,
        (e.store.push (.entering link arc target.kind score g.frame)).get? id = e.store.get? id :=
      fun id hid => get?_push_of_lt hid
    have hbefore : (List.range' base.size e.created).filter
        (emits (e.store.push (.entering link arc target.kind score g.frame))) =
        (List.range' base.size e.created).filter (emits e.store) := by
      refine List.filter_congr fun id hid => ?_
      rw [List.mem_range'_1, ← h.size] at hid
      unfold emits
      rw [hkept id hid.2]
    refine ⟨?_, fun id hid => ?_, ?_, ?_, fun s id hmem => ?_, ?_, fun p hp => ?_⟩
    · rw [Store.size_push, h.size]
      rfl
    · rw [hkept id (by rw [h.size]; omega), h.old id hid]
    · rw [List.map_cons, h.ids, List.range'_1_concat, List.reverse_append, h.size]
      rfl
    · rw [List.map_cons, List.nodup_cons]
      exact ⟨not_mem_of_lookup hnone, h.nodup⟩
    · rcases List.mem_cons.1 hmem with heq | hmem
      · cases heq
        exact ⟨_, hlast, rfl, rfl, target, ht, rfl⟩
      · obtain ⟨t, hget, hplaced⟩ := h.placed s id hmem
        exact ⟨t, (hkept id (h.lt_of_mem hmem).2).trans hget, hplaced⟩
    · have hemits : emits (e.store.push (.entering link arc target.kind score g.frame))
          (base.size + e.created) = target.kind.isEmitting := by
        unfold emits
        rw [← h.size, hlast]
        rfl
      rw [List.range'_1_concat, List.filter_append, hbefore, List.filter_singleton, hemits,
        ← List.append_assoc, ← h.next]
      cases target.kind.isEmitting with
      | true => exact h.size ▸ Beam.tokens_push _ _ _
      | false => exact (List.append_nil _).symm
    · have hp' : p = ⟨score, e.store.size⟩ ∨ p ∈ e.queue := by
        dsimp only at hp
        split at hp
        · exact .inr hp
        · exact Pending.mem_enqueue.1 hp
      rcases hp' with rfl | hp'
      · exact ⟨arc.target, List.mem_cons_self⟩
      · obtain ⟨s, hmem⟩ := h.queued p hp'
        exact ⟨s, List.mem_cons_of_mem _ hmem⟩

/-- **A later arrival on a state** leaves its token where it is. -/
theorem Roster.contest (h : Roster g base first e) {arc : Arc} {s id : Nat} {t : Token}
    (hmem : (s, id) ∈ e.residents) (hget : e.store.get? id = some t) (link : Option Nat)
    (kind : StateKind) (score : Score) :
    Roster g base first (e.contest g link arc kind score id t) := by
  by_cases hlt : t.score < score
  · obtain ⟨lattice, bestWord, heq⟩ := contest_better (g := g) (e := e) hlt link arc kind id
    rw [heq]
    obtain ⟨hnew, hstored⟩ := h.lt_of_mem hmem
    have hset : ∀ x, (e.store.set id (t.rerouted link arc score g.frame)).get? x =
        if id = x then some (t.rerouted link arc score g.frame) else e.store.get? x := by
      intro x
      rw [Store.get?_set, if_pos hstored]
    have hplaced : ∀ s' x, (s', x) ∈ e.residents →
        ∃ u, (e.store.set id (t.rerouted link arc score g.frame)).get? x = some u ∧
          Placed g s' u := by
      intro s' x hx
      obtain ⟨u, hu, hplace⟩ := h.placed s' x hx
      rw [hset x]
      by_cases hxid : id = x
      · subst hxid
        cases hget.symm.trans hu
        exact ⟨_, if_pos rfl, hplace.state, rfl, hplace.kind⟩
      · exact ⟨u, (if_neg hxid).trans hu, hplace⟩
    refine ⟨?_, fun x hx => ?_, h.ids, h.nodup, hplaced, ?_, fun p hp => ?_⟩
    · rw [Store.size_set, h.size]
    · rw [hset x, if_neg (by omega), h.old x hx]
    · have hnext : (if kind.isEmitting then e.next.note id score else e.next).tokens =
          e.next.tokens := by
        split
        · exact Beam.tokens_note _ _ _
        · rfl
      rw [hnext, h.next]
      congr 1
      refine List.filter_congr fun x _ => ?_
      unfold emits
      rw [hset x]
      split
      · next hxid =>
        rw [← hxid, hget]
        rfl
      · rfl
    · have hp' : p = ⟨score, id⟩ ∨ p ∈ e.queue := by
        dsimp only at hp
        split at hp
        · exact .inr hp
        · exact Pending.mem_enqueue.1 hp
      rcases hp' with rfl | hp'
      · exact ⟨s, hmem⟩
      · exact h.queued p hp'
  · obtain ⟨lattice, heq⟩ := contest_worse (g := g) (e := e) hlt link arc kind id
    rw [heq]
    exact h.congr rfl rfl rfl rfl fun _ hp => hp

/-- **An arrival** finds the token that stands on the state. -/
theorem Roster.arrive (h : Roster g base first e) {arc : Arc} {target : State}
    (ht : g.graph.state? arc.target = some target) (link : Option Nat) (score : Score) :
    ∃ e', e.arrive g link arc target.kind score = .ok e' ∧ Roster g base first e' := by
  unfold Expansion.arrive
  cases hres : e.resident? arc.target with
  | none => exact ⟨_, rfl, h.settle ht hres link score⟩
  | some id =>
    have hmem := mem_of_lookup hres
    obtain ⟨t, hget, -⟩ := h.placed _ _ hmem
    simp only [Store.get_eq_ok hget, bind, Except.bind, pure, Except.pure]
    exact ⟨_, rfl, h.contest hmem hget link target.kind score⟩

/-! ## Steps -/

/-- **Following an arc.** -/
theorem Roster.follow (h : Roster g base first e) {s : Nat} {source : State}
    (hs : g.graph.state? s = some source) {arc : Arc} (harc : arc ∈ source.arcs) (t : Token)
    (link : Option Nat) :
    Outcome (Roster g base first) (HaltRoster g base first sane) (e.follow g t source link arc) := by
  obtain ⟨target, ht, -⟩ := exists_target hs harc
  have hmemo : ∀ memo, Roster g base first { e with memo } := fun memo =>
    h.congr rfl rfl rfl rfl fun _ hp => hp
  obtain ⟨_, memo, -, ⟨-, hx⟩ | ⟨-, hcheck, -, hx⟩ | ⟨-, -, hx⟩⟩ := follow_cases ht e t source link
  · rw [hx]
    exact hmemo memo
  · rw [hx]
    exact ⟨hmemo memo, fun _ => ⟨hcheck, _, _, _, _, rfl⟩⟩
  · obtain ⟨e', he, hroster⟩ := (hmemo memo).arrive ht link (t.score + arc.probability)
    rw [hx, he]
    exact hroster

/-- **Expanding a token.** -/
theorem Roster.expandToken (h : Roster g base first e) (id : Nat) {t : Token}
    (ht : sane → ∃ st, g.graph.state? t.state = some st) :
    Outcome (Roster g base first) (HaltRoster g base first sane) (e.expandToken g id t) := by
  rcases expandToken_cases g e id t with
    ⟨-, hx⟩ | ⟨-, -, -, hx⟩ | ⟨-, -, ⟨hnone, hx⟩ | ⟨source, hs, hx⟩⟩
  · rw [hx]
    exact h.congr rfl rfl rfl rfl fun _ hp => hp
  · rw [hx]
    exact h
  · rw [hx]
    refine ⟨h, fun hsane => ?_⟩
    obtain ⟨st, hst⟩ := ht hsane
    cases hnone.symm.trans hst
  · rw [hx]
    exact Outcome.foldlM (fun e' arc harc he' => he'.follow hs harc t _) e h

/-- **Expanding a seed.** -/
theorem Roster.expandSeed (h : Roster g base first e) (hfits : sane → Fits g.graph base) {id : Nat}
    (hid : sane → id < base.size) :
    Outcome (Roster g base first) (HaltRoster g base first sane) (e.expandSeed g id) := by
  cases hget : e.store.get? id with
  | none =>
    rw [expandSeed_lost hget g]
    refine ⟨h, fun hsane => ?_⟩
    rw [h.old id (hid hsane)] at hget
    obtain ⟨t, ht⟩ := Store.exists_get? (hid hsane)
    cases ht.symm.trans hget
  | some t =>
    have hstate : sane → ∃ st, g.graph.state? t.state = some st := fun hsane => by
      rw [h.old id (hid hsane)] at hget
      obtain ⟨st, hst, -⟩ := hfits hsane id t hget
      exact ⟨st, hst⟩
    rcases expandSeed_cases hget g with ⟨-, -, hx⟩ | ⟨e', ho, hx⟩
    · rw [hx]
      exact h
    · obtain ⟨expanded, rfl⟩ := ho.eq
      have hopen : Roster g base first { e with expanded } := h.congr rfl rfl rfl rfl fun _ hp => hp
      rw [hx]
      exact hopen.expandToken id hstate

/-! ## Rounds -/

/-- The states of the graph that are not marked. -/
def unmarked (g : Growth) (e : Expansion) : Finset Nat :=
  Finset.range g.graph.size \ e.expanded.toFinset

/-- What waits stands on a state of the graph. -/
theorem Roster.exists_waiting (h : Roster g base first e) {p : Pending} (hp : p ∈ e.queue) :
    ∃ t, e.store.get? p.token = some t ∧ ∃ st, g.graph.state? t.state = some st := by
  obtain ⟨s, hmem⟩ := h.queued p hp
  obtain ⟨t, hget, hstate, -, st, hst, -⟩ := h.placed s p.token hmem
  exact ⟨t, hget, st, hstate ▸ hst⟩

/-- **The rounds of a frame come to an end,** by induction on them: every round marks one state
more. -/
theorem Roster.drain (sane : Prop) : ∀ (rounds : Nat) {e : Expansion}, Roster g base first e →
    (unmarked g e).card < rounds →
    Outcome (fun e' => Roster g base first e' ∧ e'.queue = []) (HaltRoster g base first sane)
        (e.drain g rounds) ∧
      ∀ more, e.drain g (rounds + more) = e.drain g rounds
  | 0, _, _, hlt => absurd hlt (Nat.not_lt_zero _)
  | rounds + 1, e, h, hlt => by
    rw [show (∀ more, e.drain g (rounds + 1 + more) = e.drain g (rounds + 1)) =
      ∀ more, e.drain g (rounds + more + 1) = e.drain g (rounds + 1) by
        simp only [Nat.add_right_comm]]
    unfold Expansion.drain
    cases hq : e.queue.dropWhile e.isStale with
    | nil => exact ⟨⟨h.congr rfl rfl rfl rfl fun _ hp => (by cases hp), rfl⟩, fun _ => rfl⟩
    | cons p rest =>
      obtain ⟨t, ht, st, hst⟩ := h.exists_waiting (mem_of_fresh hq)
      obtain ⟨-, hrest, hfresh⟩ := popped_mem hq ht
      simp only [ht]
      have hpop : Roster g base first { e with queue := rest, expanded := t.state :: e.expanded } :=
        h.congr rfl rfl rfl rfl hrest
      have hone : Outcome (Roster g base first) (HaltRoster g base first sane)
          (Expansion.expandToken g _ p.token t) := hpop.expandToken p.token fun _ => ⟨st, hst⟩
      have hmark := expanded_expandToken g
        { e with queue := rest, expanded := t.state :: e.expanded } p.token t
      cases hx : Expansion.expandToken g
        { e with queue := rest, expanded := t.state :: e.expanded } p.token t with
      | error err => exact ⟨hone.of_error hx, fun _ => rfl⟩
      | ok e' =>
        have hfewer : (unmarked g e').card < (unmarked g e).card := by
          refine Finset.card_lt_card (Finset.ssubset_iff_of_subset ?_ |>.2 ⟨t.state, ?_, ?_⟩)
          · unfold unmarked
            rw [hmark.of_ok hx, List.toFinset_cons]
            exact Finset.sdiff_subset_sdiff (Finset.Subset.refl _) (Finset.subset_insert _ _)
          · unfold unmarked
            simpa using ⟨lt_size_of_state? hst, hfresh⟩
          · unfold unmarked
            rw [hmark.of_ok hx]
            simp
        exact Roster.drain sane rounds (hone.of_ok hx) (by omega)

/-- The rounds that a frame has are enough. -/
theorem card_unmarked_lt (g : Growth) (e : Expansion) :
    (unmarked g e).card < g.graph.size + 1 := by
  have hle : (unmarked g e).card ≤ (Finset.range g.graph.size).card :=
    Finset.card_le_card Finset.sdiff_subset
  rw [Finset.card_range] at hle
  omega

/-- **A frame from its seeds.** -/
theorem Roster.run (h : Roster g base first e) (sane : Prop) {seeds : List Nat}
    (hfits : sane → Fits g.graph base)
    (hseeds : sane → ∀ id ∈ seeds, id < base.size) :
    Outcome (fun e' => Roster g base first e' ∧ e'.queue = []) (HaltRoster g base first sane)
        (e.run g seeds) ∧
      ∀ rounds, g.graph.size + 1 ≤ rounds →
        seeds.foldlM (fun e id => Expansion.expandSeed g e id) e >>= Expansion.drain g rounds =
          e.run g seeds := by
  have hseeded := Outcome.foldlM (I := Roster g base first) (H := HaltRoster g base first sane)
    (fun e id hid he => Roster.expandSeed he hfits fun hsane => hseeds hsane id hid) e h
  unfold Expansion.run
  cases hx : seeds.foldlM (fun e id => Expansion.expandSeed g e id) e with
  | error err => exact ⟨hseeded.of_error hx, fun _ _ => rfl⟩
  | ok e' =>
    obtain ⟨hdrain, hmore⟩ := Roster.drain sane _ (hseeded.of_ok hx) (card_unmarked_lt g e')
    refine ⟨hdrain, fun rounds hrounds => ?_⟩
    obtain ⟨more, rfl⟩ := Nat.exists_eq_add_of_le hrounds
    exact hmore more

/-! ## The tokens that are expanded -/

/-- The states of tokens that do not emit. -/
def idleStates (l : List Token) : List Nat :=
  (l.filter fun t => !t.kind.isEmitting).map Token.state

theorem idleStates_append (l l' : List Token) :
    idleStates (l ++ l') = idleStates l ++ idleStates l' := by
  simp [idleStates]

/-- **One more token** that emits, or whose state was not marked and is marked then. -/
theorem idleStates_concat {l : List Token} {marked marked' : List Nat} {t : Token}
    (hnodup : (idleStates l).Nodup) (hmarked : ∀ s ∈ idleStates l, s ∈ marked)
    (hsub : ∀ s ∈ marked, s ∈ marked')
    (ht : t.kind.isEmitting = true ∨ t.state ∉ marked ∧ t.state ∈ marked') :
    (idleStates (l ++ [t])).Nodup ∧ ∀ s ∈ idleStates (l ++ [t]), s ∈ marked' := by
  rw [idleStates_append]
  cases hemits : t.kind.isEmitting with
  | true =>
    rw [show idleStates [t] = [] by simp [idleStates, hemits], List.append_nil]
    exact ⟨hnodup, fun s hs => hsub s (hmarked s hs)⟩
  | false =>
    obtain ⟨hfresh, hnow⟩ := ht.resolve_left (by simp [hemits])
    rw [show idleStates [t] = [t.state] by simp [idleStates, hemits]]
    refine ⟨hnodup.append (List.nodup_singleton _) ?_, fun s hs => ?_⟩
    · exact List.disjoint_singleton.2 fun hmem => hfresh (hmarked _ hmem)
    · rcases List.mem_append.1 hs with hs | hs
      · exact hsub s (hmarked s hs)
      · exact List.mem_singleton.1 hs ▸ hnow

/-- **No state is expanded twice** that does not emit: those that were expanded are marked.  By
induction on the course of the frame. -/
theorem Course.idle_nodup {seeds : List Nat} {log : List Taking}
    {out : Except (Halted Expansion) Expansion} {e₀ : Expansion}
    (hc : Course g seeds e₀ log out) :
    (idleStates (log.map Taking.token)).Nodup ∧
      Outcome (fun e => ∀ s ∈ idleStates (log.map Taking.token), s ∈ e.expanded) (fun _ => True)
        out := by
  induction hc with
  | start => exact ⟨.nil, fun s hs => by cases hs⟩
  | @seed log e e' id t _ _ _ _ ho ih =>
    have hstep : (∀ s ∈ e.expanded, s ∈ e'.expanded) ∧
        (t.kind.isEmitting = true ∨ t.state ∉ e.expanded ∧ t.state ∈ e'.expanded) := by
      cases ho with
      | emitting hemits => exact ⟨fun _ hs => hs, .inl hemits⟩
      | idle _ hno => exact ⟨fun _ hs => List.mem_cons_of_mem _ hs, .inr ⟨hno, List.mem_cons_self⟩⟩
    rw [List.map_append]
    obtain ⟨hnodup, hmarked⟩ := idleStates_concat ih.1 ih.2 hstep.1 hstep.2
    exact ⟨hnodup, (expanded_expandToken g e' id t).imp fun e'' h => h ▸ hmarked⟩
  | @round log e p rest t _ hq ht ih =>
    obtain ⟨-, -, hno⟩ := popped_mem hq ht
    rw [List.map_append]
    obtain ⟨hnodup, hmarked⟩ := idleStates_concat ih.1 ih.2
      (fun s hs => List.mem_cons_of_mem t.state hs) (.inr ⟨hno, List.mem_cons_self⟩)
    exact ⟨hnodup, (expanded_expandToken g _ p.token t).imp fun e' h => h ▸ hmarked⟩
  | clear _ _ ih => exact ih
  | lost _ _ _ ih => exact ⟨ih.1, trivial⟩

/-- **A state that does not emit is expanded at most once in a frame.** -/
theorem processed_nodup (g : Growth) (e : Expansion) (seeds : List Nat) :
    (idleStates (e.processed g seeds)).Nodup :=
  (course_run g e seeds).idle_nodup.1

/-! ## A whole frame -/

/-- **What an expansion has added** to a store and to the tokens `first` of a beam: `created` tokens,
each the entry of its own state, and those of them that emit to the beam, in the order in which they
were created. -/
structure Adds (g : Growth) (base : Store) (first : List Nat) (e : Expansion) : Prop where
  idle : e.queue = []
  size : e.store.size = base.size + e.created
  entries : e.residents.length = e.created
  nodup : (e.residents.map Prod.fst).Nodup
  created_le : e.created ≤ g.graph.size
  old : ∀ id < base.size, e.store.get? id = base.get? id
  own : ∀ id t, base.size ≤ id → e.store.get? id = some t →
    t.frame = g.frame ∧ e.resident? t.state = some id
  next : e.next.tokens = first ++ (List.range' base.size e.created).filter (emits e.store)

theorem Roster.own (h : Roster g base first e) {id : Nat} {t : Token} (hb : base.size ≤ id)
    (ht : e.store.get? id = some t) : t.frame = g.frame ∧ e.resident? t.state = some id := by
  obtain ⟨s, hmem⟩ := h.exists_mem hb (Store.lt_size_of_get? ht)
  obtain ⟨u, hu, hplaced⟩ := h.placed s id hmem
  cases ht.symm.trans hu
  exact ⟨hplaced.frame, lookup_of_mem h.nodup (hplaced.state ▸ hmem)⟩

theorem Roster.adds (h : Roster g base first e) (hqueue : e.queue = []) : Adds g base first e where
  idle := hqueue
  size := h.size
  entries := by simpa using congrArg List.length h.ids
  nodup := h.nodup
  created_le := h.created_le
  old := h.old
  own _ _ hb ht := h.own hb ht
  next := h.next

/-- **The expansion of a frame terminates and creates one token for each state that it enters.**
From stored seeds that stand on states of the graph it halts only where an arc leads to a lower
order. -/
theorem run_adds (g : Growth) (base : Store) (next : Beam) (lattice : Lattice) (memo : PenaltyMemo)
    (seeds : List Nat) :
    let e := Expansion.start base next lattice memo
    (Outcome (Adds g base next.tokens)
      (fun h => Fits g.graph base → (∀ id ∈ seeds, id < base.size) → Disordered g h.error)
      (e.run g seeds)) ∧
    ∀ rounds, g.graph.size + 1 ≤ rounds →
      seeds.foldlM (fun e id => Expansion.expandSeed g e id) e >>= Expansion.drain g rounds =
        e.run g seeds := by
  intro e
  obtain ⟨hrun, hmore⟩ := (roster_start g base next lattice memo).run
    (Fits g.graph base ∧ ∀ id ∈ seeds, id < base.size) And.left And.right
  exact ⟨hrun.mono (fun _ h => h.1.adds h.2) fun _ h hfits hseeds => h.2 ⟨hfits, hseeds⟩, hmore⟩

end SpeechDecoder.Expansion

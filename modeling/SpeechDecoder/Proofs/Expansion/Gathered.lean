import SpeechDecoder.Proofs.Expansion.Edges
import SpeechDecoder.Proofs.Expansion.Led

/-!
# The lattice loses no predecessor

Several tokens may be led on to a word.  The token on it links back to what the best arrival came
with, and what the other arrivals came with is remembered, whichever of them was first and however
often the best one changed.  A word is never refused, no arc into it is cut, and a token that is led
on does not change any more.  So the edges into a word are what the tokens link back to that were led
on to it.

* `mem_edges_contest` says that a later arrival on a word adds its link.
* `Gathered` is the invariant; `Gathered.settle` and `Gathered.contest` carry it through an arrival,
  `Gathered.expandToken` through the expansion of a token and `Gathered.rule` through a frame.
* `edges_led` is the theorem about a frame.
-/

namespace SpeechDecoder

theorem Graph.arcsBetween_pos {graph : Graph} {s t : Nat} {source : State}
    (hs : graph.state? s = some source) :
    0 < graph.arcsBetween s t ↔ ∃ arc ∈ source.arcs, arc.target = t := by
  unfold Graph.arcsBetween
  rw [hs]
  simp [List.countP_pos_iff]

namespace Expansion

variable {g : Growth} {base : Store} {seeds done log : List Nat} {e e' : Expansion} {c id p : Nat}
  {t t' u : Token} {B B' : Nat → Nat → Prop}

/-! ## One arrival -/

/-- What is remembered, if a lattice is built, is the loser, unless it is the winner as well. -/
theorem mem_alternates_remember (hbuild : g.buildLattice = true) (e : Expansion) (id : Nat)
    (loser winner : Option Nat) :
    p ∈ (e.remember g id loser winner).lattice.alternates id ↔
      p ∈ e.lattice.alternates id ∨ loser = some p ∧ loser ≠ winner := by
  unfold Expansion.remember
  cases loser with
  | none => simp
  | some q =>
    by_cases hq : some q = winner
    · simp [hbuild, hq]
    · have hne : (some q != winner) = true := bne_iff_ne.2 hq
      dsimp only
      rw [hbuild, hne, Bool.and_self, if_pos rfl, Lattice.alternates_add, if_pos rfl]
      simp [hq, eq_comm]

/-- **A later arrival on a word** adds what it links back to, and loses nothing. -/
theorem mem_edges_contest (hbuild : g.buildLattice = true) {kind : StateKind}
    (hword : kind.isWord = true) (link : Option Nat) (arc : Arc) (score : Score)
    (ht : e.store.get? id = some t)
    (ht' : (e.contest g link arc kind score id t).store.get? id = some t') :
    p ∈ (e.contest g link arc kind score id t).edges id t' ↔ p ∈ e.edges id t ∨ link = some p := by
  rw [store_contest] at ht'
  unfold edges Expansion.contest
  by_cases hlt : t.score < score
  · -- the link is the predecessor now, and what was the predecessor is remembered
    rw [if_pos hlt, Store.get?_set, if_pos rfl, if_pos (Store.lt_size_of_get? ht)] at ht'
    cases ht'
    simp only [if_pos hlt, hword, if_true, (StateKind.idle_of_isWord hword).1,
      Bool.false_eq_true, if_false, List.mem_append, mem_alternates_remember hbuild, enqueue,
      Token.rerouted, Option.mem_toList]
    by_cases heq : t.predecessor = link
    · simp [heq]
      tauto
    · tauto
  · rw [if_neg hlt, ht] at ht'
    cases ht'
    simp only [if_neg hlt, hword, if_true, List.mem_append, mem_alternates_remember hbuild,
      Option.mem_toList]
    by_cases heq : link = t.predecessor
    · simp [heq]
      tauto
    · tauto

/-! ## The invariant -/

/-- **The invariant.**  `B s p` says that `p` was brought to the state `s`: something that links back
to it was led on to the state. -/
structure Gathered (g : Growth) (base : Store) (done : List Nat) (B : Nat → Nat → Prop)
    (e : Expansion) : Prop where
  sound : Sound g base done e
  /-- What is no token yet has no alternates. -/
  fresh : ∀ id, e.store.size ≤ id → e.lattice.alternates id = []
  /-- A word that something was brought to is held. -/
  held : ∀ s st p, g.graph.state? s = some st → st.kind.isWord = true → B s p → e.resident? s ≠ none
  edges : ∀ id t p, base.size ≤ id → e.store.get? id = some t → t.kind.isWord = true →
    (p ∈ e.edges id t ↔ B t.state p)

/-- Only what is brought to words counts, and what concerns tokens and edges. -/
theorem Gathered.congr (h : Gathered g base done B e) {done' : List Nat}
    (hsound : Sound g base done' e') (hstore : e'.store = e.store)
    (hlattice : e'.lattice = e.lattice) (hresidents : e'.residents = e.residents)
    (hbrought : ∀ s st p, g.graph.state? s = some st → st.kind.isWord = true → (B' s p ↔ B s p)) :
    Gathered g base done' B' e' := by
  refine ⟨hsound, ?_, fun s st p hs hword hb => ?_, fun id t p hid ht hword => ?_⟩
  · rw [hstore, hlattice]
    exact h.fresh
  · rw [resident?_eq, hresidents]
    exact h.held s st p hs hword ((hbrought s st p hs hword).1 hb)
  · unfold Expansion.edges
    rw [hstore] at ht
    rw [hlattice]
    obtain ⟨st, hst, hkind⟩ := h.sound.fits id t ht
    exact (h.edges id t p hid ht hword).trans (hbrought _ st p hst (hkind ▸ hword)).symm

/-- **The first arrival on a state.** -/
theorem Gathered.settle (h : Gathered g base done B e) {link : Option Nat} {arc : Arc}
    {target : State} {score : Score} (hs : g.graph.state? arc.target = some target)
    (hres : e.resident? arc.target = none)
    (hsound : Sound g base done (e.settle g link arc target.kind score)) :
    Gathered g base done (fun s p => B s p ∨ s = arc.target ∧ link = some p)
      (e.settle g link arc target.kind score) := by
  cases hadm : (target.kind.isEmitting && !e.next.admits score) with
  | true =>
    -- what is refused is on an emitting state
    rw [settle_refused hadm] at hsound ⊢
    refine h.congr hsound rfl rfl rfl fun s st p hst hword => or_iff_left ?_
    rintro ⟨rfl, -⟩
    rw [hs] at hst
    cases hst
    rw [(StateKind.idle_of_isWord hword).1] at hadm
    cases hadm
  | false =>
    obtain ⟨bestWord, created, heq⟩ := settle_eq (g := g) hadm link arc
    rw [heq] at hsound ⊢
    refine ⟨hsound, fun id hid => ?_, fun s st p hst hword hb => ?_, fun id t p hid ht hword => ?_⟩
    · rw [Store.size_push] at hid
      exact h.fresh id (by omega)
    · refine fun hnone => ?_
      rw [resident?_eq, lookup_cons_eq] at hnone
      split_ifs at hnone with hst'
      exact h.held s st p hst hword (hb.resolve_right fun hb => hst' hb.1) hnone
    · rw [Store.get?_push] at ht
      split_ifs at ht with hnew
      · -- nothing was brought to the state before
        cases ht
        have hno : ¬ B arc.target p := fun hb => h.held _ target p hs hword hb hres
        unfold Expansion.edges
        rw [show Lattice.alternates _ id = [] from h.fresh id hnew.ge]
        simp [Token.entering, hno]
      · have hne : t.state ≠ arc.target := fun hst => by
          have := h.sound.resident_of id t hid ht
          rw [hst, hres] at this
          cases this
        simp only [hne, false_and, or_false]
        exact h.edges id t p hid ht hword

/-- **A later arrival on a state.** -/
theorem Gathered.contest (h : Gathered g base done B e) (hbuild : g.buildLattice = true)
    {link : Option Nat} {arc : Arc} {kind : StateKind} {score : Score} (hid : base.size ≤ id)
    (hres : e.resident? arc.target = some id) (ht : e.store.get? id = some t)
    (hstate : t.state = arc.target) (hkind : t.kind = kind)
    (hsound : Sound g base done (e.contest g link arc kind score id t)) :
    Gathered g base done (fun s p => B s p ∨ s = arc.target ∧ link = some p)
      (e.contest g link arc kind score id t) := by
  have hresidents : (e.contest g link arc kind score id t).residents = e.residents := by
    by_cases hlt : t.score < score
    · obtain ⟨_, _, heq⟩ := contest_better (g := g) (e := e) hlt link arc kind id
      rw [heq]
    · obtain ⟨_, heq⟩ := contest_worse (g := g) (e := e) hlt link arc kind id
      rw [heq]
  refine ⟨hsound, fresh_contest h.fresh ht link arc kind score, fun s st p hst hword hb => ?_,
    fun x t' p hx ht' hword => ?_⟩
  · rw [resident?_eq, hresidents, ← resident?_eq]
    rcases hb with hb | ⟨rfl, -⟩
    · exact h.held s st p hst hword hb
    · rw [hres]
      exact Option.some_ne_none id
  · by_cases hxid : x = id
    · subst hxid
      obtain ⟨hstate', -⟩ := count_contest g e link arc kind score ht ht' p
      have hkind' : t'.kind = kind := by
        obtain ⟨st, hst, hk⟩ := hsound.fits x t' ht'
        obtain ⟨st', hst', hk'⟩ := h.sound.fits x t ht
        rw [hstate', hst'] at hst
        cases hst
        rw [hk, ← hk', hkind]
      have hword' : kind.isWord = true := hkind' ▸ hword
      rw [mem_edges_contest hbuild hword' link arc score ht ht', hstate',
        h.edges x t p hx ht (hkind ▸ hword')]
      simp [hstate]
    · obtain ⟨hsame, halternates⟩ := contest_of_ne g e link arc kind score t hxid
      rw [hsame] at ht'
      have hne : t'.state ≠ arc.target := fun hst => by
        have hon := h.sound.resident_of x t' hx ht'
        rw [hst, hres] at hon
        exact hxid (Option.some.inj hon).symm
      simp only [hne, false_and, or_false]
      unfold Expansion.edges
      rw [halternates]
      exact h.edges x t' p hx ht' hword

/-! ## A token that is led on -/

/-- **A token of a list leads to a state,** and links back to `p`. -/
def Brings (g : Growth) (a : Store) (log : List Nat) (s p : Nat) : Prop :=
  ∃ c ∈ log, ∃ u, a.get? c = some u ∧ Store.link g.keepAllTokens c u = some p ∧
    0 < g.graph.arcsBetween u.state s

/-- What settled tokens bring does not change. -/
theorem brings_congr {a a' : Store} (hlog : ∀ c ∈ log, Settled base done c)
    (hstay : ∀ d, Settled base done d → a'.get? d = a.get? d) (s p : Nat) :
    Brings g a' log s p ↔ Brings g a log s p := by
  unfold Brings
  refine exists_congr fun c => and_congr_right fun hc => ?_
  rw [hstay c (hlog c hc)]

/-- **What a token brings** that is led on next, if it has arcs. -/
theorem brings_concat {a : Store} (hget : a.get? c = some u) {source : State}
    (hs : g.graph.state? u.state = some source) {moments : List Moment}
    (hnone : moments = [] ↔ source.arcs = []) (s p : Nat) :
    Brings g a (log ++ if moments = [] then [] else [c]) s p ↔ Brings g a log s p ∨
      (∃ arc ∈ source.arcs, s = arc.target) ∧ Store.link g.keepAllTokens c u = some p := by
  split_ifs with hempty
  · simp [hnone.1 hempty]
  · unfold Brings
    simp only [List.mem_append, List.mem_singleton, or_and_right, exists_or, exists_eq_left, hget,
      Option.some.injEq, exists_eq_left', Graph.arcsBetween_pos hs]
    rw [and_comm (a := Store.link g.keepAllTokens c u = some p)]
    simp only [eq_comm]

/-- **Expanding a settled token:** if it is led on, what it links back to is brought to all states
that its arcs lead to. -/
theorem Gathered.expandToken (h : Gathered g base done (Brings g e.store log) e)
    (hbuild : g.buildLattice = true) (hlog : ∀ c ∈ log, Settled base done c)
    (hc : Settled base done c) (hget : e.store.get? c = some u)
    (hlead : ∀ d ∈ done, ∀ t, e.store.get? d = some t → ¬ t.score < u.score) :
    Outcome (fun e' => Gathered g base done
        (Brings g e'.store (log ++ if e.momentsOfToken g c u = [] then [] else [c])) e')
      (fun _ => True) (e.expandToken g c u) := by
  rcases h.sound.taking_cases hc hget hlead with
    ⟨-, hnone, hx⟩ | ⟨-, hnone, hx⟩ | ⟨hl, -, source, hs, htried, hx⟩
  · rw [hx, hnone, if_pos rfl, List.append_nil]
    exact h.congr (h.sound.results _) rfl rfl rfl fun _ _ _ _ _ => .rfl
  · rw [hx, hnone, if_pos rfl, List.append_nil]
    exact h
  · rw [hx, htried]
    -- what has been brought by the arcs that were followed
    have harcs := hl.arcs_rule (I := fun followed e' => Gathered g base done
        (fun s p => Brings g e.store log s p ∨ (∃ arc ∈ followed, s = arc.target) ∧
          Store.link g.keepAllTokens c u = some p) e') h.sound hs ?_ ?_ ?_
    · refine harcs.imp fun e' ⟨hsound, hl', hgathered, hstay⟩ => ?_
      refine hgathered.congr hsound rfl rfl rfl fun s _ p _ _ => ?_
      rw [brings_concat hl'.get hs (momentsOver_eq_nil hs u _ e), brings_congr hlog hstay]
    · intro followed arc target e₁ memo ht hemits h₁
      refine h₁.congr (h₁.sound.memo memo) rfl rfl rfl fun s st p hst hword => ?_
      have hne : s ≠ arc.target := by
        rintro rfl
        rw [ht] at hst
        cases hst
        rw [(StateKind.idle_of_isWord hword).1] at hemits
        cases hemits
      simp [hne, or_and_right, exists_or]
    · intro followed arc target e₁ memo e₂ _ ht _ _ h₁ he₂ hsound₂ _
      have hmemo : Gathered g base done _ { e₁ with memo } :=
        h₁.congr (h₁.sound.memo memo) rfl rfl rfl fun _ _ _ _ _ => .rfl
      have harrived : Gathered g base done (fun s p => (Brings g e.store log s p ∨
          (∃ arc ∈ followed, s = arc.target) ∧ Store.link g.keepAllTokens c u = some p) ∨
          s = arc.target ∧ Store.link g.keepAllTokens c u = some p) e₂ := by
        rcases hmemo.sound.arrive_cases ht he₂ with ⟨hres, rfl⟩ |
          ⟨id, t, hres, hid, hget, hstate, hkind, rfl⟩
        · exact hmemo.settle ht hres hsound₂
        · exact hmemo.contest hbuild hid hres hget hstate hkind hsound₂
      refine harrived.congr hsound₂ rfl rfl rfl fun s _ p _ _ => ?_
      simp only [List.mem_append, List.mem_singleton, or_and_right, exists_or, exists_eq_left,
        or_assoc]
    · exact h.congr h.sound rfl rfl rfl fun _ _ _ _ _ => by simp

/-- What is led on is settled. -/
theorem settled_concat (hlog : ∀ c ∈ log, Settled base done c) (hid : Settled base done id)
    (moments : List Moment) :
    ∀ c ∈ log ++ (if moments = [] then [] else [id]), Settled base done c := by
  intro c hc
  rcases List.mem_append.1 hc with hc | hc
  · exact hlog c hc
  · split_ifs at hc
    · cases hc
    · exact List.mem_singleton.1 hc ▸ hid

/-- **The edges of a frame.** -/
theorem Gathered.rule (hbuild : g.buildLattice = true) (hseeds : ∀ c ∈ seeds, c < base.size) :
    FrameRule g base seeds (fun log e => (∀ c ∈ ledIn log, Settled base (drawn log) c) ∧
      Gathered g base (drawn log) (Brings g e.store (ledIn log)) e) fun _ _ => True where
  seed log e e' id t hsound h hnil hid ht ho := by
    have hlt : Settled base [] id := .inl (hseeds id hid)
    have hkept : e'.store = e.store ∧ e'.lattice = e.lattice ∧ e'.residents = e.residents := by
      cases ho <;> exact ⟨rfl, rfl, rfl⟩
    rw [hnil] at h
    simp only [drawn_seed, hnil, ledIn_concat]
    have hopen : Gathered g base [] (Brings g e'.store (ledIn log)) e' :=
      h.2.congr (hsound.opens ht ho) hkept.1 hkept.2.1 hkept.2.2 fun _ _ _ _ _ => by rw [hkept.1]
    exact (hopen.expandToken hbuild h.1 hlt (hkept.1 ▸ ht) fun _ hd => by cases hd).imp
      fun _ h' => ⟨settled_concat h.1 hlt _, h'⟩
  round log e p rest t hsound h hq ht e' he' := by
    subst he'
    obtain ⟨hpop, hlead⟩ := hsound.pop hq ht
    have hlog : ∀ c ∈ ledIn log, Settled base (p.token :: drawn log) c := fun c hc =>
      (h.1 c hc).mono fun _ hd => List.mem_cons_of_mem _ hd
    let e₁ : Expansion := { e with queue := rest, expanded := t.state :: e.expanded }
    have hopen : Gathered g base (p.token :: drawn log) (Brings g e₁.store (ledIn log)) e₁ :=
      h.2.congr hpop rfl rfl rfl fun _ _ _ _ _ => .rfl
    simp only [drawn_round, ledIn_concat]
    exact (hopen.expandToken hbuild hlog (.inr (by simp)) ht hlead).imp
      fun _ h' => ⟨settled_concat hlog (.inr List.mem_cons_self) _, h'⟩
  clear log e h hq :=
    ⟨h.1, h.2.congr (h.2.sound.clear hq) rfl rfl rfl fun _ _ _ _ _ => .rfl⟩

theorem Gathered.start (hfits : Fits g.graph base) (widths : BeamWidths) {lattice : Lattice}
    (hfresh : ∀ id, base.size ≤ id → lattice.alternates id = []) (memo : PenaltyMemo) :
    Gathered g base [] (Brings g base []) (Expansion.start base (.empty widths) lattice memo) := by
  refine ⟨.start hfits widths lattice memo, hfresh, ?_, fun id t p hid ht => ?_⟩
  · rintro s st p - - ⟨c, hc, -⟩
    cases hc
  · exact absurd (Store.lt_size_of_get? ht) (Nat.not_lt.2 hid)

/-! ## The theorem -/

/-- **The edges into a word** that a frame creates, its predecessor and its alternates, are what the
tokens link back to that the frame led on and that have an arc to its state. -/
theorem edges_led (g : Growth) (base : Store) (seeds : List Nat) (widths : BeamWidths)
    (lattice : Lattice) (memo : PenaltyMemo) (e : Expansion) (hbuild : g.buildLattice = true)
    (hfits : Fits g.graph base) (hseeds : ∀ c ∈ seeds, c < base.size)
    (hfresh : ∀ id, base.size ≤ id → lattice.alternates id = [])
    (he : (Expansion.start base (.empty widths) lattice memo).run g seeds = .ok e) (id : Nat)
    (t : Token) (hid : base.size ≤ id) (ht : e.store.get? id = some t)
    (hword : t.kind.isWord = true) (p : Nat) :
    p ∈ e.edges id t ↔
      ∃ c ∈ (Expansion.start base (.empty widths) lattice memo).led g seeds, ∃ u,
        e.store.get? c = some u ∧ Store.link g.keepAllTokens c u = some p ∧
          0 < g.graph.arcsBetween u.state t.state := by
  obtain ⟨⟨-, h⟩, -⟩ := ((Gathered.rule hbuild hseeds).run (.start hfits widths lattice memo) hseeds
    ⟨fun _ hc => by (cases hc), .start hfits widths hfresh memo⟩).of_ok he
  exact h.edges id t p hid ht hword

end Expansion

end SpeechDecoder

import SpeechDecoder.Proofs.Expansion.Remembered

/-!
# The edges into a token

The edges into a token are its predecessor and its alternates.  An arrival is compared with the
token that is on the state at that time, so it adds at most one edge, with what is linked back to
from where it comes.  Every token is led on once in a frame, over each of its arcs.  So an edge
occurs at most as often as arcs lead to the state from tokens that link back alike (`Tallied.tally`).

* `lattice_contest` says what one arrival does to the alternates.
* `waysFrom` counts the arcs that may bring an edge.
* `Tallied` is the invariant; `Tallied.arrive`, `Tallied.follow`, `Tallied.expandToken` and
  `Tallied.run` carry it through an arrival, an arc, the expansion of a token and a whole frame.
-/

namespace SpeechDecoder

namespace Graph

/-- How many arcs lead from a state to another one. -/
def arcsBetween (graph : Graph) (s t : Nat) : Nat :=
  match graph.state? s with
  | none => 0
  | some st => st.arcs.countP fun arc => arc.target == t

/-- **One state leads on to another one within a frame:** it neither emits nor is final, and has an
arc there. -/
def Passes (graph : Graph) (s t : Nat) : Prop :=
  ∃ st, graph.state? s = some st ∧ st.kind.isEmitting = false ∧ st.kind.isFinal = false ∧
    ∃ arc ∈ st.arcs, arc.target = t

theorem exists_arc {graph : Graph} {s t : Nat} (h : 0 < graph.arcsBetween s t) :
    ∃ st, graph.state? s = some st ∧ ∃ arc ∈ st.arcs, arc.target = t := by
  unfold arcsBetween at h
  split at h
  · exact absurd h (Nat.lt_irrefl 0)
  · next st hst =>
    obtain ⟨arc, harc, ht⟩ := List.countP_pos_iff.1 h
    exact ⟨st, hst, arc, harc, by simpa using ht⟩

end Graph

namespace Expansion

/-! ## What one arrival remembers -/

/-- **A later arrival** remembers at most one predecessor, the one that loses. -/
theorem lattice_contest (g : Growth) (e : Expansion) (link : Option Nat) (arc : Arc)
    (kind : StateKind) (score : Score) (id : Nat) (t : Token) :
    (e.contest g link arc kind score id t).lattice = e.lattice ∨
      ∃ p, (if t.score < score then t.predecessor else link) = some p ∧
        (e.contest g link arc kind score id t).lattice = e.lattice.add id p := by
  have hremember : ∀ (f : Expansion) (loser winner : Option Nat),
      (f.remember g id loser winner).lattice = f.lattice ∨
        ∃ p, loser = some p ∧ (f.remember g id loser winner).lattice = f.lattice.add id p := by
    intro f loser winner
    unfold Expansion.remember
    cases loser with
    | none => exact .inl rfl
    | some p =>
      cases hb : g.buildLattice && some p != winner
      · exact .inl (by simp only [hb]; rfl)
      · exact .inr ⟨p, rfl, by simp only [hb]; rfl⟩
  unfold Expansion.contest
  by_cases hlt : t.score < score
  · simp only [if_pos hlt]
    cases kind.isWord
    · cases kind.isEmitting <;> exact .inl rfl
    · cases kind.isEmitting
      · exact hremember ({ e with
          store := e.store.set id (t.rerouted link arc score g.frame) }.enqueue id kind score) _ _
      · exact hremember { e with
          store := e.store.set id (t.rerouted link arc score g.frame)
          next := e.next.note id score } _ _
  · simp only [if_neg hlt]
    cases kind.isWord
    · exact .inl rfl
    · exact hremember e _ _

/-! ## Counting edges -/

/-- **The edges into a token:** its predecessor and its alternates. -/
def edges (e : Expansion) (id : Nat) (t : Token) : List Nat :=
  t.predecessor.toList ++ e.lattice.alternates id

/-- **The arcs from a token to a state,** if `p` is what is linked back to from there. -/
def waysFrom (graph : Graph) (keepAll : Bool) (a : Store) (s p c : Nat) : Nat :=
  match a.get? c with
  | none => 0
  | some u => if Store.link keepAll c u = some p then graph.arcsBetween u.state s else 0

/-- A token that may be led on: a seed, or one that was taken from the queue. -/
def Ledable (base : Store) (seeds done : List Nat) (c : Nat) : Prop :=
  c < base.size ∧ c ∈ seeds ∨ c ∈ done

/-- **The invariant.**  The tokens in `led` were led on, and one more is being led on, which has
brought as many edges as `extra` says. -/
structure Tallied (g : Growth) (base : Store) (seeds done : List Nat) (l : Lattice) (led : List Nat)
    (extra : Nat → Nat → Nat) (e : Expansion) : Prop where
  sound : Sound g base done e
  led_from : ∀ c ∈ led, Ledable base seeds done c ∧
    ∃ u, e.store.get? c = some u ∧ u.kind.isFinal = false
  led_nodup : led.Nodup
  /-- The alternates of earlier tokens stay. -/
  old : ∀ id < base.size, e.lattice.alternates id = l.alternates id
  /-- What is no token yet has no alternates. -/
  fresh : ∀ id, e.store.size ≤ id → e.lattice.alternates id = []
  /-- An edge occurs as often as arcs have brought it, or less often. -/
  tally : ∀ id t p, base.size ≤ id → e.store.get? id = some t →
    (e.edges id t).count p ≤
      (led.map (waysFrom g.graph g.keepAllTokens e.store t.state p)).sum + extra t.state p

variable {g : Growth} {base : Store} {seeds done led : List Nat} {l : Lattice}
  {extra extra' : Nat → Nat → Nat} {e e' : Expansion}

theorem Ledable.settled {c : Nat} (h : Ledable base seeds done c) : Settled base done c :=
  h.imp_left And.left

theorem Ledable.mono {done' : List Nat} {c : Nat} (h : Ledable base seeds done c)
    (hdone : ∀ c ∈ done, c ∈ done') : Ledable base seeds done' c :=
  h.imp_right (hdone c)

/-- The ways from a token depend on that token only. -/
theorem waysFrom_congr {graph : Graph} {keepAll : Bool} {a a' : Store} {c : Nat}
    (h : a'.get? c = a.get? c) (s p : Nat) :
    waysFrom graph keepAll a' s p c = waysFrom graph keepAll a s p c := by
  unfold waysFrom
  rw [h]

/-- What does not concern the tokens and the lattice keeps the tally. -/
theorem Tallied.congr (h : Tallied g base seeds done l led extra e) {done' : List Nat}
    (hsound : Sound g base done' e') (hdone : ∀ c ∈ done, c ∈ done') (hstore : e'.store = e.store)
    (hlattice : e'.lattice = e.lattice) : Tallied g base seeds done' l led extra e' := by
  refine ⟨hsound, fun c hc => ?_, h.led_nodup, ?_, ?_, ?_⟩
  · obtain ⟨hs, hu⟩ := h.led_from c hc
    exact ⟨hs.mono hdone, hstore.symm ▸ hu⟩
  · rw [hlattice]
    exact h.old
  · rw [hlattice, hstore]
    exact h.fresh
  · unfold edges
    rw [hlattice, hstore]
    exact h.tally

theorem Tallied.weaken (h : Tallied g base seeds done l led extra e)
    (hle : ∀ s p, extra s p ≤ extra' s p) : Tallied g base seeds done l led extra' e :=
  { h with
    tally := fun id t p hid ht =>
      (h.tally id t p hid ht).trans (Nat.add_le_add_left (hle _ _) _) }

/-! ## Arrivals -/

/-- What one more arc may bring. -/
def brought (extra : Nat → Nat → Nat) (link : Option Nat) (arc : Arc) (s p : Nat) : Nat :=
  extra s p + if s = arc.target then link.toList.count p else 0

theorem le_brought (link : Option Nat) (arc : Arc) (s p : Nat) :
    extra s p ≤ brought extra link arc s p :=
  Nat.le_add_right _ _

/-- **A later arrival** adds at most one edge, which is its own link. -/
theorem count_contest (g : Growth) (e : Expansion) (link : Option Nat) (arc : Arc)
    (kind : StateKind) (score : Score) {id : Nat} {t t' : Token} (ht : e.store.get? id = some t)
    (ht' : (e.contest g link arc kind score id t).store.get? id = some t') (p : Nat) :
    t'.state = t.state ∧ ((e.contest g link arc kind score id t).edges id t').count p ≤
      (e.edges id t).count p + link.toList.count p := by
  have hlattice := lattice_contest g e link arc kind score id t
  rw [store_contest] at ht'
  unfold edges
  by_cases hlt : t.score < score
  · -- the new link is the predecessor now, and what was the predecessor may be an alternate
    rw [if_pos hlt, Store.get?_set, if_pos rfl, if_pos (Store.lt_size_of_get? ht)] at ht'
    cases ht'
    refine ⟨rfl, ?_⟩
    rw [if_pos hlt] at hlattice
    rcases hlattice with hl | ⟨q, hq, hl⟩
    · rw [hl]
      simp only [Token.rerouted, List.count_append]
      omega
    · rw [hl, Lattice.alternates_add, if_pos rfl, hq]
      simp only [Token.rerouted, Option.toList_some, List.count_append]
      omega
  · rw [if_neg hlt, ht] at ht'
    cases ht'
    refine ⟨rfl, ?_⟩
    rw [if_neg hlt] at hlattice
    rcases hlattice with hl | ⟨q, hq, hl⟩
    · rw [hl]
      exact Nat.le_add_right _ _
    · rw [hl, Lattice.alternates_add, if_pos rfl, hq]
      simp only [Option.toList_some, List.count_append]
      omega

/-- A later arrival leaves the other tokens alone. -/
theorem contest_of_ne (g : Growth) (e : Expansion) (link : Option Nat) (arc : Arc)
    (kind : StateKind) (score : Score) {id x : Nat} (t : Token) (hx : x ≠ id) :
    (e.contest g link arc kind score id t).store.get? x = e.store.get? x ∧
      (e.contest g link arc kind score id t).lattice.alternates x = e.lattice.alternates x := by
  constructor
  · rw [store_contest]
    split_ifs
    · rw [Store.get?_set, if_neg (Ne.symm hx)]
    · rfl
  · rcases lattice_contest g e link arc kind score id t with hl | ⟨q, -, hl⟩
    · rw [hl]
    · rw [hl, Lattice.alternates_add, if_neg hx]

/-- A first arrival makes no alternates of tokens that are yet to be created. -/
theorem fresh_settle (h : ∀ x, e.store.size ≤ x → e.lattice.alternates x = []) (link : Option Nat)
    (arc : Arc) (kind : StateKind) (score : Score) (x : Nat)
    (hx : (e.settle g link arc kind score).store.size ≤ x) :
    (e.settle g link arc kind score).lattice.alternates x = [] := by
  rw [lattice_settle g e link arc kind score]
  refine h x (le_trans ?_ hx)
  rw [store_settle]
  split_ifs
  · exact le_rfl
  · rw [Store.size_push]
    exact Nat.le_succ _

/-- A later arrival makes none either. -/
theorem fresh_contest (h : ∀ x, e.store.size ≤ x → e.lattice.alternates x = []) {id : Nat}
    {t : Token} (ht : e.store.get? id = some t) (link : Option Nat) (arc : Arc) (kind : StateKind)
    (score : Score) (x : Nat) (hx : (e.contest g link arc kind score id t).store.size ≤ x) :
    (e.contest g link arc kind score id t).lattice.alternates x = [] := by
  have hlt := Store.lt_size_of_get? ht
  rw [size_contest] at hx
  rw [(contest_of_ne g e link arc kind score t (by omega)).2]
  exact h x hx

/-- What was led on is settled, and so it is what it was after an arrival. -/
theorem Tallied.led_of_stay (h : Tallied g base seeds done l led extra e)
    (hstay : ∀ c, Settled base done c → e'.store.get? c = e.store.get? c) :
    (∀ d ∈ led, Ledable base seeds done d ∧
      ∃ u, e'.store.get? d = some u ∧ u.kind.isFinal = false) ∧
    ∀ s p, (led.map (waysFrom g.graph g.keepAllTokens e'.store s p)).sum =
      (led.map (waysFrom g.graph g.keepAllTokens e.store s p)).sum := by
  refine ⟨fun d hd => ?_, fun s p => congrArg List.sum (List.map_congr_left fun d hd => ?_)⟩
  · obtain ⟨hfrom, hu⟩ := h.led_from d hd
    exact ⟨hfrom, hstay d hfrom.settled ▸ hu⟩
  · exact waysFrom_congr (hstay d (h.led_from d hd).1.settled) s p

/-- **The first arrival on a state.** -/
theorem Tallied.settle (h : Tallied g base seeds done l led extra e) {link : Option Nat} {arc : Arc}
    {kind : StateKind} {score : Score} (hsound : Sound g base done (e.settle g link arc kind score))
    (hstay : ∀ c, Settled base done c →
      (e.settle g link arc kind score).store.get? c = e.store.get? c) :
    Tallied g base seeds done l led (brought extra link arc) (e.settle g link arc kind score) := by
  obtain ⟨hled, hways⟩ := h.led_of_stay hstay
  have hlattice := lattice_settle g e link arc kind score
  refine ⟨hsound, hled, h.led_nodup, by rw [hlattice]; exact h.old,
    fresh_settle h.fresh link arc kind score, fun id t p hid hget => ?_⟩
  rw [hways]
  unfold edges
  rw [hlattice]
  rw [store_settle] at hget
  by_cases hadm : (kind.isEmitting && !e.next.admits score) = true
  · rw [if_pos hadm] at hget
    exact (h.tally id t p hid hget).trans (Nat.add_le_add_left (le_brought _ _ _ _) _)
  · rw [if_neg hadm, Store.get?_push] at hget
    split_ifs at hget with hnew
    · -- the new token has the link for its predecessor, and no alternates yet
      cases hget
      rw [h.fresh id hnew.ge, List.append_nil]
      simp only [Token.entering, brought, if_true]
      omega
    · exact (h.tally id t p hid hget).trans (Nat.add_le_add_left (le_brought _ _ _ _) _)

/-- **A later arrival on a state.** -/
theorem Tallied.contest (h : Tallied g base seeds done l led extra e) {link : Option Nat} {arc : Arc}
    {kind : StateKind} {score : Score} {id : Nat} {t : Token} (hid : base.size ≤ id)
    (hget : e.store.get? id = some t) (hstate : t.state = arc.target)
    (hsound : Sound g base done (e.contest g link arc kind score id t))
    (hstay : ∀ c, Settled base done c →
      (e.contest g link arc kind score id t).store.get? c = e.store.get? c) :
    Tallied g base seeds done l led (brought extra link arc)
      (e.contest g link arc kind score id t) := by
  obtain ⟨hled, hways⟩ := h.led_of_stay hstay
  refine ⟨hsound, hled, h.led_nodup, fun x hx => ?_, fresh_contest h.fresh hget link arc kind score,
    fun x t' p hx hget' => ?_⟩
  · rw [(contest_of_ne g e link arc kind score t (by omega)).2]
    exact h.old x hx
  · rw [hways]
    by_cases hxid : x = id
    · subst hxid
      obtain ⟨hstate', hcount⟩ := count_contest g e link arc kind score hget hget' p
      have htally := h.tally x t p hx hget
      rw [hstate']
      simp only [brought, hstate, if_true] at htally ⊢
      omega
    · obtain ⟨hsame, halternates⟩ := contest_of_ne g e link arc kind score t hxid
      rw [hsame] at hget'
      unfold edges
      rw [halternates]
      exact (h.tally x t' p hx hget').trans (Nat.add_le_add_left (le_brought _ _ _ _) _)

/-- **An arrival** adds at most one edge to the token on its state. -/
theorem Tallied.arrive (h : Tallied g base seeds done l led extra e) {c : Nat} {u : Token}
    (hl : Leads g base done e c u) {source target : State} {arc : Arc}
    (hs : g.graph.state? u.state = some source) (harc : arc ∈ source.arcs)
    (ht : g.graph.state? arc.target = some target) :
    ∃ e', e.arrive g (Store.link g.keepAllTokens c u) arc target.kind (u.score + arc.probability) =
        .ok e' ∧
      Tallied g base seeds done l led (brought extra (Store.link g.keepAllTokens c u) arc) e' ∧
      Leads g base done e' c u := by
  obtain ⟨e', he', hsound, hl', hstay⟩ := hl.arrive h.sound hs harc ht
  refine ⟨e', he', ?_, hl'⟩
  rcases h.sound.arrive_cases ht he' with ⟨-, rfl⟩ | ⟨id, t, -, hid, hget, hstate, -, rfl⟩
  · exact h.settle hsound hstay
  · exact h.contest hid hget hstate hsound hstay

/-! ## Leading a token on -/

/-- What some arcs of a token have brought. -/
def broughtBy (link : Option Nat) (arcs : List Arc) (s p : Nat) : Nat :=
  (arcs.countP fun arc => arc.target == s) * link.toList.count p

theorem brought_broughtBy (link : Option Nat) (arcs : List Arc) (arc : Arc) :
    brought (broughtBy link arcs) link arc = broughtBy link (arcs ++ [arc]) := by
  funext s p
  unfold brought broughtBy
  rw [List.countP_append, Nat.add_mul]
  by_cases h : s = arc.target
  · simp [h]
  · simp [h, Ne.symm h]

/-- What all arcs of a token bring, and so what some of them do, is counted by its ways. -/
theorem broughtBy_le_waysFrom {a : Store} {c : Nat} {u : Token} {source : State} {arcs : List Arc}
    (hu : a.get? c = some u) (hs : g.graph.state? u.state = some source)
    (hsub : arcs.Sublist source.arcs) (s p : Nat) :
    broughtBy (Store.link g.keepAllTokens c u) arcs s p ≤
      waysFrom g.graph g.keepAllTokens a s p c := by
  have hcount := hsub.countP_le (p := fun arc => arc.target == s)
  unfold broughtBy waysFrom Graph.arcsBetween
  simp only [hu, hs]
  split_ifs with hlink
  · simpa [hlink] using hcount
  · cases hlink' : Store.link g.keepAllTokens c u with
    | none => simp
    | some q =>
      have hne : q ≠ p := fun hqp => hlink (by rw [hlink', hqp])
      simp [hne]

/-- **A token whose arcs were followed,** all of them or the first ones, has been led on. -/
theorem Tallied.finish {c : Nat} {u : Token} {source : State} {arcs : List Arc}
    (h : Tallied g base seeds done l led (broughtBy (Store.link g.keepAllTokens c u) arcs) e)
    (hfrom : Ledable base seeds done c) (hl : Leads g base done e c u) (hc : c ∉ led)
    (hs : g.graph.state? u.state = some source) (hsub : arcs.Sublist source.arcs) :
    Tallied g base seeds done l (c :: led) (fun _ _ => 0) e := by
  refine ⟨h.sound, fun d hd => ?_, List.nodup_cons.2 ⟨hc, h.led_nodup⟩, h.old, h.fresh,
    fun id t p hid ht => ?_⟩
  · rcases List.mem_cons.1 hd with rfl | hd
    · exact ⟨hfrom, u, hl.get, hl.notFinal⟩
    · exact h.led_from d hd
  · have hways := broughtBy_le_waysFrom hl.get hs hsub t.state p
    have htally := h.tally id t p hid ht
    rw [List.map_cons, List.sum_cons]
    omega

/-- **Every edge of the frame is accounted for.** -/
def Counted (g : Growth) (base : Store) (seeds : List Nat) (l : Lattice) (e : Expansion) : Prop :=
  ∃ done led, Tallied g base seeds done l led (fun _ _ => 0) e

/-- **Following an arc.** -/
theorem Tallied.follow (h : Tallied g base seeds done l led extra e) {c : Nat} {u : Token}
    (hl : Leads g base done e c u) {source : State} (hs : g.graph.state? u.state = some source)
    {arc : Arc} (harc : arc ∈ source.arcs) :
    Outcome
      (fun e' => Leads g base done e' c u ∧
        Tallied g base seeds done l led (brought extra (Store.link g.keepAllTokens c u) arc) e')
      (fun h => Leads g base done h.state c u ∧ Tallied g base seeds done l led extra h.state)
      (e.follow g u source (Store.link g.keepAllTokens c u) arc) := by
  obtain ⟨target, ht, -⟩ := exists_target hs harc
  have hmemo : ∀ memo, Tallied g base seeds done l led extra { e with memo } := fun memo =>
    h.congr (h.sound.memo memo) (fun _ h => h) rfl rfl
  refine hl.follow_rule h.sound hs harc ht
    (fun memo _ => ⟨hl.memo memo, (hmemo memo).weaken fun s p => le_brought _ _ s p⟩)
    (fun memo _ => ⟨hl.memo memo, hmemo memo⟩) fun memo e' he' _ hl' _ => ?_
  obtain ⟨e₁, he₁, h₁, -⟩ := (hmemo memo).arrive (hl.memo memo) hs harc ht
  cases he₁.symm.trans he'
  exact ⟨hl', h₁⟩

/-- **Leading a settled token on,** by induction on its arcs. -/
theorem Tallied.expandToken (h : Tallied g base seeds done l led (fun _ _ => 0) e) {c : Nat}
    {u : Token} (hc : Ledable base seeds done c) (hnot : c ∉ led) (hu : e.store.get? c = some u)
    (hlead : ∀ d ∈ done, ∀ t, e.store.get? d = some t → ¬ t.score < u.score) :
    Outcome (fun e' => ∃ led', (∀ d ∈ led', d = c ∨ d ∈ led) ∧
        Tallied g base seeds done l led' (fun _ _ => 0) e')
      (fun h => Counted g base seeds l h.state) (e.expandToken g c u) := by
  rcases h.sound.expandToken_cases hc.settled hu hlead with
    ⟨-, hx⟩ | ⟨-, -, -, hx⟩ | ⟨hl, -, source, hs, hx⟩
  · rw [hx]
    exact ⟨led, fun d hd => .inr hd, h.congr (h.sound.results _) (fun _ h => h) rfl rfl⟩
  · rw [hx]
    exact ⟨led, fun d hd => .inr hd, h⟩
  · have hzero : (fun _ _ => 0) = broughtBy (Store.link g.keepAllTokens c u) [] := by
      funext s p
      simp [broughtBy]
    -- the arcs that were followed stand before those that are still to come
    have harcs := Outcome.foldlM_rest (H := fun h : Halted Expansion => Counted g base seeds l h.state)
      (I := fun rest e' => Leads g base done e' c u ∧ ∃ followed, followed ++ rest = source.arcs ∧
        Tallied g base seeds done l led (broughtBy (Store.link g.keepAllTokens c u) followed) e')
      (f := fun e arc => Expansion.follow g e u source (Store.link g.keepAllTokens c u) arc)
      (fun arc rest e' ⟨hl, followed, hsplit, htally⟩ => by
        have harc : arc ∈ source.arcs := by
          rw [← hsplit]
          simp
        refine (htally.follow hl hs harc).mono (fun e₁ he₁ => ?_) fun err herr => ?_
        · rw [brought_broughtBy] at he₁
          exact ⟨he₁.1, followed ++ [arc], by simpa using hsplit, he₁.2⟩
        · exact ⟨done, _, herr.2.finish hc herr.1 hnot hs
            (hsplit ▸ List.sublist_append_left _ _)⟩)
      source.arcs e ⟨hl, [], rfl, hzero ▸ h⟩
    rw [hx]
    refine harcs.imp fun e' ⟨hl, followed, hsplit, htally⟩ => ⟨c :: led, fun d hd => ?_, ?_⟩
    · exact List.mem_cons.1 hd
    · rw [List.append_nil] at hsplit
      exact htally.finish hc hl hnot hs (hsplit ▸ List.Sublist.refl _)

/-! ## A frame -/

/-- **Leading a seed on.** -/
theorem Tallied.expandSeed (h : Tallied g base seeds [] l led (fun _ _ => 0) e) {id : Nat}
    (hid : id < base.size) (hseed : id ∈ seeds) (hnot : id ∉ led) :
    Outcome (fun e' => ∃ led', (∀ d ∈ led', d = id ∨ d ∈ led) ∧
        Tallied g base seeds [] l led' (fun _ _ => 0) e')
      (fun h => Counted g base seeds l h.state) (e.expandSeed g id) := by
  obtain ⟨t, ht⟩ := Store.exists_get? (Nat.lt_of_lt_of_le hid h.sound.size_le)
  rcases expandSeed_cases ht g with ⟨-, -, hx⟩ | ⟨e', ho, hx⟩
  · rw [hx]
    exact ⟨led, fun d hd => .inr hd, h⟩
  · have hopen := h.sound.opens ht ho
    obtain ⟨expanded, rfl⟩ := ho.eq
    rw [hx]
    exact (h.congr hopen (fun _ h => h) rfl rfl).expandToken (.inl ⟨hid, hseed⟩) hnot ht
      fun _ hd => by cases hd

/-- An expansion that has not begun. -/
theorem Tallied.start (hfits : Fits g.graph base) (widths : BeamWidths) (memo : PenaltyMemo)
    (hfresh : ∀ id, base.size ≤ id → l.alternates id = []) :
    Tallied g base seeds [] l [] (fun _ _ => 0) (.start base (.empty widths) l memo) := by
  refine ⟨.start hfits _ _ _, by simp, List.nodup_nil, fun _ _ => rfl, hfresh,
    fun id t p hid ht => ?_⟩
  exact absurd (Store.lt_size_of_get? ht) (Nat.not_lt.2 hid)

/-- **Leading the seeds on,** each of them once. -/
theorem Tallied.expandSeeds (h : Tallied g base seeds [] l [] (fun _ _ => 0) e)
    (hseeds : ∀ id ∈ seeds, id < base.size) (hnodup : seeds.Nodup) :
    Outcome (fun e' => ∃ led, Tallied g base seeds [] l led (fun _ _ => 0) e')
      (fun h => Counted g base seeds l h.state) (seeds.foldlM (fun e id => e.expandSeed g id) e) := by
  have hall := Outcome.foldlM_rest (H := fun h : Halted Expansion => Counted g base seeds l h.state)
    (I := fun rest e' => (∀ id ∈ rest, id ∈ seeds) ∧ rest.Nodup ∧
      ∃ led, (∀ d ∈ led, d ∉ rest) ∧ Tallied g base seeds [] l led (fun _ _ => 0) e')
    (f := fun e id => Expansion.expandSeed g e id)
    (fun id rest e' ⟨hmem, hnd, led, hled, h'⟩ => by
      obtain ⟨hidrest, hrest⟩ := List.nodup_cons.1 hnd
      have hid := hmem id (by simp)
      refine (h'.expandSeed (hseeds id hid) hid fun hin => hled id hin (by simp)).imp ?_
      rintro e₁ ⟨led', hled', h₁⟩
      refine ⟨fun x hx => hmem x (List.mem_cons_of_mem id hx), hrest, led', fun d hd => ?_, h₁⟩
      rcases hled' d hd with rfl | hd
      · exact hidrest
      · exact fun hmem => hled d hd (List.mem_cons_of_mem id hmem))
    seeds e ⟨fun _ h => h, hnodup, [], by simp, h⟩
  exact hall.imp fun e' ⟨_, _, led, _, h'⟩ => ⟨led, h'⟩

/-- **Every edge of a frame is accounted for,** also where the frame is halted. -/
theorem Tallied.run (h : Tallied g base seeds [] l [] (fun _ _ => 0) e)
    (hseeds : ∀ id ∈ seeds, id < base.size) (hnodup : seeds.Nodup) :
    Outcome (Counted g base seeds l) (fun h => Counted g base seeds l h.state) (e.run g seeds) := by
  refine (h.expandSeeds hseeds hnodup).bind fun e₁ h₁ => ?_
  have hdrain := drain_rule (g := g)
    (I := fun done e' => ∃ led, Tallied g base seeds done l led (fun _ _ => 0) e')
    (H := fun h : Halted Expansion => Counted g base seeds l h.state)
    (fun _ _ ⟨_, h'⟩ => h'.sound)
    (fun done e' p rest t ⟨led, h'⟩ hq ht => by
      obtain ⟨hpop, hlead⟩ := h'.sound.pop hq ht
      obtain ⟨hmem, -, hno⟩ := popped_mem hq ht
      -- what was led on before was a seed, or its state is marked
      have hnot : p.token ∉ led := fun hin => by
        rcases (h'.led_from _ hin).1 with ⟨hlt, -⟩ | hdone
        · exact absurd (h'.sound.queued p hmem).1 (Nat.not_le.2 hlt)
        · exact hno ((h'.sound.expanded_done _ hdone t ht).2)
      have hcons := h'.congr hpop (fun c hc => List.mem_cons_of_mem _ hc) rfl rfl
      refine (hcons.expandToken (.inr (by simp)) hnot ht hlead).imp ?_
      rintro e₂ ⟨led', -, h₂⟩
      exact ⟨led', h₂⟩)
    (fun done e' ⟨led, h'⟩ hq => ⟨led, h'.congr (h'.sound.clear hq) (fun _ h => h) rfl rfl⟩)
    (g.graph.size + 1) h₁ (by omega)
  exact hdrain.imp fun e' ⟨done, ⟨led, h'⟩, _⟩ => ⟨done, led, h'⟩

/-! ## Where an edge leads -/

/-- The token goes back to `p` within the frame, unless `p` is of an earlier one. -/
def GoesBack (g : Growth) (base a : Store) (p : Nat) (t : Token) : Prop :=
  p < base.size ∨ ∃ v, a.get? p = some v ∧ v.frame = g.frame ∧
    Relation.TransGen g.graph.Passes v.state t.state

/-- **What is linked back to from a settled token,** over an arc to the state of `t`. -/
theorem Sound.goesBack_link (h : Sound g base done e) (hbase : base.Closed) {c p : Nat}
    {u t : Token} {source : State} {arc : Arc} (hc : Settled base done c)
    (hu : e.store.get? c = some u) (hfinal : u.kind.isFinal = false)
    (hs : g.graph.state? u.state = some source) (harc : arc ∈ source.arcs)
    (ht : t.state = arc.target) (hlink : Store.link g.keepAllTokens c u = some p)
    (hback : ∀ q, c ∈ done → u.predecessor = some q → GoesBack g base e.store q u) :
    GoesBack g base e.store p t := by
  rcases hc with hlt | hdone
  · left
    rcases Store.link_eq_some hlink with rfl | hup
    · exact hlt
    · exact hbase c u p (h.old c hlt ▸ hu) hup
  · -- the token is of this frame, and its state leads on to that of `t`
    obtain ⟨v, hb, hv⟩ := h.chained.mem c hdone
    rw [hu] at hv
    cases hv
    have hframe : u.frame = g.frame := by
      obtain ⟨_, _, _, _, _, -, -, -, -, -, -, rfl⟩ := h.arrived c u hb hu
      rfl
    have hpass : g.graph.Passes u.state t.state := by
      obtain ⟨st, hst, hkind⟩ := h.fits c u hu
      rw [hs] at hst
      cases hst
      exact ⟨source, hs, hkind ▸ (h.expanded_done c hdone u hu).1, hkind ▸ hfinal, arc, harc,
        ht.symm⟩
    rcases Store.link_eq_some hlink with rfl | hup
    · exact .inr ⟨u, hu, hframe, .single hpass⟩
    · exact (hback p hdone hup).imp_right fun ⟨w, hw, hwframe, hw'⟩ =>
        ⟨w, hw, hwframe, hw'.tail hpass⟩

/-- **The predecessor of a token that was taken from the queue,** by induction on the order in which
they were. -/
theorem Sound.goesBack_predecessor (h : Sound g base done e) (hbase : base.Closed) {c p : Nat}
    {u : Token} (hc : c ∈ done) (hu : e.store.get? c = some u) (hp : u.predecessor = some p) :
    GoesBack g base e.store p u := by
  have hall : ∀ rest later, done = later ++ rest → Chained g base e.store rest →
      ∀ c ∈ rest, ∀ u p, e.store.get? c = some u → u.predecessor = some p →
        GoesBack g base e.store p u := by
    intro rest
    induction rest with
    | nil => exact fun _ _ _ c hc => by cases hc
    | cons c rest ih =>
      rintro later hdone ⟨⟨t, -, ht, d, v, source, arc, target, hd, hv, hfinal, hs, harc, -, rfl⟩,
        hchained⟩ x hx u p hu hp
      have hih := ih (later ++ [c]) (by simpa using hdone) hchained
      rcases List.mem_cons.1 hx with rfl | hx
      · rw [ht] at hu
        cases hu
        have hnew : d ∈ done → base.size ≤ d := fun hd => (h.chained.mem d hd).choose_spec.1
        refine h.goesBack_link hbase (hd.mono fun y hy => by simp [hdone, hy]) hv hfinal hs harc rfl
          hp fun q hddone hq => hih d ?_ v q hv hq
        exact hd.resolve_left (Nat.not_lt.2 (hnew hddone))
      · exact hih x hx u p hu hp
  exact hall done [] rfl h.chained c hc u p hu hp

/-- **Every edge into a token of the frame** leads to an earlier frame, or to a token whose state
leads on to that of the token. -/
theorem Tallied.goesBack (h : Tallied g base seeds done l led (fun _ _ => 0) e) (hbase : base.Closed)
    {id p : Nat} {t : Token} (hid : base.size ≤ id) (ht : e.store.get? id = some t)
    (hp : p ∈ e.edges id t) : GoesBack g base e.store p t := by
  -- some arc has brought the edge
  obtain ⟨c, hc, hways⟩ : ∃ c ∈ led, 0 < waysFrom g.graph g.keepAllTokens e.store t.state p c := by
    by_contra hnone
    push Not at hnone
    have hzero : (led.map (waysFrom g.graph g.keepAllTokens e.store t.state p)).sum = 0 :=
      List.sum_eq_zero fun x hx => by
        obtain ⟨c, hc, rfl⟩ := List.mem_map.1 hx
        exact Nat.le_zero.1 (hnone c hc)
    have hpos := (List.count_pos_iff.2 hp).trans_le (h.tally id t p hid ht)
    omega
  obtain ⟨hfrom, u, hu, hfinal⟩ := h.led_from c hc
  unfold waysFrom at hways
  simp only [hu] at hways
  split_ifs at hways with hlink
  · obtain ⟨source, hs, arc, harc, htarget⟩ := Graph.exists_arc hways
    exact h.sound.goesBack_link hbase hfrom.settled hu hfinal hs harc htarget.symm hlink
      fun q hdone hq => h.sound.goesBack_predecessor hbase hdone hu hq
  · exact absurd hways (Nat.lt_irrefl 0)

end Expansion

end SpeechDecoder

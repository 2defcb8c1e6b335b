import SpeechDecoder.Proofs.Expansion.Quiet
import SpeechDecoder.Proofs.Expansion.Roster

/-!
# What is cut is not missed

The lookahead and the beam keep tokens off emitting states, and off no others.  So whatever they are,
a frame creates the same silent tokens, those that emit nothing, and has the same results; and the
next frame has tokens if it has some at all.

* `SameSilence` says in which sense the silent tokens are the same.
* `Quiet.sameSilence` reads it off the relation between two expansions.
* `silent_run` is the theorem about two expansions of a frame.
-/

namespace SpeechDecoder.Expansion

variable {g g' : Growth} {base : Store} {done done' : List Nat} {pairs : List (Nat × Nat)}
  {e e' : Expansion} {i j : Nat} {link link' : Option Nat}

/-! ## Silent tokens -/

/-- **The silent tokens of a frame,** in the order in which they were created. -/
def silent (base : Store) (e : Expansion) : List Nat :=
  (List.range' base.size (e.store.size - base.size)).filter fun id => !emits e.store id

/-- **Two expansions with the same silent tokens** under other numbers, whose order is the same.
`ρ` tells the numbers. -/
structure SameSilence (base : Store) (ρ : Nat → Nat) (e e' : Expansion) : Prop where
  old : ∀ id < base.size, ρ id = id
  ordered : ∀ i j, (i < base.size ∨ i ∈ e.silent base) → (j < base.size ∨ j ∈ e.silent base) →
    i < j → ρ i < ρ j
  silent : e'.silent base = (e.silent base).map ρ
  tokens : ∀ id ∈ e.silent base, ∀ t, e.store.get? id = some t →
    e'.store.get? (ρ id) = some { t with predecessor := t.predecessor.map ρ }
  alternates : ∀ id ∈ e.silent base,
    e'.lattice.alternates (ρ id) = (e.lattice.alternates id).map ρ
  /-- The edges into silent tokens lead to earlier frames, or to silent tokens. -/
  edges : ∀ id ∈ e.silent base, ∀ t, e.store.get? id = some t → ∀ p ∈ e.edges id t,
    p < base.size ∨ p ∈ e.silent base
  results : e'.results = e.results.map ρ
  told : e'.results.map (fun id => (e'.store.get? id).map fun t => (t.state, t.score)) =
    e.results.map fun id => (e.store.get? id).map fun t => (t.state, t.score)
  next : e.next.tokens = [] ↔ e'.next.tokens = []

theorem mem_silent (h : Sound g base done e) {id : Nat} : id ∈ e.silent base ↔
    base.size ≤ id ∧ ∃ t, e.store.get? id = some t ∧ t.kind.isEmitting = false := by
  have hle := h.size_le
  unfold silent emits
  rw [List.mem_filter, List.mem_range'_1]
  constructor
  · rintro ⟨⟨hid, hlt⟩, hsilent⟩
    have hstored : id < e.store.size := by omega
    obtain ⟨t, ht⟩ := Store.exists_get? hstored
    rw [ht] at hsilent
    exact ⟨hid, t, ht, by simpa using hsilent⟩
  · rintro ⟨hid, t, ht, hsilent⟩
    have hlt := Store.lt_size_of_get? ht
    refine ⟨⟨hid, by omega⟩, ?_⟩
    rw [ht]
    simpa using hsilent

/-- The silent tokens of one side are those in the pairs. -/
theorem silent_eq (h : Sound g base done e) {ids : List Nat} (hids : ids.Pairwise (· < ·))
    (hmem : ∀ id, id ∈ ids ↔
      base.size ≤ id ∧ ∃ t, e.store.get? id = some t ∧ t.kind.isEmitting = false) :
    e.silent base = ids := by
  refine List.Pairwise.eq_of_mem_iff (r := (· < ·)) (List.Pairwise.filter _ ?_) hids fun id => ?_
  · exact List.pairwise_lt_range'
  · exact (mem_silent h).trans (hmem id).symm

/-- **The pairs hold all silent tokens,** on both sides. -/
theorem Quiet.silent_eq (h : Quiet g g' base done done' pairs e e') (hg : g.Recut g') :
    e.silent base = pairs.map Prod.fst ∧ e'.silent base = pairs.map Prod.snd := by
  have hgraph : g'.graph = g.graph := by
    obtain ⟨phoneCut, rfl⟩ := hg
    rfl
  constructor
  · refine Expansion.silent_eq h.left.sound
      (List.pairwise_map.2 (h.paired.ordered.imp fun hxy => hxy.1)) fun id => ⟨fun hid => ?_, ?_⟩
    · obtain ⟨x, hx, rfl⟩ := List.mem_map.1 hid
      obtain ⟨t, -, ht, -, hsilent, -⟩ := h.tokens x hx
      exact ⟨(h.paired.new x hx).1, t, ht, hsilent⟩
    · rintro ⟨hid, t, ht, hsilent⟩
      obtain ⟨st, hst, hkind⟩ := h.left.sound.fits id t ht
      have hheld := h.held _ st hst (hkind ▸ hsilent)
      rw [h.left.sound.resident_of id t hid ht] at hheld
      generalize e'.resident? t.state = other at hheld
      cases hheld with
      | some hmem => exact List.mem_map.2 ⟨_, hmem, rfl⟩
  · refine Expansion.silent_eq h.right.sound
      (List.pairwise_map.2 (h.paired.ordered.imp fun hxy => hxy.2)) fun id => ⟨fun hid => ?_, ?_⟩
    · obtain ⟨x, hx, rfl⟩ := List.mem_map.1 hid
      obtain ⟨t, t', -, ht', hsilent, hpart⟩ := h.tokens x hx
      obtain ⟨-, hkind, -⟩ := Store.detached_eq_iff.1 hpart.alike
      exact ⟨(h.paired.new x hx).2, t', ht', hkind ▸ hsilent⟩
    · rintro ⟨hid, t, ht, hsilent⟩
      obtain ⟨st, hst, hkind⟩ := h.right.sound.fits id t ht
      have hheld := h.held _ st (hgraph ▸ hst) (hkind ▸ hsilent)
      rw [h.right.sound.resident_of id t hid ht] at hheld
      generalize e.resident? t.state = other at hheld
      cases hheld with
      | some hmem => exact List.mem_map.2 ⟨_, hmem, rfl⟩

theorem forall₂_exists {R : Nat → Nat → Prop} {l l' : List Nat} (h : List.Forall₂ R l l') :
    ∀ i ∈ l, ∃ j, R i j := by
  induction h with
  | nil => exact fun _ hi => by cases hi
  | cons hij _ ih =>
    intro k hk
    rcases List.mem_cons.1 hk with rfl | hk
    · exact ⟨_, hij⟩
    · exact ih k hk

theorem map_eq_of_forall₂ {α : Type} {R : Nat → Nat → Prop} {f k : Nat → α} {l l' : List Nat}
    (hR : ∀ i j, R i j → k j = f i) (h : List.Forall₂ R l l') : l'.map k = l.map f := by
  induction h with
  | nil => rfl
  | cons hij _ ih => rw [List.map_cons, List.map_cons, hR _ _ hij, ih]

theorem eq_map_of_rel {ρ : Nat → Nat} {R : Nat → Nat → Prop} (hR : ∀ i j, R i j → ρ i = j)
    (h : Option.Rel R link link') : link' = link.map ρ := by
  cases h with
  | none => rfl
  | some hij => rw [Option.map_some, hR _ _ hij]

/-- **Partners have the same state and score.** -/
theorem Quiet.told (h : Quiet g g' base done done' pairs e e') (hij : Partner base pairs i j) :
    ((e'.store.get? j).map fun t => (t.state, t.score)) =
      (e.store.get? i).map fun t => (t.state, t.score) := by
  rcases hij with ⟨rfl, hi⟩ | hij
  · rw [h.left.sound.old i hi, h.right.sound.old i hi]
  · obtain ⟨t, t', ht, ht', -, hpart⟩ := h.tokens _ hij
    obtain ⟨hstate, -, hscore, -⟩ := Store.detached_eq_iff.1 hpart.alike
    rw [ht, ht', Option.map_some, Option.map_some, hstate, hscore]

/-- **The relation, told by numbers.** -/
theorem Quiet.sameSilence (h : Quiet g g' base done done' pairs e e') (hg : g.Recut g') :
    ∃ ρ, SameSilence base ρ e e' := by
  obtain ⟨hsilent, hsilent'⟩ := h.silent_eq hg
  obtain ⟨ρ, hρ⟩ : ∃ ρ : Nat → Nat, ∀ i j, Partner base pairs i j → ρ i = j := by
    refine ⟨fun i => Classical.epsilon (Partner base pairs i), fun i j hij => ?_⟩
    exact (h.paired.eq_iff (Classical.epsilon_spec ⟨j, hij⟩) hij).1 rfl
  have hmem : ∀ id ∈ e.silent base, (id, ρ id) ∈ pairs := fun id hid => by
    rw [hsilent] at hid
    obtain ⟨x, hx, rfl⟩ := List.mem_map.1 hid
    rw [hρ x.1 x.2 (.inr hx)]
    exact hx
  have hpartner : ∀ id, (id < base.size ∨ id ∈ e.silent base) → Partner base pairs id (ρ id) := by
    rintro id (hid | hid)
    · rw [hρ id id (.inl ⟨rfl, hid⟩)]
      exact .inl ⟨rfl, hid⟩
    · exact .inr (hmem id hid)
  have hkept : ∀ i j, Partner base pairs i j → i < base.size ∨ i ∈ e.silent base := by
    rintro i j (⟨-, hi⟩ | hij)
    · exact .inl hi
    · rw [hsilent]
      exact .inr (List.mem_map.2 ⟨_, hij, rfl⟩)
  have hmap : ∀ {l l' : List Nat}, List.Forall₂ (Partner base pairs) l l' → l' = l.map ρ :=
    fun hl => by simpa using map_eq_of_forall₂ (k := id) (fun i j hij => (hρ i j hij).symm) hl
  refine ⟨ρ, fun id hid => hρ id id (.inl ⟨rfl, hid⟩),
    fun i j hi hj => (h.paired.lt_iff (hpartner i hi) (hpartner j hj)).1, ?_,
    fun id hid t ht => ?_, fun id hid => hmap (h.alternates _ (hmem id hid)),
    fun id hid t ht p hp => ?_, hmap h.results, map_eq_of_forall₂ (fun _ _ => h.told) h.results,
    h.next⟩
  · rw [hsilent, hsilent', List.map_map]
    exact List.map_congr_left fun x hx => (hρ x.1 x.2 (.inr hx)).symm
  · obtain ⟨u, u', hu, hu', -, halike, hlinked⟩ := h.tokens _ (hmem id hid)
    cases ht.symm.trans hu
    rw [hu', ← eq_map_of_rel hρ hlinked]
    exact congrArg (fun v : Token => some { v with predecessor := u'.predecessor }) halike
  · obtain ⟨u, u', hu, -, -, -, hlinked⟩ := h.tokens _ (hmem id hid)
    cases ht.symm.trans hu
    rcases List.mem_append.1 hp with hp | hp
    · rw [Option.mem_toList] at hp
      rw [Option.mem_def.1 hp] at hlinked
      generalize u'.predecessor = other at hlinked
      cases hlinked with
      | some hpart => exact hkept _ _ hpart
    · obtain ⟨j, hpart⟩ := forall₂_exists (h.alternates _ (hmem id hid)) p hp
      exact hkept p j hpart

/-! ## The theorem -/

/-- **Neither the lookahead nor the beam touches what emits nothing.**  Let two expansions start from
the same store and the same seeds, with beams that have no token, and let no order of states be
checked; their windows, the weights of their penalties and what is known of these, and the margins
of their beams may be any.  Then neither is halted.  They create the same silent tokens in the same
order, but for the numbers, whose order is the same: the predecessors and the alternates are the
same under these numbers.  Their results are on the same states with the same scores, in the same
order; and one of them leaves the next frame without a token if and only if the other one does. -/
theorem silent_run (g : Growth) (phoneCut : Option PhoneCut) (base : Store) (seeds : List Nat)
    (widths widths' : BeamWidths) (lattice : Lattice) (memo memo' : PenaltyMemo)
    (hcheck : g.checkStateOrder = false) (hmargin : widths.margin ≤ .certain)
    (hmargin' : widths'.margin ≤ .certain) (hfits : Fits g.graph base) (hclosed : base.Closed)
    (hseeds : ∀ id ∈ seeds, id < base.size)
    (hfresh : ∀ id, base.size ≤ id → lattice.alternates id = []) :
    ∃ e e' ρ, (Expansion.start base (.empty widths) lattice memo).run g seeds = .ok e ∧
      (Expansion.start base (.empty widths') lattice memo').run { g with phoneCut } seeds = .ok e' ∧
      SameSilence base ρ e e' := by
  have hg : g.Recut { g with phoneCut } := ⟨phoneCut, rfl⟩
  rcases ((Quiet.start hg hfits hmargin hmargin' hfresh memo memo').run hg hcheck hclosed
    hseeds).cases with ⟨e, e', he, he', done, done', pairs, h⟩ | ⟨-, -, -, -, hno⟩
  · obtain ⟨ρ, hρ⟩ := h.sameSilence hg
    exact ⟨e, e', ρ, he, he', hρ⟩
  · exact hno.elim

end SpeechDecoder.Expansion

/-! ## An example -/

namespace SpeechDecoder.Expansion.Fork

/-- From the word on state 1 arcs lead to two phones, and after them to the final state 4. -/
def graph : Graph where
  initial := 0
  states := #[⟨.branch, 0, [.new 1 (Float32.ofBits 0xBF800000)]⟩,
    ⟨.word 0, 2, [.new 2 .certain, .new 3 (Float32.ofBits 0xBF800000), .new 4 .certain]⟩,
    .ofKind (.emitting 0), .ofKind (.emitting 1), .ofKind .final]
  initial_lt := by decide
  sound := by unfold State.Sound; decide

/-- No phone is cut. -/
def growth : Growth where
  graph := graph
  frame := 0
  keepAllTokens := false
  checkStateOrder := false
  wordMargin := .impossible
  phoneCut := none
  buildLattice := true

/-- No phone was seen in the window: all are cut, if there is a threshold. -/
def phoneCut : PhoneCut := ⟨[.blank 0 2], Float32.ofBits 0x3F800000⟩

def base : Store := Store.empty.push (.seed 0 .branch 0)

/-- No score is further than 100 from the best one. -/
def widths : BeamWidths := ⟨0, Float32.ofBits 0xC2C80000⟩

theorem fits : Fits graph base := by
  refine fits_single ?_ 0
  exact ⟨_, rfl, rfl⟩

theorem closed : base.Closed := by
  intro id t p ht hp
  obtain ⟨-, rfl⟩ := Store.eq_of_get?_single ht
  cases hp

end SpeechDecoder.Expansion.Fork

namespace SpeechDecoder.Expansion

/-- Without the lookahead two tokens wait for the next frame, and the final token is number 4.  The
lookahead cuts the second phone, and the final token is number 3. -/
theorem silent_run_fork : ∃ e e' ρ,
    (Expansion.start Fork.base (.empty Fork.widths) (.empty 4) .empty).run Fork.growth [0] = .ok e ∧
    (Expansion.start Fork.base (.empty Fork.widths) (.empty 4) .empty).run
      { Fork.growth with phoneCut := some Fork.phoneCut } [0] = .ok e' ∧
    SameSilence Fork.base ρ e e' ∧ e.next.tokens = [2, 3] ∧ e'.next.tokens = [2] ∧
    e.results = [4] ∧ ρ 1 = 1 ∧ ρ 4 = 3 := by
  obtain ⟨e, e', ρ, he, he', h⟩ := silent_run Fork.growth (some Fork.phoneCut) Fork.base [0]
    Fork.widths Fork.widths (.empty 4) .empty .empty rfl (by decide) (by decide) Fork.fits
    Fork.closed (by decide) fun _ _ => rfl
  obtain ⟨x, hx, hfacts⟩ := exists_of_any (x := (Expansion.start Fork.base (.empty Fork.widths)
      (.empty 4) .empty).run Fork.growth [0])
    (p := fun e => e.next.tokens = [2, 3] ∧ e.results = [4] ∧ e.silent Fork.base = [1, 4])
    (by decide +kernel)
  obtain ⟨x', hx', hfacts'⟩ := exists_of_any (x := (Expansion.start Fork.base (.empty Fork.widths)
      (.empty 4) .empty).run { Fork.growth with phoneCut := some Fork.phoneCut } [0])
    (p := fun e => e.next.tokens = [2] ∧ e.silent Fork.base = [1, 3]) (by decide +kernel)
  cases he.symm.trans hx
  cases he'.symm.trans hx'
  obtain ⟨hnext, hresults, hsilent⟩ := of_decide_eq_true hfacts
  obtain ⟨hnext', hsilent'⟩ := of_decide_eq_true hfacts'
  have hnumbers := h.silent
  rw [hsilent, hsilent'] at hnumbers
  simp only [List.map_cons, List.map_nil, List.cons.injEq, and_true] at hnumbers
  exact ⟨e, e', ρ, he, he', h, hnext, hnext', hresults, hnumbers.1.symm, hnumbers.2.symm⟩

end SpeechDecoder.Expansion

import SpeechDecoder.Proofs.Expansion.Edges
import SpeechDecoder.Proofs.Search.Abreast
import SpeechDecoder.Proofs.Search.Threads

/-!
# How often an edge occurs

An arrival on a word is compared with the predecessor that is on the state at that time, not with
the alternates.  So an edge may occur more than once in the lattice, but no more often than there
are ways to the token from what the edge leads to: arcs from tokens that link back alike.  Where
every token is linked, these are the parallel arcs from one state to another.

* `Store.Feeds` says which tokens may have been led on to a token, and `Store.ways` counts the arcs.
* `Store.Behind` says where an edge may lead.
* `grow_counted` is what the growth of a frame leaves, with its edges accounted for.
* `Counted` is the invariant, and `edges_after` the theorem about all calls.
-/

namespace SpeechDecoder

namespace Store

variable (a : Store) (t : Token)

/-- **Whether a token may have been led on to another one:** in its own frame if it does not emit, in
the next frame that has tokens if it does, and the initial token in the first frame. -/
def Feeds (c : Nat) : Prop :=
  ∃ u ∈ a.get? c,
    if u.kind.isEmitting then
      c = 0 ∧ t.frame = 0 ∨
        u.frame < t.frame ∧ ∀ i < a.size, ∀ v ∈ a.get? i, v.frame ≤ u.frame ∨ t.frame ≤ v.frame
    else u.frame = t.frame

instance (c : Nat) : Decidable (a.Feeds t c) :=
  inferInstanceAs (Decidable (∃ u ∈ a.get? c,
    if u.kind.isEmitting then
      c = 0 ∧ t.frame = 0 ∨
        u.frame < t.frame ∧ ∀ i < a.size, ∀ v ∈ a.get? i, v.frame ≤ u.frame ∨ t.frame ≤ v.frame
    else u.frame = t.frame))

/-- **The ways to a token from `p`:** the arcs to its state from the tokens that may have been led on
to it and from which `p` is what is linked back to. -/
def ways (graph : Graph) (keepAll : Bool) (p : Nat) : Nat :=
  (((List.range a.size).filter fun c => a.Feeds t c).map
    (Expansion.waysFrom graph keepAll a t.state p)).sum

variable {a t} {a' : Store} {graph : Graph} {keepAll : Bool}

theorem Feeds.lt_size {c : Nat} (h : a.Feeds t c) : c < a.size := by
  obtain ⟨u, hu, -⟩ := h
  exact lt_size_of_get? hu

/-- The ways of some of the tokens that may have been led on. -/
theorem sum_le_ways {led : List Nat} (hnodup : led.Nodup) (hfeeds : ∀ c ∈ led, a.Feeds t c)
    (p : Nat) :
    (led.map (Expansion.waysFrom graph keepAll a t.state p)).sum ≤ a.ways t graph keepAll p := by
  have hsub : led ⊆ (List.range a.size).filter fun c => a.Feeds t c := fun c hc =>
    List.mem_filter.2 ⟨List.mem_range.2 (hfeeds c hc).lt_size, by simpa using hfeeds c hc⟩
  obtain ⟨l, hperm, hl⟩ := List.subperm_of_subset hnodup hsub
  rw [← (hperm.map (Expansion.waysFrom graph keepAll a t.state p)).sum_eq]
  exact (hl.map _).sum_le_sum fun _ _ => Nat.zero_le _

/-- Where every token is linked, only `p` itself leads on from `p`. -/
theorem ways_le_arcsBetween {p : Nat} {u : Token} (hu : a.get? p = some u) :
    a.ways t graph true p ≤ graph.arcsBetween u.state t.state := by
  have hzero : ∀ c, c ≠ p → Expansion.waysFrom graph true a t.state p c = 0 := by
    intro c hc
    unfold Expansion.waysFrom
    split
    · rfl
    · exact if_neg fun hlink => hc (Option.some.inj hlink)
  have hone : Expansion.waysFrom graph true a t.state p p = graph.arcsBetween u.state t.state := by
    unfold Expansion.waysFrom
    rw [hu]
    exact if_pos rfl
  have hsum : ∀ l : List Nat, l.Nodup →
      (l.map (Expansion.waysFrom graph true a t.state p)).sum ≤
        graph.arcsBetween u.state t.state := by
    intro l
    induction l with
    | nil => exact fun _ => Nat.zero_le _
    | cons c l ih =>
      intro hnodup
      obtain ⟨hc, hl⟩ := List.nodup_cons.1 hnodup
      rw [List.map_cons, List.sum_cons]
      by_cases hcp : c = p
      · subst hcp
        have hrest : (l.map (Expansion.waysFrom graph true a t.state c)).sum = 0 := by
          refine List.sum_eq_zero fun x hx => ?_
          obtain ⟨d, hd, rfl⟩ := List.mem_map.1 hx
          exact hzero d fun hdc => hc (hdc ▸ hd)
        rw [hone, hrest, Nat.add_zero]
      · rw [hzero c hcp, Nat.zero_add]
        exact ih hl
  exact hsum _ (List.nodup_range.filter _)

/-- Tokens of later frames take no way away. -/
theorem ways_mono (hold : ∀ i < a.size, a'.get? i = a.get? i)
    (hlater : ∀ i v, a.size ≤ i → a'.get? i = some v → t.frame ≤ v.frame) (p : Nat) :
    a.ways t graph keepAll p ≤ a'.ways t graph keepAll p := by
  have hfeeds : ∀ c, a.Feeds t c → a'.Feeds t c := by
    rintro c ⟨u, hu, hfeeds⟩
    refine ⟨u, (hold c (lt_size_of_get? hu)).trans hu, ?_⟩
    split_ifs at hfeeds ⊢
    · refine hfeeds.imp_right fun ⟨hlt, hall⟩ => ⟨hlt, fun i _ v hv => ?_⟩
      by_cases hi : i < a.size
      · exact hall i hi v ((hold i hi).symm.trans hv)
      · exact .inr (hlater i v (Nat.le_of_not_lt hi) hv)
    · exact hfeeds
  have hmem : ∀ c ∈ (List.range a.size).filter fun c => a.Feeds t c, a.Feeds t c := fun c hc => by
    simpa using (List.mem_filter.1 hc).2
  have hsame : a.ways t graph keepAll p =
      (((List.range a.size).filter fun c => a.Feeds t c).map
        (Expansion.waysFrom graph keepAll a' t.state p)).sum := by
    refine congrArg List.sum (List.map_congr_left fun c hc => ?_)
    exact (Expansion.waysFrom_congr (hold c (hmem c hc).lt_size) _ _).symm
  rw [hsame]
  exact sum_le_ways (List.nodup_range.filter _) (fun c hc => hfeeds c (hmem c hc)) p

/-! ## Where an edge leads -/

/-- **A token that an edge may lead to:** the initial one, one of an earlier frame, or one whose
state leads on, within the frame, to that of the token that the edge comes from. -/
def Behind (a : Store) (graph : Graph) (p : Nat) (t : Token) : Prop :=
  p = 0 ∨ ∃ u, a.get? p = some u ∧
    (u.frame < t.frame ∨ u.frame = t.frame ∧ Relation.TransGen graph.Passes u.state t.state)

theorem Behind.mono {p : Nat} (h : a.Behind graph p t)
    (hold : ∀ i < a.size, a'.get? i = a.get? i) : a'.Behind graph p t :=
  h.imp_right fun ⟨u, hu, hback⟩ => ⟨u, (hold p (lt_size_of_get? hu)).trans hu, hback⟩

/-! ## What a row leaves alone -/

/-- What a row does not change about a token. -/
def place (t : Token) : Nat × StateKind × Nat × Option Nat :=
  (t.state, t.kind, t.frame, t.predecessor)

theorem exists_of_place (hget : ∀ i, (a'.get? i).map place = (a.get? i).map place) {i : Nat}
    {u : Token} (hu : a.get? i = some u) : ∃ u', a'.get? i = some u' ∧ u'.state = u.state ∧
      u'.kind = u.kind ∧ u'.frame = u.frame ∧ u'.predecessor = u.predecessor := by
  have hplace := hget i
  rw [hu, Option.map_some, Option.map_eq_some_iff] at hplace
  obtain ⟨u', hu', heq⟩ := hplace
  simp only [place, Prod.mk.injEq] at heq
  exact ⟨u', hu', heq⟩

theorem Behind.congr {t' : Token} {p : Nat} (h : a.Behind graph p t)
    (hget : ∀ i, (a'.get? i).map place = (a.get? i).map place) (hstate : t'.state = t.state)
    (hframe : t'.frame = t.frame) : a'.Behind graph p t' := by
  refine h.imp_right fun ⟨u, hu, hback⟩ => ?_
  obtain ⟨u', hu', hstate', -, hframe', -⟩ := exists_of_place hget hu
  rw [← hstate, ← hframe, ← hstate', ← hframe'] at hback
  exact ⟨u', hu', hback⟩

theorem Feeds.congr {t' : Token} {c : Nat} (h : a.Feeds t c) (hsize : a'.size = a.size)
    (hget : ∀ i, (a'.get? i).map place = (a.get? i).map place) (hframe : t'.frame = t.frame) :
    a'.Feeds t' c := by
  obtain ⟨u, hu, hfeeds⟩ := h
  obtain ⟨u', hu', -, hkind, hframe', -⟩ := exists_of_place hget hu
  refine ⟨u', hu', ?_⟩
  rw [hkind, hframe', hframe]
  split_ifs at hfeeds ⊢
  · refine hfeeds.imp_right fun ⟨hlt, hall⟩ => ⟨hlt, fun i hi v' hv' => ?_⟩
    obtain ⟨v, hv, -, -, hv'', -⟩ := exists_of_place (fun i => (hget i).symm) hv'
    rw [← hv'']
    exact hall i (hsize ▸ hi) v hv
  · exact hfeeds

theorem waysFrom_of_place (hget : ∀ i, (a'.get? i).map place = (a.get? i).map place)
    (s p c : Nat) :
    Expansion.waysFrom graph keepAll a' s p c = Expansion.waysFrom graph keepAll a s p c := by
  unfold Expansion.waysFrom
  cases hu : a.get? c with
  | none =>
    have hnone := hget c
    rw [hu, Option.map_none, Option.map_eq_none_iff] at hnone
    rw [hnone]
  | some u =>
    obtain ⟨u', hu', hstate, hkind, -, hpred⟩ := exists_of_place hget hu
    have hlink : link keepAll c u' = link keepAll c u := by
      unfold link
      rw [hkind, hpred]
    simp only [hu', hstate, hlink]

/-- **The ways depend on the places of the tokens only.** -/
theorem ways_congr {t' : Token} (hsize : a'.size = a.size)
    (hget : ∀ i, (a'.get? i).map place = (a.get? i).map place) (hstate : t'.state = t.state)
    (hframe : t'.frame = t.frame) (p : Nat) :
    a'.ways t' graph keepAll p = a.ways t graph keepAll p := by
  have hfeeds : ∀ c, a'.Feeds t' c ↔ a.Feeds t c := fun c =>
    ⟨fun h => h.congr hsize.symm (fun i => (hget i).symm) hframe.symm,
      fun h => h.congr hsize hget hframe⟩
  unfold ways
  simp only [hsize, hfeeds, hstate]
  exact congrArg List.sum (List.map_congr_left fun c _ => waysFrom_of_place hget _ _ _)

end Store

namespace Search

/-! ## The growth of a frame -/

/-- **What the growth of a frame leaves,** with its edges accounted for. -/
def GrowsCounted (s s' : Search) : Prop :=
  ∃ seeds e stats, (∀ c ∈ seeds, c ∈ s.beam.tokens) ∧
    Expansion.Counted s.growth s.store seeds s.lattice e ∧ s' = { s.absorb e with stats }

variable {s s' : Search}

/-- **Growing a frame.** -/
theorem grow_counted (hfits : Expansion.Fits s.pass.graph s.store) (hnodup : s.beam.tokens.Nodup)
    (hfresh : ∀ id, s.store.size ≤ id → s.lattice.alternates id = []) :
    Outcome s.GrowsCounted
      (fun h => s.GrowsCounted h.state ∨ h.state = s ∧ ¬ ∀ id ∈ s.beam.tokens, id < s.store.size)
      s.grow := by
  refine grow_rule (fun hlost _ => .inr ⟨rfl, hlost⟩) fun hlt => ?_
  have hsub : ∀ c ∈ s.beam.worthExpanding s.store s.settings.acousticLookahead,
      c ∈ s.beam.tokens := fun _ hc => Beam.mem_worthExpanding hc
  have hseeds : (s.beam.worthExpanding s.store s.settings.acousticLookahead).Nodup := by
    unfold Beam.worthExpanding
    split_ifs <;> exact hnodup.filter _
  have hrun := (Expansion.Tallied.start (g := s.growth) hfits s.pass.widths s.memo hfresh).run
    (fun c hc => hlt c (hsub c hc)) hseeds
  refine hrun.mono (fun e he => ?_) fun h hh => ?_
  · exact ⟨_, e, _, hsub, he, rfl⟩
  · exact .inl ⟨_, h.state, s.stats, hsub, hh, rfl⟩

/-! ## The invariant -/

/-- **The edges into a token:** its predecessor and its alternates. -/
def edges (s : Search) (id : Nat) (t : Token) : List Nat :=
  t.predecessor.toList ++ s.lattice.alternates id

/-- **Every edge is accounted for:** it occurs at most as often as there are ways, and leads back.
None leads out of the initial token. -/
def Backed (s : Search) : Prop :=
  ∀ id t p, s.store.get? id = some t →
    (s.edges id t).count p ≤ s.store.ways t s.pass.graph s.settings.keepAllTokens p ∧
      (p ∈ s.edges id t → id ≠ 0 ∧ s.store.Behind s.pass.graph p t)

/-- **The invariant:** every edge is accounted for, and what waits for a row is of the last frame
that has tokens. -/
structure Counted (s : Search) : Prop where
  tidy : s.Tidy
  inOrder : s.InOrder
  distinct : s.lattice.Distinct
  beam_nodup : s.beam.tokens.Nodup
  latest : ∀ c ∈ s.beam.tokens, ∀ u, s.store.get? c = some u → u.kind.isEmitting = true ∧
    ∀ i v, s.store.get? i = some v → v.frame ≤ u.frame
  backed : s.Backed

/-- A token that is led on in a frame. -/
def Leading (s : Search) (c : Nat) (u : Token) : Prop :=
  u.kind.isEmitting = true ∧ u.frame < s.frame ∧
      (∀ i v, s.store.get? i = some v → v.frame ≤ u.frame) ∨
    c = 0 ∧ u.frame = 0 ∧ s.frame = 0

theorem Tidy.fresh (h : s.Tidy) {id : Nat} (hid : s.store.size ≤ id) :
    s.lattice.alternates id = [] :=
  h.noted.alternates_eq_nil (Nat.not_lt.2 hid)

section Grown

variable {seeds done led : List Nat} {extra : Nat → Nat → Nat} {e : Expansion}

/-- The tokens of a frame. -/
theorem frame_eq_of_new (h : Expansion.Sound s.growth s.store done e) {id : Nat} {t : Token}
    (hid : s.store.size ≤ id) (ht : e.store.get? id = some t) : t.frame = s.frame := by
  obtain ⟨c, u, source, arc, target, -, -, -, -, -, -, rfl⟩ := h.arrived id t hid ht
  rfl

/-- What was led on in a frame may have been led on to the tokens of the frame. -/
theorem feeds_of_led
    (h : Expansion.Tallied s.growth s.store seeds done s.lattice led extra e)
    (hseeds : ∀ c ∈ seeds, ∀ u, s.store.get? c = some u → s.Leading c u) {t : Token}
    (ht : t.frame = s.frame) {c : Nat} (hc : c ∈ led) : e.store.Feeds t c := by
  have hsound := h.sound
  obtain ⟨hfrom, u, hu, -⟩ := h.led_from c hc
  refine ⟨u, hu, ?_⟩
  rw [ht]
  rcases hfrom with ⟨hlt, hseed⟩ | hdone
  · rcases hseeds c hseed u (hsound.old c hlt ▸ hu) with
      ⟨hemit, hbefore, hlast⟩ | ⟨rfl, hzero, hfirst⟩
    · rw [if_pos hemit]
      refine .inr ⟨hbefore, fun i _ v hv => ?_⟩
      rcases Nat.lt_or_ge i s.store.size with hi | hi
      · exact .inl (hlast i v (hsound.old i hi ▸ hv))
      · exact .inr (frame_eq_of_new hsound hi hv).ge
    · split_ifs
      · exact .inl ⟨rfl, hfirst⟩
      · rw [hzero, hfirst]
  · obtain ⟨t', hb, ht'⟩ := hsound.chained.mem c hdone
    rw [hu] at ht'
    cases ht'
    rw [if_neg (by simp [(hsound.expanded_done c hdone u hu).1])]
    exact frame_eq_of_new hsound hb hu

/-- What a token of the frame goes back to is behind it. -/
theorem behind_of_goesBack (h : Expansion.Sound s.growth s.store done e)
    (hbefore : ∀ id t, s.store.get? id = some t → id = 0 ∨ t.frame < s.frame) {p : Nat} {t : Token}
    (ht : t.frame = s.frame) (hp : Expansion.GoesBack s.growth s.store e.store p t) :
    e.store.Behind s.pass.graph p t := by
  rcases hp with hlt | ⟨v, hv, hframe, hback⟩
  · obtain ⟨u, hu⟩ := Store.exists_get? hlt
    refine (hbefore p u hu).imp_right fun hlt' => ⟨u, (h.old p hlt).trans hu, .inl ?_⟩
    rw [ht]
    exact hlt'
  · exact .inr ⟨v, hv, .inr ⟨hframe.trans ht.symm, hback⟩⟩

end Grown

/-- **What an expansion leaves.** -/
theorem GrowsCounted.counted (hg : s.GrowsCounted s') (horder : s.InOrder) (hclosed : s.store.Closed)
    (hbeam : ∀ c ∈ s.beam.tokens, ∀ u, s.store.get? c = some u → s.Leading c u)
    (hbefore : ∀ id t, s.store.get? id = some t → id = 0 ∨ t.frame < s.frame)
    (hbacked : s.Backed) :
    s'.beam.tokens.Nodup ∧
      (∀ c ∈ s'.beam.tokens, ∀ u, s'.store.get? c = some u → u.kind.isEmitting = true ∧
        ∀ i v, s'.store.get? i = some v → v.frame ≤ u.frame) ∧ s'.Backed := by
  obtain ⟨seeds, e, stats, hsub, ⟨done, led, htally⟩, rfl⟩ := hg
  have hsound := htally.sound
  refine ⟨hsound.next_sorted.imp fun h => h.ne, fun c hc u hu => ?_, fun id t p ht => ?_⟩
  · obtain ⟨hid, t, ht, hemit⟩ := (hsound.mem_next c).1 hc
    rw [show e.store.get? c = some u from hu] at ht
    cases ht
    exact ⟨hemit, fun i v hv => (hsound.frame_le horder.frame_le hv).trans
      (frame_eq_of_new hsound hid hu).ge⟩
  · replace ht : e.store.get? id = some t := ht
    rcases Nat.lt_or_ge id s.store.size with hid | hid
    · obtain ⟨hcount, hback⟩ := hbacked id t p (hsound.old id hid ▸ ht)
      have hedges : ({ s.absorb e with stats } : Search).edges id t = s.edges id t := by
        unfold edges
        exact congrArg _ (htally.old id hid)
      rw [hedges]
      refine ⟨hcount.trans (Store.ways_mono hsound.old (fun i v hi hv => ?_) p),
        fun hp => (hback hp).imp_right fun hback => hback.mono hsound.old⟩
      rw [frame_eq_of_new hsound hi hv]
      exact horder.frame_le id t (hsound.old id hid ▸ ht)
    · have hframe := frame_eq_of_new hsound hid ht
      refine ⟨(htally.tally id t p hid ht).trans ?_, fun hp => ⟨?_, ?_⟩⟩
      · rw [Nat.add_zero]
        exact Store.sum_le_ways htally.led_nodup
          (fun c hc => feeds_of_led htally (fun c hc => hbeam c (hsub c hc)) hframe hc) p
      · have hpos := hsound.size_pos horder.threaded horder.frame_le
          (Nat.zero_lt_of_lt (Store.lt_size_of_get? ht))
        exact Nat.ne_of_gt (hpos.trans_le hid)
      · exact behind_of_goesBack hsound hbefore hframe (htally.goesBack hclosed hid ht hp)

/-- **Growing a frame** from tokens that may be led on. -/
theorem Counted.grow (htidy : s.Tidy) (horder : s.InOrder) (hdistinct : s.lattice.Distinct)
    (hnodup : s.beam.tokens.Nodup)
    (hbeam : ∀ c ∈ s.beam.tokens, ∀ u, s.store.get? c = some u → s.Leading c u)
    (hbefore : ∀ id t, s.store.get? id = some t → id = 0 ∨ t.frame < s.frame)
    (hbacked : s.Backed) :
    Outcome Counted
      (fun h => h.state.Counted ∨ h.state = s ∧ ¬ ∀ id ∈ s.beam.tokens, id < s.store.size)
      s.grow := by
  have hleft := ((htidy.grow s.lattice).left.both horder.grow).both
    (grow_counted htidy.fits hnodup fun _ hid => htidy.fresh hid)
  have hall : ∀ s', s'.Tidy → s'.InOrder → (∃ edges, s'.lattice = s.lattice.recordAll edges) →
      s.GrowsCounted s' → s'.Counted := by
    rintro s' htidy' horder' ⟨edges, hl⟩ hg
    obtain ⟨hnodup', hlatest, hbacked'⟩ :=
      hg.counted horder htidy.closed hbeam hbefore hbacked
    exact ⟨htidy', horder', hl ▸ hdistinct.recordAll, hnodup', hlatest, hbacked'⟩
  refine hleft.mono ?_ ?_
  · rintro s' ⟨⟨⟨_, habreast⟩, horder'⟩, hg⟩
    obtain ⟨edges, -, hl, -⟩ := habreast.recorded
    exact hall s' habreast.tidy horder' ⟨edges, hl⟩ hg
  · rintro err ⟨⟨⟨_, -, habreast⟩, horder'⟩, hg⟩
    obtain ⟨edges, -, hl, -⟩ := habreast.recorded
    exact hg.imp_left fun hg => hall err.state habreast.tidy horder' ⟨edges, hl⟩ hg

/-- What concerns neither the tokens nor the lattice. -/
theorem Counted.of_eq (h : s.Counted) (htidy : s'.Tidy) (horder : s'.InOrder)
    (hstore : s'.store = s.store) (hlattice : s'.lattice = s.lattice)
    (hgraph : s'.pass.graph = s.pass.graph) (hsettings : s'.settings = s.settings)
    (hbeam : s'.beam.tokens.Subperm s.beam.tokens) : s'.Counted := by
  have hnodup : s'.beam.tokens.Nodup := by
    obtain ⟨l, hperm, hl⟩ := hbeam
    exact hperm.nodup_iff.1 (hl.nodup h.beam_nodup)
  refine ⟨htidy, horder, hlattice ▸ h.distinct, hnodup, fun c hc => ?_, ?_⟩
  · rw [hstore]
    exact h.latest c (hbeam.subset hc)
  · unfold Backed edges
    rw [hstore, hlattice, hgraph, hsettings]
    exact h.backed

/-- **Scoring a frame** changes no edge. -/
theorem Counted.heard (h : s.Counted) {outcome : ScoreOutcome} {source : AcousticSource}
    {store : Store}
    (hx : s.pass.source.scoreFrame s.store s.beam.tokens = .ok (outcome, source, store)) :
    (s.heard source store).Counted := by
  have hsize := AcousticSource.size_scoreFrame hx
  have hplace := AcousticSource.map_scoreFrame hx Store.place fun row t => by simp [Store.place]
  refine ⟨(h.tidy.heard s.lattice hx).tidy, h.inOrder.heard hx, h.distinct, h.beam_nodup,
    fun c hc u' hu' => ?_, fun id t' p ht' => ?_⟩
  · obtain ⟨u, hu, -, hkind, hframe, -⟩ := Store.exists_of_place (fun i => (hplace i).symm) hu'
    obtain ⟨hemit, hlast⟩ := h.latest c hc u hu
    refine ⟨hkind ▸ hemit, fun i v' hv' => ?_⟩
    obtain ⟨v, hv, -, -, hvframe, -⟩ := Store.exists_of_place (fun i => (hplace i).symm) hv'
    rw [← hvframe, ← hframe]
    exact hlast i v hv
  · obtain ⟨t, ht, hstate, -, hframe, hpred⟩ := Store.exists_of_place (fun i => (hplace i).symm) ht'
    have hways : store.ways t' s.pass.graph s.settings.keepAllTokens p =
        s.store.ways t s.pass.graph s.settings.keepAllTokens p :=
      Store.ways_congr hsize hplace hstate.symm hframe.symm p
    have hbacked := h.backed id t p ht
    unfold edges at hbacked ⊢
    rw [hpred] at hbacked
    exact ⟨hbacked.1.trans hways.ge, fun hp => (hbacked.2 hp).imp_right fun hback =>
      hback.congr hplace hstate.symm hframe.symm⟩

/-- **One frame.** -/
theorem Counted.stepFrame (h : s.Counted) :
    Outcome (fun r => r.2.Counted) (fun h => h.state.Counted) s.stepFrame := by
  rw [stepFrame_eq]
  cases hx : s.pass.source.scoreFrame s.store s.beam.tokens with
  | error f => exact h
  | ok r =>
    obtain ⟨outcome, source, store⟩ := r
    have hheard := h.heard hx
    cases outcome with
    | exhausted => exact hheard
    | streamEnd =>
      exact hheard.of_eq ⟨hheard.tidy.selects, hheard.tidy.fits, hheard.tidy.closed,
        hheard.tidy.noted⟩ (hheard.inOrder.of_eq rfl rfl le_rfl rfl) rfl rfl rfl rfl (.refl _)
    | scored best =>
      obtain ⟨row, -, -, -, hlt, hrow⟩ := AcousticSource.scoreFrame_scored h.beam_nodup hx
      obtain ⟨beam, hprune, hsub⟩ := h.tidy.selects store s.beam fun id hid =>
        hrow.size_eq ▸ hlt id hid
      have hmoved : ((s.heard source store).moved beam).Counted :=
        hheard.of_eq ⟨hheard.tidy.selects, hheard.tidy.fits, hheard.tidy.closed,
          hheard.tidy.noted.mono (fun _ h => h) fun p hp =>
            ⟨hp.1, fun hmem => hp.2 (hsub.subset hmem)⟩⟩
          (hheard.inOrder.of_eq rfl rfl (Nat.le_succ _) rfl) rfl rfl rfl rfl hsub
      dsimp only
      rw [hprune]
      dsimp only
      split_ifs
      · exact hmoved
      · refine (Outcome.mono (Counted.grow hmoved.tidy hmoved.inOrder hmoved.distinct
          hmoved.beam_nodup (fun c hc u hu => ?_) (fun id t ht => .inr ?_) hmoved.backed)
          (fun _ h => h) ?_).map _ fun _ h => h
        · obtain ⟨hemit, hlast⟩ := hmoved.latest c hc u hu
          exact .inl ⟨hemit, Nat.lt_succ_of_le (hheard.inOrder.frame_le c u hu), hlast⟩
        · exact Nat.lt_succ_of_le (hheard.inOrder.frame_le id t ht)
        · rintro err (herr | ⟨herr, -⟩)
          · exact herr
          · exact herr ▸ hmoved

/-- **The start of an utterance.** -/
theorem Counted.begun (htidy : s.Tidy) (fastMatch : FastMatch) {seed : Token}
    (hseed : s.pass.seed = .ok seed) :
    Outcome Counted (fun h => h.state.Counted) (s.begun fastMatch seed).grow := by
  have horder := InOrder.begun fastMatch hseed
  obtain ⟨st, -, rfl⟩ := Pass.seed_eq_ok hseed
  have htokens : s.pass.seedBeam.tokens = [0] := Beam.tokens_push _ _ _
  have hget : ∀ id t, (Store.empty.push (.seed s.pass.graph.initial st.kind 0)).get? id = some t →
      id = 0 ∧ t = .seed s.pass.graph.initial st.kind 0 :=
    fun _ _ => Store.eq_of_get?_single
  refine (Counted.grow (htidy.begun fastMatch hseed) horder Lattice.distinct_clear
    (by rw [show (s.begun fastMatch _).beam.tokens = [0] from htokens]; simp) (fun c hc u hu => ?_)
    (fun id t ht => .inl (hget id t ht).1) fun id t p ht => ?_).mono (fun _ h => h) ?_
  · rw [show (s.begun fastMatch (.seed s.pass.graph.initial st.kind 0)).beam.tokens = [0] from
      htokens, List.mem_singleton] at hc
    refine .inr ⟨hc, ?_, rfl⟩
    rw [(hget c u hu).2]
    rfl
  · rw [(hget id t ht).2]
    exact ⟨Nat.zero_le _, fun hp => by cases hp⟩
  · rintro err (herr | ⟨-, hno⟩)
    · exact herr
    · refine absurd (fun id hid => ?_) hno
      rw [show (s.begun fastMatch (.seed s.pass.graph.initial st.kind 0)).beam.tokens = [0] from
        htokens, List.mem_singleton] at hid
      rw [hid]
      exact Nat.zero_lt_one

/-- **Every call keeps the edges in bounds.** -/
theorem counted_kept : Kept fun _ s => s.Counted where
  start _ s h := by
    have hforgotten : s.forgotten.Counted := by
      have hnone : ∀ id t, s.forgotten.store.get? id ≠ some t := fun id t => by
        simp [forgotten, Store.get?, Store.empty]
      exact ⟨h.tidy.forgotten, InOrder.empty rfl, Lattice.distinct_clear, h.beam_nodup,
        fun c _ u hu => absurd hu (hnone c u), fun id t p ht => absurd ht (hnone id t)⟩
    rw [start_eq]
    split
    · exact hforgotten
    · split
      · exact hforgotten
      · next seed hseed => exact Counted.begun h.tidy _ hseed
  aside _ s fastMatch memo streamEnded h :=
    h.of_eq ⟨h.tidy.selects, h.tidy.fits, h.tidy.closed, h.tidy.noted⟩
      (h.inOrder.of_eq rfl rfl le_rfl rfl) rfl rfl rfl rfl (.refl _)
  purge _ s lattice h hl := by
    have htidy := tidy_kept.purge [] s lattice h.tidy hl
    rw [h.tidy.purgeIn] at hl
    cases hl
    refine ⟨htidy, h.inOrder.of_eq rfl rfl le_rfl rfl, h.distinct.purge _, h.beam_nodup, h.latest,
      fun id t p ht => ?_⟩
    obtain ⟨hcount, hback⟩ := h.backed id t p ht
    have hle : (({ s with lattice := s.lattice.purge s.store.score } : Search).edges id t).count p ≤
        (s.edges id t).count p := by
      unfold edges
      rw [Lattice.alternates_purge h.distinct, List.count_append, List.count_append]
      exact Nat.add_le_add_left (Lattice.count_trim_le _ _ _) _
    exact ⟨hle.trans hcount, fun hp =>
      hback (List.count_pos_iff.1 ((List.count_pos_iff.2 hp).trans_le hle))⟩
  stepFrame _ s h := h.stepFrame

theorem counted_new {settings : SearchSettings} {main fastMatch : Pass} {cache : MixtureCache}
    (h : Search.new settings main fastMatch cache = .ok s) (hselects : main.pruner.Selects) :
    s.Counted := by
  obtain ⟨htidy, -⟩ := tidy_new h hselects
  obtain ⟨-, f, -, rfl⟩ := exists_of_new h
  have hnone : ∀ id t, Store.empty.get? id ≠ some t := fun id t => by
    simp [Store.get?, Store.empty]
  exact ⟨htidy, InOrder.empty rfl, Lattice.distinct_empty _, List.nodup_nil,
    fun c _ u hu => absurd hu (hnone c u), fun id t p ht => absurd ht (hnone id t)⟩

/-! ## The theorem -/

/-- No edge occurs twice. -/
def NoDuplicate (s : Search) (id : Nat) (t : Token) : Prop :=
  (s.lattice.alternates id).Nodup ∧ ∀ p, t.predecessor = some p → p ∉ s.lattice.alternates id

theorem noDuplicate_of_count {id : Nat} {t : Token} (h : ∀ p, (s.edges id t).count p ≤ 1) :
    s.NoDuplicate id t := by
  obtain ⟨-, hnodup, hdisjoint⟩ := List.nodup_append.1 (List.nodup_iff_count_le_one.2 h)
  exact ⟨hnodup, fun p hp hmem => hdisjoint p (by simp [hp]) p hmem rfl⟩

/-- **How often an edge occurs.**  After whatever calls, an edge from a token to its predecessor or
to an alternate occurs no more often than there are ways to the token from there.  So no edge occurs
twice where there is only one way from everything that is linked back to; if every token is linked,
this is so on all states to which no two arcs lead from the same state. -/
theorem edges_after {settings : SearchSettings} {main fastMatch : Pass} {cache : MixtureCache}
    {s₀ : Search} (h : Search.new settings main fastMatch cache = .ok s₀)
    (hselects : main.pruner.Selects) (calls : List Call) {id : Nat} {t : Token}
    (ht : (s₀.after calls).store.get? id = some t) :
    let s := s₀.after calls
    (∀ p, (s.edges id t).count p ≤ s.store.ways t main.graph settings.keepAllTokens p) ∧
      ((∀ p, s.store.ways t main.graph settings.keepAllTokens p ≤ 1) → s.NoDuplicate id t) ∧
      (settings.keepAllTokens = true →
        (∀ p u, s.store.get? p = some u →
          (s.edges id t).count p ≤ main.graph.arcsBetween u.state t.state) ∧
        ((∀ q, main.graph.arcsBetween q t.state ≤ 1) → s.NoDuplicate id t)) := by
  intro s
  have hcounted : s.Counted := counted_kept.after calls [] (counted_new h hselects)
  have hbuilt' : s.Built settings main := built_kept.after calls [] (new_eq_ok h).1
  have hcount : ∀ p, (s.edges id t).count p ≤
      s.store.ways t main.graph settings.keepAllTokens p := fun p => by
    have := (hcounted.backed id t p ht).1
    rwa [hbuilt'.graph, hbuilt'.settings] at this
  refine ⟨hcount, fun hone => noDuplicate_of_count fun p => (hcount p).trans (hone p),
    fun hkeep => ?_⟩
  rw [hkeep] at hcount
  have hparallel : ∀ p u, s.store.get? p = some u →
      (s.edges id t).count p ≤ main.graph.arcsBetween u.state t.state := fun p u hu =>
    (hcount p).trans (Store.ways_le_arcsBetween hu)
  refine ⟨hparallel, fun hone => noDuplicate_of_count fun p => ?_⟩
  cases hp : s.store.get? p with
  | none =>
    -- what an edge leads to is stored
    refine (Nat.le_of_eq (List.count_eq_zero.2 fun hmem => ?_)).trans (Nat.zero_le 1)
    have hlt : p < s.store.size := by
      rcases List.mem_append.1 hmem with hpred | halternate
      · exact hcounted.tidy.closed id t p ht (by simpa using hpred)
      · exact (hcounted.tidy.noted.alternates halternate).2.1
    obtain ⟨u, hu⟩ := Store.exists_get? hlt
    rw [hp] at hu
    cases hu
  | some u => exact (hparallel p u hp).trans (hone u.state)

end Search

/-! ## An example -/

namespace Junction

/-- Two branches that meet at two words.  Two arcs lead from the second branch to the first word. -/
def graph : Graph where
  initial := 0
  states := #[
    ⟨.branch, 0, [.new 1 (Float32.ofBits 0xBF800000), .new 2 (Float32.ofBits 0xC0000000)]⟩,
    ⟨.branch, 0, [.new 3 (Float32.ofBits 0xC0000000), .new 4 (Float32.ofBits 0xBF800000)]⟩,
    ⟨.branch, 0, [.new 3 (Float32.ofBits 0xC0400000), .new 3 (Float32.ofBits 0xBF000000),
      .new 4 (Float32.ofBits 0xBF800000)]⟩,
    ⟨.word 7, 2, [.new 5 .certain]⟩, ⟨.word 8, 2, [.new 5 .certain]⟩, .ofKind .final]
  initial_lt := by decide
  sound := by unfold State.Sound; decide

/-- The graph without any rows. -/
def pass : Pass where
  graph := graph
  source := .ofRows #[] false
  pruner := .byWidths
  widths := ⟨0, .impossible⟩

/-- Every token is linked, and the losing predecessors are remembered. -/
def settings : SearchSettings := { WordLoop.settings true with buildLattice := true }

/-- The search over the junction, before its first utterance. -/
def search : Search :=
  { WordLoop.search true with
    settings
    pass
    fastMatch := { (WordLoop.search true).fastMatch with pass } }

theorem search_eq : Search.new settings pass pass none = .ok search := rfl

/-- Every arc leads to a state with a greater number. -/
theorem lt_target {q : Nat} {st : State} (hst : graph.state? q = some st) {arc : Arc}
    (harc : arc ∈ st.arcs) : q < arc.target := by
  have hall : ∀ q < graph.size, ∀ st ∈ graph.state? q, ∀ arc ∈ st.arcs, q < arc.target := by
    decide +kernel
  exact hall q (Expansion.lt_size_of_state? hst) st hst arc harc

theorem arcsBetween_le (q : Nat) : graph.arcsBetween q 4 ≤ 1 := by
  rcases Nat.lt_or_ge q 6 with hq | hq
  · revert q
    decide +kernel
  · have hnone : graph.state? q = none := Array.getElem?_eq_none hq
    unfold Graph.arcsBetween
    rw [hnone]
    exact Nat.zero_le 1

end Junction

namespace Search

/-- The first arc from the second branch loses to the first branch, and the second one wins: the
edge to the second branch occurs twice, as often as there are arcs.  On the other word no edge
does. -/
theorem edges_after_junction :
    ∃ t t', (Junction.search.after [.start]).store.get? 3 = some t ∧
      (Junction.search.after [.start]).edges 3 t = [2, 2, 1] ∧
      ((Junction.search.after [.start]).edges 3 t).count 2 ≤ Junction.graph.arcsBetween 2 3 ∧
      Junction.graph.arcsBetween 2 3 = 2 ∧
      (Junction.search.after [.start]).store.get? 4 = some t' ∧
      (Junction.search.after [.start]).edges 4 t' = [1, 2] ∧
      (Junction.search.after [.start]).NoDuplicate 4 t' := by
  have hfirst : ((Junction.search.after [.start]).store.get? 3).map (fun t =>
      (t.state, (Junction.search.after [.start]).edges 3 t)) = some (3, [2, 2, 1]) := by
    decide +kernel
  have hsecond : ((Junction.search.after [.start]).store.get? 4).map (fun t =>
      (t.state, (Junction.search.after [.start]).edges 4 t)) = some (4, [1, 2]) := by
    decide +kernel
  have hbranch : ((Junction.search.after [.start]).store.get? 2).map Token.state = some 2 := by
    decide +kernel
  obtain ⟨t, ht, heq⟩ := Option.map_eq_some_iff.1 hfirst
  obtain ⟨t', ht', heq'⟩ := Option.map_eq_some_iff.1 hsecond
  obtain ⟨u, hu, hustate⟩ := Option.map_eq_some_iff.1 hbranch
  obtain ⟨hstate, hedges⟩ := Prod.mk.inj heq
  obtain ⟨hstate', hedges'⟩ := Prod.mk.inj heq'
  obtain ⟨-, -, hparallel⟩ :=
    edges_after Junction.search_eq Pruner.selects_byWidths [.start] ht
  obtain ⟨-, -, hsingle⟩ := edges_after Junction.search_eq Pruner.selects_byWidths [.start] ht'
  have hcount := (hparallel rfl).1 2 u hu
  rw [hustate, hstate] at hcount
  exact ⟨t, t', ht, hedges, hcount, by decide +kernel, ht', hedges',
    (hsingle rfl).2 fun q => hstate' ▸ Junction.arcsBetween_le q⟩

end Search

end SpeechDecoder

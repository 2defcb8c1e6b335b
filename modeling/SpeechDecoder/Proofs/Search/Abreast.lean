import SpeechDecoder.Proofs.Expansion.Remembered
import SpeechDecoder.Proofs.Search.Grow

/-!
# Searches that differ in their lattices

Nothing but a purge ever looks at the alternates.  So the frames after a purge are what they would
be without it, and the next purge has the same result: what is remembered later concerns tokens that
are new, and the scores of the alternates are final.

* `Tidy` is the invariant: an alternate is stored, and does not wait for a row.
* `Abreast` is the relation between two searches that were told apart by their lattices;
  `Abreast.stepFrames` carries it through some frames.
* `Abreast.purgeIn_eq` says that a purge before the frames does not show after one that follows them.
-/

namespace SpeechDecoder

namespace Search

/-- **The invariant:** the alternates are stored, and none of them waits for a row. -/
structure Tidy (s : Search) : Prop where
  selects : s.pass.pruner.Selects
  fits : Expansion.Fits s.pass.graph s.store
  closed : s.store.Closed
  noted : s.lattice.Over (· < s.store.size) fun p => p < s.store.size ∧ p ∉ s.beam.tokens

/-- **Two searches in the same utterance that differ in their lattices only.**  The first one stood
at `o`; the second one stood there with the lattice `l`. -/
structure Abreast (o : Search) (l : Lattice) (s s' : Search) : Prop where
  tidy : s.Tidy
  settings : s.settings = o.settings
  initial : s.initial = o.initial
  size_le : o.store.size ≤ s.store.size
  /-- What waited for no row is final. -/
  final : ∀ p < o.store.size, p ∉ o.beam.tokens →
    p ∉ s.beam.tokens ∧ s.store.get? p = o.store.get? p
  recorded : ∃ edges : List (Nat × Nat),
    (∀ x ∈ edges, o.store.size ≤ x.1 ∧ x.2 < s.store.size) ∧
      s.lattice = o.lattice.recordAll edges ∧ s' = { s with lattice := l.recordAll edges }

/-- **Two such searches that are halted.** -/
def HaltAbreast (o : Search) (l : Lattice) (h h' : Halted Search) : Prop :=
  h.error = h'.error ∧ Abreast o l h.state h'.state

variable {o s s' t t' : Search} {l l' : Lattice}

/-! ## Frames -/

theorem Tidy.abreast (h : s.Tidy) (l : Lattice) : Abreast s l s { s with lattice := l } :=
  ⟨h, rfl, rfl, le_rfl, fun _ _ hp => ⟨hp, rfl⟩, [], by simp, rfl, rfl⟩

theorem Abreast.trans (h : Abreast o l s s') (h' : Abreast s s'.lattice t t') :
    Abreast o l t t' := by
  obtain ⟨edges, hedges, hl, rfl⟩ := h.recorded
  obtain ⟨new, hnew, hl', rfl⟩ := h'.recorded
  refine ⟨h'.tidy, h'.settings.trans h.settings, h'.initial.trans h.initial,
    h.size_le.trans h'.size_le, fun p hp hwait => ?_, edges ++ new, fun x hx => ?_, ?_, ?_⟩
  · obtain ⟨hwait₁, hget₁⟩ := h.final p hp hwait
    obtain ⟨hwait₂, hget₂⟩ := h'.final p (hp.trans_le h.size_le) hwait₁
    exact ⟨hwait₂, hget₂.trans hget₁⟩
  · rcases List.mem_append.1 hx with hx | hx
    · exact ⟨(hedges x hx).1, (hedges x hx).2.trans_le h'.size_le⟩
    · exact ⟨h.size_le.trans (hnew x hx).1, (hnew x hx).2⟩
  · rw [hl', hl, Lattice.recordAll_append]
  · rw [Lattice.recordAll_append]

theorem HaltAbreast.trans (h : Abreast o l s s') {err err' : Halted Search}
    (h' : HaltAbreast s s'.lattice err err') : HaltAbreast o l err err' :=
  ⟨h'.1, h.trans h'.2⟩

/-- What does not concern the tokens and the lattice keeps the relation. -/
theorem Abreast.congr (h : Abreast o l s s') {f : Search → Search}
    (hpruner : (f s).pass.pruner = s.pass.pruner) (hgraph : (f s).pass.graph = s.pass.graph)
    (hstore : (f s).store = s.store) (hbeam : (f s).beam.tokens ⊆ s.beam.tokens)
    (hsettings : (f s).settings = s.settings) (hinitial : (f s).initial = s.initial)
    (hf : ∀ m, f { s with lattice := m } = { f s with lattice := m }) :
    Abreast o l (f s) (f s') := by
  obtain ⟨edges, hedges, hl, rfl⟩ := h.recorded
  have hlattice : (f s).lattice = s.lattice := by
    rw [show f s = { f s with lattice := s.lattice } from hf s.lattice]
  refine ⟨⟨hpruner ▸ h.tidy.selects, ?_, ?_, ?_⟩, hsettings.trans h.settings,
    hinitial.trans h.initial, hstore ▸ h.size_le, fun p hp hwait => ?_, edges,
    by rw [hstore]; exact hedges, hlattice.trans hl, hf _⟩
  · rw [hgraph, hstore]
    exact h.tidy.fits
  · rw [hstore]
    exact h.tidy.closed
  · rw [hlattice, hstore]
    exact h.tidy.noted.mono (fun _ h => h) fun p hp => ⟨hp.1, fun hmem => hp.2 (hbeam hmem)⟩
  · obtain ⟨hwait', hget⟩ := h.final p hp hwait
    exact ⟨fun hmem => hwait' (hbeam hmem), hstore ▸ hget⟩

/-- What an expansion leaves. -/
theorem Tidy.absorb (h : s.Tidy) {done : List Nat} {e e' : Expansion}
    (he : Expansion.Twins s.growth s.store done s.lattice l e e') (stats : SearchStats) :
    Abreast s l { s.absorb e with stats }
      { ({ s with lattice := l } : Search).absorb e' with stats } := by
  obtain ⟨edges, hedges, hl, rfl⟩ := he.recorded
  refine ⟨⟨h.selects, he.sound.fits, he.sound.closed h.closed, ?_⟩, rfl, rfl, he.sound.size_le,
    fun p hp _ => ⟨he.sound.settled_not_next (.inl hp), he.sound.old p hp⟩, edges,
    fun x hx => ⟨(hedges x hx).1, he.sound.settled_lt (hedges x hx).2.2⟩, hl, rfl⟩
  change e.lattice.Over (· < e.store.size) fun p => p < e.store.size ∧ p ∉ e.next.tokens
  rw [hl]
  refine (h.noted.mono (fun _ hid => hid.trans_le he.sound.size_le) fun p hp => ?_).recordAll
    fun x hx => ?_
  · exact ⟨hp.1.trans_le he.sound.size_le, he.sound.settled_not_next (.inl hp.1)⟩
  · obtain ⟨-, hlt, hs⟩ := hedges x hx
    exact ⟨hlt, he.sound.settled_lt hs, he.sound.settled_not_next hs⟩

/-- **Growing a frame.** -/
theorem Tidy.grow (h : s.Tidy) (l : Lattice) :
    Matched (Abreast s l) (HaltAbreast s l) s.grow ({ s with lattice := l } : Search).grow := by
  rw [grow_eq, grow_eq]
  dsimp only
  cases hseeds : s.beam.seeds s.store s.settings.acousticLookahead with
  | error f => exact ⟨rfl, h.abreast l⟩
  | ok seeds =>
    obtain ⟨hlt, heq⟩ := Beam.seeds_eq_ok hseeds
    have hold : ∀ id ∈ seeds, id < s.store.size :=
      fun id hid => hlt id (Beam.mem_worthExpanding (heq ▸ hid))
    have hrun := (Expansion.Twins.start (g := s.growth) h.fits s.pass.widths s.lattice l
      s.memo).run h.closed hold
    dsimp only
    rw [show ({ s with lattice := l } : Search).growth = s.growth from rfl]
    generalize Expansion.run s.growth _ seeds = x at hrun
    generalize Expansion.run s.growth _ seeds = y at hrun
    match x, y, hrun with
    | .ok e, .ok e', ⟨done, he⟩ =>
      have hcount : ({ s with lattice := l } : Search).countExpansion e' = s.countExpansion e := by
        obtain ⟨edges, -, -, rfl⟩ := he.recorded
        rfl
      have habsorb := h.absorb he (s.countExpansion e)
      rw [← hcount] at habsorb
      nth_rewrite 1 [hcount] at habsorb
      exact habsorb
    | .error err, .error err', ⟨herr, _, done, he⟩ => exact ⟨herr, h.absorb he s.stats⟩

/-- **Scoring a frame.** -/
theorem Tidy.heard (h : s.Tidy) (l : Lattice) {outcome : ScoreOutcome} {source : AcousticSource}
    {store : Store}
    (hx : s.pass.source.scoreFrame s.store s.beam.tokens = .ok (outcome, source, store)) :
    Abreast s l (s.heard source store)
      (({ s with lattice := l } : Search).heard source store) := by
  have hsize : store.size = s.store.size := AcousticSource.size_scoreFrame hx
  refine ⟨⟨h.selects, AcousticSource.fits_scoreFrame hx h.fits, ?_, ?_⟩, rfl, rfl, hsize.ge,
    fun p _ hwait => ⟨hwait, AcousticSource.get?_scoreFrame hx hwait⟩, [], by simp, rfl, rfl⟩
  · exact h.closed.congr hsize
      (AcousticSource.map_scoreFrame hx Token.predecessor fun row t => by simp)
  · exact h.noted.mono (fun _ hid => hsize ▸ hid) fun p hp => ⟨hsize ▸ hp.1, hp.2⟩

/-- **One frame.** -/
theorem Tidy.stepFrame (h : s.Tidy) (l : Lattice) :
    Matched (fun r r' => r'.1 = r.1 ∧ Abreast s l r.2 r'.2) (HaltAbreast s l) s.stepFrame
      ({ s with lattice := l } : Search).stepFrame := by
  rw [stepFrame_eq, stepFrame_eq]
  dsimp only
  cases hx : s.pass.source.scoreFrame s.store s.beam.tokens with
  | error f => exact ⟨rfl, h.abreast l⟩
  | ok r =>
    obtain ⟨outcome, source, store⟩ := r
    have hheard := h.heard l hx
    cases outcome with
    | exhausted => exact ⟨rfl, hheard⟩
    | streamEnd =>
      exact ⟨rfl, hheard.congr (f := fun s => { s with streamEnded := true }) rfl rfl rfl
        (List.Subset.refl _) rfl rfl fun _ => rfl⟩
    | scored best =>
      have hstored : ∀ id ∈ s.beam.tokens, id < store.size := by
        rcases AcousticSource.scoreFrame_eq_ok hx with ⟨-, -, hno, -⟩ | ⟨-, -, -, hlt, hsize, -⟩
        · exact absurd rfl (hno best)
        · exact fun id hid => hsize ▸ hlt id hid
      obtain ⟨beam, hprune, hsub⟩ := h.selects store s.beam hstored
      have hmoved : Abreast s l ((s.heard source store).moved beam)
          ((({ s with lattice := l } : Search).heard source store).moved beam) :=
        hheard.congr (f := fun s => s.moved beam) rfl rfl rfl hsub.subset rfl rfl fun _ => rfl
      simp only [hprune]
      rw [show ({ s with lattice := l } : Search).skipsGrowth = s.skipsGrowth from rfl]
      split
      · exact ⟨rfl, hmoved⟩
      · exact ((hmoved.tidy.grow l).mono (fun _ _ h' => hmoved.trans h')
          fun _ _ h' => h'.trans hmoved).map _ _ fun _ _ h => ⟨rfl, h⟩

theorem Abreast.lookAhead (h : Abreast o l s s') :
    Matched (Abreast o l) (HaltAbreast o l) s.lookAhead s'.lookAhead := by
  obtain ⟨edges, -, -, rfl⟩ := h.recorded
  rw [lookAhead_eq, lookAhead_eq]
  dsimp only
  cases s.fastMatch.step with
  | error err => exact ⟨rfl, h⟩
  | ok fastMatch =>
    exact h.congr (f := fun s => { s with
      fastMatch := fastMatch.dropOldest
      memo := s.memo.forget }) rfl rfl rfl (List.Subset.refl _) rfl rfl fun _ => rfl

theorem Abreast.stepFrame (h : Abreast o l s s') :
    Matched (fun r r' => r'.1 = r.1 ∧ Abreast o l r.2 r'.2) (HaltAbreast o l) s.stepFrame
      s'.stepFrame := by
  have hframe := h.tidy.stepFrame s'.lattice
  obtain ⟨edges, -, -, heq⟩ := h.recorded
  rw [show ({ s with lattice := s'.lattice } : Search) = s' by rw [heq]] at hframe
  exact hframe.mono (fun _ _ h' => ⟨h'.1, h.trans h'.2⟩) fun _ _ h' => h'.trans h

/-- **Up to so many frames,** by induction on their number. -/
theorem Abreast.stepFrames : ∀ (n : Nat) {s s' : Search}, Abreast o l s s' →
    Matched (fun r r' => r'.1 = r.1 ∧ Abreast o l r.2 r'.2) (HaltAbreast o l) (stepFrames n s)
      (stepFrames n s')
  | 0, _, _, h => ⟨rfl, h⟩
  | n + 1, s, s', h => by
    refine h.lookAhead.bind fun t t' ht => ht.stepFrame.bind ?_
    rintro ⟨done, u⟩ ⟨done', u'⟩ ⟨hdone, hu⟩
    cases hdone
    cases done
    · exact hu.stepFrames n
    · exact ⟨rfl, hu⟩

/-- What is scored after a frame is the same if it is the same after every such frame. -/
theorem Abreast.rest_eq (h : Abreast o l s s') (n : Nat)
    (hrest : ∀ t t', Abreast o l t t' → scoringsOf n t' = scoringsOf n t) :
    (match s'.stepFrame with
      | .ok (false, t') => scoringsOf n t'
      | _ => []) =
    match s.stepFrame with
      | .ok (false, t) => scoringsOf n t
      | _ => [] := by
  have hframe := h.stepFrame
  cases hx : s.stepFrame with
  | error err =>
    cases hx' : s'.stepFrame with
    | error err' => rfl
    | ok r' =>
      rw [hx, hx'] at hframe
      exact hframe.elim
  | ok r =>
    cases hx' : s'.stepFrame with
    | error err' =>
      rw [hx, hx'] at hframe
      exact hframe.elim
    | ok r' =>
      rw [hx, hx'] at hframe
      obtain ⟨done, t⟩ := r
      obtain ⟨done', t'⟩ := r'
      obtain ⟨hdone, ht⟩ := hframe
      cases hdone
      cases done
      · exact hrest t t' ht
      · rfl

/-- **The same frames are scored,** by induction on their number. -/
theorem Abreast.scoringsOf_eq : ∀ (n : Nat) {s s' : Search}, Abreast o l s s' →
    scoringsOf n s' = scoringsOf n s
  | 0, _, _, _ => rfl
  | n + 1, s, s', h => by
    have hahead := h.lookAhead
    unfold scoringsOf
    cases ha : s.lookAhead with
    | error err =>
      cases ha' : s'.lookAhead with
      | error err' => rfl
      | ok t' =>
        rw [ha, ha'] at hahead
        exact hahead.elim
    | ok t =>
      cases ha' : s'.lookAhead with
      | error err' =>
        rw [ha, ha'] at hahead
        exact hahead.elim
      | ok t' =>
        rw [ha, ha'] at hahead
        replace hahead : Abreast o l t t' := hahead
        have hscoring : t'.scoring? = t.scoring? := by
          obtain ⟨edges, -, -, rfl⟩ := hahead.recorded
          rfl
        dsimp only
        rw [hscoring]
        exact congrArg _ (hahead.rest_eq n fun u u' hu => hu.scoringsOf_eq n)

/-! ## Calls -/

/-- Nothing is left of the last utterance. -/
theorem Tidy.forgotten (h : s.Tidy) : s.forgotten.Tidy :=
  ⟨h.selects, fun id t ht => by simp [Search.forgotten, Store.get?, Store.empty] at ht,
    fun id t p ht => by simp [Search.forgotten, Store.get?, Store.empty] at ht, Lattice.over_clear⟩

/-- The start of an utterance. -/
theorem Tidy.begun (h : s.Tidy) (fastMatch : FastMatch) {seed : Token}
    (hseed : s.pass.seed = .ok seed) : (s.begun fastMatch seed).Tidy := by
  obtain ⟨st, hst, rfl⟩ := Pass.seed_eq_ok hseed
  refine ⟨h.selects, Expansion.fits_single ⟨st, hst, rfl⟩ 0, fun id t p ht hp => ?_, Lattice.over_clear⟩
  obtain ⟨-, rfl⟩ := Store.eq_of_get?_single ht
  cases hp

/-- **Every call keeps the alternates tidy.** -/
theorem tidy_kept : Kept fun _ s => s.Tidy where
  start _ s h := by
    rw [start_eq]
    split
    · exact h.forgotten
    · split
      · exact h.forgotten
      · next fastMatch _ _ seed hseed =>
        have hbegun := h.begun fastMatch hseed
        exact (hbegun.grow (s.begun fastMatch seed).lattice).left.mono
          (fun _ h => h.elim fun _ h => h.tidy) fun _ h => h.elim fun _ h => h.2.tidy
  aside _ s fastMatch memo streamEnded h := ⟨h.selects, h.fits, h.closed, h.noted⟩
  purge _ s lattice h hl := by
    rw [(h.noted.mono (fun _ h => h) fun _ h => h.1).purgeIn] at hl
    cases hl
    exact ⟨h.selects, h.fits, h.closed, h.noted.purge _⟩
  stepFrame _ s h := (h.stepFrame s.lattice).left.mono (fun _ h => h.elim fun _ h => h.2.tidy)
    fun _ h => h.elim fun _ h => h.2.tidy

theorem Tidy.after (h : s.Tidy) (calls : List Call) : (s.after calls).Tidy :=
  tidy_kept.after calls [] h

theorem Tidy.perform (h : s.Tidy) (c : Call) : (s.perform c).2.Tidy :=
  h.after [c]

/-- A search that waits for its first utterance. -/
theorem tidy_new {settings : SearchSettings} {main fastMatch : Pass} {cache : MixtureCache}
    (h : Search.new settings main fastMatch cache = .ok s) (hselects : main.pruner.Selects) :
    s.Tidy ∧ s.pass = main := by
  obtain ⟨-, f, -, rfl⟩ := exists_of_new h
  refine ⟨⟨hselects, fun id t ht => ?_, fun id t p ht => ?_, Lattice.over_empty _⟩, rfl⟩
  · simp [Store.get?, Store.empty] at ht
  · simp [Store.get?, Store.empty] at ht

theorem Tidy.purgeIn (h : s.Tidy) : s.lattice.purgeIn s.store = .ok (s.lattice.purge s.store.score) :=
  (h.noted.mono (fun _ h => h) fun _ h => h.1).purgeIn

/-- **The purge before the frames does not show** after the one that follows them. -/
theorem Abreast.purgeIn_eq (h : Abreast o (o.lattice.purge o.store.score) s s') (ho : o.Tidy) :
    s'.lattice.purgeIn s.store = s.lattice.purgeIn s.store := by
  obtain ⟨edges, hedges, hl, rfl⟩ := h.recorded
  have hpurged : ((o.lattice.purge o.store.score).recordAll edges).Over (fun _ => True)
      (· < s.store.size) :=
    ((ho.noted.purge _).mono (fun _ _ => trivial) fun _ h' => h'.1.trans_le h.size_le).recordAll
      fun x hx => ⟨trivial, (hedges x hx).2⟩
  rw [hpurged.purgeIn, h.tidy.purgeIn, hl]
  refine congrArg Except.ok (Lattice.purge_recordAll_purge (K := (· < o.store.size))
    (ho.noted.mono (fun _ h => h) fun p hp => ?_) fun x hx q hq => ?_)
  · unfold Store.score
    rw [(h.final p hp.1 hp.2).2]
  · have := (hedges x hx).1
    have := (ho.noted q hq).1
    omega

end Search

end SpeechDecoder

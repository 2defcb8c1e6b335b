import SpeechDecoder.Proofs.Beam
import SpeechDecoder.Proofs.Search.Threads

/-!
# The scores of a search

Where paths keep all their tokens, the score of a token is the score that its predecessor has, plus
the probability of an arc, plus what the rows said that were scored while the token was in the beam.
So nothing that a token copied from its predecessor has changed since.

* `heldRows` are the rows that a token was scored with.
* `Accounted` is the invariant about the tokens, `Poised` the one about the beam: its tokens have no
  successors yet, so that they may still be scored.
-/

namespace SpeechDecoder

/-- **The rows that a token was scored with.** -/
def heldRows (log : List Scoring) (id : Nat) : List Nat :=
  (log.filter fun x => decide (id ∈ x.tokens)).map Scoring.row

/-- What some rows of a table say about a phone. -/
def likelihoods (rows : Array (Array Score)) (p : Nat) (held : List Nat) : List Score :=
  held.map fun r => AcousticSource.likelihood (rows[r]?.getD #[]) p

/-- What some rows of a table add to a token on a state of a kind. -/
def StateKind.charges (kind : StateKind) (rows : Array (Array Score)) (held : List Nat) :
    List Score :=
  match kind.phone? with
  | some p => likelihoods rows p held
  | none => []

/-- **A token whose score is that of its predecessor,** an arc and the rows that it was scored
with. -/
def EarnedFrom (pass : Pass) (a : Store) (held : List Nat) (t : Token) (p : Nat) : Prop :=
  ∃ u source arc, a.get? p = some u ∧ pass.graph.state? u.state = some source ∧
    arc ∈ source.arcs ∧ arc.target = t.state ∧ t.insertion = arc.insertion ∧
    t.language = arc.language ∧
    t.score = (t.kind.charges pass.source.rows held).foldl (· + ·) (u.score + arc.probability) ∧
    t.acoustic = (t.kind.charges pass.source.rows held).getLastD .certain

section Rows

variable {log : List Scoring} {id : Nat}

theorem heldRows_append (x : Scoring) :
    heldRows (log ++ [x]) id = heldRows log id ++ if id ∈ x.tokens then [x.row] else [] := by
  unfold heldRows
  by_cases hx : id ∈ x.tokens <;> simp [List.filter_append, hx]

theorem heldRows_eq_nil (h : ∀ x ∈ log, id ∉ x.tokens) : heldRows log id = [] := by
  unfold heldRows
  rw [List.filter_eq_nil_iff.2 fun x hx => by simpa using h x hx, List.map_nil]

theorem StateKind.charges_nil (kind : StateKind) (rows : Array (Array Score)) :
    kind.charges rows [] = [] := by
  unfold charges
  split <;> rfl

theorem StateKind.charges_append {kind : StateKind} {p : Nat} (hk : kind.phone? = some p)
    {rows : Array (Array Score)} {row : Array Score} {r : Nat} (hr : rows[r]? = some row)
    (held : List Nat) :
    kind.charges rows (held ++ [r]) =
      kind.charges rows held ++ [AcousticSource.likelihood row p] := by
  simp [charges, hk, likelihoods, hr]

end Rows

namespace Search

/-- **What a search can account for:** the scores of its tokens. -/
structure Accounted (log : List Scoring) (s : Search) : Prop where
  keepAll : s.settings.keepAllTokens = true
  selects : s.pass.pruner.Selects
  fits : Expansion.Fits s.pass.graph s.store
  earned : ∀ id t p, s.store.get? id = some t → t.predecessor = some p →
    EarnedFrom s.pass s.store (heldRows log id) t p
  /-- A token is scored with rows that follow each other. -/
  consecutive : ∀ id, ∃ k n, heldRows log id = List.range' k n
  /-- Only emitting tokens are scored. -/
  silent : ∀ id t, s.store.get? id = some t → t.kind.isEmitting = false → heldRows log id = []
  logged : ∀ x ∈ log, x.row < s.pass.source.rows.size ∧ ∀ id ∈ x.tokens, id < s.store.size
  once : s.settings.skipInterval = 0 → ∀ id, (heldRows log id).length ≤ 1

/-- **A beam whose tokens may still be scored.**  After a start that failed the store is empty. -/
structure Poised (log : List Scoring) (s : Search) : Prop where
  nodup : s.beam.tokens.Nodup
  stored : s.store.size = 0 ∨ ∀ id ∈ s.beam.tokens, id < s.store.size
  emitting : ∀ id ∈ s.beam.tokens, ∀ t, s.store.get? id = some t → t.kind.isEmitting = true
  childless : ∀ id ∈ s.beam.tokens, ∀ x t, s.store.get? x = some t → t.predecessor ≠ some id
  /-- The rows of a token in the beam lead up to the next one. -/
  current : ∀ id ∈ s.beam.tokens, id < s.store.size →
    ∃ k n, heldRows log id = List.range' k n ∧ k + n = s.pass.source.cursor
  fresh : s.settings.skipInterval = 0 → ∀ id ∈ s.beam.tokens, heldRows log id = []

variable {log : List Scoring} {s s' : Search}

/-! ## Growing a frame -/

theorem Accounted.heldRows_eq_nil (h : s.Accounted log) {id : Nat} (hid : s.store.size ≤ id) :
    heldRows log id = [] :=
  SpeechDecoder.heldRows_eq_nil fun x hx hmem => by
    have := (h.logged x hx).2 id hmem
    omega

/-- What arrived in a frame links back to a settled token if all tokens are kept. -/
theorem Accounted.arrived (h : s.Accounted log) {done : List Nat} {a : Store} {t : Token}
    (ht : Expansion.Arrived s.growth s.store done a t) :
    ∃ c u source arc, Expansion.Settled s.store done c ∧ t.predecessor = some c ∧
      a.get? c = some u ∧ s.pass.graph.state? u.state = some source ∧ arc ∈ source.arcs ∧
      arc.target = t.state ∧ t.insertion = arc.insertion ∧ t.language = arc.language ∧
      t.score = u.score + arc.probability ∧ t.acoustic = .certain := by
  obtain ⟨c, u, source, arc, target, hc, hu, -, hs, harc, -, rfl⟩ := ht
  have hlink : Store.link s.growth.keepAllTokens c u = some c := by
    simp [Store.link, show s.growth.keepAllTokens = true from h.keepAll]
  exact ⟨c, u, source, arc, hc, hlink, hu, hs, harc, rfl, rfl, rfl, rfl, rfl⟩

/-- **Growing a frame:** new tokens take their scores from settled ones. -/
theorem Accounted.grows (h : s.Accounted log) (hg : s.Grows s') : s'.Accounted log := by
  obtain ⟨done, e, stats, hsound, rfl⟩ := hg
  refine ⟨h.keepAll, h.selects, hsound.fits, fun id t p ht hp => ?_, h.consecutive,
    fun id t ht hk => ?_, fun x hx => ?_, h.once⟩
  · rcases Nat.lt_or_ge id s.store.size with hid | hid
    · obtain ⟨u, source, arc, hu, hrest⟩ := h.earned id t p ((hsound.old id hid).symm.trans ht) hp
      exact ⟨u, source, arc, (hsound.old p (Store.lt_size_of_get? hu)).trans hu, hrest⟩
    · obtain ⟨c, u, source, arc, -, hpc, hu, hs, harc, htarget, hins, hlang, hscore, hac⟩ :=
        h.arrived (hsound.arrived id t hid ht)
      rw [hp] at hpc
      cases hpc
      rw [h.heldRows_eq_nil hid]
      refine ⟨u, source, arc, hu, hs, harc, htarget, hins, hlang, ?_, ?_⟩
      · rw [StateKind.charges_nil, hscore]
        rfl
      · rw [StateKind.charges_nil, hac]
        rfl
  · rcases Nat.lt_or_ge id s.store.size with hid | hid
    · exact h.silent id t (hsound.old id hid ▸ ht) hk
    · exact h.heldRows_eq_nil hid
  · exact ⟨(h.logged x hx).1, fun id hid => ((h.logged x hx).2 id hid).trans_le hsound.size_le⟩

/-- The beam that a frame leaves holds new tokens only, and none of them was expanded. -/
theorem Poised.grows (h : s.Accounted log) (hg : s.Grows s') : s'.Poised log := by
  obtain ⟨done, e, stats, hsound, rfl⟩ := hg
  refine ⟨hsound.next_sorted.imp Nat.ne_of_lt, .inr fun id hid => ?_, fun id hid t ht => ?_,
    fun id hid x t ht hp => ?_, fun id hid _ => ?_, fun _ id hid => ?_⟩
  all_goals obtain ⟨hnew, u, hu, hk⟩ := (hsound.mem_next id).1 hid
  · exact Store.lt_size_of_get? hu
  · rw [show e.store.get? id = some t from ht] at hu
    cases hu
    exact hk
  · rcases Nat.lt_or_ge x s.store.size with hx | hx
    · obtain ⟨v, -, -, hv, -⟩ := h.earned x t id ((hsound.old x hx).symm.trans ht) hp
      exact absurd (Store.lt_size_of_get? hv) (Nat.not_lt.2 hnew)
    · obtain ⟨c, v, -, -, hc, hpc, -⟩ := h.arrived (hsound.arrived x t hx ht)
      rw [hp] at hpc
      cases hpc
      rcases hc with hc | hc
      · exact absurd hc (Nat.not_lt.2 hnew)
      · rw [(hsound.expanded_done id hc u hu).1] at hk
        cases hk
  · exact ⟨s.pass.source.cursor, 0, by rw [h.heldRows_eq_nil hnew]; rfl, rfl⟩
  · exact h.heldRows_eq_nil hnew

/-- **The account and the beam after a frame was grown,** also if that was halted. -/
theorem Accounted.grow (h : s.Accounted log) (hstored : ∀ id ∈ s.beam.tokens, id < s.store.size) :
    Outcome (fun s' => s'.Accounted log ∧ s'.Poised log)
      (fun h => h.state.Accounted log ∧ h.state.Poised log) s.grow := by
  refine (grow_outcome h.fits).mono (fun s' hg => ⟨h.grows hg, Poised.grows h hg⟩) ?_
  rintro ⟨err, s'⟩ (hg | ⟨-, hno⟩)
  · exact ⟨h.grows hg, Poised.grows h hg⟩
  · exact absurd hstored hno

/-! ## Scoring a frame -/

/-- The account speaks of the settings, the pass and the tokens only. -/
theorem Accounted.of_eq (h : s.Accounted log) (hsettings : s'.settings = s.settings)
    (hgraph : s'.pass.graph = s.pass.graph) (hpruner : s'.pass.pruner = s.pass.pruner)
    (hrows : s'.pass.source.rows = s.pass.source.rows) (hstore : s'.store = s.store) :
    s'.Accounted log := by
  refine ⟨hsettings ▸ h.keepAll, hpruner ▸ h.selects, ?_, fun id t p ht hp => ?_, h.consecutive,
    fun id t ht => h.silent id t (hstore ▸ ht), fun x hx => ?_, hsettings ▸ h.once⟩
  · rw [hgraph, hstore]
    exact h.fits
  · have := h.earned id t p (hstore ▸ ht) hp
    simpa only [EarnedFrom, hgraph, hrows, hstore] using this
  · rw [hrows, hstore]
    exact h.logged x hx

theorem Poised.of_eq (h : s.Poised log) (hsettings : s'.settings = s.settings)
    (hsource : s'.pass.source.cursor = s.pass.source.cursor) (hstore : s'.store = s.store)
    (hbeam : s'.beam = s.beam) : s'.Poised log := by
  obtain ⟨h1, h2, h3, h4, h5, h6⟩ := h
  refine ⟨?_, ?_, ?_, ?_, ?_, ?_⟩ <;> simp only [hsettings, hsource, hstore, hbeam] <;> assumption

/-- Nothing hangs on an empty beam. -/
theorem Poised.of_nil (h : s.beam.tokens = []) : s.Poised log := by
  refine ⟨?_, .inr ?_, ?_, ?_, ?_, ?_⟩ <;> simp [h]

/-- A frame in which nothing was scored changes no token. -/
theorem Accounted.unscored (h : s.Accounted log) (hb : s.Poised log) {outcome : ScoreOutcome}
    {source : AcousticSource} {store : Store} (hno : ∀ best, outcome ≠ .scored best)
    (hx : s.pass.source.scoreFrame s.store s.beam.tokens = .ok (outcome, source, store)) :
    (s.heard source store).Accounted log ∧ (s.heard source store).Poised log := by
  obtain ⟨hstore, hrows, hcursor⟩ := AcousticSource.scoreFrame_idle hx hno hb.emitting
  refine ⟨h.of_eq rfl rfl rfl hrows hstore, ?_⟩
  rcases hcursor with hcursor | hnil
  · exact hb.of_eq rfl hcursor hstore rfl
  · exact .of_nil hnil

section Scored

variable {row : Array Score} {source : AcousticSource} {store : Store}

/-- The rows of a token of the beam, before and after the frame. -/
theorem Poised.heldRows_scored (hb : s.Poised log) (hlt : ∀ id ∈ s.beam.tokens, id < s.store.size)
    {id : Nat} (hid : id ∈ s.beam.tokens) :
    ∃ k n, heldRows log id = List.range' k n ∧
      heldRows (log ++ [⟨s.pass.source.cursor, s.beam.tokens⟩]) id = List.range' k (n + 1) ∧
      k + n = s.pass.source.cursor := by
  obtain ⟨k, n, hkn, hc⟩ := hb.current id hid (hlt id hid)
  refine ⟨k, n, hkn, ?_, hc⟩
  rw [heldRows_append, if_pos hid, hkn, List.range'_1_concat, hc]

theorem heldRows_scored_of_not_mem {beam : List Nat} {r id : Nat} (hid : id ∉ beam) :
    heldRows (log ++ [⟨r, beam⟩]) id = heldRows log id := by
  rw [heldRows_append, if_neg hid, List.append_nil]

/-- **What a row adds to a token of the beam** is what its account gains.  Its predecessor is not in
the beam, so that it keeps its score. -/
theorem Accounted.earned_scored (h : s.Accounted log) (hb : s.Poised log)
    (hrow : s.pass.source.rows[s.pass.source.cursor]? = some row)
    (hheard : Store.Heard row s.beam.tokens s.store store) {x p : Nat} {t' : Token}
    (ht' : store.get? x = some t') (hp : t'.predecessor = some p) :
    EarnedFrom s.pass store (heldRows (log ++ [⟨s.pass.source.cursor, s.beam.tokens⟩]) x) t' p := by
  obtain ⟨t, ht, -, -, hpred, hcase⟩ := hheard.exists_get? ht'
  rw [hpred] at hp
  obtain ⟨u, st, arc, hu, hst, harc, htarget, hins, hlang, hscore, hac⟩ := h.earned x t p ht hp
  have hpout : p ∉ s.beam.tokens := fun hpin => hb.childless p hpin x t ht hp
  refine ⟨u, st, arc, (hheard.of_not_mem p hpout).trans hu, hst, harc, ?_⟩
  rcases hcase with ⟨hxin, rfl⟩ | ⟨hxout, rfl⟩
  · obtain ⟨phone, hphone⟩ := StateKind.isEmitting_iff.1 (hb.emitting x hxin t ht)
    have hcharges := StateKind.charges_append hphone hrow (heldRows log x)
    simp only [Token.heard_state, Token.heard_kind, Token.heard_insertion, Token.heard_language]
    rw [heldRows_append, if_pos hxin]
    dsimp only
    rw [hcharges, List.foldl_concat, ← hscore, List.getLastD_concat]
    refine ⟨htarget, hins, hlang, ?_, ?_⟩ <;> simp [Token.heard, hphone, Token.scored]
  · rw [heldRows_scored_of_not_mem hxout]
    exact ⟨htarget, hins, hlang, hscore, hac⟩

/-- **The account after a scored frame:** every token of the beam is charged with the row once. -/
theorem Accounted.scored (h : s.Accounted log) (hb : s.Poised log)
    (hrow : s.pass.source.rows[s.pass.source.cursor]? = some row)
    (hlt : ∀ id ∈ s.beam.tokens, id < s.store.size)
    (hheard : Store.Heard row s.beam.tokens s.store store)
    (hrows : source.rows = s.pass.source.rows) :
    (s.heard source store).Accounted (log ++ [⟨s.pass.source.cursor, s.beam.tokens⟩]) := by
  refine ⟨h.keepAll, h.selects, fun x t' ht' => ?_, fun x t' p ht' hp => ?_, fun x => ?_,
    fun x t' ht' hk => ?_, fun x hx => ?_, fun hskip x => ?_⟩
  · obtain ⟨t, ht, hst, hk, -⟩ := hheard.exists_get? ht'
    rw [hst, hk]
    exact h.fits x t ht
  · have := h.earned_scored hb hrow hheard ht' hp
    simpa only [EarnedFrom, heard, hrows] using this
  · by_cases hx : x ∈ s.beam.tokens
    · obtain ⟨k, n, -, hkn, -⟩ := hb.heldRows_scored hlt hx
      exact ⟨k, n + 1, hkn⟩
    · rw [heldRows_scored_of_not_mem hx]
      exact h.consecutive x
  · obtain ⟨t, ht, -, hkind, -⟩ := hheard.exists_get? ht'
    rw [hkind] at hk
    have hxout : x ∉ s.beam.tokens := fun hxin => by
      rw [hb.emitting x hxin t ht] at hk
      cases hk
    rw [heldRows_scored_of_not_mem hxout]
    exact h.silent x t ht hk
  · dsimp only [heard]
    rw [hrows, hheard.size_eq]
    rcases List.mem_append.1 hx with hx | hx
    · exact h.logged x hx
    · rw [List.mem_singleton] at hx
      subst hx
      exact ⟨(Array.getElem?_eq_some_iff.1 hrow).1, hlt⟩
  · by_cases hx : x ∈ s.beam.tokens
    · rw [heldRows_append, if_pos hx, hb.fresh hskip x hx]
      simp
    · rw [heldRows_scored_of_not_mem hx]
      exact h.once hskip x

/-- **A beam that is kept for another row,** after it was pruned. -/
theorem Poised.scored (hb : s.Poised log) (hlt : ∀ id ∈ s.beam.tokens, id < s.store.size)
    (hheard : Store.Heard row s.beam.tokens s.store store)
    (hcursor : source.cursor = s.pass.source.cursor + 1) {beam : Beam}
    (hsub : beam.tokens.Subperm s.beam.tokens) (hskip : s.settings.skipInterval ≠ 0) :
    ((s.heard source store).moved beam).Poised
      (log ++ [⟨s.pass.source.cursor, s.beam.tokens⟩]) := by
  refine ⟨?_, .inr fun id hid => hheard.size_eq ▸ hlt id (hsub.subset hid),
    fun id hid t' ht' => ?_, fun id hid x t' ht' => ?_, fun id hid _ => ?_,
    fun h0 => absurd h0 hskip⟩
  · obtain ⟨kept, hperm, hkept⟩ := hsub
    exact hperm.nodup (hkept.nodup hb.nodup)
  · obtain ⟨t, ht, -, hkind, -⟩ := hheard.exists_get? ht'
    rw [hkind]
    exact hb.emitting id (hsub.subset hid) t ht
  · obtain ⟨t, ht, -, -, hpred, -⟩ := hheard.exists_get? ht'
    rw [hpred]
    exact hb.childless id (hsub.subset hid) x t ht
  · obtain ⟨k, n, -, hkn, hc⟩ := hb.heldRows_scored hlt (hsub.subset hid)
    refine ⟨k, n + 1, hkn, ?_⟩
    rw [show ((s.heard source store).moved beam).pass.source.cursor = source.cursor from rfl,
      hcursor, ← hc]
    rfl

end Scored

/-! ## Runs -/

/-- Nothing is to be accounted for when the last utterance is forgotten. -/
theorem Accounted.forgotten (h : s.Accounted log) : s.forgotten.Accounted [] := by
  refine ⟨h.keepAll, h.selects, fun id t ht => ?_, fun id t p ht => ?_, fun id => ⟨0, 0, rfl⟩,
    fun _ _ _ _ => rfl, fun x hx => (by cases hx), fun _ _ => Nat.zero_le _⟩ <;>
    exact absurd ht (by simp [Search.forgotten, Store.get?, Store.empty])

theorem Poised.forgotten (h : s.Poised log) : s.forgotten.Poised [] := by
  have hnone : ∀ id t, s.forgotten.store.get? id ≠ some t := fun id t => by
    simp [Search.forgotten, Store.get?, Store.empty]
  exact ⟨h.nodup, .inl rfl, fun id _ t ht => absurd ht (hnone id t),
    fun _ _ x t ht => absurd ht (hnone x t), fun id _ hid => absurd hid (Nat.not_lt_zero id),
    fun _ _ _ => rfl⟩

/-- At the start of an utterance there is only the initial token. -/
theorem Accounted.begun (h : s.Accounted log) {seed : Token} (fastMatch : FastMatch)
    (hseed : s.pass.seed = .ok seed) : (s.begun fastMatch seed).Accounted [] := by
  have horder := InOrder.begun fastMatch hseed
  refine ⟨h.keepAll, h.selects, horder.fits, fun id t p ht hp => ?_, fun id => ⟨0, 0, rfl⟩,
    fun _ _ _ _ => rfl, fun x hx => (by cases hx), fun _ _ => Nat.zero_le _⟩
  obtain ⟨st, -, rfl⟩ := Pass.seed_eq_ok hseed
  obtain ⟨-, rfl⟩ := Store.eq_of_get?_single ht
  cases hp

/-- **Every call can be accounted for.** -/
theorem accounted_kept : Kept fun log s => s.Accounted log ∧ s.Poised log where
  start log s h := by
    rw [start_eq]
    split
    · exact ⟨h.1.forgotten, h.2.forgotten⟩
    · split
      · exact ⟨h.1.forgotten, h.2.forgotten⟩
      · next seed hseed =>
        refine (h.1.begun _ hseed).grow fun id hid => ?_
        have hid : id ∈ s.pass.seedBeam.tokens := hid
        rw [Pass.seedBeam, Beam.tokens_push] at hid
        simp only [Beam.empty, List.nil_append, List.mem_singleton] at hid
        rw [hid]
        exact Nat.zero_lt_one
  aside _ _ _ _ _ h := ⟨h.1.of_eq rfl rfl rfl rfl rfl, h.2.of_eq rfl rfl rfl rfl⟩
  purge _ _ _ h _ := ⟨h.1.of_eq rfl rfl rfl rfl rfl, h.2.of_eq rfl rfl rfl rfl⟩
  stepFrame log s h := by
    rw [stepFrame_eq]
    split
    · next hx =>
      rw [show s.scoring? = none by unfold scoring?; rw [hx]]
      simpa [Outcome] using h
    · next source store hx =>
      rw [show s.scoring? = none by unfold scoring?; rw [hx]]
      simpa [Outcome] using h.1.unscored h.2 (by simp) hx
    · next source store hx =>
      obtain ⟨hacc, hpoised⟩ := h.1.unscored h.2 (by simp) hx
      rw [show s.scoring? = none by unfold scoring?; rw [hx]]
      simp only [Outcome, Option.toList_none, List.append_nil]
      exact ⟨hacc.of_eq rfl rfl rfl rfl rfl, hpoised.of_eq rfl rfl rfl rfl⟩
    · next best source store hx =>
      obtain ⟨row, hrow, hrows, hcursor, hlt, hheard⟩ :=
        AcousticSource.scoreFrame_scored h.2.nodup hx
      have hacc := h.1.scored h.2 hrow hlt hheard hrows
      have hstored : ∀ id ∈ s.beam.tokens, id < store.size :=
        fun id hid => hheard.size_eq ▸ hlt id hid
      rw [show s.scoring? = some ⟨s.pass.source.cursor, s.beam.tokens⟩ by
        unfold scoring?; rw [hx], Option.toList_some]
      obtain ⟨beam, hbeam, hsub⟩ := h.1.selects store s.beam hstored
      rw [hbeam]
      have hmoved : ((s.heard source store).moved beam).Accounted
          (log ++ [⟨s.pass.source.cursor, s.beam.tokens⟩]) := hacc.of_eq rfl rfl rfl rfl rfl
      dsimp only
      split
      · next hskip =>
        refine ⟨hmoved, h.2.scored hlt hheard hcursor hsub fun h0 => ?_⟩
        simp [skipsGrowth, h0] at hskip
      · exact (hmoved.grow fun id hid => hstored id (hsub.subset hid)).map _ fun _ h => h

/-- **Every hypothesis has the score that its path earns.**  A token other than the initial one
stands at the end of an arc from its predecessor.  If it does not emit, its score is that of the
predecessor and the arc.  If it emits, what the rows said that were scored while it was in the beam
was added after that, in their order; without skipped growth that is at most one row. -/
theorem earned_after {settings : SearchSettings} {main fastMatch : Pass} {cache : MixtureCache}
    {s₀ : Search} (h : Search.new settings main fastMatch cache = .ok s₀)
    (hkeep : settings.keepAllTokens = true) (hselects : main.pruner.Selects) (calls : List Call)
    {id : Nat} {b : Token} (hb : (s₀.after calls).store.get? id = some b)
    (hid : (s₀.after calls).initial ≠ some id) :
    let held := heldRows (s₀.scorings calls []) id
    ∃ p a source arc, b.predecessor = some p ∧ (s₀.after calls).store.get? p = some a ∧
      main.graph.state? a.state = some source ∧ arc ∈ source.arcs ∧ arc.target = b.state ∧
      (main.graph.state? b.state).map State.kind = some b.kind ∧
      b.insertion = arc.insertion ∧ b.language = arc.language ∧
      (b.kind.isEmitting = false →
        held = [] ∧ b.score = a.score + arc.probability ∧ b.acoustic = .certain) ∧
      (∀ phone, b.kind = .emitting phone →
        b.score = (likelihoods main.source.rows phone held).foldl (· + ·)
          (a.score + arc.probability) ∧
        b.acoustic = (likelihoods main.source.rows phone held).getLastD .certain) ∧
      (∃ k n, held = List.range' k n ∧ ∀ r ∈ held, r < main.source.rows.size) ∧
      (settings.skipInterval = 0 → held.length ≤ 1) := by
  obtain ⟨hbuilt, hstore, hbeam, -, -⟩ := new_eq_ok h
  have hnone : ∀ id t, s₀.store.get? id ≠ some t := fun id t => by
    simp [hstore, Store.get?, Store.empty]
  have hstart : s₀.Accounted [] ∧ s₀.Poised [] := by
    refine ⟨⟨hbuilt.settings ▸ hkeep, hbuilt.pruner ▸ hselects, fun id t ht => ?_,
      fun id t p ht => ?_, fun id => ⟨0, 0, rfl⟩, fun _ _ _ _ => rfl, fun x hx => (by cases hx),
      fun _ _ => Nat.zero_le _⟩, .of_nil (by rw [hbeam]; rfl)⟩
    · exact absurd ht (hnone id t)
    · exact absurd ht (hnone id t)
  obtain ⟨hacc, -⟩ := accounted_kept.after calls [] hstart
  have horder := inOrder_kept.after calls [] (InOrder.empty hstore)
  have hb' := built_kept.after calls [] hbuilt
  obtain ⟨p, hp⟩ : ∃ p, b.predecessor = some p := by
    cases hp : b.predecessor with
    | some p => exact ⟨p, rfl⟩
    | none =>
      have := horder.threaded.first id b hb hp
      rw [horder.initial (Nat.zero_lt_of_lt (Store.lt_size_of_get? hb)), this] at hid
      exact absurd rfl hid
  obtain ⟨a, source, arc, ha, hs, harc, htarget, hins, hlang, hscore, hac⟩ :=
    hacc.earned id b p hb hp
  obtain ⟨st, hst, hk⟩ := hacc.fits id b hb
  rw [hb'.graph] at hs hst
  rw [hb'.rows] at hscore hac
  refine ⟨p, a, source, arc, hp, ha, hs, harc, htarget, by rw [hst, hk]; rfl, hins, hlang,
    fun hk => ?_, fun phone hk => ?_, ?_, hb'.settings ▸ fun hskip => hacc.once hskip id⟩
  · have hheld := hacc.silent id b hb hk
    rw [hheld, StateKind.charges_nil] at hscore hac
    exact ⟨hheld, hscore, hac⟩
  · have hcharges : b.kind.charges main.source.rows = likelihoods main.source.rows phone := by
      rw [hk]
      rfl
    rw [hcharges] at hscore hac
    exact ⟨hscore, hac⟩
  · obtain ⟨k, n, hkn⟩ := hacc.consecutive id
    refine ⟨k, n, hkn, fun r hr => ?_⟩
    obtain ⟨x, hx, rfl⟩ := List.mem_map.1 hr
    have := (hacc.logged x (List.mem_of_mem_filter hx)).1
    rwa [hb'.rows] at this

/-- The emitting token of the word loop was charged with the first row. -/
theorem earned_after_wordLoop :
    ∃ b p a source arc, ((WordLoop.search true).after [.start, .recognize 1]).store.get? 1 = some b ∧
      ((WordLoop.search true).after [.start, .recognize 1]).store.get? p = some a ∧
      WordLoop.graph.state? a.state = some source ∧ arc ∈ source.arcs ∧
      b.score = a.score + arc.probability + Float32.ofBits 0xBF000000 := by
  obtain ⟨b, hb⟩ := Option.isSome_iff_exists.1 (show
    (((WordLoop.search true).after [.start, .recognize 1]).store.get? 1).isSome = true by
      decide +kernel)
  have hkind : (((WordLoop.search true).after [.start, .recognize 1]).store.get? 1).map Token.kind =
      some (.emitting 0) := by decide +kernel
  have hheld : heldRows ((WordLoop.search true).scorings [.start, .recognize 1] []) 1 = [0] := by
    decide +kernel
  obtain ⟨p, a, source, arc, -, ha, hs, harc, -, -, -, -, -, hemit, -⟩ :=
    earned_after (WordLoop.search_eq true) rfl Pruner.selects_byWidths [.start, .recognize 1] hb
      (by decide +kernel)
  rw [hb, Option.map_some, Option.some.injEq] at hkind
  refine ⟨b, p, a, source, arc, hb, ha, hs, harc, ?_⟩
  rw [(hemit 0 hkind).1, hheld]
  rfl

end Search

end SpeechDecoder

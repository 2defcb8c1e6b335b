import SpeechDecoder.Proofs.Expansion.Lockstep
import SpeechDecoder.Proofs.Search.Pairing
import SpeechDecoder.Proofs.Search.Threads
import SpeechDecoder.Proofs.Beam

/-!
# Searches in step with each other

How paths are kept never influences a search.  A search that keeps full paths and no lattice, and one
that is otherwise the same but keeps what it is told to, give the same answers to every list of calls
(`pairing_lockstep`), and their tokens tell the same words.  Two searches that are told different
things are both in step with that one.
-/

namespace SpeechDecoder

/-- **Settings that differ in how paths are kept only.** -/
def SearchSettings.Alike (σ σ' : SearchSettings) : Prop :=
  ∃ keepAllTokens buildLattice maxLatticeEdges,
    σ' = { σ with keepAllTokens, buildLattice, maxLatticeEdges }

namespace Search

/-- **Searches that differ in how paths are kept only.** -/
def Alike (s s' : Search) : Prop :=
  ∃ store lattice settings, s' = { s with store, lattice, settings } ∧ s.store.Alike store ∧
    s.settings.Alike settings

/-- **A search in step with one that keeps full paths** and no lattice. -/
structure Lockstep (s s' : Search) : Prop where
  alike : s.Alike s'
  full : s.settings.keepAllTokens = true
  plain : s.settings.buildLattice = false
  blind : s.pass.pruner.Blind
  fits : Expansion.Fits s.pass.graph s.store
  linked : Store.Linked s'.settings.keepAllTokens (· < s.store.size) s.store s'.store
  closed : s'.store.Closed
  within : s'.lattice.Within s'.store.size

variable {s s' : Search}

theorem Alike.growth (h : s.Alike s') : s.growth.Alike s'.growth := by
  obtain ⟨store, lattice, settings, rfl, ha, k, b, m, rfl⟩ := h
  exact ⟨k, b, rfl⟩

theorem fits_of_alike {graph : Graph} {a a' : Store} (h : a.Alike a') (ha : Expansion.Fits graph a) :
    Expansion.Fits graph a' := by
  intro id t' ht'
  have hid : id < a.size := h.size_eq ▸ Store.lt_size_of_get? ht'
  obtain ⟨t, ht⟩ := Store.exists_get? hid
  obtain ⟨v, hv, heq⟩ := h.exists_get? ht
  rw [ht'] at hv
  cases hv
  obtain ⟨hstate, hkind, -⟩ := Store.detached_eq_iff.1 heq
  rw [hstate, hkind]
  exact ha id t ht

/-- The seeds of a frame do not depend on predecessors. -/
theorem seeds_alike {a a' : Store} (h : a.Alike a') (b : Beam) (frames : Score) :
    b.seeds a' frames = b.seeds a frames := by
  have hex : Beam.extrapolated a' frames = Beam.extrapolated a frames := by
    funext id
    unfold Beam.extrapolated
    cases hg : a.get? id with
    | none => rw [h.get?_eq_none hg]
    | some t =>
      obtain ⟨t', ht', heq⟩ := h.exists_get? hg
      obtain ⟨-, -, hscore, hac, -⟩ := Store.detached_eq_iff.1 heq
      rw [ht']
      simp only [hscore, hac]
  unfold Beam.seeds Beam.worthExpanding
  rw [h.check_eq, hex, h.score_eq]

/-- What an expansion in step leaves of searches in step. -/
theorem Lockstep.absorb (h : Lockstep s s') {done : List Nat} {e e' : Expansion}
    (he : Expansion.Lockstep s.growth s'.growth s.store s'.store done e e') (stats : SearchStats) :
    Lockstep { s.absorb e with stats } { s'.absorb e' with stats } := by
  refine ⟨?_, h.full, h.plain, h.blind, he.left.fits, ?_, he.closed, he.within⟩
  · obtain ⟨store, lattice, settings, rfl, -, hsettings⟩ := h.alike
    obtain ⟨store', lattice', rfl, ha⟩ := he.alike
    exact ⟨store', lattice', settings, rfl, ha, hsettings⟩
  · exact he.linked.mono fun c hc => he.left.settled_lt hc

/-- **Growing a frame in step.** -/
theorem Lockstep.grow (h : Lockstep s s') : Matched Lockstep (HaltPair Lockstep) s.grow s'.grow := by
  obtain ⟨hstore, hbeam, hlook, hwidths, hmemo, hstats⟩ : s.store.Alike s'.store ∧
      s'.beam = s.beam ∧ s'.settings.acousticLookahead = s.settings.acousticLookahead ∧
      s'.pass.widths = s.pass.widths ∧ s'.memo = s.memo ∧ s'.stats = s.stats := by
    obtain ⟨store, lattice, settings, rfl, ha, k, b, m, rfl⟩ := h.alike
    exact ⟨ha, rfl, rfl, rfl, rfl, rfl⟩
  have hgraph : s'.growth.graph = s.growth.graph := by
    obtain ⟨k, b, hg⟩ := h.alike.growth
    rw [hg]
  rw [grow_eq, grow_eq, hbeam, hlook, seeds_alike hstore, hwidths, hmemo]
  cases hseeds : s.beam.seeds s.store s.settings.acousticLookahead with
  | error f => exact ⟨rfl, h⟩
  | ok seeds =>
    obtain ⟨hlt, heq⟩ := Beam.seeds_eq_ok hseeds
    have hstart : Expansion.Lockstep s.growth s'.growth s.store s'.store []
        (.start s.store (.empty s.pass.widths) s.lattice s.memo)
        (.start s'.store (.empty s.pass.widths) s'.lattice s.memo) :=
      ⟨.start h.fits _ _ _, .start (by rw [hgraph]; exact fits_of_alike hstore h.fits) _ _ _,
        hstore.size_eq, ⟨s'.store, s'.lattice, rfl, hstore⟩, h.linked.mono fun c hc => .inl hc,
        h.closed, h.within⟩
    have hold : ∀ id ∈ seeds, id < s.store.size :=
      fun id hid => hlt id (Beam.mem_worthExpanding (heq ▸ hid))
    have hrun := hstart.run h.alike.growth h.full hold
    dsimp only
    generalize Expansion.run s.growth _ seeds = x at hrun
    generalize Expansion.run s'.growth _ seeds = y at hrun
    match x, y, hrun with
    | .ok e, .ok e', ⟨done, he⟩ =>
      have hcount : s'.countExpansion e' = s.countExpansion e := by
        obtain ⟨store, lattice, rfl, -⟩ := he.alike
        simp only [countExpansion, hstats]
      show Lockstep { s.absorb e with stats := s.countExpansion e }
        { s'.absorb e' with stats := s'.countExpansion e' }
      rw [hcount]
      exact h.absorb he _
    | .error err, .error err', ⟨herr, done, he⟩ =>
      refine ⟨herr, ?_⟩
      have habsorb := h.absorb he s.stats
      rw [← hstats] at habsorb
      nth_rewrite 1 [hstats] at habsorb
      exact habsorb

/-- The relation does not speak of the other parts of a search. -/
theorem Lockstep.congr (h : Lockstep s s') {t t' : Search} (halike : t.Alike t')
    (hsettings : t.settings = s.settings) (hsettings' : t'.settings = s'.settings)
    (hgraph : t.pass.graph = s.pass.graph) (hpruner : t.pass.pruner = s.pass.pruner)
    (hstore : t.store = s.store) (hstore' : t'.store = s'.store)
    (hlattice' : t'.lattice = s'.lattice) : Lockstep t t' :=
  ⟨halike, hsettings ▸ h.full, hsettings ▸ h.plain, hpruner ▸ h.blind,
    by rw [hgraph, hstore]; exact h.fits, by rw [hsettings', hstore, hstore']; exact h.linked,
    by rw [hstore']; exact h.closed, by rw [hlattice', hstore']; exact h.within⟩

/-! ## Starts -/

theorem Lockstep.forgotten (h : Lockstep s s') : Lockstep s.forgotten s'.forgotten := by
  have hnone : ∀ (r : Search) id t, r.forgotten.store.get? id ≠ some t := fun r id t => by
    simp [Search.forgotten, Store.get?, Store.empty]
  refine ⟨?_, h.full, h.plain, h.blind, fun id t ht => absurd ht (hnone s id t),
    fun id t t' ht => absurd ht (hnone s id t), fun id t p ht => absurd ht (hnone s' id t),
    fun q hq => (by cases hq)⟩
  obtain ⟨store, lattice, settings, rfl, -, hsettings⟩ := h.alike
  exact ⟨.empty, lattice.clear, settings, rfl, .refl _, hsettings⟩

theorem Lockstep.begun (h : Lockstep s s') {fastMatch : FastMatch} {seed : Token}
    (hseed : s.pass.seed = .ok seed) :
    Lockstep (s.begun fastMatch seed) (s'.begun fastMatch seed) := by
  have horder := InOrder.begun fastMatch hseed
  obtain ⟨st, hst, rfl⟩ := Pass.seed_eq_ok hseed
  have hroot : ∀ id t, (Store.empty.push (.seed s.pass.graph.initial st.kind 0)).get? id = some t →
      t.predecessor = none := by
    intro id t ht
    rw [(Store.eq_of_get?_single ht).2]
    rfl
  refine ⟨?_, h.full, h.plain, h.blind, horder.fits,
    fun id t t' ht ht' => .inl ⟨hroot id t ht, hroot id t' ht'⟩, fun id t p ht hp => ?_,
    fun q hq => (by cases hq)⟩
  · obtain ⟨store, lattice, settings, rfl, -, hsettings⟩ := h.alike
    exact ⟨_, lattice.clear, settings, rfl, .refl _, hsettings⟩
  · rw [hroot id t ht] at hp
    cases hp

theorem Lockstep.start (h : Lockstep s s') : Matched Lockstep (HaltPair Lockstep) s.start s'.start := by
  obtain ⟨hfast, hpass⟩ : s'.fastMatch = s.fastMatch ∧ s'.pass = s.pass := by
    obtain ⟨store, lattice, settings, rfl, -⟩ := h.alike
    exact ⟨rfl, rfl⟩
  rw [start_eq, start_eq, hfast, hpass]
  cases s.fastMatch.reset with
  | error err => exact ⟨rfl, h.forgotten⟩
  | ok fastMatch =>
    cases hseed : s.pass.seed with
    | error err => exact ⟨rfl, h.forgotten⟩
    | ok seed => exact (h.begun hseed).grow

/-! ## Frames -/

/-- **Scoring a frame in step.** -/
theorem Lockstep.heard (h : Lockstep s s') {outcome : ScoreOutcome} {source : AcousticSource}
    {store store' : Store} (hstore : store.Alike store')
    (hx : s.pass.source.scoreFrame s.store s.beam.tokens = .ok (outcome, source, store))
    (hx' : s.pass.source.scoreFrame s'.store s.beam.tokens = .ok (outcome, source, store')) :
    Lockstep (s.heard source store) (s'.heard source store') := by
  have hsize := AcousticSource.size_scoreFrame hx
  have hsize' := AcousticSource.size_scoreFrame hx'
  have hpred := AcousticSource.map_scoreFrame hx Token.predecessor fun row t => by simp
  have hpred' := AcousticSource.map_scoreFrame hx' Token.predecessor fun row t => by simp
  have hkind' := AcousticSource.map_scoreFrame hx' (fun t => (t.kind, t.predecessor))
    fun row t => by simp
  have hplace := AcousticSource.map_scoreFrame hx (fun t => (t.state, t.kind)) fun row t => by simp
  refine ⟨?_, h.full, h.plain, h.blind, fun id t ht => ?_, ?_, h.closed.congr hsize' hpred', ?_⟩
  · obtain ⟨store₀, lattice, settings, rfl, -, hsettings⟩ := h.alike
    exact ⟨store', lattice, settings, rfl, hstore, hsettings⟩
  · have hid := hplace id
    rw [show store.get? id = some t from ht, Option.map_some, eq_comm,
      Option.map_eq_some_iff] at hid
    obtain ⟨u, hu, heq⟩ := hid
    obtain ⟨hst, hk⟩ := Prod.mk.inj heq
    rw [← hst, ← hk]
    exact h.fits id u hu
  · exact (h.linked.congr hpred hkind').mono fun c hc => hsize ▸ hc
  · exact h.within.mono hsize'.ge

/-- **A frame in step.** -/
theorem Lockstep.stepFrame (h : Lockstep s s') :
    Matched (SamePair Lockstep) (HaltPair Lockstep) s.stepFrame s'.stepFrame := by
  obtain ⟨hstore, hpass, hbeam, hframe, hskip⟩ : s.store.Alike s'.store ∧ s'.pass = s.pass ∧
      s'.beam = s.beam ∧ s'.frame = s.frame ∧ s'.skipsGrowth = s.skipsGrowth := by
    obtain ⟨store, lattice, settings, rfl, ha, k, b, m, rfl⟩ := h.alike
    exact ⟨ha, rfl, rfl, rfl, rfl⟩
  rw [stepFrame_eq, stepFrame_eq, hpass, hbeam, hframe, hskip]
  have hscore := s.pass.source.scoreFrame_alike s.beam.tokens hstore
  cases hx : s.pass.source.scoreFrame s.store s.beam.tokens with
  | error f =>
    cases hx' : s.pass.source.scoreFrame s'.store s.beam.tokens with
    | error f' =>
      rw [hx, hx'] at hscore
      have hf : f' = f := hscore
      rw [hf]
      exact ⟨rfl, h⟩
    | ok r' =>
      rw [hx, hx'] at hscore
      exact hscore.elim
  | ok r =>
    cases hx' : s.pass.source.scoreFrame s'.store s.beam.tokens with
    | error f' =>
      rw [hx, hx'] at hscore
      exact hscore.elim
    | ok r' =>
      rw [hx, hx'] at hscore
      obtain ⟨outcome, source, store⟩ := r
      obtain ⟨outcome', source', store'⟩ := r'
      obtain ⟨hout, hsource, halike⟩ := hscore
      dsimp only at hout hsource halike
      subst hout hsource
      have hheard := h.heard halike hx hx'
      cases outcome' with
      | exhausted => exact ⟨rfl, hheard⟩
      | streamEnd =>
        refine ⟨rfl, hheard.congr ?_ rfl rfl rfl rfl rfl rfl rfl⟩
        obtain ⟨store₀, lattice, settings, heq, ha, hsettings⟩ := hheard.alike
        rw [heq]
        exact ⟨store₀, lattice, settings, rfl, ha, hsettings⟩
      | scored best =>
        dsimp only
        rw [h.blind store store' s.beam halike]
        cases s.pass.pruner store s.beam with
        | error f => exact ⟨rfl, hheard⟩
        | ok beam =>
          have hmoved : Lockstep ((s.heard source' store).moved beam)
              ((s'.heard source' store').moved beam) := by
            refine hheard.congr ?_ rfl rfl rfl rfl rfl rfl rfl
            obtain ⟨store₀, lattice, settings, heq, ha, hsettings⟩ := hheard.alike
            rw [heq]
            exact ⟨store₀, lattice, settings, rfl, ha, hsettings⟩
          dsimp only
          split
          · exact ⟨rfl, hmoved⟩
          · exact hmoved.grow.map _ _ fun _ _ h => ⟨rfl, h⟩

theorem Lockstep.lookAhead (h : Lockstep s s') :
    Matched Lockstep (HaltPair Lockstep) s.lookAhead s'.lookAhead := by
  obtain ⟨store, lattice, settings, heq, ha, hsettings⟩ := h.alike
  rw [lookAhead_eq, lookAhead_eq, show s'.fastMatch = s.fastMatch by rw [heq]]
  cases s.fastMatch.step with
  | error err => exact ⟨rfl, h⟩
  | ok fastMatch =>
    refine h.congr ?_ rfl rfl rfl rfl rfl rfl rfl
    rw [heq]
    exact ⟨store, lattice, settings, rfl, ha, hsettings⟩

/-! ## Calls -/

/-- **The end of a call in step:** a purge does not fail, and changes nothing but the lattice. -/
theorem Lockstep.conclude (h : Lockstep s s') (done : Bool) (initial : Nat) :
    Matched (SamePair Lockstep) (HaltPair Lockstep) (conclude initial (done, s))
      (conclude initial (done, s')) := by
  obtain ⟨hend, hbeam, hresults, hframe⟩ : s'.streamEnded = s.streamEnded ∧ s'.beam = s.beam ∧
      s'.results = s.results ∧ s'.frame = s.frame := by
    obtain ⟨store, lattice, settings, rfl, -⟩ := h.alike
    exact ⟨rfl, rfl, rfl, rfl⟩
  unfold Search.conclude
  simp only [hend, hbeam, hresults, hframe, h.plain, h.within.over.purgeIn, Bool.false_eq_true,
    if_false]
  split
  · exact ⟨rfl, h⟩
  · split
    · refine ⟨rfl, ⟨?_, h.full, h.plain, h.blind, h.fits, h.linked, h.closed,
        (h.within.over.purge _).within⟩⟩
      obtain ⟨store, lattice, settings, rfl, ha, hsettings⟩ := h.alike
      exact ⟨store, _, settings, rfl, ha, hsettings⟩
    · exact ⟨rfl, h⟩

/-- **All calls keep two searches in step.** -/
theorem pairing_lockstep : Pairing Lockstep where
  initial s s' h := by
    obtain ⟨store, lattice, settings, rfl, -⟩ := h.alike
    rfl
  live s s' h := by
    refine h.congr ?_ rfl rfl rfl rfl rfl rfl rfl
    obtain ⟨store, lattice, settings, heq, ha, hsettings⟩ := h.alike
    rw [heq]
    exact ⟨store, lattice, settings, rfl, ha, hsettings⟩
  start s s' h := h.start
  lookAhead s s' h := h.lookAhead
  stepFrame s s' h := h.stepFrame
  conclude s s' done initial h := h.conclude done initial

/-- The same search, told to keep full paths and no lattice. -/
def keepingAll (s : Search) : Search :=
  { s with settings := { s.settings with keepAllTokens := true, buildLattice := false } }

/-- Before its first utterance a search is in step with one that keeps everything. -/
theorem Lockstep.new {settings settings' : SearchSettings} (hsettings : settings.Alike settings')
    {main fastMatch : Pass} {cache : MixtureCache} {s s' : Search}
    (h : Search.new settings main fastMatch cache = .ok s)
    (h' : Search.new settings' main fastMatch cache = .ok s') (hblind : main.pruner.Blind) :
    Lockstep s.keepingAll s' := by
  obtain ⟨hbuilt, hstore, -⟩ := new_eq_ok h
  have halike : s.keepingAll.Alike s' ∧ s'.lattice.links = [] := by
    obtain ⟨k, b, m, rfl⟩ := hsettings
    obtain ⟨-, f, hf, rfl⟩ := exists_of_new h
    obtain ⟨-, f', hf', rfl⟩ := exists_of_new h'
    cases hf.symm.trans hf'
    exact ⟨⟨.empty, .empty m, _, rfl, .refl _, k, b, m, rfl⟩, rfl⟩
  have hnone : ∀ id t, s.store.get? id ≠ some t := fun id t => by
    simp [hstore, Store.get?, Store.empty]
  have hstore' : s'.store = .empty := (new_eq_ok h').2.1
  refine ⟨halike.1, rfl, rfl, hbuilt.pruner ▸ hblind, fun id t ht => absurd ht (hnone id t),
    fun id t t' ht => absurd ht (hnone id t), fun id t p ht => ?_, fun q hq => ?_⟩
  · simp [hstore', Store.get?, Store.empty] at ht
  · rw [halike.2] at hq
    cases hq

/-- **How paths are kept never influences a search.**  Whatever two searches are asked that differ in
nothing else, they give the same answers, they stand in the same place but for the predecessors of
their tokens and for their alternates, and every token tells the same words. -/
theorem perform_eq_of_alike {settings settings' : SearchSettings}
    (hsettings : settings.Alike settings') {main fastMatch : Pass} {cache : MixtureCache}
    {s₀ s₀' : Search} (h : Search.new settings main fastMatch cache = .ok s₀)
    (h' : Search.new settings' main fastMatch cache = .ok s₀') (hblind : main.pruner.Blind)
    (calls : List Call) :
    let s := s₀.after calls
    let s' := s₀'.after calls
    (∀ c, (s'.perform c).1 = (s.perform c).1) ∧
      s' = { s with store := s'.store, lattice := s'.lattice, settings := s'.settings } ∧
      (∀ id, (s'.store.get? id).map Token.detached = (s.store.get? id).map Token.detached) ∧
      (∀ id, s'.store.wordPath id = s.store.wordPath id) ∧
      ∀ id < s.store.size, ∃ words, s.store.wordPath id = .ok words := by
  have hall := pairing_lockstep.after calls (Lockstep.new ⟨settings.keepAllTokens,
    settings.buildLattice, settings.maxLatticeEdges, rfl⟩ h h hblind)
  have hall' := pairing_lockstep.after calls (Lockstep.new hsettings h h' hblind)
  have horder : (s₀.keepingAll.after calls).InOrder :=
    inOrder_kept.after calls [] (InOrder.empty (new_eq_ok h).2.1)
  have hwords := hall.linked.wordPath_eq (by
    obtain ⟨store, lattice, σ, heq, ha, -⟩ := hall.alike
    rw [heq]
    exact ha) horder.threaded
  have hwords' := hall'.linked.wordPath_eq (by
    obtain ⟨store, lattice, σ, heq, ha, -⟩ := hall'.alike
    rw [heq]
    exact ha) horder.threaded
  obtain ⟨store, lattice, σ, heq, ha, -⟩ := hall.alike
  obtain ⟨store', lattice', σ', heq', ha', -⟩ := hall'.alike
  refine ⟨fun c => (pairing_lockstep.perform hall' c).1.trans (pairing_lockstep.perform hall c).1.symm,
    ?_, fun id => ?_,
    fun id => (hwords' id).trans (hwords id).symm, fun id hid => ?_⟩
  · rw [heq, heq']
  · rw [heq, heq']
    exact (ha'.get?_eq id).trans (ha.get?_eq id).symm
  · rw [heq] at hid
    obtain ⟨l, hl⟩ := horder.threaded.rooted id (ha.size_eq ▸ hid)
    exact ⟨_, (hwords id).trans hl.wordPath⟩

/-- In the word loop the final token tells the same words through words only as through all
tokens. -/
theorem perform_eq_of_alike_wordLoop :
    ((WordLoop.search true).after [.start, .recognize 1]).store.wordPath 6 =
        ((WordLoop.search false).after [.start, .recognize 1]).store.wordPath 6 ∧
      ((WordLoop.search true).after [.start, .recognize 1]).store ≠
        ((WordLoop.search false).after [.start, .recognize 1]).store :=
  ⟨(perform_eq_of_alike ⟨true, false, 2, rfl⟩ (WordLoop.search_eq false) (WordLoop.search_eq true)
    Pruner.blind_byWidths [.start, .recognize 1]).2.2.2.1 6, by decide +kernel⟩

end Search

end SpeechDecoder

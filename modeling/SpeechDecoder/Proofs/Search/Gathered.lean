import SpeechDecoder.Proofs.Expansion.Gathered
import SpeechDecoder.Proofs.Search.Edges
import SpeechDecoder.Proofs.Search.Order
import SpeechDecoder.Proofs.Search.Results

/-!
# The lattice of a search loses no predecessor

When a frame is grown, no alternates are recorded for tokens that are yet to be created.  So what
`edges_led` says about a frame holds of every frame that a search grows, whatever was asked before.

* `Sealed.found_growths` says how the growths of frames find the search.
* `edges_of_growth` is the theorem about a frame and about all calls.
-/

namespace SpeechDecoder.Search

open Expansion (Fits edges_led)

variable {settings : SearchSettings} {graph : Graph} {s t u : Search} {size : Nat} {fast : Pass}

/-! ## How growths find the search -/

/-- **How a growth finds a search:** only an arc to a lower order halts it, and its settings and its
graph are what they were. -/
structure Found (settings : SearchSettings) (graph : Graph) (t : Search) : Prop where
  primed : t.Primed
  settings : t.settings = settings
  graph : t.pass.graph = graph

theorem Found.grown (hs : Found settings graph s) (h : s.grown? = some t) :
    Found settings graph t := by
  unfold grown? at h
  split at h
  · next best source store hx =>
    obtain ⟨beam, hprune, hmoved⟩ := (hs.primed.heard hx).exists_pruned
    rw [show s.pass.pruner store s.beam = .ok beam from hprune] at h
    dsimp only at h
    split at h
    · cases h
    · cases h
      exact ⟨hmoved, hs.settings, hs.graph⟩
  · cases h

/-- **Up to so many frames,** by induction on their number. -/
theorem Sealed.found_turnsOf : ∀ (n : Nat) {s : Search}, s.Sealed size fast →
    ∀ t ∈ turnsOf n s, Found s.settings s.pass.graph t
  | 0, _, _, _, ht => by cases ht
  | n + 1, s, hs, t, ht => by
    unfold turnsOf at ht
    obtain ⟨next, hnext, hready⟩ := hs.ready.step
    have hahead := hs.aside hready.dropOldest s.memo.forget s.streamEnded
    rw [lookAhead_eq, hnext] at ht
    rcases List.mem_cons.1 ht with rfl | ht
    · exact ⟨hahead.primed, rfl, rfl⟩
    · split at ht
      · next v hv =>
        obtain ⟨hsettings, hgraph⟩ := (stepFrame_keeps _).of_ok hv
        obtain ⟨hprimed, hsettings', hgraph'⟩ :=
          Sealed.found_turnsOf n (hahead.stepFrame.of_ok hv) t ht
        exact ⟨hprimed, hsettings'.trans hsettings, hgraph'.trans hgraph⟩
      · cases ht

theorem Sealed.found_growthsIn (hs : s.Sealed size fast) (c : Call) :
    ∀ t ∈ s.growthsIn c, Found s.settings s.pass.graph t := by
  intro t ht
  rcases growthsIn_cases ht with ⟨f, seed, hseed, rfl⟩ | ⟨n, v, hv, hvt⟩
  · exact ⟨.begun hs.primed.tidy f hseed, rfl, rfl⟩
  · exact (Sealed.found_turnsOf n (hs.aside hs.ready s.memo false) v hv).grown hvt

/-- **Some calls,** by induction on them. -/
theorem Sealed.found_growths {main : Pass} :
    ∀ (calls : List Call) {s : Search}, s.Sealed size fast → s.Built settings main →
      ∀ t ∈ s.growths calls, Found settings main.graph t
  | [], _, _, _, _, ht => by cases ht
  | c :: calls, s, hs, hbuilt, t, ht => by
    rcases List.mem_append.1 ht with ht | ht
    · obtain ⟨hprimed, hsettings, hgraph⟩ := hs.found_growthsIn c t ht
      exact ⟨hprimed, hsettings.trans hbuilt.settings, hgraph.trans hbuilt.graph⟩
    · exact Sealed.found_growths calls (hs.perform c).2 (built_kept.after [c] [] hbuilt) t ht

/-- **What the growth of a frame leaves** is what its expansion leaves. -/
theorem Primed.grow_eq_ok (hs : s.Primed) (h : s.grow = .ok u) : ∃ e,
    (Expansion.start s.store (.empty s.pass.widths) s.lattice s.memo).run s.growth
        (s.beam.worthExpanding s.store s.settings.acousticLookahead) = .ok e ∧
      u.store = e.store ∧ u.lattice = e.lattice := by
  rw [grow_eq, Beam.seeds_of_lt hs.stored] at h
  dsimp only at h
  split at h
  · cases h
  · next e hx =>
    cases h
    exact ⟨e, hx, rfl, rfl⟩

/-! ## The theorem -/

/-- **The lattice loses no predecessor.**  Let an expansion build a lattice, start from stored seeds
and know of no alternates of tokens that are yet to be created.  If it is not halted, the edges into
a word that it created, its predecessor and its alternates, are exactly what the tokens link back to
that were led on and that have an arc to the state of the word.  So it is with every frame that is
grown in whatever calls, if the search builds a lattice. -/
theorem edges_of_growth :
    (∀ (g : Growth) (base : Store) (seeds : List Nat) (widths : BeamWidths) (lattice : Lattice)
        (memo : PenaltyMemo) (e : Expansion),
      g.buildLattice = true → Fits g.graph base → (∀ c ∈ seeds, c < base.size) →
      (∀ id, base.size ≤ id → lattice.alternates id = []) →
      (Expansion.start base (.empty widths) lattice memo).run g seeds = .ok e →
      ∀ id t, base.size ≤ id → e.store.get? id = some t → t.kind.isWord = true →
      ∀ p, p ∈ e.edges id t ↔
        ∃ c ∈ (Expansion.start base (.empty widths) lattice memo).led g seeds, ∃ u,
          e.store.get? c = some u ∧ Store.link g.keepAllTokens c u = some p ∧
            0 < g.graph.arcsBetween u.state t.state) ∧
    ∀ (settings : SearchSettings) (main fast : Pass) (cache : MixtureCache) (s₀ : Search),
      Search.new settings main fast cache = .ok s₀ → main.pruner.Selects → fast.pruner.Selects →
      settings.buildLattice = true →
      ∀ (calls : List Call) (s s' : Search), s ∈ s₀.growths calls → s.grow = .ok s' →
      ∀ id t, s.store.size ≤ id → s'.store.get? id = some t → t.kind.isWord = true →
      ∀ p, p ∈ s'.edges id t ↔
        ∃ c ∈ (Expansion.start s.store (.empty s.pass.widths) s.lattice s.memo).led s.growth
            (s.beam.worthExpanding s.store s.settings.acousticLookahead), ∃ u,
          s'.store.get? c = some u ∧ Store.link settings.keepAllTokens c u = some p ∧
            0 < main.graph.arcsBetween u.state t.state := by
  refine ⟨fun g base seeds widths lattice memo e => edges_led g base seeds widths lattice memo e,
    fun settings main fast cache s₀ h hmain hfast hbuild calls s s' hs hgrow => ?_⟩
  have hbuilt : s₀.Built settings main := by
    obtain ⟨-, f, -, rfl⟩ := exists_of_new h
    exact ⟨rfl, rfl, rfl, rfl, rfl⟩
  obtain ⟨hprimed, hsettings, hgraph⟩ := (sealed_new h hmain hfast).found_growths calls hbuilt s hs
  have hbuild' : s.growth.buildLattice = true := by
    rw [← hbuild, ← hsettings]
    rfl
  obtain ⟨e, hrun, hstore, hlattice⟩ := hprimed.grow_eq_ok hgrow
  intro id t hid ht hword p
  have hedges := edges_led s.growth s.store _ s.pass.widths s.lattice s.memo e hbuild'
    hprimed.tidy.fits (fun c hc => hprimed.stored c (Beam.mem_worthExpanding hc))
    (fun _ hc => hprimed.tidy.fresh hc) hrun id t hid (hstore ▸ ht) hword p
  unfold Search.edges
  rw [hstore, hlattice, ← hsettings, ← hgraph]
  exact hedges

/-- Two tokens are led on to the second word of the relay: the initial one, and the first word, which
comes later with a better score.  In the second frame of the word loop a word is reached by the
token that waited, and again by what it leads on itself. -/
theorem edges_of_growth_relay :
    (∃ e t, (Expansion.start Expansion.Relay.base (.empty ⟨0, .impossible⟩) (.empty 4) .empty).run
        Expansion.Relay.growth [0] = .ok e ∧
      e.store.get? 2 = some t ∧ e.edges 2 t = [1, 0] ∧
      ∀ p ∈ [1, 0], ∃ c ∈ [0, 1], ∃ u, e.store.get? c = some u ∧ Store.link false c u = some p ∧
        0 < Expansion.Relay.graph.arcsBetween u.state t.state) ∧
    ∃ s s' t, s ∈ (WordLoop.search false).growths [.start, .recognize 1] ∧ s.grow = .ok s' ∧
      s'.store.get? 6 = some t ∧ s'.edges 6 t = [0, 6] ∧
      ∀ p ∈ [0, 6], ∃ c ∈ [1, 6, 7], ∃ u, s'.store.get? c = some u ∧ Store.link false c u = some p ∧
        0 < WordLoop.graph.arcsBetween u.state t.state := by
  obtain ⟨hframe, hcalls⟩ := edges_of_growth
  constructor
  · obtain ⟨e, he, hword⟩ := exists_of_any (x := (Expansion.start Expansion.Relay.base
        (.empty ⟨0, .impossible⟩) (.empty 4) .empty).run Expansion.Relay.growth [0])
      (p := fun e => (e.store.get? 2).map (fun t => (t.kind.isWord, e.edges 2 t)) =
        some (true, [1, 0])) (by decide +kernel)
    obtain ⟨t, ht, hpair⟩ := Option.map_eq_some_iff.1 (of_decide_eq_true hword)
    obtain ⟨hword, hedges⟩ := Prod.mk.inj hpair
    have hled : (Expansion.start Expansion.Relay.base (.empty ⟨0, .impossible⟩) (.empty 4)
        .empty).led Expansion.Relay.growth [0] = [0, 1] := by decide +kernel
    have hall := hframe Expansion.Relay.growth Expansion.Relay.base [0] ⟨0, .impossible⟩ (.empty 4)
      .empty e rfl Expansion.Relay.fits (by decide) (fun _ _ => rfl) he 2 t (by decide) ht hword
    rw [hled, hedges] at hall
    exact ⟨e, t, he, ht, hedges, fun p hp => (hall p).1 hp⟩
  · obtain ⟨s, hs⟩ : ∃ s,
        ((WordLoop.search false).growths [.start, .recognize 1]).getLast? = some s :=
      Option.isSome_iff_exists.1 (by decide +kernel)
    have hok : (((WordLoop.search false).growths [.start, .recognize 1]).getLast?.any fun s =>
        s.grow.toOption.any fun s' => s.store.size = 5 ∧
          (Expansion.start s.store (.empty s.pass.widths) s.lattice s.memo).led s.growth
            (s.beam.worthExpanding s.store s.settings.acousticLookahead) = [1, 6, 7] ∧
          (s'.store.get? 6).map (fun t => (t.kind.isWord, s'.edges 6 t)) =
            some (true, [0, 6])) = true := by decide +kernel
    rw [hs, Option.any_some] at hok
    obtain ⟨s', hs', hword⟩ := exists_of_any hok
    obtain ⟨hsize, hled, hword⟩ := of_decide_eq_true hword
    obtain ⟨t, ht, hpair⟩ := Option.map_eq_some_iff.1 hword
    obtain ⟨hword, hedges⟩ := Prod.mk.inj hpair
    have hmem := List.mem_of_getLast? hs
    have hall := hcalls _ _ _ _ _ (WordLoop.search_eq false) Pruner.selects_byWidths
      Pruner.selects_byWidths rfl [.start, .recognize 1] s s' hmem hs' 6 t (by omega) ht hword
    rw [hled, hedges] at hall
    exact ⟨s, s', t, hmem, hs', ht, hedges, fun p hp => (hall p).1 hp⟩

end SpeechDecoder.Search

import SpeechDecoder.Proofs.Expansion.Frame
import SpeechDecoder.Proofs.Search.Run
import SpeechDecoder.Proofs.Search.Scoring

/-!
# Growing a frame

What the growth of a frame leaves of a search: the result of a sound expansion from its store
(`Search.Grows`), also where the expansion is halted.
-/

namespace SpeechDecoder

/-- The seeds of a frame are tokens of the beam, all of which the store holds. -/
theorem Beam.seeds_eq_ok {a : Store} {b : Beam} {frames : Score} {seeds : List Nat}
    (h : b.seeds a frames = .ok seeds) :
    (∀ id ∈ b.tokens, id < a.size) ∧ seeds = b.worthExpanding a frames :=
  a.of_check_eq_ok h

/-- Only a beam with a token that the store does not hold has no seeds. -/
theorem Beam.seeds_of_lt {a : Store} {b : Beam} {frames : Score}
    (h : ∀ id ∈ b.tokens, id < a.size) : b.seeds a frames = .ok (b.worthExpanding a frames) := by
  unfold Beam.seeds
  rw [a.check_eq_ok_iff.2 h]
  rfl

theorem Beam.mem_worthExpanding {a : Store} {b : Beam} {frames : Score} {id : Nat}
    (h : id ∈ b.worthExpanding a frames) : id ∈ b.tokens := by
  unfold Beam.worthExpanding at h
  split at h
  · exact List.mem_of_mem_filter h
  · exact List.mem_of_mem_filter h

theorem Beam.worthExpanding_eq {frames : Score} (h : ¬ Score.certain < frames) (a : Store)
    (b : Beam) : b.worthExpanding a frames = b.tokens.filter fun id => b.admits (a.score id) := by
  unfold Beam.worthExpanding
  rw [if_neg h]

/-- The token that an utterance starts from stands on the initial state. -/
theorem Pass.seed_eq_ok {p : Pass} {seed : Token} (h : p.seed = .ok seed) :
    ∃ st, p.graph.state? p.graph.initial = some st ∧ seed = .seed p.graph.initial st.kind 0 := by
  unfold Pass.seed at h
  split at h
  · next st hst =>
    cases h
    exact ⟨st, hst, rfl⟩
  · cases h

/-- The initial state is one of the graph. -/
theorem Pass.exists_seed (p : Pass) : ∃ seed, p.seed = .ok seed := by
  unfold Pass.seed
  rw [show p.graph.state? p.graph.initial = some _ from
    Array.getElem?_eq_getElem p.graph.initial_lt]
  exact ⟨_, rfl⟩

namespace AcousticSource

variable {src src' : AcousticSource} {a a' : Store} {ids : List Nat} {outcome : ScoreOutcome}

/-- The tokens stay on their states. -/
theorem fits_scoreFrame (h : src.scoreFrame a ids = .ok (outcome, src', a')) {graph : Graph}
    (hfits : Expansion.Fits graph a) : Expansion.Fits graph a' := by
  intro id t' ht'
  have hmap := map_scoreFrame h (fun t => (t.state, t.kind)) (fun row t => by simp) id
  rw [ht', Option.map_some, eq_comm, Option.map_eq_some_iff] at hmap
  obtain ⟨t, ht, heq⟩ := hmap
  obtain ⟨hstate, hkind⟩ := Prod.mk.inj heq
  rw [← hstate, ← hkind]
  exact hfits id t ht

end AcousticSource

namespace Search

/-- **What the growth of a frame leaves.** -/
def Grows (s s' : Search) : Prop :=
  ∃ done e stats, Expansion.Sound s.growth s.store done e ∧ s' = { s.absorb e with stats }

variable {s : Search}

/-- **The growth of a frame** is the expansion of its seeds, unless the beam lists a token that the
store does not hold. -/
theorem grow_rule {P : Search → Prop} {H : Halted Search → Prop}
    (hlost : (¬ ∀ id ∈ s.beam.tokens, id < s.store.size) → ∀ f, H ⟨.dangling f, s⟩)
    (hrun : (∀ id ∈ s.beam.tokens, id < s.store.size) →
      Outcome (fun e => P { s.absorb e with stats := s.countExpansion e })
        (fun h => H ⟨h.error, s.absorb h.state⟩)
        ((Expansion.start s.store (.empty s.pass.widths) s.lattice s.memo).run s.growth
          (s.beam.worthExpanding s.store s.settings.acousticLookahead))) :
    Outcome P H s.grow := by
  rw [grow_eq]
  cases hseeds : s.beam.seeds s.store s.settings.acousticLookahead with
  | error f =>
    refine hlost (fun hall => ?_) f
    rw [Beam.seeds_of_lt hall] at hseeds
    cases hseeds
  | ok seeds =>
    obtain ⟨hlt, rfl⟩ := Beam.seeds_eq_ok hseeds
    have hrun := hrun hlt
    dsimp only
    split
    · next h hx => exact hrun.of_error hx
    · next e hx => exact hrun.of_ok hx

/-- **Growing a frame.**  It halts before the expansion only over a beam whose tokens are gone. -/
theorem grow_outcome (hfits : Expansion.Fits s.pass.graph s.store) :
    Outcome s.Grows
      (fun h => s.Grows h.state ∨ h.state = s ∧ ¬ ∀ id ∈ s.beam.tokens, id < s.store.size)
      s.grow := by
  refine grow_rule (fun hlost _ => .inr ⟨rfl, hlost⟩) fun hlt => ?_
  have hstart := Expansion.Sound.start (g := s.growth) hfits s.pass.widths s.lattice s.memo
  refine (hstart.run fun id hid => hlt id (Beam.mem_worthExpanding hid)).mono ?_ ?_
  · rintro e ⟨done, hsound, -⟩
    exact ⟨done, e, _, hsound, rfl⟩
  · rintro h ⟨-, done, hsound⟩
    exact .inl ⟨done, h.state, s.stats, hsound, rfl⟩

/-- **What the growth of a frame leaves alone.** -/
structure Spared (s s' : Search) : Prop where
  settings : s'.settings = s.settings
  pass : s'.pass = s.pass
  fastMatch : s'.fastMatch = s.fastMatch
  initial : s'.initial = s.initial
  frame : s'.frame = s.frame
  streamEnded : s'.streamEnded = s.streamEnded

theorem grow_spares (s : Search) : Outcome s.Spared (fun h => s.Spared h.state) s.grow := by
  rw [grow_eq]
  split
  · exact ⟨rfl, rfl, rfl, rfl, rfl, rfl⟩
  · split <;> exact ⟨rfl, rfl, rfl, rfl, rfl, rfl⟩

/-- What has begun is at its first row and in frame 0. -/
theorem start_eq_ok {s₁ : Search} (h : s.start = .ok s₁) : s₁.frame = 0 ∧ s₁.pass.source.cursor = 0 ∧
    s₁.pass.source.endReported = false ∧ s₁.initial = some 0 ∧ s₁.streamEnded = false := by
  rw [start_eq] at h
  split at h
  · cases h
  · split at h
    · cases h
    · next fastMatch _ _ seed _ =>
      have hspares := (grow_spares (s.begun fastMatch seed)).of_ok h
      refine ⟨hspares.frame, ?_, ?_, hspares.initial, hspares.streamEnded⟩
      · rw [hspares.pass]
        rfl
      · rw [hspares.pass]
        rfl

/-! ## What never changes -/

/-- **A search with given settings that works on a given pass:** only the cursor of its source
moves. -/
structure Built (settings : SearchSettings) (main : Pass) (s : Search) : Prop where
  settings : s.settings = settings
  graph : s.pass.graph = main.graph
  pruner : s.pass.pruner = main.pruner
  widths : s.pass.widths = main.widths
  rows : s.pass.source.rows = main.source.rows

variable {settings : SearchSettings} {main : Pass} {s' : Search}

theorem Built.grow (h : s.Built settings main) :
    Outcome (Built settings main) (fun h => h.state.Built settings main) s.grow := by
  rw [grow_eq]
  split
  · exact h
  · split
    · exact ⟨h.settings, h.graph, h.pruner, h.widths, h.rows⟩
    · exact ⟨h.settings, h.graph, h.pruner, h.widths, h.rows⟩

theorem Built.heard (h : s.Built settings main) {outcome : ScoreOutcome} {source : AcousticSource}
    {store : Store}
    (hx : s.pass.source.scoreFrame s.store s.beam.tokens = .ok (outcome, source, store)) :
    (s.heard source store).Built settings main := by
  refine ⟨h.settings, h.graph, h.pruner, h.widths, Eq.trans ?_ h.rows⟩
  rcases AcousticSource.scoreFrame_eq_ok hx with ⟨-, -, -, hrows, -⟩ | ⟨row, -, rfl, -⟩
  · exact hrows
  · rfl

/-- **No call changes what a search was built of.** -/
theorem built_kept : Kept fun _ s => s.Built settings main where
  start _ s h := by
    have hbuilt : ∀ f seed, (s.begun f seed).Built settings main := fun f seed =>
      ⟨h.settings, h.graph, h.pruner, h.widths, h.rows⟩
    rw [start_eq]
    split
    · exact ⟨h.settings, h.graph, h.pruner, h.widths, h.rows⟩
    · split
      · exact ⟨h.settings, h.graph, h.pruner, h.widths, h.rows⟩
      · exact (hbuilt _ _).grow
  aside _ s fastMatch memo streamEnded h := ⟨h.settings, h.graph, h.pruner, h.widths, h.rows⟩
  purge _ s lattice h _ := ⟨h.settings, h.graph, h.pruner, h.widths, h.rows⟩
  stepFrame _ _ h := stepFrame_outcome h (fun _ _ _ hx => h.heard hx)
    (fun _ h => ⟨h.settings, h.graph, h.pruner, h.widths, h.rows⟩)
    (fun _ _ h => ⟨h.settings, h.graph, h.pruner, h.widths, h.rows⟩) fun _ h => h.grow

/-- **A search that waits for its first utterance** holds nothing but what it is built of. -/
theorem exists_of_new {fastMatch : Pass} {cache : MixtureCache}
    (h : Search.new settings main fastMatch cache = .ok s) :
    settings.validate = .ok () ∧ ∃ f, FastMatch.new settings.window fastMatch = .ok f ∧
      s = {
        settings
        pass := main
        cache := cache.ask (.keep (settings.window + 2))
        fastMatch := f
        store := .empty
        beam := .empty main.widths
        results := []
        lattice := .empty settings.maxLatticeEdges
        memo := .empty
        residents := []
        initial := none
        frame := 0
        streamEnded := false
        stats := .zero } := by
  unfold Search.new at h
  cases hv : settings.validate with
  | error err => simp [hv, bind, Except.bind] at h
  | ok u =>
    cases hf : FastMatch.new settings.window fastMatch with
    | error err => simp [hv, hf, bind, Except.bind] at h
    | ok f =>
      simp only [hv, hf, bind, Except.bind, pure, Except.pure] at h
      cases h
      exact ⟨rfl, f, rfl, rfl⟩

theorem new_eq_ok {fastMatch : Pass} {cache : MixtureCache}
    (h : Search.new settings main fastMatch cache = .ok s) :
    s.Built settings main ∧ s.store = .empty ∧ s.beam = .empty main.widths ∧ s.initial = none ∧
      settings.validate = .ok () := by
  obtain ⟨hv, f, -, rfl⟩ := exists_of_new h
  exact ⟨⟨rfl, rfl, rfl, rfl, rfl⟩, rfl, rfl, rfl, hv⟩

end Search

end SpeechDecoder

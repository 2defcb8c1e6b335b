import SpeechDecoder.Proofs.Expansion.Roster
import SpeechDecoder.Proofs.Search.Scoring
import SpeechDecoder.Proofs.Search.Turns

/-!
# The tokens of an utterance

Every frame that is grown adds one token for each state that it enters, with the number of the frame,
and frames are numbered upwards.  So no two tokens of an utterance have the same state and frame, but
for the one that it starts from, which is not created by a frame; and the tokens that the counts tell
of are all the others.

* `Enrolled` holds after whatever calls, with errors or without (`enrolled_kept`).
* `Numbered` holds as long as nothing is halted (`unhalted_numbered`).
* `tokens_after` puts a frame and the calls together.
-/

namespace SpeechDecoder.Search

open Expansion (Adds Disordered Fits HaltRoster Roster idleStates processed roster_start)

variable {s s₀ : Search}

/-! ## Tokens with the same state and frame -/

/-- **No two tokens but the first have the same state and frame.** -/
def Distinct (a : Store) : Prop :=
  ∀ id id' t t', 0 < id → 0 < id' → a.get? id = some t → a.get? id' = some t' →
    t.state = t'.state → t.frame = t'.frame → id = id'

/-- The tokens but the first are of frames that were grown. -/
structure Enrolled (s : Search) : Prop where
  distinct : Distinct s.store
  past : ∀ id t, 0 < id → s.store.get? id = some t → t.frame ≤ s.frame

/-- What an expansion makes of tokens of earlier frames. -/
theorem Enrolled.of_roster (hdistinct : Distinct s.store)
    (hpast : ∀ id t, 0 < id → s.store.get? id = some t → t.frame < s.frame) {first : List Nat}
    {e : Expansion} (he : Roster s.growth s.store first e) (stats : SearchStats) :
    Enrolled { s.absorb e with stats } := by
  have hnew : ∀ id t, s.store.size ≤ id → e.store.get? id = some t →
      t.frame = s.frame ∧ e.resident? t.state = some id := fun id t hb ht => he.own hb ht
  have hold : ∀ id t, 0 < id → ¬ s.store.size ≤ id → e.store.get? id = some t →
      s.store.get? id = some t ∧ t.frame < s.frame := fun id t hpos hb ht => by
    rw [he.old id (Nat.lt_of_not_le hb)] at ht
    exact ⟨ht, hpast id t hpos ht⟩
  refine ⟨fun id id' t t' hpos hpos' ht ht' hstate hframe => ?_, fun id t hpos ht => ?_⟩
  · by_cases hb : s.store.size ≤ id <;> by_cases hb' : s.store.size ≤ id'
    · have hres := (hnew id t hb ht).2
      rw [hstate, (hnew id' t' hb' ht').2] at hres
      exact (Option.some.inj hres).symm
    · have := (hnew id t hb ht).1
      have := (hold id' t' hpos' hb' ht').2
      omega
    · have := (hold id t hpos hb ht).2
      have := (hnew id' t' hb' ht').1
      omega
    · exact hdistinct id id' t t' hpos hpos' (hold id t hpos hb ht).1 (hold id' t' hpos' hb' ht').1
        hstate hframe
  · by_cases hb : s.store.size ≤ id
    · exact (hnew id t hb ht).1.le
    · exact (hold id t hpos hb ht).2.le

/-- The expansion of a frame lists the tokens on the states, also where it is halted. -/
theorem roster_expansion (s : Search) (seeds : List Nat) :
    Outcome (fun e => Roster s.growth s.store [] e) (fun h => Roster s.growth s.store [] h.state)
      ((Expansion.start s.store (.empty s.pass.widths) s.lattice s.memo).run s.growth seeds) := by
  have hstart := roster_start s.growth s.store (.empty s.pass.widths) s.lattice s.memo
  have hrun := (hstart.run False (fun h => h.elim) fun h id (_ : id ∈ seeds) => h.elim).1
  exact hrun.mono (fun _ h => h.1) fun _ h => h.1

/-- **Growing a frame** whose number is a new one. -/
theorem Enrolled.grow (hdistinct : Distinct s.store)
    (hpast : ∀ id t, 0 < id → s.store.get? id = some t → t.frame < s.frame) :
    Outcome Enrolled (fun h => h.state.Enrolled) s.grow := by
  refine grow_rule (fun _ _ => ⟨hdistinct, fun id t hpos ht => (hpast id t hpos ht).le⟩) fun _ => ?_
  exact (roster_expansion s _).mono (fun e he => Enrolled.of_roster hdistinct hpast he _)
    fun h hh => Enrolled.of_roster hdistinct hpast hh s.stats

theorem distinct_begun (s : Search) (fastMatch : FastMatch) (seed : Token) :
    Distinct (s.begun fastMatch seed).store ∧
      ∀ id t, 0 < id → (s.begun fastMatch seed).store.get? id ≠ some t := by
  have hnone : ∀ id t, 0 < id → (s.begun fastMatch seed).store.get? id ≠ some t := by
    intro id t hpos ht
    have hlt := Store.lt_size_of_get? ht
    have hsize : (s.begun fastMatch seed).store.size = 1 := rfl
    omega
  exact ⟨fun id _ t _ hpos _ ht => absurd ht (hnone id t hpos), hnone⟩

theorem enrolled_of_empty (h : s.store = .empty) : s.Enrolled := by
  have hnone : ∀ id t, s.store.get? id ≠ some t := fun id t => by
    simp [h, Store.get?, Store.empty]
  exact ⟨fun id _ t _ _ _ ht => absurd ht (hnone id t), fun id t _ ht => absurd ht (hnone id t)⟩

/-- **Every call keeps the tokens apart,** with an error or without. -/
theorem enrolled_kept : Kept fun _ s => s.Enrolled where
  aside _ _ _ _ _ h := ⟨h.distinct, h.past⟩
  purge _ _ _ h _ := ⟨h.distinct, h.past⟩
  start _ s _ := by
    rw [start_eq]
    split
    · exact enrolled_of_empty rfl
    · split
      · exact enrolled_of_empty rfl
      · next fastMatch _ _ seed _ =>
        obtain ⟨hdistinct, hnone⟩ := distinct_begun s fastMatch seed
        exact Enrolled.grow hdistinct fun id t hpos ht => absurd ht (hnone id t hpos)
  stepFrame _ s h := by
    have hheard : ∀ {outcome source store},
        s.pass.source.scoreFrame s.store s.beam.tokens = .ok (outcome, source, store) →
        (s.heard source store).Enrolled := by
      intro outcome source store hx
      have hget : ∀ id t, store.get? id = some t →
          ∃ u, s.store.get? id = some u ∧ u.state = t.state ∧ u.frame = t.frame := by
        intro id t ht
        have hmap := AcousticSource.map_scoreFrame hx (fun t => (t.state, t.frame))
          (fun row t => by simp) id
        rw [ht, Option.map_some, eq_comm, Option.map_eq_some_iff] at hmap
        obtain ⟨u, hu, heq⟩ := hmap
        obtain ⟨hstate, hframe⟩ := Prod.mk.inj heq
        exact ⟨u, hu, hstate, hframe⟩
      refine ⟨fun id id' t t' hpos hpos' ht ht' hstate hframe => ?_, fun id t hpos ht => ?_⟩
      · obtain ⟨u, hu, hus, huf⟩ := hget id t ht
        obtain ⟨u', hu', hus', huf'⟩ := hget id' t' ht'
        exact h.distinct id id' u u' hpos hpos' hu hu' (by rw [hus, hus', hstate])
          (by rw [huf, huf', hframe])
      · obtain ⟨u, hu, -, huf⟩ := hget id t ht
        exact huf ▸ h.past id u hpos hu
    rw [stepFrame_eq]
    split
    · exact h
    · next hx => exact hheard hx
    · next hx => exact ⟨(hheard hx).distinct, (hheard hx).past⟩
    · next source store hx =>
      split
      · exact hheard hx
      · next beam _ =>
        have hpast : ∀ id t, 0 < id → store.get? id = some t → t.frame < s.frame + 1 :=
          fun id t hpos ht => Nat.lt_succ_of_le ((hheard hx).past id t hpos ht)
        split
        · exact ⟨(hheard hx).distinct, fun id t hpos ht => (hpast id t hpos ht).le⟩
        · exact (Enrolled.grow (s := (s.heard source store).moved beam) (hheard hx).distinct
            hpast).map _ fun _ h => h

/-! ## How many tokens there are -/

/-- **All tokens but the first are counted.** -/
def Numbered (s : Search) : Prop := s.store.size = 1 + s.stats.tokensCreated

theorem Numbered.grow (h : s.Numbered) : Outcome Numbered (fun _ => True) s.grow := by
  refine grow_rule (fun _ _ => trivial) fun _ => (roster_expansion s _).mono (fun e he => ?_)
    fun _ _ => trivial
  have hsize := he.size
  unfold Numbered at h
  show e.store.size = 1 + (s.stats.tokensCreated + e.created)
  omega

/-- **Frames that are not halted** count the tokens that they create. -/
theorem unhalted_numbered : Unhalted Numbered where
  live _ h := h
  lookAhead s h := by
    rw [lookAhead_eq]
    split
    · trivial
    · exact h
  stepFrame s h := by
    have hheard : ∀ {outcome source store},
        s.pass.source.scoreFrame s.store s.beam.tokens = .ok (outcome, source, store) →
        (s.heard source store).Numbered :=
      fun hx => (AcousticSource.size_scoreFrame hx).trans h
    rw [stepFrame_eq]
    split
    · trivial
    · next hx => exact hheard hx
    · next hx => exact hheard hx
    · next source store hx =>
      split
      · trivial
      · next beam _ =>
        have hmoved : ((s.heard source store).moved beam).Numbered := hheard hx
        split
        · exact hmoved
        · exact hmoved.grow.map _ fun _ h => h
  purge _ _ h := h

theorem numbered_start (s : Search) : Outcome Numbered (fun _ => True) s.start := by
  rw [start_eq]
  split
  · trivial
  · split
    · trivial
    · next fastMatch _ _ seed _ => exact Numbered.grow (s := s.begun fastMatch seed) rfl

/-- The calls of an utterance, by induction on them. -/
theorem Numbered.after : ∀ (frames : List Nat) {s : Search}, s.Numbered →
    (∀ err, .error err ∉ s.answers (frames.map .recognize)) →
    (s.after (frames.map .recognize)).Numbered
  | [], _, h, _ => h
  | n :: frames, s, h, hall => by
    cases hc : (s.perform (.recognize n)).1 with
    | error err => exact absurd (List.mem_cons.2 (.inl hc.symm)) (hall err)
    | ok answer =>
      exact Numbered.after frames (unhalted_numbered.recognize h hc) fun err herr =>
        hall err (List.mem_cons_of_mem _ herr)

/-! ## The theorem -/

/-- **One token for each state and frame.**  The expansion of a frame, whatever the graph, the rules,
the beam and the seeds are, comes to an end after at most as many rounds as there are states, expands
every state at most once that does not emit, and adds one token for each state that it enters, as
`Adds` says; if its seeds are stored and stand on states of the graph, it halts only where an arc
leads to a lower order.  So after whatever calls no two tokens of a search but the first have the same
state and frame, and in an utterance without errors the counts tell how many tokens there are. -/
theorem tokens_after :
    (∀ (g : Growth) (base : Store) (next : Beam) (lattice : Lattice) (memo : PenaltyMemo)
        (seeds : List Nat),
      let e := Expansion.start base next lattice memo
      Outcome (Adds g base next.tokens)
          (fun h => Fits g.graph base → (∀ id ∈ seeds, id < base.size) → Disordered g h.error)
          (e.run g seeds) ∧
        (∀ rounds, g.graph.size + 1 ≤ rounds →
          seeds.foldlM (fun e id => Expansion.expandSeed g e id) e >>= Expansion.drain g rounds =
            e.run g seeds) ∧
        (idleStates (processed g e seeds)).Nodup) ∧
    ∀ (settings : SearchSettings) (main fast : Pass) (cache : MixtureCache) (s₀ : Search),
      Search.new settings main fast cache = .ok s₀ → ∀ calls : List Call,
        Distinct (s₀.after calls).store ∧
        ∀ frames : List Nat,
          (∀ err, .error err ∉ (s₀.after calls).answers (.start :: frames.map .recognize)) →
          let s := (s₀.after calls).after (.start :: frames.map .recognize)
          s.store.size = 1 + s.stats.tokensCreated := by
  refine ⟨fun g base next lattice memo seeds => ?_, fun settings main fast cache s₀ h calls => ?_⟩
  · obtain ⟨hadds, hmore⟩ := Expansion.run_adds g base next lattice memo seeds
    exact ⟨hadds, hmore, Expansion.processed_nodup g _ seeds⟩
  · refine ⟨(enrolled_kept.after calls [] (enrolled_of_empty (new_eq_ok h).2.1)).distinct,
      fun frames hall => ?_⟩
    have hstart := numbered_start (s₀.after calls)
    cases hx : (s₀.after calls).start with
    | error err =>
      refine absurd (List.mem_cons.2 (.inl ?_)) (hall err.error)
      simp [perform, hx]
    | ok t =>
      have hfirst : ((s₀.after calls).perform .start).2.Numbered := by
        simpa [perform, hx] using hstart.of_ok hx
      exact Numbered.after frames hfirst fun err herr => hall err (List.mem_cons_of_mem _ herr)

/-- Two frames of the word loop, which has a cycle that emits nothing, create a token for each of its
four states; with the first token that makes nine. -/
theorem tokens_after_wordLoop :
    let s := (WordLoop.search false).after [.start, .recognize 1]
    Distinct s.store ∧ s.store.size = 9 ∧ s.stats.tokensCreated = 8 := by
  intro s
  obtain ⟨hdistinct, -⟩ :=
    tokens_after.2 _ _ _ _ _ (WordLoop.search_eq false) [.start, .recognize 1]
  obtain ⟨-, hcount⟩ := tokens_after.2 _ _ _ _ _ (WordLoop.search_eq false) []
  have hanswers : (WordLoop.search false).answers [.start, .recognize 1] =
      [.ok none, .ok (some ⟨[5], [8], false, 0, 1⟩)] := by decide +kernel
  have hsize : s.store.size = 1 + s.stats.tokensCreated := hcount [1] fun err herr => by
    rw [show ((WordLoop.search false).after []).answers (.start :: [1].map .recognize) =
      [.ok none, .ok (some ⟨[5], [8], false, 0, 1⟩)] from hanswers] at herr
    simp at herr
  have hcreated : s.stats.tokensCreated = 8 := by decide +kernel
  exact ⟨hdistinct, hsize.trans (by rw [hcreated]), hcreated⟩

end SpeechDecoder.Search

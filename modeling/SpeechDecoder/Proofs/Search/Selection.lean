import SpeechDecoder.Proofs.Beam.Pruned
import SpeechDecoder.Proofs.Search.Grow

/-!
# What a pruned beam is expanded from

Whatever the widths leave is admitted by what is left (`Beam.worthExpanding_prune`).  So a frame
without acoustic lookahead grows from the whole beam (`Pruner.byWidths_exact`).

With acoustic lookahead a token has to be above the margin of the best extrapolated score, not on it.
A margin below a score need not be lower than that score: it is the same score if the margin is zero,
or is lost where the sum is rounded.  Then no token is above it, not even a best one, and the frame
grows from nothing (`Pruner.seeds_byWidths`).
-/

namespace SpeechDecoder

variable {a : Store} {b c : Beam} {frames : Score}

/-- **All tokens of a pruned beam are admitted.** -/
theorem Beam.worthExpanding_prune (h : ¬ Score.certain < frames) (a : Store) (b : Beam) :
    (b.prune a.score).worthExpanding a frames = (b.prune a.score).tokens := by
  rw [Beam.worthExpanding_eq h]
  exact List.filter_eq_self.2 fun _ hid => (List.mem_filter.1 hid).2

/-- **A search without seeds dies:** its next beam holds no token, and there is no result. -/
theorem Search.grow_of_nil {s : Search}
    (h : s.beam.seeds s.store s.settings.acousticLookahead = .ok []) :
    ∃ t, s.grow = .ok t ∧ t.beam.tokens = [] ∧ t.results = [] := by
  rw [Search.grow_eq, h]
  exact ⟨_, rfl, rfl, rfl⟩

namespace Pruner

open Beam

/-- The tokens of a pruned beam are stored. -/
theorem stored_of_byWidths (h : byWidths a c = .ok b) : ∀ id ∈ b.tokens, id < a.size := by
  obtain ⟨hstored, rfl⟩ := byWidths_eq_ok h
  exact fun id hid => hstored id ((Beam.prune_subperm a.score).subset hid)

/-- **What the widths leave** is the longest list from the front of the sorted tokens that they allow.
To prune again changes nothing, and without acoustic lookahead all of it is expanded. -/
theorem byWidths_exact (a : Store) (b : Beam) (hmargin : b.widths.margin ≤ .certain)
    (hstored : ∀ id ∈ b.tokens, id < a.size) (hscores : ∀ id ∈ b.tokens, a.score id < .infinity) :
    ∃ b', byWidths a b = .ok b' ∧ Beam.IsPruned a.score b b' ∧ byWidths a b' = .ok b' ∧
      ∀ frames, ¬ Score.certain < frames → b'.seeds a frames = .ok b'.tokens := by
  have hpruned := byWidths_eq hstored
  have hkept := stored_of_byWidths hpruned
  refine ⟨_, hpruned, Beam.isPruned_prune hmargin hscores, ?_, fun frames hframes => ?_⟩
  · rw [byWidths_eq hkept, Beam.prune_prune hmargin hscores]
  · rw [Beam.seeds_of_lt hkept, Beam.worthExpanding_prune hframes]

/-- The fourth and the third token come after the first, and the others are left out. -/
theorem byWidths_exact_scatter :
    ∃ b, byWidths Scatter.store (Scatter.beam Scatter.widths) = .ok b ∧
      b.tokens = [0, 3, 2] ∧ byWidths Scatter.store b = .ok b ∧
      b.seeds Scatter.store .certain = .ok b.tokens := by
  obtain ⟨b, hb, -, hagain, hseeds⟩ := byWidths_exact Scatter.store
    (Scatter.beam Scatter.widths) (by decide) (by decide) Scatter.bounded
  refine ⟨b, hb, ?_, hagain, hseeds _ (by decide)⟩
  obtain ⟨-, rfl⟩ := byWidths_eq_ok hb
  have hprune := prune_eq (b := Scatter.beam Scatter.widths) (by decide) Scatter.bounded
  rw [hprune]
  exact Scatter.kept_eq

/-- **The best tokens of a pruned beam are expanded, or none is.**  Without acoustic lookahead all
tokens are.  With it those are that are above the margin of a best extrapolated score: all of the best
ones, if the margin below that score is below it.  If it is not, as with a margin of zero, the search
dies. -/
theorem seeds_byWidths (hpruned : byWidths a c = .ok b) (hne : b.tokens ≠ [])
    (hbounded : ∀ id ∈ b.tokens, extrapolated a frames id < .infinity) :
    ∃ top ∈ b.tokens, (∀ id ∈ b.tokens, extrapolated a frames id ≤ extrapolated a frames top) ∧
    ∃ seeds, b.seeds a frames = .ok seeds ∧
      (¬ Score.certain < frames → seeds = b.tokens) ∧
      (Score.certain < frames →
        seeds = b.tokens.filter (fun id =>
          decide (extrapolated a frames top + b.widths.margin < extrapolated a frames id)) ∧
        (extrapolated a frames top + b.widths.margin < extrapolated a frames top →
          ∀ id ∈ b.tokens, extrapolated a frames top ≤ extrapolated a frames id → id ∈ seeds) ∧
        (¬ extrapolated a frames top + b.widths.margin < extrapolated a frames top →
          seeds = [] ∧ ∀ s : Search, s.store = a → s.beam = b →
            s.settings.acousticLookahead = frames →
            ∃ t, s.grow = .ok t ∧ t.beam.tokens = [] ∧ t.results = []) ∧
        (Score.certain ≤ b.widths.margin → seeds = [])) := by
  obtain ⟨⟨top, htop, heq⟩, hle⟩ := Bounded.greatest hbounded hne
  rw [← heq] at hle
  have hseeds : b.seeds a frames = .ok (b.worthExpanding a frames) :=
    Beam.seeds_of_lt (stored_of_byWidths hpruned)
  refine ⟨top, htop, hle, _, hseeds, fun hframes => ?_, fun hframes => ?_⟩
  · obtain ⟨-, rfl⟩ := byWidths_eq_ok hpruned
    exact Beam.worthExpanding_prune hframes a c
  have hworth : b.worthExpanding a frames = b.tokens.filter fun id =>
      decide (extrapolated a frames top + b.widths.margin < extrapolated a frames id) := by
    unfold Beam.worthExpanding
    rw [if_pos hframes, ← heq]
  -- what is above the margin is no better than the best token, which is above it too then
  have hnone : ¬ extrapolated a frames top + b.widths.margin < extrapolated a frames top →
      b.worthExpanding a frames = [] := fun hnot => by
    rw [hworth, List.filter_eq_nil_iff]
    exact fun id hid habove => hnot (Score.lt_of_lt_of_le (of_decide_eq_true habove) (hle id hid))
  refine ⟨hworth, fun hbelow id hid hbest => ?_, fun hnot => ⟨hnone hnot, ?_⟩, fun hzero =>
    hnone fun hbelow => ?_⟩
  · rw [hworth, List.mem_filter]
    exact ⟨hid, decide_eq_true (Score.lt_of_lt_of_le hbelow hbest)⟩
  · rintro s rfl rfl rfl
    rw [hnone hnot] at hseeds
    exact Search.grow_of_nil hseeds
  · have hsum : (extrapolated a frames top + b.widths.margin).IsNumber := (Score.lt_iff.1 hbelow).1
    exact Score.not_lt_of_le (Score.self_le_add hzero hsum) hbelow

/-- Under a margin of zero the first token is left, and is expanded without acoustic lookahead; with it
there are no seeds. -/
theorem seeds_byWidths_scatter :
    ∃ b, byWidths Scatter.store (Scatter.beam ⟨0, .certain⟩) = .ok b ∧ b.tokens ≠ [] ∧
      b.seeds Scatter.store .certain = .ok b.tokens ∧
      b.seeds Scatter.store (Float32.ofBits 0x3F800000) = .ok [] := by
  obtain ⟨b, hb, hpruned, -, -⟩ := byWidths_exact Scatter.store
    (Scatter.beam ⟨0, .certain⟩) (by decide) (by decide) Scatter.bounded
  have hne : b.tokens ≠ [] := fun hnil => absurd (hpruned.nil_iff.1 hnil) (by decide)
  have hbounded : ∀ frames ∈ [Score.certain, Float32.ofBits 0x3F800000], ∀ id ∈ b.tokens,
      extrapolated Scatter.store frames id < .infinity := by
    intro frames hframes id hid
    exact (by decide +kernel : ∀ frames ∈ [Score.certain, Float32.ofBits 0x3F800000],
      ∀ id ∈ [0, 1, 2, 3, 4], extrapolated Scatter.store frames id < .infinity) frames hframes id
        (Score.mem_sortDescending.1 (hpruned.sorted.subset hid))
  obtain ⟨_, -, -, seeds, hseeds, hall, -⟩ :=
    seeds_byWidths hb hne (hbounded .certain (by simp))
  obtain ⟨_, -, -, seeds', hseeds', -, hahead⟩ :=
    seeds_byWidths hb hne (hbounded (Float32.ofBits 0x3F800000) (by simp))
  obtain ⟨-, -, -, hnone⟩ := hahead (by decide)
  rw [hall (by decide)] at hseeds
  rw [hnone (hpruned.widths ▸ by decide)] at hseeds'
  exact ⟨b, hb, hne, hseeds, hseeds'⟩

end Pruner

end SpeechDecoder

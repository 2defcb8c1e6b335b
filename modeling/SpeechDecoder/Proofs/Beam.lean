import SpeechDecoder.Beam
import SpeechDecoder.Proofs.Score.Sum
import SpeechDecoder.Proofs.Token.Collapse
import Mathlib.Data.List.Perm.Subperm

/-!
# Pruning a beam

What a search relies on when it prunes its beam, whichever pruner it was given, and that the pruners
of the decoder keep to it.

* `Beam.renamed` is a beam whose tokens have other numbers; nothing that is done to a beam looks at the
  numbers.
* `Pruner.Selects`: a pruner only leaves tokens out, and accepts every beam of stored tokens.
* `Pruner.Blind`: a pruner does not look at predecessors.
-/

namespace SpeechDecoder

namespace Beam

variable {a : Store} {b : Beam}

/-! ## Notes -/

theorem tokens_note (b : Beam) (id : Nat) (score : Score) : (b.note id score).tokens = b.tokens := by
  unfold note
  split <;> rfl

theorem tokens_push (b : Beam) (id : Nat) (score : Score) :
    (b.push id score).tokens = b.tokens ++ [id] := by
  unfold push
  rw [tokens_note]

theorem best_push (b : Beam) (id : Nat) (score : Score) :
    (b.push id score).best = (b.note id score).best := by
  unfold push note
  rw [show ({ b with tokens := b.tokens ++ [id] } : Beam).bestScore = b.bestScore from rfl]
  split <;> rfl

theorem widths_note (b : Beam) (id : Nat) (score : Score) : (b.note id score).widths = b.widths := by
  unfold note
  split <;> rfl

/-- The best score after a note is the one before or the noted one. -/
theorem bestScore_note (b : Beam) (id : Nat) (score : Score) :
    (b.note id score).best = b.best ∨ (b.note id score).bestScore = score := by
  unfold note
  split
  · exact .inr rfl
  · exact .inl rfl

/-- A note does not lower the best score. -/
theorem bestScore_le_note {b : Beam} {id : Nat} {score : Score} (hb : b.bestScore.IsNumber)
    (hs : score.IsNumber) : b.bestScore ≤ (b.note id score).bestScore := by
  unfold note
  split
  · next h =>
    by_cases hlt : b.bestScore < score
    · exact Score.le_of_lt hlt
    · have hnone : b.best = none := by simpa [hlt] using h
      rw [show b.bestScore = .impossible by unfold bestScore; rw [hnone]]
      exact Score.impossible_le hs
  · exact Score.le_rfl hb

theorem bestScore_eq {b b' : Beam} (h : b'.best = b.best) : b'.bestScore = b.bestScore := by
  unfold bestScore
  rw [h]

/-- What is below a bound leaves the best score below it. -/
theorem bestScore_note_lt {b : Beam} {score bound : Score} (hb : b.bestScore < bound)
    (hs : score < bound) (id : Nat) : (b.note id score).bestScore < bound := by
  rcases bestScore_note b id score with heq | heq
  · rwa [bestScore_eq heq]
  · rwa [heq]

/-- **A better best score** does not lower the threshold. -/
theorem threshold_le {b b' : Beam} (hmargin : b.widths.margin ≤ .certain)
    (hwidths : b'.widths = b.widths) (hle : b.bestScore ≤ b'.bestScore)
    (hlt : b'.bestScore < .infinity) : b.threshold ≤ b'.threshold := by
  have hm := Score.lt_infinity_of_le hmargin Score.certain_lt_infinity
  unfold threshold
  rw [hwidths]
  exact Score.add_le_add_right hle _
    (Score.isNumber_add (Score.lt_infinity_of_le hle hlt) hm) (Score.isNumber_add hlt hm)

/-! ## Pruning -/

theorem cut_sublist (widths : BeamWidths) (ids : List Nat) : (cut widths ids).Sublist ids := by
  unfold cut
  split
  · exact List.take_sublist _ _
  · exact .refl _

/-- **The pruned beam is made of tokens of the beam.** -/
theorem prune_subperm (score : Nat → Score) : (b.prune score).tokens.Subperm b.tokens := by
  have hsub : (b.prune score).tokens.Sublist (Score.sortDescending score b.tokens) :=
    List.filter_sublist.trans (cut_sublist _ _)
  exact hsub.subperm.trans (Score.sortDescending_perm score b.tokens).subperm

/-- The best score of a pruned beam is that of one of its tokens. -/
theorem exists_bestScore_prune (score : Nat → Score) {id : Nat} (hcount : b.widths.count = 0)
    (hid : id ∈ b.tokens) : ∃ j ∈ b.tokens, (b.prune score).bestScore = score j := by
  have hcut : cut b.widths (Score.sortDescending score b.tokens) =
      Score.sortDescending score b.tokens := by
    unfold cut
    rw [hcount]
    rfl
  unfold prune
  rw [hcut]
  cases hs : Score.sortDescending score b.tokens with
  | nil =>
    have : id ∈ Score.sortDescending score b.tokens := Score.mem_sortDescending.2 hid
    rw [hs] at this
    cases this
  | cons j rest =>
    refine ⟨j, Score.mem_sortDescending.1 (by rw [hs]; exact List.mem_cons_self), rfl⟩

/-- **A token within the margin of all others** survives pruning if the number of tokens is not
limited, and is admitted by what is left. -/
theorem mem_prune (score : Nat → Score) {id : Nat} (hcount : b.widths.count = 0)
    (hid : id ∈ b.tokens) (h : ∀ j ∈ b.tokens, score j + b.widths.margin ≤ score id) :
    id ∈ (b.prune score).tokens ∧ (b.prune score).admits (score id) = true := by
  obtain ⟨j, hj, hbest⟩ := exists_bestScore_prune score hcount hid
  have hadmits : (b.prune score).admits (score id) = true := by
    unfold admits threshold
    rw [hbest, decide_eq_true_eq]
    exact h j hj
  refine ⟨List.mem_filter.2 ⟨?_, hadmits⟩, hadmits⟩
  unfold cut
  rw [hcount]
  exact Score.mem_sortDescending.2 hid

/-! ## Other numbers -/

variable {ρ : Nat → Nat}

/-- A best token under another number. -/
def renamedBest (ρ : Nat → Nat) (best : Option (Nat × Score)) : Option (Nat × Score) :=
  best.map fun (id, score) => (ρ id, score)

/-- A beam under other numbers. -/
def renamed (ρ : Nat → Nat) (b : Beam) : Beam :=
  { b with tokens := b.tokens.map ρ, best := renamedBest ρ b.best }

@[simp] theorem bestScore_renamed (ρ : Nat → Nat) (b : Beam) :
    (b.renamed ρ).bestScore = b.bestScore := by
  unfold bestScore renamed
  cases b.best <;> rfl

@[simp] theorem threshold_renamed (ρ : Nat → Nat) (b : Beam) :
    (b.renamed ρ).threshold = b.threshold := by
  unfold threshold
  rw [bestScore_renamed]
  rfl

@[simp] theorem admits_renamed (ρ : Nat → Nat) (b : Beam) (score : Score) :
    (b.renamed ρ).admits score = b.admits score := by
  unfold admits
  rw [threshold_renamed]

theorem note_renamed (ρ : Nat → Nat) (b : Beam) (id : Nat) (score : Score) :
    (b.renamed ρ).note (ρ id) score = (b.note id score).renamed ρ := by
  have hnone : (b.renamed ρ).best.isNone = b.best.isNone := by simp [renamed, renamedBest]
  unfold note
  rw [bestScore_renamed, hnone]
  split <;> rfl

theorem push_renamed (ρ : Nat → Nat) (b : Beam) (id : Nat) (score : Score) :
    (b.renamed ρ).push (ρ id) score = (b.push id score).renamed ρ := by
  unfold push
  rw [← note_renamed]
  simp [renamed]

/-- **Sorting goes by the scores,** and keeps tokens of one rank in the order that they had. -/
theorem sortDescending_map {score score' : Nat → Score} (hscore : ∀ id, score' (ρ id) = score id)
    (ids : List Nat) :
    Score.sortDescending score' (ids.map ρ) = (Score.sortDescending score ids).map ρ := by
  unfold Score.sortDescending
  refine (List.map_mergeSort fun x _ y _ => ?_).symm
  unfold Score.notBelow
  rw [hscore, hscore]

/-- **Pruning goes by the scores.**  The best score of before does not matter. -/
theorem prune_map {score score' : Nat → Score} (hscore : ∀ id, score' (ρ id) = score id)
    {b b' : Beam} (htokens : b'.tokens = b.tokens.map ρ) (hwidths : b'.widths = b.widths) :
    b'.prune score' = (b.prune score).renamed ρ := by
  have hcut : cut b'.widths (Score.sortDescending score' b'.tokens) =
      (cut b.widths (Score.sortDescending score b.tokens)).map ρ := by
    rw [htokens, sortDescending_map hscore, hwidths]
    unfold cut
    split
    · exact List.map_take.symm
    · rfl
  have hfilter : ∀ led : Beam,
      ({ led.renamed ρ with
        tokens := (led.renamed ρ).tokens.filter fun id => (led.renamed ρ).admits (score' id) } : Beam) =
      ({ led with tokens := led.tokens.filter fun id => led.admits (score id) } : Beam).renamed ρ := by
    intro led
    refine congrArg (fun tokens => ({ led.renamed ρ with tokens } : Beam)) ?_
    refine (List.filter_map (f := ρ) (l := led.tokens)).trans (congrArg _ ?_)
    refine List.filter_congr fun id _ => ?_
    rw [Function.comp_apply, admits_renamed, hscore]
  have hled : ∀ kept : List Nat, ({ b' with
      tokens := kept.map ρ
      best := (kept.map ρ).head?.map fun id => (id, score' id) } : Beam) =
      ({ b with tokens := kept, best := kept.head?.map fun id => (id, score id) } : Beam).renamed ρ := by
    intro kept
    unfold renamed renamedBest
    rw [List.head?_map, Option.map_map, Option.map_map, hwidths]
    refine congrArg (Beam.mk _ _) (congrArg (Option.map · _) (funext fun id => ?_))
    exact congrArg (Prod.mk _) (hscore id)
  unfold prune
  rw [hcut]
  generalize cut b.widths (Score.sortDescending score b.tokens) = kept
  refine Eq.trans ?_ (hfilter { b with
    tokens := kept, best := kept.head?.map fun id => (id, score id) })
  exact congrArg (fun led : Beam =>
    { led with tokens := led.tokens.filter fun id => led.admits (score' id) }) (hled kept)

end Beam

namespace Pruner

/-- **A pruner that only leaves tokens out,** and accepts every beam whose tokens are stored. -/
def Selects (p : Pruner) : Prop :=
  ∀ a b, (∀ id ∈ b.tokens, id < a.size) → ∃ b', p a b = .ok b' ∧ b'.tokens.Subperm b.tokens

/-- The widths prune every beam whose tokens are stored. -/
theorem byWidths_eq {a : Store} {b : Beam} (h : ∀ id ∈ b.tokens, id < a.size) :
    byWidths a b = .ok (b.prune a.score) := by
  unfold byWidths
  rw [a.check_eq_ok_iff.2 h]
  rfl

/-- Only a beam whose tokens are stored is pruned by its widths. -/
theorem byWidths_eq_ok {a : Store} {b b' : Beam} (h : byWidths a b = .ok b') :
    (∀ id ∈ b.tokens, id < a.size) ∧ b' = b.prune a.score :=
  a.of_check_eq_ok h

theorem selects_byWidths : byWidths.Selects := fun a b h =>
  ⟨b.prune a.score, byWidths_eq h, Beam.prune_subperm a.score⟩

theorem selects_refreshOnly : refreshOnly.Selects := by
  intro a b h
  refine ⟨b.refresh a.score, ?_, .refl _⟩
  unfold refreshOnly
  rw [a.check_eq_ok_iff.2 h]
  rfl

theorem selects_keepAll : keepAll.Selects := fun _ b _ => ⟨b, rfl, .refl _⟩

/-- **A pruner that does not look at predecessors.** -/
def Blind (p : Pruner) : Prop := ∀ a a' b, a.Alike a' → p a' b = p a b

theorem blind_byWidths : byWidths.Blind := by
  intro a a' b h
  unfold byWidths
  rw [h.check_eq, h.score_eq]

theorem blind_refreshOnly : refreshOnly.Blind := by
  intro a a' b h
  unfold refreshOnly
  rw [h.check_eq, h.score_eq]

theorem blind_keepAll : keepAll.Blind := fun _ _ _ _ => rfl

/-- What the widths leave does not depend on the numbers. -/
theorem byWidths_renamed {ρ : Nat → Nat} {a a' : Store} (h : a.Renamed ρ a') {b b' : Beam}
    (htokens : b'.tokens = b.tokens.map ρ) (hwidths : b'.widths = b.widths)
    (hstored : ∀ id ∈ b.tokens, id < a.size) :
    byWidths a b = .ok (b.prune a.score) ∧ byWidths a' b' = .ok ((b.prune a.score).renamed ρ) := by
  have hstored' : ∀ id ∈ b'.tokens, id < a'.size := by
    have hcheck := h.check (a.check_eq_ok_iff.2 hstored)
    rw [← htokens] at hcheck
    exact a'.check_eq_ok_iff.1 hcheck
  rw [← Beam.prune_map h.score_eq htokens hwidths]
  exact ⟨byWidths_eq hstored, byWidths_eq hstored'⟩

end Pruner

end SpeechDecoder

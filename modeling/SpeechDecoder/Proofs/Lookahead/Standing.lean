import SpeechDecoder.Proofs.Lookahead
import SpeechDecoder.Proofs.Score.Cancellation

/-!
# The standing of a phone in a window

What the penalties say about the scores that were recorded, whichever scores these are: a score that
is not a number, one of a phone outside the inventory and an impossible one count for nothing.

* `Recording` holds what is recorded in a frame and `Recording.Stands` says, without the evidence, by
  how much the best score of a phone is below that of all phones.
* The evidence holds the greatest scores that count: `Recording.isMaximum_score` and
  `Recording.isMaximum_best`.
* A window moves by steps; `Window.retained` are the recordings that are left in it, and
  `Window.penalty_after` says that a penalty is the best standing among them, and never positive.
-/

namespace SpeechDecoder

namespace Evidence

variable {e : Evidence}

/-- What is not a number, and a phone outside the inventory, leave no trace. -/
theorem observe_eq_self {p : Nat} {x : Score} (h : ¬ (p < e.scores.size ∧ x.IsNumber)) :
    e.observe p x = e := by
  unfold observe
  split
  · rfl
  · next known hknown =>
    have hp := (Array.getElem?_eq_some_iff.1 hknown).1
    have hno : ∀ y : Score, ¬ y < x := fun y hlt => h ⟨hp, (Score.lt_iff.1 hlt).2.1⟩
    rw [if_neg (hno _), if_neg (hno _)]

/-- **Only numbers of phones of the inventory count,** by induction on what is recorded. -/
theorem foldl_observe_filter : ∀ (seen : List (Nat × Score)) (e : Evidence),
    seen.foldl (fun e y => e.observe y.1 y.2) e =
      (seen.filter fun y => decide (y.1 < e.scores.size ∧ y.2.IsNumber)).foldl
        (fun e y => e.observe y.1 y.2) e
  | [], _ => rfl
  | y :: seen, e => by
    rw [List.foldl_cons, foldl_observe_filter seen, size_observe, List.filter_cons]
    split
    · rfl
    · next hno => rw [observe_eq_self fun h => hno (decide_eq_true h)]

end Evidence

/-- **What is recorded in a frame:** scores of phones, for an inventory of so many phones. -/
structure Recording where
  frame : Nat
  phones : Nat
  scores : List (Nat × Score)

namespace Recording

variable {r : Recording} {p : Nat} {x : Score}

/-- The evidence that is left of a recording. -/
def evidence (r : Recording) : Evidence :=
  r.scores.foldl (fun e y => e.observe y.1 y.2) (.blank r.frame r.phones)

/-- **A score with which a phone is heard:** a possible one, of a phone of the inventory. -/
def Hears (r : Recording) (p : Nat) (x : Score) : Prop :=
  p < r.phones ∧ (p, x) ∈ r.scores ∧ x.IsNumber ∧ x ≠ .impossible

/-- **How a phone stands** in a frame in which it is heard: its best score, less the best score with
which any phone is heard. -/
def Stands (r : Recording) (p : Nat) (d : Score) : Prop :=
  ∃ own best, (r.Hears p own ∧ ∀ x, r.Hears p x → x ≤ own) ∧
    ((∃ q, r.Hears q best) ∧ ∀ q x, r.Hears q x → x ≤ best) ∧ d = own - best

/-- No score is positive infinity. -/
def Bounded (r : Recording) : Prop := ∀ y ∈ r.scores, y.2 ≠ .infinity

instance (r : Recording) : Decidable r.Bounded :=
  inferInstanceAs (Decidable (∀ y ∈ r.scores, y.2 ≠ .infinity))

theorem Hears.possible (h : r.Hears p x) : Score.impossible < x :=
  (Score.impossible_lt_iff h.2.2.1).2 h.2.2.2

theorem Hears.finite (hr : r.Bounded) (h : r.Hears p x) : ¬ x.IsInfinite :=
  Score.not_isInfinite h.possible ((Score.lt_infinity_iff_ne h.2.2.1).2 (hr _ h.2.1))

theorem tells_evidence (r : Recording) : r.evidence.Tells
    (r.scores.filter fun y => decide (y.1 < r.phones ∧ y.2.IsNumber)) := by
  have hsize : (Evidence.blank r.frame r.phones).scores.size = r.phones := Array.size_replicate
  have htells := (Evidence.tells_blank r.frame r.phones).foldl
    (r.scores.filter fun y => decide (y.1 < r.phones ∧ y.2.IsNumber)) fun y hy => by
      rw [hsize]
      exact of_decide_eq_true (List.mem_filter.1 hy).2
  unfold evidence
  rwa [Evidence.foldl_observe_filter, hsize]

/-- **The evidence holds the best score of every phone,** -/
theorem isMaximum_score (r : Recording) (p : Nat) :
    Score.IsMaximum (r.Hears p) (r.evidence.score p) := by
  have htells := r.tells_evidence
  refine Score.isMaximum_of ?_ fun x hx => ?_
  · by_cases himp : r.evidence.score p = .impossible
    · exact .inl himp
    · obtain ⟨hin, hcounts⟩ := List.mem_filter.1 ((htells.attained p).resolve_left himp)
      obtain ⟨hp, hnum⟩ := of_decide_eq_true hcounts
      exact .inr ⟨hp, hin, hnum, himp⟩
  · exact htells.le_score (p, x) (List.mem_filter.2 ⟨hx.2.1, decide_eq_true ⟨hx.1, hx.2.2.1⟩⟩)

/-- **and the best score of all phones.** -/
theorem isMaximum_best (r : Recording) :
    Score.IsMaximum (fun x => ∃ q, r.Hears q x) r.evidence.best := by
  have htells := r.tells_evidence
  obtain ⟨q, hq⟩ := htells.best
  refine Score.isMaximum_of ?_ fun x ⟨q, hx⟩ => ?_
  · rw [hq]
    rcases (r.isMaximum_score q).1 with hheard | ⟨himp, -⟩
    · exact .inr ⟨q, hheard⟩
    · exact .inl himp
  · exact Score.le_trans ((r.isMaximum_score q).2 x hx) (htells.le_best q)

/-- A phone that is heard has a possible score. -/
theorem hears_score (h : r.evidence.score p ≠ .impossible) : r.Hears p (r.evidence.score p) :=
  (r.isMaximum_score p).1.resolve_right fun hno => h hno.1

theorem hears_best (h : r.Hears p x) : ∃ q, r.Hears q r.evidence.best :=
  r.isMaximum_best.1.resolve_right fun hno => hno.2 x ⟨p, h⟩

theorem score_ne_impossible (h : r.Hears p x) : r.evidence.score p ≠ .impossible := fun himp =>
  h.2.2.2 (Score.eq_impossible_of_le (himp ▸ (r.isMaximum_score p).2 x h))

/-- A phone outside the inventory has no standing. -/
theorem relative_of_le (h : r.phones ≤ p) : r.evidence.relative p = .impossible := by
  rw [Evidence.relative_eq, if_pos]
  by_contra hne
  exact Nat.not_lt.2 h (hears_score hne).1

/-- **No phone stands above the best one.** -/
theorem relative_le_certain (h : (r.evidence.relative p).IsNumber) :
    r.evidence.relative p ≤ .certain := by
  rw [Evidence.relative_eq] at h ⊢
  split at h
  · next himp =>
    rw [if_pos himp]
    exact Score.impossible_le Score.isNumber_certain
  · next hne =>
    rw [if_neg hne]
    exact Score.sub_le_certain (hears_score hne).possible (r.tells_evidence.le_best p) h

/-- A phone that stands somewhere stands there in the evidence. -/
theorem Stands.le_relative (hr : r.Bounded) {d : Score} (h : r.Stands p d) :
    d ≤ r.evidence.relative p := by
  obtain ⟨own, best, ⟨hown, -⟩, ⟨⟨q, hq⟩, hbest⟩, rfl⟩ := h
  have hne := score_ne_impossible hown
  obtain ⟨q', hq'⟩ := hears_best hown
  rw [Evidence.relative_eq, if_neg hne]
  exact Score.sub_le_sub ((r.isMaximum_score p).2 own hown) (hbest q' _ hq') (hown.finite hr)
    ((hears_score hne).finite hr) (hq.finite hr) (hq'.finite hr)

/-- **The evidence has the standing of a phone,** unless the phone is not heard. -/
theorem stands_relative (h : r.evidence.relative p ≠ .impossible) :
    r.Stands p (r.evidence.relative p) := by
  rw [Evidence.relative_eq] at h ⊢
  split at h
  · exact absurd rfl h
  · next hne =>
    rw [if_neg hne]
    have hown := hears_score hne
    exact ⟨_, _, ⟨hown, (r.isMaximum_score p).2⟩,
      ⟨hears_best hown, fun q x hx => r.isMaximum_best.2 x ⟨q, hx⟩⟩, rfl⟩

/-- **Some phone stands at zero** if any is heard. -/
theorem exists_relative_eq_certain (hr : r.Bounded) (h : r.Hears p x) :
    ∃ q, r.evidence.relative q = .certain := by
  obtain ⟨q, hq⟩ := r.tells_evidence.best
  obtain ⟨q', hq'⟩ := hears_best h
  refine ⟨q, ?_⟩
  rw [Evidence.relative_eq, ← hq, if_neg hq'.2.2.2]
  exact Score.sub_self hq'.2.2.1 (hq'.finite hr)

end Recording

namespace Window

/-- **What is done to a window.** -/
inductive Step where
  /-- The evidence of a frame is added. -/
  | push (r : Recording)
  /-- The oldest evidence is dropped, if there is any. -/
  | dropOldest
  /-- All evidence is dropped. -/
  | clear

/-- A window after a step. -/
def step (w : Window) : Step → Window
  | .push r => w ++ [r.evidence]
  | .dropOldest => w.dropOldest
  | .clear => []

/-- **The window after some steps.** -/
def after (steps : List Step) : Window := steps.foldl step []

/-- What is kept of some recordings. -/
def keep (kept : List Recording) : Step → List Recording
  | .push r => kept ++ [r]
  | .dropOldest => kept.tail
  | .clear => []

/-- **The recordings that are left after some steps,** the oldest first. -/
def retained (steps : List Step) : List Recording := steps.foldl keep []

theorem step_map (kept : List Recording) (s : Step) :
    step (kept.map Recording.evidence) s = (keep kept s).map Recording.evidence := by
  cases s with
  | push r => simp [step, keep]
  | dropOldest => simp [step, keep, dropOldest, List.map_tail]
  | clear => rfl

/-- **A window holds the evidence of the recordings that are left,** by induction on the steps. -/
theorem after_eq (steps : List Step) : after steps = (retained steps).map Recording.evidence := by
  have hrun : ∀ (steps : List Step) (kept : List Recording),
      steps.foldl step (kept.map Recording.evidence) =
        (steps.foldl keep kept).map Recording.evidence := by
    intro steps
    induction steps with
    | nil => exact fun _ => rfl
    | cons s steps ih =>
      intro kept
      rw [List.foldl_cons, List.foldl_cons, step_map, ih]
  exact hrun steps []

theorem penalty_eq (steps : List Step) (p : Nat) : (after steps).penalty p =
    Score.greatest ((retained steps).map fun r => r.evidence.relative p) := by
  rw [after_eq]
  unfold penalty
  rw [List.map_map]
  rfl

/-- **A penalty is the best standing of a phone in the window.**  It is a number that is not
positive, and impossible for a phone outside every inventory.  If no score is positive infinity then
it is the greatest of the standings of the phone in the recordings in which it is heard, and in a
recording in which a phone is heard some phone stands at zero. -/
theorem penalty_after (steps : List Step) (p : Nat) :
    ((after steps).penalty p).IsNumber ∧ (after steps).penalty p ≤ .certain ∧
    ((∀ r ∈ retained steps, r.phones ≤ p) → (after steps).penalty p = .impossible) ∧
    ((∀ r ∈ retained steps, r.Bounded) →
      Score.IsMaximum (fun d => ∃ r ∈ retained steps, r.Stands p d) ((after steps).penalty p) ∧
      ∀ r ∈ retained steps, (∃ q x, r.Hears q x) → ∃ q, r.evidence.relative q = .certain) := by
  have hgreatest := Score.isMaximum_greatest ((retained steps).map fun r => r.evidence.relative p)
  rw [← penalty_eq] at hgreatest
  obtain ⟨hattained, hle⟩ := hgreatest
  -- the penalty is the standing in one of the recordings, or no standing is a number
  have hcases : (after steps).penalty p = .impossible ∨
      ∃ r ∈ retained steps, (r.evidence.relative p).IsNumber ∧
        r.evidence.relative p = (after steps).penalty p := by
    rcases hattained with ⟨hin, hnum⟩ | ⟨himp, -⟩
    · obtain ⟨r, hr, heq⟩ := List.mem_map.1 hin
      exact .inr ⟨r, hr, by rwa [heq], heq⟩
    · exact .inl himp
  have hcertain : (after steps).penalty p ≤ .certain := by
    rcases hcases with himp | ⟨r, -, hnum, heq⟩
    · rw [himp]
      exact Score.impossible_le Score.isNumber_certain
    · rw [← heq]
      exact Recording.relative_le_certain hnum
  refine ⟨(Score.le_iff.1 hcertain).1, hcertain, fun hout => ?_, fun hbounded => ⟨?_, ?_⟩⟩
  · rcases hcases with himp | ⟨r, hr, -, heq⟩
    · exact himp
    · rw [← heq, Recording.relative_of_le (hout r hr)]
  · refine Score.isMaximum_of ?_ fun d ⟨r, hr, hd⟩ => ?_
    · rcases hcases with himp | ⟨r, hr, -, heq⟩
      · exact .inl himp
      · by_cases himp : r.evidence.relative p = .impossible
        · exact .inl (heq ▸ himp)
        · exact .inr ⟨r, hr, heq ▸ Recording.stands_relative himp⟩
    · have hstands := hd.le_relative (hbounded r hr)
      have hnum := (Score.le_iff.1 hstands).2.1
      exact Score.le_trans hstands (hle _ ⟨List.mem_map_of_mem hr, hnum⟩)
  · rintro r hr ⟨q, x, hx⟩
    exact Recording.exists_relative_eq_certain (hbounded r hr) hx

/-- Two frames, of which the first is dropped.  In the second a score is not a number, and the best
one is of a phone outside the inventory. -/
def murmur : List Step :=
  [.push ⟨0, 2, [(0, .certain)]⟩,
    .push ⟨1, 2, [(0, Float32.ofBits 0x7FC00000), (1, Float32.ofBits 0xBF800000),
      (0, Float32.ofBits 0xC0400000), (7, .certain)]⟩,
    .dropOldest]

/-- Three below one is two. -/
theorem penalty_after_murmur : (∀ r ∈ retained murmur, r.Bounded) ∧
    Score.IsMaximum (fun d => ∃ r ∈ retained murmur, r.Stands 0 d)
      (Float32.ofBits 0xC0000000) ∧
    (after murmur).penalty 7 = .impossible := by
  have hbounded : ∀ r ∈ retained murmur, r.Bounded := by decide
  have hpenalty : (after murmur).penalty 0 = Float32.ofBits 0xC0000000 := by decide +kernel
  obtain ⟨-, -, -, hstands⟩ := penalty_after murmur 0
  obtain ⟨-, -, houtside, -⟩ := penalty_after murmur 7
  exact ⟨hbounded, hpenalty ▸ (hstands hbounded).1, houtside (by decide)⟩

end Window

end SpeechDecoder

import SpeechDecoder.Proofs.Score.Greatest

/-!
# Sorted scores

The sorted list is told by recursion: an element comes after those of the others that rank above it,
and before the rest (`sortDescending_cons`).  So to sort and to leave elements out commute
(`sortDescending_filter`).

* `sortDescending_of_pairwise`: what is sorted stays as it is.
* `pairwise_le_sortDescending` reads the order of ranks as the order of numbers.
* `filter_eq_takeWhile`: a filter that keeps an element only if it keeps those before it keeps the
  elements from the front.
-/

namespace SpeechDecoder.Score

variable {α : Type} {score : α → Score} {xs : List α}

/-- **An element among sorted ones:** those that rank above it come before it, the others after it. -/
theorem sortDescending_cons (score : α → Score) (x : α) (xs : List α) :
    sortDescending score (x :: xs) =
        (sortDescending score xs).filter (fun y => !notBelow score x y) ++
          x :: (sortDescending score xs).filter (notBelow score x) ∧
      sortDescending score xs = (sortDescending score xs).filter (fun y => !notBelow score x y) ++
        (sortDescending score xs).filter (notBelow score x) := by
  obtain ⟨above, rest, hall, hxs, habove⟩ := List.mergeSort_cons (notBelow_trans score)
    (notBelow_total score) x xs
  have hrest : ∀ y ∈ rest, notBelow score x y = true := by
    have hsorted := pairwise_sortDescending score (x :: xs)
    unfold sortDescending at hsorted
    rw [hall, List.pairwise_append, List.pairwise_cons] at hsorted
    exact fun y hy => notBelow_iff.2 (hsorted.2.1.1 y hy)
  have hfirst : (above ++ rest).filter (fun y => !notBelow score x y) = above := by
    rw [List.filter_append, List.filter_eq_self.2 habove,
      List.filter_eq_nil_iff.2 fun y hy => by rw [hrest y hy]; decide, List.append_nil]
  have hlast : (above ++ rest).filter (notBelow score x) = rest := by
    rw [List.filter_append, List.filter_eq_self.2 hrest,
      List.filter_eq_nil_iff.2 fun y hy => by simpa using habove y hy, List.nil_append]
  unfold sortDescending
  rw [hall, hxs, hfirst, hlast]
  exact ⟨rfl, rfl⟩

/-- **To sort and to leave elements out commute,** by induction on the list. -/
theorem sortDescending_filter (score : α → Score) (p : α → Bool) (xs : List α) :
    sortDescending score (xs.filter p) = (sortDescending score xs).filter p := by
  induction xs with
  | nil => rw [List.filter_nil, sortDescending, List.mergeSort_nil, List.filter_nil]
  | cons x xs ih =>
    have hcomm : ∀ q : α → Bool, ((sortDescending score xs).filter q).filter p =
        (sortDescending score (xs.filter p)).filter q := fun q => by rw [ih, List.filter_comm]
    obtain ⟨hcons, -⟩ := sortDescending_cons score x xs
    obtain ⟨hcons', hsplit⟩ := sortDescending_cons score x (xs.filter p)
    rw [hcons, List.filter_append, hcomm]
    cases hx : p x with
    | true => rw [List.filter_cons_of_pos hx, List.filter_cons_of_pos hx, hcomm, hcons']
    | false =>
      rw [List.filter_cons_of_neg (by simp [hx]), List.filter_cons_of_neg (by simp [hx]), hcomm,
        ← hsplit]

/-- What is sorted stays as it is. -/
theorem sortDescending_of_pairwise (h : xs.Pairwise fun x y => rank (score y) ≤ rank (score x)) :
    sortDescending score xs = xs :=
  List.mergeSort_of_pairwise (h.imp fun hxy => notBelow_iff.2 hxy)

/-- **No two scores have the same place** in the total order. -/
theorem rank_inj {x y : Score} (h : x.rank = y.rank) : x = y := by
  have hx := x.toBits.toBitVec.isLt
  have hy := y.toBits.toBitVec.isLt
  have hbits : x.toBits = y.toBits := by
    refine UInt32.toNat_inj.1 ?_
    unfold rank at h
    split_ifs at h <;> omega
  rw [← Float32.ofBits_toBits x, hbits, Float32.ofBits_toBits]

/-- Among numbers, a rank that is no higher is a score that is no greater. -/
theorem le_of_rank_le {x y : Score} (hx : x.IsNumber) (hy : y.IsNumber) (h : x.rank ≤ y.rank) :
    x ≤ y :=
  le_iff.2 ⟨hx, hy, level_le_of_rank_le h⟩

/-- **The sorted list never rises,** as numbers go. -/
theorem pairwise_le_sortDescending (h : ∀ x ∈ xs, (score x).IsNumber) :
    (sortDescending score xs).Pairwise fun x y => score y ≤ score x :=
  (pairwise_sortDescending score xs).imp_of_mem fun hx hy hrank =>
    le_of_rank_le (h _ (mem_sortDescending.1 hy)) (h _ (mem_sortDescending.1 hx)) hrank

/-- **A filter from the front.**  If it keeps an element only together with all that come before it,
it keeps the elements up to the first one that it drops. -/
theorem filter_eq_takeWhile {p : α → Bool}
    (h : xs.Pairwise fun x y => p y = true → p x = true) : xs.filter p = xs.takeWhile p := by
  induction xs with
  | nil => rfl
  | cons x xs ih =>
    obtain ⟨hx, hxs⟩ := List.pairwise_cons.1 h
    cases hp : p x with
    | true => rw [List.filter_cons_of_pos hp, List.takeWhile_cons_of_pos hp, ih hxs]
    | false =>
      rw [List.takeWhile_cons_of_neg (by simp [hp]), List.filter_eq_nil_iff]
      rintro y hy hpy
      rcases List.mem_cons.1 hy with rfl | hy
      · simp [hp] at hpy
      · simp [hx y hy hpy] at hp

end SpeechDecoder.Score

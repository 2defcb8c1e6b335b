import SpeechDecoder.Proofs.Score.Sum

/-!
# The greatest of some scores

Impossible scores do not count among others: there is one score that is impossible
(`eq_impossible`), nothing is below it, and the greatest score of a list is that of the others in it
(`greatest_map_filter`).  What is not a number does not count either, and the greatest of some scores
is one of the numbers among them (`greatest_spec`, `isMaximum_greatest`).  The last of the best
elements of a list is one of its best (`bestLast_spec`).
-/

namespace SpeechDecoder.Score

theorem beq_iff {x y : Score} : (x == y) = true ↔ x.IsNumber ∧ y.IsNumber ∧ x.level = y.level := by
  have hbeq : (x == y) = (x.toModel.unpack.compare y.toModel.unpack == some .eq) := rfl
  rw [hbeq, compare_unpack]
  split_ifs with h
  · simp [h.1, h.2]
  · exact iff_of_false (by simp) fun h' => h ⟨h'.1, h'.2.1⟩

theorem beq_of_le {x y : Score} (hxy : x ≤ y) (hyx : y ≤ x) : (x == y) = true := by
  obtain ⟨hx, hy, h1⟩ := le_iff.1 hxy
  obtain ⟨-, -, h2⟩ := le_iff.1 hyx
  exact beq_iff.2 ⟨hx, hy, le_antisymm h1 h2⟩

/-- **One score is impossible.** -/
theorem eq_impossible {x : Score} (h : x.level = -(top : Int)) : x = impossible := by
  have hlt : x.toBits.toNat < 4294967296 := x.toBits.toBitVec.isLt
  have hbits : x.toBits = 0xFF800000 := by
    apply UInt32.toNat_inj.1
    unfold level signedMagnitude top at h
    split_ifs at h <;> simp <;> omega
  rw [← Float32.ofBits_toBits x, hbits]
  rfl

theorem eq_impossible_of_le {x : Score} (h : x ≤ impossible) : x = impossible := by
  obtain ⟨hx, -, hle⟩ := le_iff.1 h
  have := hx.le_level
  rw [level_impossible] at hle
  exact eq_impossible (by omega)

/-- A number is above the impossible score, or is that score. -/
theorem impossible_lt_iff {x : Score} (h : x.IsNumber) : impossible < x ↔ x ≠ impossible := by
  constructor
  · rintro hlt rfl
    have := (lt_iff.1 hlt).2.2
    omega
  · intro hne
    by_contra hlt
    exact hne (eq_impossible_of_le (le_of_not_lt h isNumber_impossible hlt))

theorem beq_impossible_iff {x : Score} : (x == impossible) = true ↔ x = impossible := by
  rw [beq_iff]
  constructor
  · rintro ⟨-, -, h⟩
    exact eq_impossible (h.trans level_impossible)
  · rintro rfl
    exact ⟨isNumber_impossible, isNumber_impossible, rfl⟩

/-- **Zero has two patterns.** -/
theorem eq_zero_of_le {x : Score} (hle : certain ≤ x) (hge : x ≤ certain) :
    x = certain ∨ x = Float32.ofBits 0x80000000 := by
  have h : x.level = 0 := by
    have hzero := level_certain
    have hlow := (le_iff.1 hle).2.2
    have hhigh := (le_iff.1 hge).2.2
    omega
  have hlt : x.toBits.toNat < 4294967296 := x.toBits.toBitVec.isLt
  have hbits : x.toBits = 0 ∨ x.toBits = 0x80000000 := by
    rw [← UInt32.toNat_inj, ← UInt32.toNat_inj]
    unfold level signedMagnitude at h
    split_ifs at h <;> simp <;> omega
  rw [← Float32.ofBits_toBits x]
  exact hbits.imp (fun h => by rw [h]; rfl) fun h => by rw [h]

/-- **The greatest of the scores with a property,** or impossible if there is none. -/
def IsMaximum (P : Score → Prop) (v : Score) : Prop :=
  (P v ∨ v = impossible ∧ ∀ x, ¬ P x) ∧ ∀ x, P x → x ≤ v

/-- A score that is attained if it is not impossible, and not exceeded, is the greatest. -/
theorem isMaximum_of {P : Score → Prop} {v : Score} (hattained : v = impossible ∨ P v)
    (hle : ∀ x, P x → x ≤ v) : IsMaximum P v := by
  refine ⟨?_, hle⟩
  rcases hattained with rfl | hv
  · by_cases hex : ∃ x, P x
    · obtain ⟨x, hx⟩ := hex
      exact .inl (eq_impossible_of_le (hle x hx) ▸ hx)
    · exact .inr ⟨rfl, fun x hx => hex ⟨x, hx⟩⟩
  · exact .inl hv

/-- The greatest score is determined, but for the sign of a zero. -/
theorem IsMaximum.le {P : Score → Prop} {v w : Score} (hv : IsMaximum P v) (hw : IsMaximum P w) :
    v ≤ w := by
  rcases hv.1 with hp | ⟨rfl, -⟩
  · exact hw.2 v hp
  · refine impossible_le ?_
    rcases hw.1 with hp | ⟨rfl, -⟩
    · exact (le_iff.1 (hw.2 w hp)).1
    · exact isNumber_impossible

/-! ## The greatest score of a list -/

/-- The greater of a number and something else is a number. -/
theorem isNumber_larger {x : Score} (hx : x.IsNumber) (y : Score) : (larger x y).IsNumber := by
  unfold larger
  rw [show x.isNaN = false from hx, Bool.or_false]
  split
  · next h => exact (le_iff.1 (of_decide_eq_true h)).2.1
  · exact hx

theorem larger_impossible {x : Score} (hx : x.IsNumber) : larger x impossible = x := by
  unfold larger
  rw [show x.isNaN = false from hx, Bool.or_false]
  split
  · next h => exact (eq_impossible_of_le (of_decide_eq_true h)).symm
  · rfl

/-- What is not a number loses. -/
theorem larger_of_not_isNumber {x y : Score} (hx : x.IsNumber) (hy : ¬ y.IsNumber) :
    larger x y = x := by
  unfold larger
  rw [show x.isNaN = false from hx, Bool.or_false]
  exact if_neg fun h => hy (le_iff.1 (of_decide_eq_true h)).2.1

/-- **Scores that no number loses to are passed over,** by induction on the list. -/
theorem foldl_larger_filter {α : Type} (f : α → Score) (keep : α → Bool) : ∀ (xs : List α)
    {acc : Score}, acc.IsNumber →
    (∀ x ∈ xs, keep x = false → ∀ y : Score, y.IsNumber → larger y (f x) = y) →
    (xs.map f).foldl larger acc = ((xs.filter keep).map f).foldl larger acc
  | [], _, _, _ => rfl
  | x :: xs, acc, hacc, h => by
    have hrest := foldl_larger_filter f keep xs (isNumber_larger hacc (f x))
      fun y hy => h y (List.mem_cons_of_mem x hy)
    rw [List.map_cons, List.foldl_cons, hrest, List.filter_cons]
    cases hk : keep x with
    | true => rfl
    | false =>
      rw [h x (by simp) hk acc hacc]
      rfl

theorem greatest_map_filter {α : Type} (f : α → Score) (keep : α → Bool) (xs : List α)
    (h : ∀ x ∈ xs, keep x = false → f x = impossible) :
    greatest (xs.map f) = greatest ((xs.filter keep).map f) :=
  foldl_larger_filter f keep xs isNumber_impossible fun x hx hk y hy => by
    rw [h x hx hk, larger_impossible hy]

/-- **The greatest score of a list** is that of the numbers in it. -/
theorem greatest_filter_isNumber (xs : List Score) :
    greatest xs = greatest (xs.filter fun x => decide x.IsNumber) := by
  have hpassed := foldl_larger_filter id (fun x => decide x.IsNumber) xs isNumber_impossible
    fun x _ hx y hy => larger_of_not_isNumber hy (of_decide_eq_false hx)
  rwa [List.map_id, List.map_id] at hpassed

/-- The greater of two numbers is one of them, and not below either. -/
theorem larger_spec {x y : Score} (hx : x.IsNumber) (hy : y.IsNumber) :
    (larger x y = x ∨ larger x y = y) ∧ x ≤ larger x y ∧ y ≤ larger x y := by
  unfold larger
  rw [show x.isNaN = false from hx, Bool.or_false]
  split
  · next h => exact ⟨.inr rfl, of_decide_eq_true h, le_rfl hy⟩
  · next h =>
    refine ⟨.inl rfl, le_rfl hx, le_of_not_lt hy hx fun hlt => h (decide_eq_true (le_of_lt hlt))⟩

/-- The running greatest of some numbers, by induction on them. -/
theorem foldl_larger_spec : ∀ (xs : List Score) {acc : Score}, acc.IsNumber →
    (∀ x ∈ xs, x.IsNumber) →
    xs.foldl larger acc ∈ acc :: xs ∧ ∀ x ∈ acc :: xs, x ≤ xs.foldl larger acc
  | [], acc, hacc, _ => by simpa using le_rfl hacc
  | y :: xs, acc, hacc, h => by
    obtain ⟨heq, hleft, hright⟩ := larger_spec hacc (h y (by simp))
    obtain ⟨hmem, hle⟩ := foldl_larger_spec xs (isNumber_larger hacc y)
      fun x hx => h x (List.mem_cons_of_mem y hx)
    rw [List.foldl_cons]
    refine ⟨?_, fun x hx => ?_⟩
    · rcases List.mem_cons.1 hmem with hmem | hmem
      · rw [hmem]
        rcases heq with heq | heq <;> rw [heq] <;> simp
      · simp [hmem]
    · have hlater := hle _ (List.mem_cons_self)
      rcases List.mem_cons.1 hx with rfl | hx
      · exact le_trans hleft hlater
      · rcases List.mem_cons.1 hx with rfl | hx
        · exact le_trans hright hlater
        · exact hle x (List.mem_cons_of_mem _ hx)

/-- **The greatest of some numbers** is one of them, and none is above it. -/
theorem greatest_spec {xs : List Score} (hne : xs ≠ []) (h : ∀ x ∈ xs, x.IsNumber) :
    greatest xs ∈ xs ∧ ∀ x ∈ xs, x ≤ greatest xs := by
  obtain ⟨x, rest, rfl⟩ := List.exists_cons_of_ne_nil hne
  have hx : x.IsNumber := h x (by simp)
  have hfirst : larger impossible x = x := by
    unfold larger
    rw [decide_eq_true (impossible_le hx), Bool.true_or, if_pos rfl]
  unfold greatest
  rw [List.foldl_cons, hfirst]
  exact foldl_larger_spec rest hx fun y hy => h y (List.mem_cons_of_mem x hy)

/-- **The greatest of some scores,** of which not all need to be numbers. -/
theorem isMaximum_greatest (xs : List Score) :
    IsMaximum (fun x => x ∈ xs ∧ x.IsNumber) (greatest xs) := by
  have hmem : ∀ x, x ∈ xs.filter (fun x => decide x.IsNumber) ↔ x ∈ xs ∧ x.IsNumber := by simp
  rw [greatest_filter_isNumber]
  by_cases hne : xs.filter (fun x => decide x.IsNumber) = []
  · rw [hne]
    refine isMaximum_of (.inl rfl) fun x hx => ?_
    rw [← hmem x, hne] at hx
    cases hx
  · obtain ⟨hin, hle⟩ := greatest_spec hne fun x hx => ((hmem x).1 hx).2
    exact isMaximum_of (.inr ((hmem _).1 hin)) fun x hx => hle x ((hmem x).2 hx)

/-! ## The last of the best elements -/

theorem bestLast_concat {α : Type} (score : α → Score) (xs : List α) (x : α) :
    bestLast score (xs ++ [x]) = laterBest score (bestLast score xs) x := by
  unfold bestLast
  rw [List.foldl_append]
  rfl

/-- **The last of the best elements of a list,** by induction on the list from its end. -/
theorem bestLast_spec {α : Type} (score : α → Score) (xs : List α) :
    (bestLast score xs = none ↔ xs = []) ∧ ∀ y, bestLast score xs = some y →
      y ∈ xs ∧ ∀ x ∈ xs, rank (score x) ≤ rank (score y) := by
  induction xs using List.reverseRecOn with
  | nil => exact ⟨iff_of_true rfl rfl, fun y hy => by cases hy⟩
  | append_singleton xs x ih =>
    obtain ⟨hnone, hsome⟩ := ih
    rw [bestLast_concat]
    cases hb : bestLast score xs with
    | none =>
      rw [hnone.1 hb]
      refine ⟨by simp [laterBest], fun y hy => ?_⟩
      cases hy
      simp
    | some y =>
      obtain ⟨hmem, hle⟩ := hsome y hb
      unfold laterBest
      dsimp only
      split
      · next hlater =>
        refine ⟨by simp, fun z hz => ?_⟩
        cases hz
        refine ⟨by simp, fun w hw => ?_⟩
        rcases List.mem_append.1 hw with hw | hw
        · exact (hle w hw).trans hlater
        · rw [List.mem_singleton.1 hw]
      · next hearlier =>
        refine ⟨by simp, fun z hz => ?_⟩
        cases hz
        refine ⟨List.mem_append_left _ hmem, fun w hw => ?_⟩
        rcases List.mem_append.1 hw with hw | hw
        · exact hle w hw
        · rw [List.mem_singleton.1 hw]
          omega

end SpeechDecoder.Score

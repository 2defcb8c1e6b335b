import SpeechDecoder.Proofs.Decimal.Basin
import SpeechDecoder.Proofs.Decimal.Separation

/-!
# The shortest decimal of a score

The shortest decimal of a score lies in its basin (`exists_isShortest`).  Its grid is not coarser
than the basin is wide, and not finer than the grid with steps of half of the last place, which
always has a point in the basin (`isSome_grid`).  On a grid that is finer than the scores it is the
grid point nearest to the score.

The natural numbers that the search counts in are rational numbers times one factor
(`Basin.scale`).
-/

namespace SpeechDecoder.Decimal

open Rounding

theorem ten_zpow_pos (k : ℤ) : (0 : ℚ) < 10 ^ k := zpow_pos (by norm_num) k

namespace Basin

variable (b : Basin) (k : ℤ)

/-- The factor that makes natural numbers of grid points and quarters of the last place. -/
def scale : ℚ := 10 ^ (-k).toNat * 2 ^ (2 - b.exponent).toNat

theorem scale_pos : 0 < b.scale k := by
  unfold scale
  positivity

theorem cast_gridUnit : (b.gridUnit k : ℚ) = 10 ^ k * b.scale k := by
  have hten := zpow_mul_toNat (a := 10) (by norm_num) k
  unfold gridUnit scale
  rw [← mul_assoc, hten]
  simp only [Nat.pow_eq]
  push_cast
  rfl

theorem cast_quarterUnit : (b.quarterUnit k : ℚ) = 2 ^ (b.exponent - 2) * b.scale k := by
  have htwo := zpow_mul_toNat (a := 2) (by norm_num) (b.exponent - 2)
  rw [neg_sub] at htwo
  unfold quarterUnit scale
  rw [mul_left_comm, htwo, mul_comm]
  simp only [Nat.pow_eq]
  push_cast
  rfl

variable {b k}

theorem cast_point (d : ℕ) : ((d * b.gridUnit k : ℕ) : ℚ) = b.scale k * (d * 10 ^ k) := by
  rw [Nat.cast_mul, cast_gridUnit]
  ring

theorem cast_quarters (u : ℕ) :
    ((u * b.quarterUnit k : ℕ) : ℚ) = b.scale k * (u * 2 ^ (b.exponent - 2)) := by
  rw [Nat.cast_mul, cast_quarterUnit]
  ring

/-- A number of quarters against a number of grid steps. -/
theorem quarter_le_grid {u d : ℕ} :
    u * b.quarterUnit k ≤ d * b.gridUnit k ↔ (u * 2 ^ (b.exponent - 2) : ℚ) ≤ d * 10 ^ k :=
  natCast_le_iff (b.scale_pos k) (cast_quarters u) (cast_point d)

theorem grid_le_quarter {u d : ℕ} :
    d * b.gridUnit k ≤ u * b.quarterUnit k ↔ (d * 10 ^ k : ℚ) ≤ u * 2 ^ (b.exponent - 2) :=
  natCast_le_iff (b.scale_pos k) (cast_point d) (cast_quarters u)

/-- **A basin holds the decimals that it contains.** -/
theorem holds_iff {d : ℕ} : b.holds k d = true ↔ b.Contains (d * 10 ^ k) := by
  have hlow : b.low * b.quarterUnit k ≤ d * b.gridUnit k ↔ _ := quarter_le_grid
  have hhigh : d * b.gridUnit k ≤ b.high * b.quarterUnit k ↔ _ := grid_le_quarter
  have hlow' : b.low * b.quarterUnit k < d * b.gridUnit k ↔ _ :=
    not_le.symm.trans grid_le_quarter.not
  have hhigh' : d * b.gridUnit k < b.high * b.quarterUnit k ↔ _ :=
    not_le.symm.trans quarter_le_grid.not
  unfold holds Contains
  cases b.closed with
  | true => simp [hlow, hhigh]
  | false =>
    simp only [Bool.false_eq_true, if_false, decide_eq_true_eq, hlow', hhigh', imp_false, not_or,
      not_le]
    constructor
    · rintro ⟨h, h'⟩
      exact ⟨h.le, h'.le, h.ne', h'.ne⟩
    · rintro ⟨h, h', hne, hne'⟩
      exact ⟨lt_of_le_of_ne h (Ne.symm hne), lt_of_le_of_ne h' hne'⟩

/-- **The score of a basin.** -/
def value (b : Basin) : ℚ := b.mantissa * 2 ^ b.exponent

theorem value_eq_quarters : b.value = (4 * b.mantissa : ℕ) * 2 ^ (b.exponent - 2) := by
  unfold value
  rw [two_zpow_eq 2 (show b.exponent = b.exponent - 2 + (2 : ℕ) by omega)]
  push_cast
  ring

theorem gridUnit_pos : 0 < b.gridUnit k := by
  unfold gridUnit
  simp only [Nat.pow_eq]
  positivity

theorem below_le_value : b.below k * 10 ^ k ≤ b.value := by
  rw [value_eq_quarters, ← grid_le_quarter]
  exact Nat.div_mul_le_self _ _

theorem value_lt_above : b.value < (b.below k + 1 : ℕ) * 10 ^ k := by
  rw [value_eq_quarters, ← not_le, ← grid_le_quarter, not_le]
  exact Nat.lt_mul_of_div_lt (Nat.lt_succ_self _) gridUnit_pos

/-- What the score is past the grid point below it. -/
theorem cast_past : ((4 * b.mantissa * b.quarterUnit k - b.below k * b.gridUnit k : ℕ) : ℚ) =
    (b.value - b.below k * 10 ^ k) * b.scale k := by
  have hle : b.below k * b.gridUnit k ≤ 4 * b.mantissa * b.quarterUnit k := Nat.div_mul_le_self _ _
  rw [Nat.cast_sub hle, Nat.cast_mul (4 * b.mantissa), Nat.cast_mul (b.below k), cast_gridUnit,
    cast_quarterUnit, value_eq_quarters]
  ring

/-- **The grid point that is chosen** is not farther from the score than the other one. -/
theorem upperIsNearer_spec (tie : Tie) :
    (b.upperIsNearer tie k = true → (10 : ℚ) ^ k ≤ 2 * (b.value - b.below k * 10 ^ k)) ∧
      (b.upperIsNearer tie k = false → 2 * (b.value - b.below k * 10 ^ k) ≤ 10 ^ k) := by
  have hle : ∀ past : ℕ, (past : ℚ) = (b.value - b.below k * 10 ^ k) * b.scale k →
      (2 * past ≤ b.gridUnit k ↔ 2 * (b.value - b.below k * 10 ^ k) ≤ 10 ^ k) ∧
        (b.gridUnit k ≤ 2 * past ↔ (10 : ℚ) ^ k ≤ 2 * (b.value - b.below k * 10 ^ k)) := by
    intro past hpast
    have htwice : ((2 * past : ℕ) : ℚ) = b.scale k * (2 * (b.value - b.below k * 10 ^ k)) := by
      rw [Nat.cast_mul, hpast]
      ring
    have hgrid : (b.gridUnit k : ℚ) = b.scale k * 10 ^ k := (cast_gridUnit b k).trans (mul_comm _ _)
    exact ⟨natCast_le_iff (b.scale_pos k) htwice hgrid, natCast_le_iff (b.scale_pos k) hgrid htwice⟩
  obtain ⟨hlow, hhigh⟩ := hle _ cast_past
  unfold upperIsNearer
  dsimp only
  generalize 4 * b.mantissa * b.quarterUnit k - b.below k * b.gridUnit k = past at hlow hhigh ⊢
  rcases lt_trichotomy (2 * past) (b.gridUnit k) with h | h | h
  · rw [compare_lt_iff_lt.2 h]
    exact ⟨by simp, fun _ => hlow.1 h.le⟩
  · exact ⟨fun _ => hhigh.1 h.ge, fun _ => hlow.1 h.le⟩
  · rw [compare_gt_iff_gt.2 h]
    exact ⟨fun _ => hhigh.1 h.le, by simp⟩

variable {tie : Tie} {d : Scientific}

/-- **What stands for the score on a grid:** one of the points around it, and the other one only if
it does not lie in the basin or is not nearer. -/
theorem onGrid?_eq_some (h : b.onGrid? tie k = some d) : d.exponent = k ∧
    b.Contains (d.coefficient * 10 ^ k) ∧
    (d.coefficient = b.below k ∧ (b.Contains ((b.below k + 1 : ℕ) * 10 ^ k) →
        2 * (b.value - b.below k * 10 ^ k) ≤ 10 ^ k) ∨
      d.coefficient = b.below k + 1 ∧ (b.Contains (b.below k * 10 ^ k) →
        (10 : ℚ) ^ k ≤ 2 * (b.value - b.below k * 10 ^ k))) := by
  obtain ⟨habove, hbelow⟩ := upperIsNearer_spec tie (b := b) (k := k)
  unfold onGrid? at h
  dsimp only at h
  split at h
  · cases h
  · next hb ha =>
    cases h
    refine ⟨rfl, holds_iff.1 hb, .inl ⟨rfl, fun hc => ?_⟩⟩
    rw [holds_iff.2 hc] at ha
    cases ha
  · next hb ha =>
    cases h
    refine ⟨rfl, holds_iff.1 ha, .inr ⟨rfl, fun hc => ?_⟩⟩
    rw [holds_iff.2 hc] at hb
    cases hb
  · next hb ha =>
    cases h
    cases hu : b.upperIsNearer tie k with
    | true => exact ⟨rfl, holds_iff.1 ha, .inr ⟨rfl, fun _ => habove hu⟩⟩
    | false => exact ⟨rfl, holds_iff.1 hb, .inl ⟨rfl, fun _ => hbelow hu⟩⟩

/-- A grid with a point in the basin has one for the score. -/
theorem isSome_onGrid? (h : b.Contains (b.below k * 10 ^ k) ∨
    b.Contains ((b.below k + 1 : ℕ) * 10 ^ k)) : (b.onGrid? tie k).isSome = true := by
  rw [← holds_iff, ← holds_iff] at h
  unfold onGrid?
  dsimp only
  rcases h with h | h
  · rw [h]
    cases b.holds k (b.below k + 1) <;> rfl
  · rw [h]
    cases b.holds k (b.below k) <;> rfl

end Basin

/-! ## The grids of a score -/

variable {m : ℕ} {q k : ℤ}

/-- **The grid with steps of half of the last place at most.** -/
theorem grid_spec (h : IsScore m q) : (10 : ℚ) ^ grid q ≤ 2 ^ (q - 1) ∧
    (2 : ℚ) ^ (q - 1) < 10 * 10 ^ grid q := by
  have := h.le
  have := h.le_last
  have hq : ((q + 149).toNat : ℤ) - 149 = q := by omega
  have htried := grid_tried (q + 149).toNat (by omega)
  rw [hq] at htried
  obtain ⟨hlow, hhigh⟩ := htried
  rw [natCast_le_iff (factor_pos tens_pos q _) (cast_denom tens_pos q _) (cast_numer q _),
    step_tens] at hlow
  rw [natCast_lt_iff (factor_pos tens_pos q _) (cast_numer q _) (cast_denom tens_pos q _),
    step_tens, zpow_add_one₀ (by norm_num), mul_comm] at hhigh
  exact ⟨hlow, hhigh⟩

/-- **What is chosen as the decimal of a score** on a grid. -/
structure IsShortest (m : ℕ) (q : ℤ) (d : ℕ) (k : ℤ) : Prop where
  contains : (Basin.ofMantissa m q).Contains (d * 10 ^ k)
  neighbour : d = (Basin.ofMantissa m q).below k ∨ d = (Basin.ofMantissa m q).below k + 1
  /-- On a fine grid it is the point nearest to the score. -/
  near : m ≠ 8388608 ∨ q = -149 → (10 : ℚ) ^ k < 2 ^ q →
    2 * |(d * 10 ^ k - m * 2 ^ q : ℚ)| ≤ 10 ^ k
  le : grid q ≤ k

/-- What lies within half of the last place is in the basin. -/
theorem contains_of_near (hm : 0 < m) (heven : m ≠ 8388608 ∨ q = -149) {r : ℚ}
    (h : 2 * |r - m * 2 ^ q| < 2 ^ q) : (Basin.ofMantissa m q).Contains r := by
  rw [← two_mul_zpow q] at h
  obtain ⟨hlow, hhigh⟩ := abs_lt.1 (show |r - m * (2 * 2 ^ (q - 1))| < 2 ^ (q - 1) by linarith)
  have hlow' : (2 * m - 1) * 2 ^ (q - 1) < r := by linarith
  have hhigh' : r < (2 * m + 1) * 2 ^ (q - 1) := by linarith
  rw [Basin.contains_even hm heven]
  refine ⟨hlow'.le, hhigh'.le, ?_⟩
  rintro (h | h)
  · exact absurd h hlow'.ne'
  · exact absurd h hhigh'.ne

/-- **The grid of half of the last place has a point in the basin.** -/
theorem isSome_grid (h : IsScore m q) (tie : Tie) :
    ((Basin.ofMantissa m q).onGrid? tie (grid q)).isSome = true := by
  obtain ⟨hstep, -⟩ := grid_spec h
  have hbelow : _ ≤ (m * 2 ^ q : ℚ) := Basin.below_le_value (b := .ofMantissa m q) (k := grid q)
  have habove : (m * 2 ^ q : ℚ) < _ := Basin.value_lt_above (b := .ofMantissa m q) (k := grid q)
  push_cast at habove
  refine Basin.isSome_onGrid? ?_
  have htwo := two_mul_zpow q
  by_cases heven : m ≠ 8388608 ∨ q = -149
  · refine .inl (contains_of_near h.pos heven ?_)
    rw [abs_sub_comm, abs_of_nonneg (by linarith)]
    linarith
  · obtain ⟨rfl, hq⟩ : m = 8388608 ∧ q ≠ -149 := by omega
    have hq' : -149 < q := by
      have := h.le
      omega
    right
    rw [Basin.contains_power hq']
    rw [two_zpow_eq 2 (show q = q - 2 + (2 : ℕ) by omega)] at hbelow habove
    rw [two_zpow_eq 1 (show q - 1 = q - 2 + (1 : ℕ) by omega)] at hstep
    have hquarter := two_zpow_pos (q - 2)
    push_cast at hbelow habove ⊢
    constructor
    · linarith
    · linarith

theorem near_of_onGrid? (hm : 0 < m) (heven : m ≠ 8388608 ∨ q = -149) {d : ℕ}
    (hk : (10 : ℚ) ^ k < 2 ^ q) {tie : Tie}
    (h : (Basin.ofMantissa m q).onGrid? tie k = some ⟨d, k⟩) :
    2 * |(d * 10 ^ k - m * 2 ^ q : ℚ)| ≤ 10 ^ k := by
  have hbelow : _ ≤ (m * 2 ^ q : ℚ) := Basin.below_le_value (b := .ofMantissa m q) (k := k)
  have habove : (m * 2 ^ q : ℚ) < _ := Basin.value_lt_above (b := .ofMantissa m q) (k := k)
  push_cast at habove
  obtain ⟨-, -, ⟨hd, hfar⟩ | ⟨hd, hfar⟩⟩ := Basin.onGrid?_eq_some h
  · have hd' : (d : ℚ) = (Basin.ofMantissa m q).below k := by exact_mod_cast hd
    rw [hd', abs_sub_comm, abs_of_nonneg (by linarith)]
    by_contra hlt
    rw [not_le] at hlt
    refine absurd (hfar (contains_of_near hm heven ?_)) (not_le.2 hlt)
    rw [Nat.cast_add, Nat.cast_one, abs_of_nonneg (by linarith)]
    linarith
  · have hd' : (d : ℚ) = (Basin.ofMantissa m q).below k + 1 := by exact_mod_cast hd
    rw [hd', abs_of_nonneg (by linarith)]
    by_contra hlt
    rw [not_le] at hlt
    have hfar' := hfar (contains_of_near hm heven ?_)
    · change (10 : ℚ) ^ k ≤ 2 * (m * 2 ^ q - _) at hfar'
      linarith
    · rw [abs_sub_comm, abs_of_nonneg (by linarith)]
      linarith

/-- **The shortest decimal of a score** is chosen on its grid. -/
theorem exists_isShortest (h : IsScore m q) (tie : Tie) : ∃ (d : ℕ) (k : ℤ),
    (Basin.ofMantissa m q).shortest tie = ⟨d, k⟩ ∧ IsShortest m q d k := by
  have := h.le
  have := h.le_last
  have hgrid : grid q ≤ 40 ∧ -69 < grid q := by
    unfold grid
    omega
  obtain ⟨found, hfound⟩ : ∃ found, (List.range 110).findSome?
      (fun (i : ℕ) => (Basin.ofMantissa m q).onGrid? tie (40 - (i : ℤ))) = some found := by
    rw [← Option.isSome_iff_exists, List.findSome?_isSome_iff]
    refine ⟨(40 - grid q).toNat, List.mem_range.2 (by omega), ?_⟩
    rw [show (40 : ℤ) - ((40 - grid q).toNat : ℕ) = grid q by omega]
    exact isSome_grid h tie
  obtain ⟨before, i, after, hrange, hi, hbefore⟩ := List.findSome?_eq_some_iff.1 hfound
  obtain ⟨d, k⟩ := found
  obtain ⟨hk, hcontains, hneighbour⟩ := Basin.onGrid?_eq_some hi
  subst hk
  refine ⟨d, 40 - i, ?_, hcontains, ?_, fun heven hfine => near_of_onGrid? h.pos heven hfine hi, ?_⟩
  · unfold Basin.shortest
    rw [hfound]
    rfl
  · exact hneighbour.imp And.left And.left
  · -- the grids before the one that was taken are not this one
    by_contra hlt
    have hmem : (40 - grid q).toNat ∈ List.range 110 := List.mem_range.2 (by omega)
    have hsorted := List.pairwise_lt_range (n := 110)
    rw [hrange] at hmem hsorted
    obtain ⟨-, hsorted, -⟩ := List.pairwise_append.1 hsorted
    have hafter := (List.pairwise_cons.1 hsorted).1
    have hnone := hbefore (40 - grid q).toNat ?_
    · rw [show (40 : ℤ) - ((40 - grid q).toNat : ℕ) = grid q by omega] at hnone
      exact absurd (isSome_grid h tie) (by rw [hnone]; decide)
    · rcases List.mem_append.1 hmem with hmem | hmem
      · exact hmem
      · rcases List.mem_cons.1 hmem with heq | hmem
        · omega
        · have := hafter _ hmem
          omega

/-! ## Its size -/

namespace IsShortest

variable {d : ℕ}

theorem pos (hm : 0 < m) (hs : IsShortest m q d k) : 0 < d := by
  have hlow : 0 < (Basin.ofMantissa m q).low := by
    unfold Basin.ofMantissa
    dsimp only
    split_ifs <;> omega
  have hlow' : (0 : ℚ) < (Basin.ofMantissa m q).low := by exact_mod_cast hlow
  have hpos := (mul_pos hlow' (two_zpow_pos _)).trans_le hs.contains.1
  by_contra h0
  obtain rfl : d = 0 := by omega
  simp at hpos

/-- A decimal in the basin is less than the next power of two. -/
theorem le_last (h : IsScore m q) (hs : IsShortest m q d k) :
    (d * 10 ^ k : ℚ) ≤ 33554431 * 2 ^ (q - 1) := by
  have hm : (m : ℚ) ≤ 16777215 := by exact_mod_cast Nat.le_of_lt_succ h.lt
  have hhigh : (d * 10 ^ k : ℚ) ≤ (4 * m + 2 : ℕ) * 2 ^ (q - 2) := hs.contains.2.1
  refine hhigh.trans ?_
  rw [two_zpow_eq 1 (show q - 1 = q - 2 + (1 : ℕ) by omega), ← mul_assoc]
  refine mul_le_mul_of_nonneg_right ?_ (two_zpow_pos _).le
  push_cast
  linarith

/-- **It has nine digits at most.** -/
theorem lt (h : IsScore m q) (hs : IsShortest m q d k) : d < 2 ^ 29 := by
  obtain ⟨-, hgrid⟩ := grid_spec h
  have hmono : (10 : ℚ) ^ grid q ≤ 10 ^ k := zpow_le_zpow_right₀ (by norm_num) hs.le
  have hle := hs.le_last h
  have hpos := ten_zpow_pos k
  have hlt : (d : ℚ) * 10 ^ k < 2 ^ 29 * 10 ^ k := by linarith
  exact_mod_cast lt_of_mul_lt_mul_right hlt hpos.le

/-- The grid is not much coarser than the scores. -/
theorem le_grid (h : IsScore m q) (hs : IsShortest m q d k) : k < grid q + 9 := by
  obtain ⟨-, hgrid⟩ := grid_spec h
  have hd : (1 : ℚ) ≤ d := by exact_mod_cast hs.pos h.pos
  have hle := hs.le_last h
  have hstep : (10 : ℚ) ^ k ≤ d * 10 ^ k := le_mul_of_one_le_left (ten_zpow_pos k).le hd
  have hten : (10 : ℚ) ^ (grid q + 9) = 1000000000 * 10 ^ grid q := by
    rw [zpow_add₀ (by norm_num), mul_comm]
    norm_num
  have hpos := ten_zpow_pos (grid q)
  have hlt : (10 : ℚ) ^ k < 10 ^ (grid q + 9) := by
    rw [hten]
    linarith
  exact (zpow_lt_zpow_iff_right₀ (by norm_num)).1 hlt

/-- Its power of ten is small. -/
theorem natAbs_lt (h : IsScore m q) (hs : IsShortest m q d k) : k.natAbs < 47 := by
  have := hs.le
  have := hs.le_grid h
  have := h.le
  have := h.le_last
  unfold grid at *
  omega

end IsShortest

end SpeechDecoder.Decimal

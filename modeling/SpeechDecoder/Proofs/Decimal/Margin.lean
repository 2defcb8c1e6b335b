import SpeechDecoder.Proofs.Decimal.Grid
import SpeechDecoder.Proofs.Score.Double

/-!
# Errors that stay in the basin

A reader of a decimal `d · 10 ^ k` knows the powers of ten as doubles, and rounds once more when it
multiplies or divides by one (`RoundsTo`).  The shortest decimal of a score is not carried out of
its basin by these two errors (`IsShortest.contains_rounded`).
-/

namespace SpeechDecoder.Decimal

open Rounding

variable {m d N : ℕ} {q k : ℤ} {y : ℚ}

/-! ## The two errors -/

section Errors

variable (h : IsScore m q) (hs : IsShortest m q d k) (hy : RoundsTo (d * step power k) y)

include h hs

/-- The error of the power of ten. -/
theorem step_error : |d * step power k - d * 10 ^ k| ≤ 2 ^ (q - 1) / 2 ^ 27 := by
  have hle := hs.le_last h
  have hunit := two_zpow_pos (q - 1)
  rw [← mul_sub, abs_mul, abs_of_nonneg (Nat.cast_nonneg d)]
  calc d * |step power k - 10 ^ k| ≤ d * (10 ^ k / 2 ^ 52) :=
        mul_le_mul_of_nonneg_left (step_power_near (hs.natAbs_lt h)) (Nat.cast_nonneg d)
    _ = d * 10 ^ k / 2 ^ 52 := by ring
    _ ≤ 2 ^ (q - 1) / 2 ^ 27 := by linarith

include hy

/-- The error of the multiplication or division. -/
theorem result_error : |y - d * step power k| ≤ 2 ^ (q - 1) / 2 ^ 29 := by
  have := h.le
  have hle := hs.le_last h
  have hunit := two_zpow_pos (q - 1)
  have herror := abs_le.1 (step_error h hs)
  have htop : (2 : ℚ) ^ (q + 24) = 2 ^ 25 * 2 ^ (q - 1) := two_zpow_eq 25 (by omega)
  have hnear := hy.near (t := q + 24) (by omega) (by rw [htop]; linarith)
  refine hnear.trans_eq ?_
  rw [two_zpow_eq 29 (show q - 1 = q + 24 - 54 + (29 : ℕ) by omega)]
  ring

end Errors

/-- What needs no rounding. -/
theorem result_exact (hq : -149 ≤ q) (hy : RoundsTo (d * step power k) y) (hk : k.natAbs ≤ 22)
    (hN : N < 2 ^ 53) (heq : (d * 10 ^ k : ℚ) = N * 2 ^ (q - 1)) : y = N * 2 ^ (q - 1) := by
  rw [← step_power_eq hk] at heq
  rw [hy.exact hN (by omega) heq, heq]

/-! ## The middle of two scores -/

theorem cast_steps (d : ℕ) :
    ((d * denom tens q k : ℕ) : ℚ) = factor tens q k * (d * 10 ^ k) := by
  rw [Nat.cast_mul, cast_denom tens_pos, step_tens]
  ring

theorem cast_halves (N : ℕ) :
    ((N * numer tens q k : ℕ) : ℚ) = factor tens q k * (N * 2 ^ (q - 1)) := by
  rw [Nat.cast_mul, cast_numer]
  ring

/-- A number of steps against a number of halves of the last place. -/
theorem steps_lt_iff : d * denom tens q k < N * numer tens q k ↔
    (d * 10 ^ k : ℚ) < N * 2 ^ (q - 1) :=
  natCast_lt_iff (factor_pos tens_pos q k) (cast_steps d) (cast_halves N)

theorem lt_steps_iff : N * numer tens q k < d * denom tens q k ↔
    (N * 2 ^ (q - 1) : ℚ) < d * 10 ^ k :=
  natCast_lt_iff (factor_pos tens_pos q k) (cast_halves N) (cast_steps d)

theorem steps_eq_iff : d * denom tens q k = N * numer tens q k ↔
    (d * 10 ^ k : ℚ) = N * 2 ^ (q - 1) :=
  natCast_eq_iff (factor_pos tens_pos q k) (cast_steps d) (cast_halves N)

/-- A distance that has been tried, with the powers of ten rounded. -/
theorem rounded_lt_iff {i : ℕ} :
    2 ^ 29 * (d * denom power q k) + numer power q k < 2 ^ i * (N * numer power q k) ↔
      (2 ^ 29 * (d * step power k) + 2 ^ (q - 1) : ℚ) < 2 ^ i * (N * 2 ^ (q - 1)) := by
  refine natCast_lt_iff (factor_pos power_pos q k) ?_ ?_
  · push_cast
    rw [cast_denom power_pos, cast_numer]
    ring
  · push_cast
    rw [cast_numer]
    ring

theorem lt_rounded_iff {i : ℕ} :
    2 ^ i * (N * numer power q k) + numer power q k < 2 ^ 29 * (d * denom power q k) ↔
      (2 ^ i * (N * 2 ^ (q - 1)) + 2 ^ (q - 1) : ℚ) < 2 ^ 29 * (d * step power k) := by
  refine natCast_lt_iff (factor_pos power_pos q k) ?_ ?_
  · push_cast
    rw [cast_numer]
    ring
  · push_cast
    rw [cast_denom power_pos]
    ring

/-- **A decimal on one side of the middle of two scores** is read on this side. -/
theorem Apart.keeps (h : Apart (numer tens q k) (denom tens q k) (numer power q k)
    (denom power q k) d N) (herror : |y - d * step power k| ≤ 2 ^ (q - 1) / 2 ^ 29) :
    ((d * 10 ^ k : ℚ) < N * 2 ^ (q - 1) → y < N * 2 ^ (q - 1)) ∧
      ((N * 2 ^ (q - 1) : ℚ) < d * 10 ^ k → N * 2 ^ (q - 1) < y) := by
  obtain ⟨hlow, hhigh⟩ := abs_le.1 herror
  constructor
  · intro hlt
    have := rounded_lt_iff.1 (h.below (steps_lt_iff.2 hlt))
    linarith
  · intro hlt
    have := lt_rounded_iff.1 (h.above (lt_steps_iff.2 hlt))
    linarith

/-- The grid of a shortest decimal has been tried. -/
theorem IsShortest.settled (h : IsScore m q) (hs : IsShortest m q d k) : Settled q k := by
  have := h.le
  have := h.le_last
  have := hs.le
  have := hs.le_grid h
  have htried := settled_tried (q + 149).toNat (by omega) (k - grid q).toNat (by omega)
  rwa [show ((q + 149).toNat : ℤ) - 149 = q by omega,
    show grid q + ((k - grid q).toNat : ℕ) = k by omega] at htried

/-- What has been tried keeps the decimals of a coarse grid apart from the middles. -/
theorem Settled.apart (h : Settled q k) (hcoarse : 2 * numer tens q k ≤ denom tens q k)
    (hmeets : denom tens q k < 33554432 * numer tens q k) (hN : 0 < N) (hN' : N ≤ 33554432) :
    Apart (numer tens q k) (denom tens q k) (numer power q k) (denom power q k) d N ∧
      (d * denom tens q k = N * numer tens q k → k.natAbs ≤ 22) := by
  unfold Settled at h
  rw [if_neg (not_lt.2 hcoarse)] at h
  rcases h with h | ⟨hk, h⟩ | h
  · omega
  · have hnumer : numer power q k = numer tens q k := by
      unfold numer
      rw [power_eq_tens _ (by omega)]
    have hdenom : denom power q k = denom tens q k := by
      unfold denom
      rw [power_eq_tens _ (by omega)]
    rw [hnumer, hdenom]
    exact ⟨apart_of_gcd h, fun _ => hk⟩
  · obtain ⟨hapart, hne⟩ := Bracket.separates h hN hN'
    exact ⟨hapart, fun heq => absurd heq hne⟩

/-- **The middle of two scores is not crossed** on a coarse grid. -/
theorem middle_kept (h : IsScore m q) (hs : IsShortest m q d k)
    (hy : RoundsTo (d * step power k) y) (hcoarse : (2 : ℚ) ^ q ≤ 10 ^ k) (hN : 0 < N)
    (hN' : N ≤ 33554432) : ((d * 10 ^ k : ℚ) < N * 2 ^ (q - 1) → y < N * 2 ^ (q - 1)) ∧
      ((N * 2 ^ (q - 1) : ℚ) < d * 10 ^ k → N * 2 ^ (q - 1) < y) ∧
      ((d * 10 ^ k : ℚ) = N * 2 ^ (q - 1) → y = N * 2 ^ (q - 1)) := by
  have hcoarse' : 2 * numer tens q k ≤ denom tens q k := by
    rw [← not_lt, ← Nat.one_mul (denom tens q k), steps_lt_iff, not_lt]
    rw [← two_mul_zpow] at hcoarse
    simpa using hcoarse
  have hmeets : denom tens q k < 33554432 * numer tens q k := by
    have hd : (1 : ℚ) ≤ d := by exact_mod_cast hs.pos h.pos
    have hle := hs.le_last h
    have hstep : (10 : ℚ) ^ k ≤ d * 10 ^ k := le_mul_of_one_le_left (ten_zpow_pos k).le hd
    have hunit := two_zpow_pos (q - 1)
    rw [← Nat.one_mul (denom tens q k), steps_lt_iff]
    push_cast
    linarith
  obtain ⟨hapart, hsmall⟩ := (hs.settled h).apart (d := d) hcoarse' hmeets hN hN'
  obtain ⟨hlow, hhigh⟩ := hapart.keeps (result_error h hs hy)
  exact ⟨hlow, hhigh, fun heq => result_exact h.le hy (hsmall (steps_eq_iff.2 heq)) (by omega) heq⟩

/-! ## The basin -/

/-- On a fine grid the score is nearer than the errors. -/
theorem contains_of_fine (h : IsScore m q) (heven : m ≠ 8388608 ∨ q = -149)
    (hs : IsShortest m q d k) (hy : RoundsTo (d * step power k) y) (hfine : (10 : ℚ) ^ k < 2 ^ q) :
    (Basin.ofMantissa m q).Contains y := by
  have hunit := two_zpow_pos (q - 1)
  have htwo := two_mul_zpow q
  have hmargin : (1048576 * 10 ^ k : ℚ) ≤ 2097150 * 2 ^ (q - 1) := by
    have hlt : denom tens q k < 2 * numer tens q k := by
      rw [← Nat.one_mul (denom tens q k), steps_lt_iff]
      push_cast
      linarith
    have hsettled := hs.settled h
    unfold Settled at hsettled
    rw [if_pos hlt, ← Nat.mul_assoc, ← not_lt, lt_steps_iff, not_lt] at hsettled
    exact_mod_cast hsettled
  have hnear := hs.near heven hfine
  obtain ⟨h1, h1'⟩ := abs_le.1 (step_error h hs)
  obtain ⟨h2, h2'⟩ := abs_le.1 (result_error h hs hy)
  obtain ⟨h3, h3'⟩ := abs_le.1 (show |(d * 10 ^ k - m * 2 ^ q : ℚ)| ≤ 10 ^ k / 2 by linarith)
  refine contains_of_near h.pos heven ?_
  have : |y - m * 2 ^ q| < 2 ^ (q - 1) := by
    rw [abs_lt]
    constructor <;> linarith
  linarith

/-- **On a coarse grid** the middles on either side are not crossed. -/
theorem contains_of_coarse (h : IsScore m q) (heven : m ≠ 8388608 ∨ q = -149)
    (hs : IsShortest m q d k) (hy : RoundsTo (d * step power k) y)
    (hcoarse : (2 : ℚ) ^ q ≤ 10 ^ k) : (Basin.ofMantissa m q).Contains y := by
  have hm := h.pos
  have hm' := h.lt
  have hlower := middle_kept h hs hy hcoarse (N := 2 * m - 1) (by omega) (by omega)
  have hupper := middle_kept h hs hy hcoarse (N := 2 * m + 1) (by omega) (by omega)
  have hcast : ((2 * m - 1 : ℕ) : ℚ) = 2 * m - 1 := by
    rw [Nat.cast_sub (by omega)]
    push_cast
    rfl
  rw [hcast] at hlower
  push_cast at hupper
  obtain ⟨-, hlow, hlow'⟩ := hlower
  obtain ⟨hhigh, -, hhigh'⟩ := hupper
  obtain ⟨h1, h2, h3⟩ := (Basin.contains_even hm heven).1 hs.contains
  rw [Basin.contains_even hm heven]
  rcases h1.lt_or_eq with h1 | h1
  · rcases h2.lt_or_eq with h2 | h2
    · exact ⟨(hlow h1).le, (hhigh h2).le, fun hend => by
        rcases hend with hend | hend
        · exact absurd hend (hlow h1).ne'
        · exact absurd hend (hhigh h2).ne⟩
    · rw [(hhigh' h2).trans h2.symm]
      exact ⟨h1.le, h2.le, h3⟩
  · rw [(hlow' h1.symm).trans h1]
    exact ⟨h1.le, h2, h3⟩

/-- At a power of two the grid points have been tried. -/
theorem contains_of_power (h : IsScore 8388608 q) (hq : -149 < q)
    (hs : IsShortest 8388608 q d k) (hy : RoundsTo (d * step power k) y) :
    (Basin.ofMantissa 8388608 q).Contains y := by
  have := h.le_last
  have := hs.le
  have := hs.le_grid h
  have hsettled : SettledPower q k d := by
    have htried := settledPower_tried (q + 148).toNat (by omega) (k - grid q).toNat (by omega)
    rw [show ((q + 148).toNat : ℤ) - 148 = q by omega,
      show grid q + ((k - grid q).toNat : ℕ) = k by omega] at htried
    rcases hs.neighbour with hd | hd
    · exact hd ▸ htried.1
    · exact hd ▸ htried.2
  have htwo : (2 : ℚ) ^ (q - 1) = 2 ^ 1 * 2 ^ (q - 2) := two_zpow_eq 1 (by omega)
  have hquarter := two_zpow_pos (q - 2)
  rw [Basin.contains_power hq]
  rcases hsettled (Basin.holds_iff.2 hs.contains) with ⟨hlow, hhigh⟩ | ⟨hk, heq⟩
  · obtain ⟨herror, herror'⟩ := abs_le.1 (result_error h hs hy)
    have h1 := lt_rounded_iff.1 hlow
    have h2 := rounded_lt_iff.1 hhigh
    push_cast at h1 h2
    constructor <;> linarith
  · rw [result_exact h.le hy hk (by norm_num) (steps_eq_iff.1 heq), htwo]
    push_cast
    constructor <;> linarith

/-- **The errors of a reader do not leave the basin.** -/
theorem IsShortest.contains_rounded (h : IsScore m q) (hs : IsShortest m q d k)
    (hy : RoundsTo (d * step power k) y) : (Basin.ofMantissa m q).Contains y := by
  by_cases heven : m ≠ 8388608 ∨ q = -149
  · rcases lt_or_ge ((10 : ℚ) ^ k) (2 ^ q) with hfine | hcoarse
    · exact contains_of_fine h heven hs hy hfine
    · exact contains_of_coarse h heven hs hy hcoarse
  · obtain ⟨rfl, hq⟩ : m = 8388608 ∧ q ≠ -149 := by omega
    have := h.le
    exact contains_of_power h (by omega) hs hy

end SpeechDecoder.Decimal

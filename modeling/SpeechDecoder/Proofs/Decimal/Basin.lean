import SpeechDecoder.Decimal.Shortest
import SpeechDecoder.Proofs.Score.Rounding

/-!
# The basin of a score

The basin of a score holds exactly the numbers that are rounded to it.
-/

open Float.Model Float.Model.UnpackedFloat

namespace SpeechDecoder.Decimal

open Rounding

/-- **A mantissa and an exponent of a finite score.** -/
structure IsScore (m : ℕ) (q : ℤ) : Prop where
  pos : 0 < m
  lt : m < 16777216
  le : -149 ≤ q
  le_last : q ≤ 104
  normal : -149 < q → 8388608 ≤ m

namespace Basin

/-- **What a basin holds,** as rational numbers. -/
def Contains (b : Basin) (r : ℚ) : Prop :=
  b.low * 2 ^ (b.exponent - 2) ≤ r ∧ r ≤ b.high * 2 ^ (b.exponent - 2) ∧
    (r = b.low * 2 ^ (b.exponent - 2) ∨ r = b.high * 2 ^ (b.exponent - 2) → b.closed = true)

/-- The ends of a basin that lies evenly around its score, counted in halves of the last place. -/
theorem contains_even {m : ℕ} {q : ℤ} (hm : 0 < m) (h : m ≠ 8388608 ∨ q = -149) {r : ℚ} :
    (ofMantissa m q).Contains r ↔ (2 * m - 1) * 2 ^ (q - 1) ≤ r ∧ r ≤ (2 * m + 1) * 2 ^ (q - 1) ∧
      (r = (2 * m - 1) * 2 ^ (q - 1) ∨ r = (2 * m + 1) * 2 ^ (q - 1) → m % 2 = 0) := by
  have hlow : (ofMantissa m q).low = 4 * m - 2 := if_neg (by omega)
  have hcast : ((4 * m - 2 : ℕ) : ℚ) = 4 * m - 2 := by
    rw [Nat.cast_sub (by omega)]
    push_cast
    ring
  have hhalf : (2 : ℚ) ^ (q - 1) = 2 ^ 1 * 2 ^ (q - 2) := two_zpow_eq 1 (by omega)
  have hlow' : ((4 * m - 2 : ℕ) : ℚ) * 2 ^ (q - 2) = (2 * m - 1) * 2 ^ (q - 1) := by
    rw [hcast, hhalf]
    ring
  have hhigh : ((4 * m + 2 : ℕ) : ℚ) * 2 ^ (q - 2) = (2 * m + 1) * 2 ^ (q - 1) := by
    rw [hhalf]
    push_cast
    ring
  unfold Contains
  rw [hlow, ← hlow', ← hhigh]
  simp only [ofMantissa, decide_eq_true_eq]

/-- Above a power of two the lower end is twice as near. -/
theorem contains_power {q : ℤ} (h : -149 < q) {r : ℚ} :
    (ofMantissa 8388608 q).Contains r ↔
      33554431 * 2 ^ (q - 2) ≤ r ∧ r ≤ 33554434 * 2 ^ (q - 2) := by
  have hlow : (ofMantissa 8388608 q).low = 33554431 := if_pos ⟨rfl, h⟩
  unfold Contains
  rw [hlow]
  simp [ofMantissa]

end Basin

theorem minExponent_score : Format.binary32.minExponent = -149 := by decide

theorem mantissaBits_score : Format.binary32.mantissaBits = 24 := by decide

variable {m : ℕ} {q : ℤ} {r : ℚ} {M : ℕ} {T : ℤ}

/-- The last place of a score that is rounded to. -/
theorem place_eq (h : IsRounded Format.binary32 r M T) {p : ℤ} (hp : -149 ≤ p)
    (hlow : p = -149 ∨ (2 : ℚ) ^ (p + 23) ≤ r) (hup : r < 2 ^ (p + 24)) : T = p := by
  obtain ⟨τ, hτ, hτ', hT⟩ := h.place
  have hle := lt_of_two_zpow_lt (hτ.trans_lt hup)
  have htarget : T = max (τ - 24) (-149) := by
    rw [hT]
    unfold Format.targetExponent
    rw [minExponent_score, mantissaBits_score]
    rfl
  rcases hlow with rfl | hlow
  · omega
  · have := lt_of_two_zpow_lt (hlow.trans_lt hτ')
    omega

/-- The nearest number, from the middles on either side of it. -/
theorem nearest_of_middles (hlow : (2 * m - 1) * 2 ^ (q - 1) ≤ r)
    (hhigh : r ≤ (2 * m + 1) * 2 ^ (q - 1))
    (htie : r = (2 * m - 1) * 2 ^ (q - 1) ∨ r = (2 * m + 1) * 2 ^ (q - 1) → m % 2 = 0) :
    Nearest m (r / 2 ^ q) := by
  have hunit := two_zpow_pos (q - 1)
  have hx : 2 * (r / 2 ^ q) = r / 2 ^ (q - 1) := by
    rw [two_zpow_eq 1 (show q = q - 1 + (1 : ℕ) by omega)]
    field_simp
  have hlow' := (le_div_iff₀ hunit).2 hlow
  have hhigh' := (div_le_iff₀ hunit).2 hhigh
  refine ⟨by linarith, by linarith, fun h => htie ?_⟩
  rcases h with h | h
  · exact .inl ((div_eq_iff hunit.ne').1 (by linarith))
  · exact .inr ((div_eq_iff hunit.ne').1 (by linarith))

theorem carried_of_lt (s : Sign) (hm : 0 < m) (hlt : m < 16777216) :
    carried Format.binary32 s m q = .finite s m q hm := by
  unfold carried
  rw [dif_neg hm.ne', mantissaBits_score]
  exact if_pos (by omega)

/-- What lies between the middles on either side of a score, in its place, is rounded to it. -/
theorem carried_of_middles (h : IsScore m q) (s : Sign) (hr : IsRounded Format.binary32 r M q)
    (hlow : (2 * m - 1) * 2 ^ (q - 1) ≤ r) (hhigh : r ≤ (2 * m + 1) * 2 ^ (q - 1))
    (htie : r = (2 * m - 1) * 2 ^ (q - 1) ∨ r = (2 * m + 1) * 2 ^ (q - 1) → m % 2 = 0) :
    carried Format.binary32 s M q = .finite s m q h.pos := by
  rw [hr.nearest.unique (nearest_of_middles hlow hhigh htie)]
  exact carried_of_lt s h.pos h.lt

/-- A score whose basin lies evenly around it. -/
theorem carried_of_contains_even (h : IsScore m q) (s : Sign) (heven : m ≠ 8388608 ∨ q = -149)
    (hc : (Basin.ofMantissa m q).Contains r) (hr : IsRounded Format.binary32 r M T) :
    carried Format.binary32 s M T = .finite s m q h.pos := by
  obtain ⟨hlow, hhigh, htie⟩ := (Basin.contains_even h.pos heven).1 hc
  have hunit := two_zpow_pos (q - 1)
  have hplace : T = q := by
    refine place_eq hr h.le ?_ ?_
    · rcases h.le.eq_or_lt with hq | hq
      · exact .inl hq.symm
      · right
        have hm : (8388609 : ℚ) ≤ m := by
          have := h.normal hq
          exact_mod_cast (show 8388609 ≤ m by omega)
        rw [two_zpow_eq 24 (show q + 23 = q - 1 + (24 : ℕ) by omega)]
        nlinarith only [hlow, hm, hunit]
    · have hm : (m : ℚ) ≤ 16777215 := by exact_mod_cast Nat.le_of_lt_succ h.lt
      rw [two_zpow_eq 25 (show q + 24 = q - 1 + (25 : ℕ) by omega)]
      nlinarith only [hhigh, hm, hunit]
  subst hplace
  exact carried_of_middles h s hr hlow hhigh htie

/-- A power of two.  What is below it has its last place half as large, and the mantissa is rounded
up to the carry. -/
theorem carried_of_contains_power (h : IsScore 8388608 q) (s : Sign) (hq : -149 < q)
    (hc : (Basin.ofMantissa 8388608 q).Contains r) (hr : IsRounded Format.binary32 r M T) :
    carried Format.binary32 s M T = .finite s 8388608 q h.pos := by
  obtain ⟨hlow, hhigh⟩ := (Basin.contains_power hq).1 hc
  have hquarter := two_zpow_pos (q - 2)
  have hhalf : (2 : ℚ) ^ (q - 1) = 2 ^ 1 * 2 ^ (q - 2) := two_zpow_eq 1 (by omega)
  have hpower : (2 : ℚ) ^ (q + 23) = 2 ^ 25 * 2 ^ (q - 2) := two_zpow_eq 25 (by omega)
  rcases le_or_gt ((2 : ℚ) ^ (q + 23)) r with habove | hbelow
  · have hplace : T = q := by
      refine place_eq hr h.le (.inr habove) ?_
      rw [two_zpow_eq 26 (show q + 24 = q - 2 + (26 : ℕ) by omega)]
      linarith
    subst hplace
    refine carried_of_middles h s hr ?_ ?_ fun _ => rfl <;>
    · push_cast
      linarith
  · have hplace : T = q - 1 := by
      refine place_eq hr (by omega) (.inr ?_) ?_
      · rw [two_zpow_eq 24 (show q - 1 + 23 = q - 2 + (24 : ℕ) by omega)]
        linarith
      · rwa [show q - 1 + 24 = q + 23 by omega]
    subst hplace
    have hnearest : Nearest 16777216 (r / 2 ^ (q - 1)) := by
      refine nearest_of_middles ?_ ?_ fun _ => rfl <;>
      · rw [show q - 1 - 1 = q - 2 by omega]
        push_cast
        linarith
    rw [hr.nearest.unique hnearest]
    unfold carried
    rw [dif_neg (by norm_num), mantissaBits_score, if_neg (by norm_num)]
    congr 1
    omega

/-- **What a basin holds is rounded to its score.** -/
theorem carried_of_contains (h : IsScore m q) (s : Sign)
    (hc : (Basin.ofMantissa m q).Contains r) (hr : IsRounded Format.binary32 r M T) :
    carried Format.binary32 s M T = .finite s m q h.pos := by
  by_cases heven : m ≠ 8388608 ∨ q = -149
  · exact carried_of_contains_even h s heven hc hr
  · obtain ⟨rfl, hq⟩ : m = 8388608 ∧ q ≠ -149 := by omega
    have := h.le
    exact carried_of_contains_power h s (by omega) hc hr

end SpeechDecoder.Decimal

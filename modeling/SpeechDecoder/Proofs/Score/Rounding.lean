import Mathlib

/-!
# Rounding in a floating-point format

What a format makes of a positive rational number: a whole number of units in the last place, the
nearest one, and of two such the even one.

* `Tells` says what a mantissa with its two residual bits knows about a number; shifting and
  reading off keep it (`tells_shift`, `nearest_roundedMantissa`).
* `IsRounded` is the rounded number, and `exists_isRounded` says that the format rounds so, also
  from a quotient that has not come out even.
* `IsRounded.near` bounds the error, and `IsRounded.exact` says what is not rounded.
-/

open Float.Model Float.Model.UnpackedFloat

namespace SpeechDecoder.Rounding

/-! ## Powers of two -/

theorem two_zpow_pos (e : ℤ) : (0 : ℚ) < 2 ^ e := zpow_pos (by norm_num) e

theorem lt_of_two_zpow_lt {a b : ℤ} (h : (2 : ℚ) ^ a < 2 ^ b) : a < b :=
  (zpow_lt_zpow_iff_right₀ (by norm_num)).1 h

theorem two_zpow_le {a b : ℤ} (h : a ≤ b) : (2 : ℚ) ^ a ≤ 2 ^ b :=
  (zpow_le_zpow_iff_right₀ (by norm_num)).2 h

/-- A power of two in another place. -/
theorem two_zpow_eq {e f : ℤ} (k : ℕ) (h : e = f + k) : (2 : ℚ) ^ e = 2 ^ k * 2 ^ f := by
  rw [h, zpow_add₀ (by norm_num), zpow_natCast, mul_comm]

theorem two_mul_zpow (e : ℤ) : (2 * 2 ^ (e - 1) : ℚ) = 2 ^ e := by
  rw [two_zpow_eq 1 (show e = e - 1 + (1 : ℕ) by omega), pow_one]

/-! ## The nearest whole number -/

/-- **The whole number nearest to a rational,** of two such the even one. -/
structure Nearest (M : ℕ) (x : ℚ) : Prop where
  lower : 2 * (M : ℚ) ≤ 2 * x + 1
  upper : 2 * x ≤ 2 * M + 1
  even : 2 * (M : ℚ) = 2 * x + 1 ∨ 2 * x = 2 * M + 1 → M % 2 = 0

/-- No two whole numbers are the nearest one. -/
theorem Nearest.unique {M N : ℕ} {x : ℚ} (hM : Nearest M x) (hN : Nearest N x) : M = N := by
  have hlow := hM.lower
  have hup := hM.upper
  have hlow' := hN.lower
  have hup' := hN.upper
  rcases Nat.lt_trichotomy M N with h | h | h
  · have hone : ((M : ℚ) + 1) ≤ N := by exact_mod_cast h
    have heq : N = M + 1 := by
      have : (N : ℚ) ≤ M + 1 := by linarith
      have : N ≤ M + 1 := by exact_mod_cast this
      omega
    have := hM.even (.inr (by linarith))
    have := hN.even (.inl (by linarith))
    omega
  · exact h
  · have hone : ((N : ℚ) + 1) ≤ M := by exact_mod_cast h
    have heq : M = N + 1 := by
      have : (M : ℚ) ≤ N + 1 := by linarith
      have : M ≤ N + 1 := by exact_mod_cast this
      omega
    have := hN.even (.inr (by linarith))
    have := hM.even (.inl (by linarith))
    omega

theorem nearest_natCast (n : ℕ) : Nearest n n := by
  refine ⟨by linarith, by linarith, ?_⟩
  rintro (h | h) <;> linarith

/-! ## Residual bits -/

/-- **What a mantissa and its residual bits tell about a number:** whether it is the mantissa, lies
below the middle up to the next one, is this middle, or lies above it. -/
inductive Tells : ExtendedMantissa → ℚ → Prop
  | exact {m : ℕ} {x : ℚ} (h : x = m) : Tells ⟨m, false, false⟩ x
  | below {m : ℕ} {x : ℚ} (h : m < x) (h' : 2 * x < 2 * m + 1) : Tells ⟨m, false, true⟩ x
  | middle {m : ℕ} {x : ℚ} (h : 2 * x = 2 * m + 1) : Tells ⟨m, true, false⟩ x
  | above {m : ℕ} {x : ℚ} (h : 2 * m + 1 < 2 * x) (h' : x < m + 1) : Tells ⟨m, true, true⟩ x

theorem Tells.bounds {em : ExtendedMantissa} {x : ℚ} (h : Tells em x) :
    (em.mantissa : ℚ) ≤ x ∧ x < em.mantissa + 1 := by
  rcases h with h | ⟨h, h'⟩ | h | ⟨h, h'⟩ <;> dsimp only <;> constructor <;> linarith

/-- Half of a number is told by the shifted mantissa. -/
theorem Tells.shiftRightOne {em : ExtendedMantissa} {x : ℚ} (h : Tells em x) :
    Tells em.shiftRightOne (x / 2) := by
  obtain ⟨m, r, s⟩ := em
  obtain ⟨j, rfl | rfl⟩ := Nat.even_or_odd' m
  · have hshift : ExtendedMantissa.shiftRightOne ⟨2 * j, r, s⟩ = ⟨j, false, r || s⟩ := by
      simp [ExtendedMantissa.shiftRightOne]
    rw [hshift]
    rcases h with h | ⟨h, h'⟩ | h | ⟨h, h'⟩ <;> push_cast at *
    · exact .exact (by linarith)
    · exact .below (by linarith) (by linarith)
    · exact .below (by linarith) (by linarith)
    · exact .below (by linarith) (by linarith)
  · have hshift : ExtendedMantissa.shiftRightOne ⟨2 * j + 1, r, s⟩ = ⟨j, true, r || s⟩ := by
      have hdiv : (2 * j + 1) / 2 = j := by omega
      have hmod : (2 * j + 1) % 2 = 1 := by omega
      simp [ExtendedMantissa.shiftRightOne, hdiv, hmod]
    rw [hshift]
    rcases h with h | ⟨h, h'⟩ | h | ⟨h, h'⟩ <;> push_cast at *
    · exact .middle (by linarith)
    · exact .above (by linarith) (by linarith)
    · exact .above (by linarith) (by linarith)
    · exact .above (by linarith) (by linarith)

theorem tells_shift {em : ExtendedMantissa} {x : ℚ} (h : Tells em x) (k : ℕ) :
    Tells (em >>> k) (x / 2 ^ k) := by
  induction k with
  | zero =>
    rw [pow_zero, div_one]
    exact h
  | succ k ih =>
    rw [pow_succ, ← div_div]
    exact ih.shiftRightOne

theorem mantissa_shift (em : ExtendedMantissa) (k : ℕ) :
    (em >>> k).mantissa = em.mantissa / 2 ^ k := by
  induction k with
  | zero => exact (Nat.div_one _).symm
  | succ k ih =>
    change (em >>> k).mantissa / 2 = _
    rw [ih, Nat.div_div_eq_div_mul, ← pow_succ]

/-- **The rounded mantissa is the nearest whole number.** -/
theorem nearest_roundedMantissa {em : ExtendedMantissa} {x : ℚ} (h : Tells em x) :
    Nearest em.roundedMantissa x := by
  rcases h with h | ⟨h, h'⟩ | h | ⟨h, h'⟩ <;>
    simp only [ExtendedMantissa.roundedMantissa, ExtendedMantissa.accuracy,
      Accuracy.roundToNearestEven]
  · rw [h]
    exact nearest_natCast _
  · refine ⟨by linarith, by linarith, ?_⟩
    rintro (h' | h') <;> linarith
  · next m =>
    rcases Nat.mod_two_eq_zero_or_one m with hm | hm
    · rw [hm, Nat.add_zero]
      exact ⟨by linarith, by linarith, fun _ => hm⟩
    · rw [hm]
      refine ⟨?_, ?_, fun _ => by omega⟩ <;> push_cast <;> linarith
  · refine ⟨?_, ?_, ?_⟩ <;> push_cast
    · linarith
    · linarith
    · rintro (h' | h') <;> linarith

theorem roundedMantissa_le (em : ExtendedMantissa) : em.roundedMantissa ≤ em.mantissa + 1 := by
  obtain ⟨m, r, s⟩ := em
  cases r <;> cases s <;>
    simp only [ExtendedMantissa.roundedMantissa, ExtendedMantissa.accuracy,
      Accuracy.roundToNearestEven] <;> omega

theorem tells_exact (n : ℕ) : Tells (.ofMantissaAndAccuracy n .exact) n := .exact rfl

/-- **A quotient and its remainder tell the exact quotient.** -/
theorem tells_quotient (n : ℕ) {m : ℕ} (hm : 0 < m) :
    Tells (.ofMantissaAndAccuracy (n / m) (accuracyOfFraction (n % m) m)) (n / m : ℚ) := by
  have hlt := Nat.mod_lt n hm
  have hpos : (0 : ℚ) < m := by exact_mod_cast hm
  have hx : (n / m : ℚ) = ((n / m : ℕ) : ℚ) + ((n % m : ℕ) : ℚ) / m := by
    rw [eq_comm, ← sub_eq_zero]
    field_simp
    have := Nat.div_add_mod n m
    have : (m : ℚ) * ((n / m : ℕ) : ℚ) + ((n % m : ℕ) : ℚ) = n := by exact_mod_cast this
    linarith
  rw [hx]
  generalize n / m = q
  generalize n % m = r at hlt
  have hltq : (r : ℚ) < m := by exact_mod_cast hlt
  unfold accuracyOfFraction
  split_ifs with h0
  · exact .exact (by simp [h0])
  · have hr : (0 : ℚ) < r := by
      have : 0 < r := by omega
      exact_mod_cast this
    have hfrac : 0 < (r : ℚ) / m := div_pos hr hpos
    have hone : (r : ℚ) / m < 1 := (div_lt_one hpos).2 hltq
    rcases lt_trichotomy (2 * r) m with h | h | h
    · rw [compare_lt_iff_lt.2 h]
      have : 2 * ((r : ℚ) / m) < 1 := by
        rw [← mul_div_assoc, div_lt_one hpos]
        exact_mod_cast h
      exact .below (by linarith) (by linarith)
    · rw [compare_eq_iff_eq.2 h]
      have : 2 * ((r : ℚ) / m) = 1 := by
        rw [← mul_div_assoc, div_eq_one_iff_eq hpos.ne']
        exact_mod_cast h
      exact .middle (by linarith)
    · rw [compare_gt_iff_gt.2 h]
      have : 1 < 2 * ((r : ℚ) / m) := by
        rw [← mul_div_assoc, one_lt_div hpos]
        exact_mod_cast h
      exact .above (by linarith) (by linarith)

/-! ## Rounding to a format -/

section Format

variable {spec : Format}

/-- The mantissa over its exponent; one that has carried is halved. -/
def carried (spec : Format) (s : Sign) (M : ℕ) (T : ℤ) : UnpackedFloat :=
  if h : M = 0 then .zero s
  else if M < 2 ^ spec.mantissaBits then .finite s M T (Nat.pos_of_ne_zero h)
  else .finite s (2 ^ spec.mantissaBitsWithoutImplicit) (T + 1) (Nat.two_pow_pos _)

theorem minExponent_le (τ : ℤ) : spec.minExponent ≤ spec.targetExponent τ := le_max_right _ _

/-- A mantissa that fits is not shifted again; one that has carried is halved. -/
theorem shiftToTargetExponent_carry {M : ℕ} {T : ℤ} (hM : M ≤ 2 ^ spec.mantissaBits)
    (hT : spec.minExponent ≤ T) : shiftToTargetExponent spec M T .exact =
      if M < 2 ^ spec.mantissaBits then (⟨M, false, false⟩, T)
      else (⟨2 ^ spec.mantissaBitsWithoutImplicit, false, false⟩, T + 1) := by
  have hbits : spec.mantissaBits = spec.mantissaBitsWithoutImplicit + 1 := Nat.add_comm _ _
  unfold shiftToTargetExponent shiftToExponent
  split_ifs with h
  · have hlog : M.log2 < spec.mantissaBits := by
      by_cases h0 : M = 0
      · rw [h0, Nat.log2_zero]
        omega
      · exact (Nat.log2_lt h0).2 h
    have hzero : (spec.targetExponent (totalExponent M T) - T).toNat = 0 := by
      unfold Format.targetExponent totalExponent
      omega
    simp only [hzero]
    exact Prod.ext rfl (by simp)
  · have hM' : M = 2 ^ spec.mantissaBits := by omega
    subst hM'
    have hone : (spec.targetExponent (totalExponent (2 ^ spec.mantissaBits) T) - T).toNat = 1 := by
      unfold Format.targetExponent totalExponent
      rw [Nat.log2_two_pow]
      omega
    have hhalf : 2 ^ spec.mantissaBits / 2 = 2 ^ spec.mantissaBitsWithoutImplicit := by
      rw [hbits, pow_succ, Nat.mul_div_cancel _ (by decide)]
    have hbit : (2 ^ spec.mantissaBits % 2 != 0) = false := by
      rw [hbits, pow_succ, Nat.mul_mod_left]
      rfl
    simp only [hone]
    refine Prod.ext ?_ rfl
    change ExtendedMantissa.shiftRightOne ⟨2 ^ spec.mantissaBits, false, false⟩ = _
    simp only [ExtendedMantissa.shiftRightOne, hhalf, hbit, Bool.or_false]

/-- After the first shift the mantissa is rounded and carried. -/
theorem roundWithAccuracy_eq_carried (s : Sign) {n : ℕ} {e T : ℤ} {acc : Accuracy}
    {em : ExtendedMantissa} (hfirst : shiftToTargetExponent spec n e acc = (em, T))
    (hM : em.roundedMantissa ≤ 2 ^ spec.mantissaBits) (hT : spec.minExponent ≤ T) :
    roundWithAccuracy spec s n e acc = carried spec s em.roundedMantissa T := by
  have hcarry := shiftToTargetExponent_carry hM hT
  unfold roundWithAccuracy carried
  rw [hfirst]
  dsimp only
  rw [hcarry]
  by_cases hlt : em.roundedMantissa < 2 ^ spec.mantissaBits
  · simp only [hlt, if_true]
  · have h0 : em.roundedMantissa ≠ 0 := by
      have := Nat.two_pow_pos spec.mantissaBits
      omega
    simp only [hlt, h0, if_false, dite_false, (Nat.two_pow_pos _).ne']

/-- **The number that a positive rational is rounded to,** in units of the last place that the
format gives to its magnitude. -/
structure IsRounded (spec : Format) (r : ℚ) (M : ℕ) (T : ℤ) : Prop where
  nearest : Nearest M (r / 2 ^ T)
  place : ∃ τ : ℤ, 2 ^ (τ - 1) ≤ r ∧ r < 2 ^ τ ∧ T = spec.targetExponent τ

/-- The place of the leading digit of a number that a mantissa begins. -/
theorem magnitude_of_mantissa {n : ℕ} (hn : 0 < n) {x : ℚ} (hlow : (n : ℚ) ≤ x) (hup : x < n + 1)
    (e : ℤ) : (2 : ℚ) ^ (totalExponent n e - 1) ≤ x * 2 ^ e ∧
      x * 2 ^ e < (2 : ℚ) ^ totalExponent n e := by
  have hpos := two_zpow_pos e
  have hfirst : (2 : ℚ) ^ n.log2 ≤ n := by exact_mod_cast Nat.log2_self_le hn.ne'
  have hnext : (n : ℚ) + 1 ≤ 2 ^ (n.log2 + 1) := by exact_mod_cast Nat.lt_log2_self (n := n)
  have htotal : totalExponent n e = n.log2 + 1 + e := rfl
  rw [two_zpow_eq n.log2 (show totalExponent n e - 1 = e + n.log2 by omega),
    two_zpow_eq (n.log2 + 1) (show totalExponent n e = e + (n.log2 + 1 : ℕ) by omega)]
  exact ⟨mul_le_mul_of_nonneg_right (hfirst.trans hlow) hpos.le,
    mul_lt_mul_of_pos_right (hup.trans_le hnext) hpos⟩

/-- **A format rounds to the nearest number,** whatever is told about the number to be rounded. -/
theorem exists_isRounded (s : Sign) {n : ℕ} (hn : 0 < n) {e : ℤ} {acc : Accuracy} {x r : ℚ}
    (ht : Tells (.ofMantissaAndAccuracy n acc) x) (hr : r = x * 2 ^ e)
    (he : e ≤ spec.targetExponent (totalExponent n e)) :
    ∃ M T, IsRounded spec r M T ∧ roundWithAccuracy spec s n e acc = carried spec s M T := by
  have hmantissa : (ExtendedMantissa.ofMantissaAndAccuracy n acc).mantissa = n := by
    rcases acc with _ | (_ | _ | _) <;> rfl
  obtain ⟨hlow, hup⟩ := ht.bounds
  rw [hmantissa] at hlow hup
  obtain ⟨hplace, hplace'⟩ := magnitude_of_mantissa hn hlow hup e
  have htarget : spec.targetExponent (totalExponent n e) =
      max (totalExponent n e - spec.mantissaBits) spec.minExponent := rfl
  have hmin : spec.minExponent ≤ spec.targetExponent (totalExponent n e) := minExponent_le _
  generalize hT : spec.targetExponent (totalExponent n e) = T at he htarget hmin
  obtain ⟨t, ht'⟩ : ∃ t : ℕ, T = e + t := ⟨(T - e).toNat, by omega⟩
  have hshift : (T - e).toNat = t := by omega
  have htells := tells_shift ht t
  have hM : (ExtendedMantissa.ofMantissaAndAccuracy n acc >>> t).roundedMantissa ≤
      2 ^ spec.mantissaBits := by
    refine (roundedMantissa_le _).trans (Nat.succ_le_of_lt ?_)
    rw [mantissa_shift, hmantissa, Nat.div_lt_iff_lt_mul (Nat.two_pow_pos t), ← pow_add]
    refine Nat.lt_log2_self.trans_le (Nat.pow_le_pow_right (by decide) ?_)
    have htotal : totalExponent n e = n.log2 + 1 + e := rfl
    omega
  refine ⟨(ExtendedMantissa.ofMantissaAndAccuracy n acc >>> t).roundedMantissa, T,
    ⟨?_, totalExponent n e, hr ▸ hplace, hr ▸ hplace', hT.symm⟩,
    roundWithAccuracy_eq_carried s ?_ hM hmin⟩
  · have hscale : r / 2 ^ T = x / 2 ^ t := by
      rw [hr, two_zpow_eq t ht', mul_div_mul_right _ _ (two_zpow_pos e).ne']
    rw [hscale]
    exact nearest_roundedMantissa htells
  · unfold shiftToTargetExponent shiftToExponent
    simp only [hT, hshift]
    exact Prod.ext rfl ht'.symm

variable {r : ℚ} {M : ℕ} {T : ℤ}

/-- **Rounding errs by no more than half a unit** in the last place. -/
theorem IsRounded.near (h : IsRounded spec r M T) {t : ℤ} (hr : r < 2 ^ t)
    (ht : spec.minExponent ≤ t - spec.mantissaBits) :
    |M * 2 ^ T - r| ≤ 2 ^ (t - spec.mantissaBits - 1) := by
  obtain ⟨τ, hlow, -, hT⟩ := h.place
  have hτ : τ - 1 < t := lt_of_two_zpow_lt (hlow.trans_lt hr)
  have hTt : T ≤ t - spec.mantissaBits := by
    rw [hT]
    exact max_le (by omega) ht
  have hpos := two_zpow_pos T
  have hmul : r / 2 ^ T * 2 ^ T = r := div_mul_cancel₀ _ hpos.ne'
  have hhalf : (2 : ℚ) ^ T ≤ 2 ^ 1 * 2 ^ (t - spec.mantissaBits - 1) :=
    (two_zpow_le hTt).trans_eq (two_zpow_eq 1 (by omega))
  have hlower := mul_le_mul_of_nonneg_right h.nearest.lower hpos.le
  have hupper := mul_le_mul_of_nonneg_right h.nearest.upper hpos.le
  rw [abs_le]
  constructor <;> nlinarith only [hlower, hupper, hmul, hhalf]

/-- **A number of the format is not rounded.** -/
theorem IsRounded.exact (h : IsRounded spec r M T) {N : ℕ} {e : ℤ} (hr : r = N * 2 ^ e)
    (hN : N < 2 ^ spec.mantissaBits) (he : spec.minExponent ≤ e) : (M : ℚ) * 2 ^ T = r := by
  obtain ⟨τ, hlow, -, hT⟩ := h.place
  have hlt : r < 2 ^ (e + spec.mantissaBits) := by
    rw [hr, two_zpow_eq spec.mantissaBits rfl]
    exact mul_lt_mul_of_pos_right (by exact_mod_cast hN) (two_zpow_pos e)
  have hτ := lt_of_two_zpow_lt (hlow.trans_lt hlt)
  have hTe : T ≤ e := by
    rw [hT]
    exact max_le (by omega) he
  obtain ⟨j, rfl⟩ : ∃ j : ℕ, e = T + j := ⟨(e - T).toNat, by omega⟩
  have hscale : r / 2 ^ T = ((N * 2 ^ j : ℕ) : ℚ) := by
    rw [hr, two_zpow_eq j rfl, div_eq_iff (two_zpow_pos T).ne']
    push_cast
    ring
  have hM := h.nearest.unique (hscale ▸ nearest_natCast _)
  rw [hM, ← hscale, div_mul_cancel₀ _ (two_zpow_pos T).ne']

/-- A number of normal size keeps all its digits when it is rounded. -/
theorem IsRounded.normal (h : IsRounded spec r M T) (s : Sign) {t : ℤ}
    (hlow : (2 : ℚ) ^ (spec.minExponent + spec.mantissaBits - 1) ≤ r) (hup : r < 2 ^ t) :
    ∃ (m : ℕ) (e : ℤ) (hm : 0 < m), carried spec s M T = .finite s m e hm ∧
      2 ^ spec.mantissaBitsWithoutImplicit ≤ m ∧ m < 2 ^ spec.mantissaBits ∧
      spec.minExponent ≤ e ∧ e ≤ t - spec.mantissaBits + 1 ∧ (m : ℚ) * 2 ^ e = M * 2 ^ T := by
  have hbits : spec.mantissaBits = spec.mantissaBitsWithoutImplicit + 1 := Nat.add_comm _ _
  obtain ⟨τ, hτlow, hτup, hT⟩ := h.place
  have hτ := lt_of_two_zpow_lt (hlow.trans_lt hτup)
  have hτ' := lt_of_two_zpow_lt (hτlow.trans_lt hup)
  have hT' : T = τ - spec.mantissaBits := by
    rw [hT]
    exact max_eq_left (by omega)
  have hpos := two_zpow_pos T
  have hM : 2 ^ spec.mantissaBitsWithoutImplicit ≤ M := by
    have hscale : ((2 ^ spec.mantissaBitsWithoutImplicit : ℕ) : ℚ) ≤ r / 2 ^ T := by
      rw [le_div_iff₀ hpos]
      rw [two_zpow_eq spec.mantissaBitsWithoutImplicit (show τ - 1 = T + _ by omega)] at hτlow
      exact_mod_cast hτlow
    have hupper := h.nearest.upper
    have hlt : 2 * ((2 ^ spec.mantissaBitsWithoutImplicit : ℕ) : ℚ) < 2 * M + 2 := by linarith
    have : 2 * 2 ^ spec.mantissaBitsWithoutImplicit < 2 * M + 2 := by exact_mod_cast hlt
    omega
  have h0 : M ≠ 0 := by
    have := Nat.two_pow_pos spec.mantissaBitsWithoutImplicit
    omega
  have hmin : spec.minExponent ≤ T := hT ▸ minExponent_le τ
  unfold carried
  rw [dif_neg h0]
  split_ifs with hlt
  · exact ⟨M, T, Nat.pos_of_ne_zero h0, rfl, hM, hlt, hmin, by omega, rfl⟩
  · have hle : M ≤ 2 ^ spec.mantissaBits := by
      have hscale : r / 2 ^ T < ((2 ^ spec.mantissaBits : ℕ) : ℚ) := by
        rw [div_lt_iff₀ hpos]
        rw [two_zpow_eq spec.mantissaBits (show τ = T + _ by omega)] at hτup
        exact_mod_cast hτup
      have hlower := h.nearest.lower
      have hlt : 2 * (M : ℚ) < 2 * ((2 ^ spec.mantissaBits : ℕ) : ℚ) + 1 := by linarith
      have : 2 * M < 2 * 2 ^ spec.mantissaBits + 1 := by exact_mod_cast hlt
      omega
    have hM' : M = 2 ^ spec.mantissaBits := by omega
    refine ⟨_, T + 1, Nat.two_pow_pos _, rfl, le_rfl, Nat.pow_lt_pow_right (by decide) (by omega),
      by omega, by omega, ?_⟩
    rw [hM', hbits, zpow_add_one₀ (by norm_num)]
    push_cast
    ring

end Format

end SpeechDecoder.Rounding

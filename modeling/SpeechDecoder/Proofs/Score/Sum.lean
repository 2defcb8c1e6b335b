import SpeechDecoder.Proofs.Score.Order

/-!
# Sums of scores

A sum of two finite scores is their exact sum, counted in units of the least positive score and
rounded to the nearest score (`level_add`).  Rounding never exchanges two numbers
(`roundedMagnitude_mono`), so adding is monotone as long as no sum is undefined
(`add_le_add_right`), and following an arc of a sound graph never raises a score (`add_le_self`).

* `halfEven n k` is `n / 2 ^ k`, rounded to nearest, a half to the even neighbour.
* `roundedMagnitude n` is the magnitude of the score nearest to `n` units.
-/

open Float.Model Float.Model.UnpackedFloat

namespace SpeechDecoder.Score

/-! ## Rounding a whole number of units -/

/-- `n / 2 ^ k` to the nearest whole number, a half to the even one. -/
def halfEven (n k : Nat) : Nat :=
  if 2 * (n % 2 ^ k) < 2 ^ k then n / 2 ^ k
  else if 2 ^ k < 2 * (n % 2 ^ k) then n / 2 ^ k + 1
  else n / 2 ^ k + n / 2 ^ k % 2

/-- The bits that a number of units has too many. -/
def excess (n : Nat) : Nat := n.log2 - 23

/-- **The magnitude of the score nearest to `n` units.** -/
def roundedMagnitude (n : Nat) : Nat := excess n * 8388608 + halfEven n (excess n)

theorem halfEven_zero (n : Nat) : halfEven n 0 = n := by
  simp [halfEven, Nat.mod_one]

theorem le_halfEven (n k : Nat) : n / 2 ^ k ≤ halfEven n k := by
  unfold halfEven
  split_ifs <;> omega

theorem halfEven_le (n k : Nat) : halfEven n k ≤ n / 2 ^ k + 1 := by
  unfold halfEven
  split_ifs <;> omega

theorem halfEven_mono {n n' : Nat} (h : n ≤ n') (k : Nat) : halfEven n k ≤ halfEven n' k := by
  have hq : n / 2 ^ k ≤ n' / 2 ^ k := Nat.div_le_div_right h
  by_cases heq : n / 2 ^ k = n' / 2 ^ k
  · have hn := Nat.div_add_mod n (2 ^ k)
    have hn' := Nat.div_add_mod n' (2 ^ k)
    rw [heq] at hn
    unfold halfEven
    rw [heq]
    split_ifs <;> omega
  · have := halfEven_le n k
    have := le_halfEven n' k
    omega

/-- Common factors of two cancel. -/
theorem halfEven_mul (n k a : Nat) : halfEven (n * 2 ^ k) (a + k) = halfEven n a := by
  have hpos : 0 < 2 ^ k := Nat.two_pow_pos k
  have hq : n * 2 ^ k / 2 ^ (a + k) = n / 2 ^ a := by
    rw [Nat.pow_add, Nat.mul_div_mul_right _ _ hpos]
  have hr : n * 2 ^ k % 2 ^ (a + k) = n % 2 ^ a * 2 ^ k := by
    rw [Nat.pow_add, Nat.mul_mod_mul_right]
  have hlt : 2 * (n % 2 ^ a * 2 ^ k) < 2 ^ (a + k) ↔ 2 * (n % 2 ^ a) < 2 ^ a := by
    rw [Nat.pow_add, ← Nat.mul_assoc, Nat.mul_lt_mul_right hpos]
  have hgt : 2 ^ (a + k) < 2 * (n % 2 ^ a * 2 ^ k) ↔ 2 ^ a < 2 * (n % 2 ^ a) := by
    rw [Nat.pow_add, ← Nat.mul_assoc, Nat.mul_lt_mul_right hpos]
  unfold halfEven
  simp only [hq, hr, hlt, hgt]

theorem lt_pow_excess (n : Nat) : n < 2 ^ (excess n + 24) :=
  Nat.lt_log2_self.trans_le (Nat.pow_le_pow_right (by omega) (by unfold excess; omega))

theorem pow_excess_le {n : Nat} (h : 0 < excess n) : 2 ^ (excess n + 23) ≤ n := by
  have hlog : excess n + 23 = n.log2 := by
    unfold excess at *
    omega
  have hn : n ≠ 0 := by
    rintro rfl
    simp [excess] at h
  rw [hlog]
  exact Nat.log2_self_le hn

/-- The rounded mantissa has 24 bits, unless rounding carries. -/
theorem halfEven_excess_le (n : Nat) : halfEven n (excess n) ≤ 16777216 := by
  have h := lt_pow_excess n
  rw [Nat.pow_add, Nat.mul_comm] at h
  have := Nat.div_lt_of_lt_mul (Nat.mul_comm _ _ ▸ h)
  have := halfEven_le n (excess n)
  omega

theorem le_halfEven_excess {n : Nat} (h : 0 < excess n) : 8388608 ≤ halfEven n (excess n) := by
  have hp := pow_excess_le h
  rw [Nat.pow_add, Nat.mul_comm] at hp
  exact ((Nat.le_div_iff_mul_le (Nat.two_pow_pos _)).2 hp).trans (le_halfEven n _)

theorem excess_mono {n n' : Nat} (h : n ≤ n') : excess n ≤ excess n' := by
  have : n.log2 ≤ n'.log2 := by
    by_cases hn : n = 0
    · subst hn
      simp
    · exact (Nat.le_log2 (by omega)).2 ((Nat.log2_self_le hn).trans h)
  unfold excess
  omega

theorem log2_mul_pow {m : Nat} (hm : m ≠ 0) (k : Nat) : (m * 2 ^ k).log2 = m.log2 + k := by
  have hpos : 0 < 2 ^ k := Nat.two_pow_pos k
  have hne : m * 2 ^ k ≠ 0 := Nat.mul_ne_zero hm (by omega)
  refine (Nat.log2_eq_iff hne).2 ⟨?_, ?_⟩
  · rw [Nat.pow_add]
    exact Nat.mul_le_mul_right _ (Nat.log2_self_le hm)
  · rw [show m.log2 + k + 1 = m.log2 + 1 + k by omega, Nat.pow_add]
    exact (Nat.mul_lt_mul_right hpos).2 Nat.lt_log2_self

/-- **Rounding keeps the order.** -/
theorem roundedMagnitude_mono {n n' : Nat} (h : n ≤ n') :
    roundedMagnitude n ≤ roundedMagnitude n' := by
  have hexc := excess_mono h
  unfold roundedMagnitude
  by_cases heq : excess n = excess n'
  · have := halfEven_mono h (excess n')
    rw [heq]
    omega
  · have h1 := halfEven_excess_le n
    have h2 := le_halfEven_excess (n := n') (by omega)
    omega

/-- A number of units that is a score is not rounded. -/
theorem roundedMagnitude_units {m k : Nat} (hlt : m < 16777216) (hle : 0 < k → 8388608 ≤ m) :
    roundedMagnitude (m * 2 ^ k) = k * 8388608 + m := by
  have hexc : excess (m * 2 ^ k) = k := by
    by_cases hm : m = 0
    · subst hm
      have hk : ¬ 0 < k := fun hk => by
        have := hle hk
        omega
      simp [excess]
      omega
    · have hlog : (m * 2 ^ k).log2 = m.log2 + k := log2_mul_pow hm k
      have hup : m.log2 < 24 := (Nat.log2_lt hm).2 hlt
      unfold excess
      rw [hlog]
      by_cases hk : 0 < k
      · have hlow : 23 ≤ m.log2 := (Nat.le_log2 hm).2 (hle hk)
        omega
      · omega
  have hhalf := halfEven_mul m k 0
  rw [Nat.zero_add, halfEven_zero] at hhalf
  rw [roundedMagnitude, hexc, hhalf]

/-! ## Rounding as the format does it -/

/-- What has been shifted out of a mantissa is told by its two residual bits. -/
theorem shift_spec (n k : Nat) :
    (ExtendedMantissa.ofMantissaAndAccuracy n .exact >>> k).mantissa = n / 2 ^ k ∧
      ((ExtendedMantissa.ofMantissaAndAccuracy n .exact >>> k).roundBit = true ↔
        2 ^ k ≤ 2 * (n % 2 ^ k)) ∧
      ((ExtendedMantissa.ofMantissaAndAccuracy n .exact >>> k).stickyBit = true ↔
        n % 2 ^ k ≠ 0 ∧ 2 * (n % 2 ^ k) ≠ 2 ^ k) := by
  induction k with
  | zero =>
    have h0 : ExtendedMantissa.ofMantissaAndAccuracy n .exact >>> 0 = ⟨n, false, false⟩ := rfl
    rw [h0]
    simp [Nat.mod_one]
  | succ k ih =>
    have hs : ExtendedMantissa.ofMantissaAndAccuracy n .exact >>> (k + 1) =
        (ExtendedMantissa.ofMantissaAndAccuracy n .exact >>> k).shiftRightOne := rfl
    obtain ⟨h1, h2, h3⟩ := ih
    have hpow : 2 ^ (k + 1) = 2 ^ k * 2 := pow_succ 2 k
    have hdiv : n / 2 ^ (k + 1) = n / 2 ^ k / 2 := by rw [hpow, Nat.div_div_eq_div_mul]
    have hmod : n % 2 ^ (k + 1) = n % 2 ^ k + 2 ^ k * (n / 2 ^ k % 2) := by
      rw [hpow, Nat.mod_mul]
    have hlt : n % 2 ^ k < 2 ^ k := Nat.mod_lt _ (Nat.two_pow_pos k)
    rw [hs, hdiv, hmod, hpow]
    simp only [ExtendedMantissa.shiftRightOne, h1, bne_iff_ne, Bool.or_eq_true, h2, h3]
    rcases Nat.mod_two_eq_zero_or_one (n / 2 ^ k) with hb | hb <;> rw [hb] <;>
      refine ⟨trivial, ?_, ?_⟩ <;> omega

/-- Rounding a shifted mantissa rounds the quotient. -/
theorem roundedMantissa_shift (n k : Nat) :
    (ExtendedMantissa.ofMantissaAndAccuracy n .exact >>> k).roundedMantissa = halfEven n k := by
  obtain ⟨h1, h2, h3⟩ := shift_spec n k
  generalize ExtendedMantissa.ofMantissaAndAccuracy n .exact >>> k = em at h1 h2 h3
  obtain ⟨m, r, s⟩ := em
  simp only at h1 h2 h3
  subst h1
  unfold ExtendedMantissa.roundedMantissa halfEven
  cases r <;> cases s <;>
    simp only [ExtendedMantissa.accuracy, Accuracy.roundToNearestEven] <;>
    simp only [Bool.false_eq_true, false_iff, true_iff] at h2 h3 <;>
    split_ifs <;> omega

theorem targetExponent_eq {n : Nat} (hn : 0 < n) (k : Nat) :
    Format.binary32.targetExponent (totalExponent n ((k : Int) - 149)) =
      (excess (n * 2 ^ k) : Int) - 149 := by
  have hlog := log2_mul_pow hn.ne' k
  have hmin : Format.binary32.minExponent = -149 := by decide
  have hbits : (Format.binary32.mantissaBits : Int) = 24 := by decide
  unfold Format.targetExponent totalExponent excess
  rw [hmin, hbits, hlog]
  omega

/-- A mantissa that fits is not shifted again; one that has carried is halved. -/
theorem carry_spec {q : Nat} (j : Nat) (hq : q ≤ 16777216) :
    shiftToTargetExponent Format.binary32 q ((j : Int) - 149) .exact =
      if q < 16777216 then (⟨q, false, false⟩, (j : Int) - 149)
      else (⟨8388608, false, false⟩, ((j + 1 : Nat) : Int) - 149) := by
  have hmin : Format.binary32.minExponent = -149 := by decide
  have hbits : (Format.binary32.mantissaBits : Int) = 24 := by decide
  unfold shiftToTargetExponent shiftToExponent
  split_ifs with h
  · have hlog : q.log2 ≤ 23 := by
      by_cases h0 : q = 0
      · subst h0
        simp
      · have : q.log2 < 24 := (Nat.log2_lt h0).2 h
        omega
    have hzero : (Format.binary32.targetExponent (totalExponent q ((j : Int) - 149)) -
        ((j : Int) - 149)).toNat = 0 := by
      unfold Format.targetExponent totalExponent
      rw [hmin, hbits]
      omega
    simp only [hzero]
    refine Prod.ext rfl (by simp)
  · have hq' : q = 16777216 := by omega
    subst hq'
    have hlog : Nat.log2 16777216 = 24 := by decide
    have hone : (Format.binary32.targetExponent (totalExponent 16777216 ((j : Int) - 149)) -
        ((j : Int) - 149)).toNat = 1 := by
      unfold Format.targetExponent totalExponent
      rw [hmin, hbits, hlog]
      omega
    simp only [hone]
    refine Prod.ext rfl ?_
    push_cast
    ring

/-- A canonical finite score with a sign and a magnitude. -/
def HasMagnitude (s : Sign) (magnitude : Nat) (u : UnpackedFloat) : Prop :=
  ∃ (m j : Nat) (hm : 0 < m), u = .finite s m ((j : Int) - 149) hm ∧ m < 16777216 ∧
    (0 < j → 8388608 ≤ m) ∧ j * 8388608 + m = magnitude

/-- The first shift leaves the rounded mantissa over the exponent that the format asks for. -/
theorem shiftToTargetExponent_spec {n : Nat} (hn : 0 < n) {k : Nat} (hk : k ≤ excess (n * 2 ^ k)) :
    (shiftToTargetExponent Format.binary32 n ((k : Int) - 149) .exact).1.roundedMantissa =
        halfEven (n * 2 ^ k) (excess (n * 2 ^ k)) ∧
      (shiftToTargetExponent Format.binary32 n ((k : Int) - 149) .exact).2 =
        (excess (n * 2 ^ k) : Int) - 149 := by
  have hshift : ((excess (n * 2 ^ k) : Int) - 149 - ((k : Int) - 149)).toNat =
      excess (n * 2 ^ k) - k := by omega
  have hhalf := halfEven_mul n k (excess (n * 2 ^ k) - k)
  rw [Nat.sub_add_cancel hk] at hhalf
  unfold shiftToTargetExponent shiftToExponent
  simp only [targetExponent_eq hn k, hshift]
  exact ⟨by rw [roundedMantissa_shift, hhalf], by omega⟩

theorem roundWithAccuracy_spec (s : Sign) {n : Nat} (hn : 0 < n) {k : Nat}
    (hk : k ≤ excess (n * 2 ^ k)) :
    HasMagnitude s (roundedMagnitude (n * 2 ^ k))
      (roundWithAccuracy Format.binary32 s n ((k : Int) - 149) .exact) := by
  obtain ⟨h1, h2⟩ := shiftToTargetExponent_spec hn hk
  have hN : 0 < n * 2 ^ k := Nat.mul_pos hn (Nat.two_pow_pos k)
  have hpos : 0 < halfEven (n * 2 ^ k) (excess (n * 2 ^ k)) := by
    by_cases h0 : excess (n * 2 ^ k) = 0
    · rwa [h0, halfEven_zero]
    · have := le_halfEven_excess (n := n * 2 ^ k) (by omega)
      omega
  have hlow : 0 < excess (n * 2 ^ k) → 8388608 ≤ halfEven (n * 2 ^ k) (excess (n * 2 ^ k)) :=
    le_halfEven_excess
  have hup := halfEven_excess_le (n * 2 ^ k)
  have hcarry := carry_spec (excess (n * 2 ^ k)) hup
  unfold roundWithAccuracy roundedMagnitude
  generalize shiftToTargetExponent Format.binary32 n ((k : Int) - 149) .exact = r at h1 h2 ⊢
  obtain ⟨shifted, e⟩ := r
  dsimp only at h1 h2 ⊢
  rw [h1, h2, hcarry]
  by_cases hq : halfEven (n * 2 ^ k) (excess (n * 2 ^ k)) < 16777216
  · refine ⟨_, _, hpos, ?_, hq, hlow, rfl⟩
    rw [if_pos hq]
    exact dif_neg hpos.ne'
  · refine ⟨8388608, excess (n * 2 ^ k) + 1, by omega, ?_, by omega, fun _ => le_refl _, by omega⟩
    rw [if_neg hq]
    rfl

/-- **What a number of units is rounded to.** -/
theorem round_spec (s : Sign) {n : Nat} (hn : 0 < n) (k : Nat) :
    HasMagnitude s (roundedMagnitude (n * 2 ^ k))
      (UnpackedFloat.round Format.binary32 s n ((k : Int) - 149)) := by
  -- bits are appended first if the exponent is too large
  have happend : (((k : Int) - 149) - ((excess (n * 2 ^ k) : Int) - 149)).toNat =
      k - excess (n * 2 ^ k) := by omega
  have hmul : n <<< (k - excess (n * 2 ^ k)) * 2 ^ min k (excess (n * 2 ^ k)) = n * 2 ^ k := by
    rw [Nat.shiftLeft_eq, Nat.mul_assoc, ← Nat.pow_add]
    congr 2
    omega
  have hpos : 0 < n <<< (k - excess (n * 2 ^ k)) := by
    rw [Nat.shiftLeft_eq]
    exact Nat.mul_pos hn (Nat.two_pow_pos _)
  have hexp : ((k : Int) - 149) - ((k - excess (n * 2 ^ k) : Nat) : Int) =
      ((min k (excess (n * 2 ^ k)) : Nat) : Int) - 149 := by omega
  have hround := roundWithAccuracy_spec s hpos (k := min k (excess (n * 2 ^ k)))
    (by rw [hmul]; exact Nat.min_le_right _ _)
  rw [hmul] at hround
  unfold UnpackedFloat.round decreaseExponent
  simp only [targetExponent_eq hn k, happend, hexp]
  exact hround

/-! ## Sums -/

/-- How many units an unpacked score is worth. -/
def unitsOf : UnpackedFloat → Int
  | .finite s m e _ => s.apply ((m : Int) * 2 ^ (e + 149).toNat)
  | _ => 0

/-- **The level of the score nearest to a number of units.** -/
def roundedLevel (v : Int) : Int :=
  if 0 ≤ v then min (top : Int) (roundedMagnitude v.toNat)
  else -min (top : Int) (roundedMagnitude (-v).toNat)

theorem roundedLevel_mono {v w : Int} (h : v ≤ w) : roundedLevel v ≤ roundedLevel w := by
  have htop : (0 : Int) ≤ top := by decide
  unfold roundedLevel
  split_ifs with hv hw hw
  · have := roundedMagnitude_mono (show v.toNat ≤ w.toNat by omega)
    omega
  · omega
  · omega
  · have := roundedMagnitude_mono (show (-w).toNat ≤ (-v).toNat by omega)
    omega

theorem HasMagnitude.spec {s : Sign} {n : Nat} {u : UnpackedFloat} (h : HasMagnitude s n u) :
    Canonical u ∧ u.isNaN = false ∧ place u = s.apply (min (top : Int) n) := by
  obtain ⟨m, j, hm, rfl, hlt, hle, hn⟩ := h
  have hmag : ((j : Int) - 149 + 149) * 8388608 + m = n := by omega
  exact ⟨.finite s m j hm hlt hle, rfl, by simp only [place, hmag]⟩

theorem roundedLevel_natCast (n : Nat) : roundedLevel n = min (top : Int) (roundedMagnitude n) := by
  unfold roundedLevel
  rw [if_pos (by omega), Int.toNat_natCast]

theorem roundedLevel_neg (v : Int) : roundedLevel (-v) = -roundedLevel v := by
  have hzero : min (top : Int) (roundedMagnitude 0) = 0 := by decide
  unfold roundedLevel
  rcases lt_trichotomy v 0 with h | h | h
  · rw [if_pos (by omega), if_neg (by omega)]
    omega
  · subst h
    rw [if_pos (by omega), if_pos (by omega)]
    simp only [Int.neg_zero, Int.toNat_zero, hzero]
  · rw [if_neg (by omega), if_pos (by omega), Int.neg_neg]

theorem apply_roundedLevel (s : Sign) (n : Nat) :
    roundedLevel (s.apply n) = s.apply (min (top : Int) (roundedMagnitude n)) := by
  cases s
  · simp only [Sign.apply]
    rw [roundedLevel_neg, roundedLevel_natCast]
  · exact roundedLevel_natCast n

/-- A finite score is not rounded. -/
theorem roundedLevel_unitsOf {u : UnpackedFloat} (hu : Canonical u) (hf : u.isFinite = true) :
    roundedLevel (unitsOf u) = place u := by
  rcases hu with s | _ | s | ⟨s, m, k, hm, hm', hk⟩
  · cases hf
  · cases hf
  · have hzero : roundedLevel 0 = 0 := by decide
    exact hzero
  · have hexp : ((k : Int) - 149 + 149).toNat = k := by omega
    have hmag : ((k : Int) - 149 + 149) * 8388608 + m = ((k * 8388608 + m : Nat) : Int) := by
      push_cast
      ring
    have hcast : (m : Int) * 2 ^ k = ((m * 2 ^ k : Nat) : Int) := by push_cast; rfl
    simp only [unitsOf, place, hexp, hmag, hcast]
    rw [apply_roundedLevel, roundedMagnitude_units hm' hk]

/-- **Normalizing rounds the number of units.** -/
theorem normalize_spec (v : Int) (k : Nat) :
    Canonical (UnpackedFloat.normalize Format.binary32 v ((k : Int) - 149) .positive) ∧
      (UnpackedFloat.normalize Format.binary32 v ((k : Int) - 149) .positive).isNaN = false ∧
      place (UnpackedFloat.normalize Format.binary32 v ((k : Int) - 149) .positive) =
        roundedLevel (v * 2 ^ k) := by
  unfold UnpackedFloat.normalize
  rcases lt_trichotomy v 0 with h | h | h
  · rw [compare_of_lt h]
    obtain ⟨h1, h2, h3⟩ := (round_spec .negative (n := (-v).toNat) (by omega) k).spec
    have hcast : v * 2 ^ k = Sign.negative.apply (((-v).toNat * 2 ^ k : Nat) : Int) := by
      simp only [Sign.apply]
      push_cast
      rw [Int.toNat_of_nonneg (by omega)]
      ring
    exact ⟨h1, h2, by rw [h3, hcast, apply_roundedLevel]⟩
  · subst h
    have hzero : roundedLevel 0 = 0 := by decide
    exact ⟨.zero _, rfl, by rw [Int.zero_mul, hzero]; rfl⟩
  · rw [compare_of_gt h]
    obtain ⟨h1, h2, h3⟩ := (round_spec .positive (n := v.toNat) (by omega) k).spec
    have hcast : v * 2 ^ k = Sign.positive.apply ((v.toNat * 2 ^ k : Nat) : Int) := by
      simp only [Sign.apply]
      push_cast
      rw [Int.toNat_of_nonneg (by omega)]
    exact ⟨h1, h2, by rw [h3, hcast, apply_roundedLevel]⟩

/-- A mantissa over a smaller exponent is worth the same number of units. -/
theorem apply_decreaseExponent (s : Sign) (m : Nat) {k j : Nat} (h : j ≤ k) :
    s.apply ((decreaseExponent m ((k : Int) - 149) ((j : Int) - 149)).1 : Int) * 2 ^ j =
      s.apply ((m : Int) * 2 ^ k) := by
  have hshift : (((k : Int) - 149) - ((j : Int) - 149)).toNat = k - j := by omega
  have hunits : m <<< (k - j) * 2 ^ j = m * 2 ^ k := by
    rw [Nat.shiftLeft_eq, Nat.mul_assoc, ← Nat.pow_add, Nat.sub_add_cancel h]
  have hcast : ((m <<< (k - j) : Nat) : Int) * 2 ^ j = (m : Int) * 2 ^ k := by
    exact_mod_cast hunits
  simp only [decreaseExponent, hshift]
  cases s
  · simp only [Sign.apply]
    rw [Int.neg_mul, hcast]
  · exact hcast

/-- **The sum of two finite scores** is the exact sum, rounded. -/
theorem place_add {u v : UnpackedFloat} (hu : Canonical u) (hv : Canonical v)
    (fu : u.isFinite = true) (fv : v.isFinite = true) :
    Canonical (UnpackedFloat.add Format.binary32 u v) ∧
      (UnpackedFloat.add Format.binary32 u v).isNaN = false ∧
      place (UnpackedFloat.add Format.binary32 u v) = roundedLevel (unitsOf u + unitsOf v) := by
  have hzero : roundedLevel 0 = 0 := by decide
  rcases hu with s | _ | s | ⟨s, m, k, hm, hm', hk⟩
  · cases fu
  · cases fu
  · rcases hv with s' | _ | s' | ⟨s', n, l, hn, hn', hl⟩
    · cases fv
    · cases fv
    · cases s <;> cases s' <;> exact ⟨.zero _, rfl, hzero.symm⟩
    · have hex := roundedLevel_unitsOf (.finite s' n l hn hn' hl) rfl
      exact ⟨.finite s' n l hn hn' hl, rfl, by simp only [unitsOf, Int.zero_add] at hex ⊢; exact hex.symm⟩
  · rcases hv with s' | _ | s' | ⟨s', n, l, hn, hn', hl⟩
    · cases fv
    · cases fv
    · have hex := roundedLevel_unitsOf (.finite s m k hm hm' hk) rfl
      exact ⟨.finite s m k hm hm' hk, rfl, by simp only [unitsOf, Int.add_zero] at hex ⊢; exact hex.symm⟩
    · have hmin : min ((k : Int) - 149) ((l : Int) - 149) = ((min k l : Nat) : Int) - 149 := by
        omega
      have hexp : ∀ j : Nat, ((j : Int) - 149 + 149).toNat = j := fun j => by omega
      have hspec := normalize_spec
        (s.apply ((decreaseExponent m ((k : Int) - 149) (((min k l : Nat) : Int) - 149)).1 : Int) +
          s'.apply ((decreaseExponent n ((l : Int) - 149) (((min k l : Nat) : Int) - 149)).1 : Int))
        (min k l)
      rw [Int.add_mul, apply_decreaseExponent s m (Nat.min_le_left k l),
        apply_decreaseExponent s' n (Nat.min_le_right k l)] at hspec
      simp only [UnpackedFloat.add, unitsOf, hmin, hexp]
      exact hspec

/-- The exact worth of a score, in units of the least positive one. -/
def units (x : Score) : Int := unitsOf x.toModel.unpack

/-- One of the two infinities. -/
def IsInfinite (x : Score) : Prop := x.level = top ∨ x.level = -(top : Int)

instance (x : Score) : Decidable x.IsInfinite := inferInstanceAs (Decidable (_ ∨ _))

theorem isFinite_unpack {x : Score} (hx : x.IsNumber) (hf : ¬ x.IsInfinite) :
    x.toModel.unpack.isFinite = true := by
  unfold IsInfinite at hf
  rw [level_eq_place hx] at hf
  have hx' : x.toModel.unpack.isNaN = false := hx
  cases hu : x.toModel.unpack with
  | infinity s =>
    rw [hu] at hf
    cases s <;> simp [place, Sign.apply] at hf
  | notANumber =>
    rw [hu] at hx'
    cases hx'
  | zero s => rfl
  | finite s m e hm => rfl

/-- An infinite score unpacks to the infinity of its sign. -/
theorem unpack_of_isInfinite {x : Score} (hx : x.IsNumber) (h : x.IsInfinite) :
    ∃ s : Sign, x.toModel.unpack = .infinity s := by
  have hc := canonical_unpack x
  have hr := inRange_unpack x
  have hx' : x.toModel.unpack.isNaN = false := hx
  have htop : (0 : Int) < top := by decide
  unfold IsInfinite at h
  rw [level_eq_place hx] at h
  generalize x.toModel.unpack = u at hc hr hx' h
  rcases hc with s | _ | s | ⟨s, m, k, hm, hm', hk⟩
  · exact ⟨s, rfl⟩
  · cases hx'
  · simp only [place] at h
    omega
  · have hk' : k ≤ 253 := by
      simp only [InRange] at hr
      omega
    have := magnitude_bounds hm hm' hk'
    rw [place_finite s hm hm' hk'] at h
    cases s <;> simp only [Sign.apply] at h <;> omega

/-- The level of a packed score. -/
theorem level_pack {u : UnpackedFloat} (hu : Canonical u) (hn : u.isNaN = false) :
    level (Float32.ofModel (Float32.Model.pack u)) = place u :=
  (pack_spec hu hn).1

theorem add_eq (x y : Score) : x + y = Float32.ofModel
    (.pack (UnpackedFloat.add Format.binary32 x.toModel.unpack y.toModel.unpack)) := rfl

/-- What is not a number stays so when it is packed. -/
theorem not_isNumber_pack_notANumber : ¬ IsNumber (.ofModel (.pack .notANumber)) := by decide

/-- A sum with an infinite score is that score, or not a number. -/
theorem add_infinity (s : Sign) (u : UnpackedFloat) :
    (UnpackedFloat.add Format.binary32 (.infinity s) u = .infinity s ∨
        UnpackedFloat.add Format.binary32 (.infinity s) u = .notANumber) ∧
      (UnpackedFloat.add Format.binary32 u (.infinity s) = .infinity s ∨
        UnpackedFloat.add Format.binary32 u (.infinity s) = .notANumber) := by
  rcases u with s' | _ | s' | ⟨s', m, e, hm⟩
  · cases s <;> cases s' <;> first | exact ⟨.inl rfl, .inl rfl⟩ | exact ⟨.inr rfl, .inr rfl⟩
  · exact ⟨.inr rfl, .inr rfl⟩
  · exact ⟨.inl rfl, .inl rfl⟩
  · exact ⟨.inl rfl, .inl rfl⟩

/-- **What a sum of scores is,** if it is a number. -/
theorem level_add {x y : Score} (h : (x + y).IsNumber) :
    x.IsNumber ∧ y.IsNumber ∧ (x.IsInfinite → (x + y).level = x.level) ∧
      (y.IsInfinite → (x + y).level = y.level) ∧
      (¬ x.IsInfinite → ¬ y.IsInfinite → (x + y).level = roundedLevel (x.units + y.units)) := by
  have hx : x.IsNumber := by
    by_contra hx
    rw [add_eq, unpack_of_not_isNumber hx] at h
    exact not_isNumber_pack_notANumber h
  have hy : y.IsNumber := by
    by_contra hy
    rw [add_eq, unpack_of_not_isNumber hy] at h
    cases hu : x.toModel.unpack <;> rw [hu] at h <;> exact not_isNumber_pack_notANumber h
  refine ⟨hx, hy, fun ix => ?_, fun iy => ?_, fun fx fy => ?_⟩
  · obtain ⟨s, hs⟩ := unpack_of_isInfinite hx ix
    rw [level_eq_place hx, hs]
    rw [add_eq, hs] at h ⊢
    rcases (add_infinity s y.toModel.unpack).1 with heq | heq
    · rw [heq, level_pack (.infinity s) rfl]
    · rw [heq] at h
      exact absurd h not_isNumber_pack_notANumber
  · obtain ⟨s, hs⟩ := unpack_of_isInfinite hy iy
    rw [level_eq_place hy, hs]
    rw [add_eq, hs] at h ⊢
    rcases (add_infinity s x.toModel.unpack).2 with heq | heq
    · rw [heq, level_pack (.infinity s) rfl]
    · rw [heq] at h
      exact absurd h not_isNumber_pack_notANumber
  · obtain ⟨h1, h2, h3⟩ := place_add (canonical_unpack x) (canonical_unpack y)
      (isFinite_unpack hx fx) (isFinite_unpack hy fy)
    rw [add_eq, level_pack h1 h2, h3]
    rfl

/-- A finite score is at the level of its units. -/
theorem level_eq_roundedLevel {x : Score} (hx : x.IsNumber) (fx : ¬ x.IsInfinite) :
    x.level = roundedLevel x.units := by
  rw [level_eq_place hx, units, roundedLevel_unitsOf (canonical_unpack x) (isFinite_unpack hx fx)]

/-- A place determines the units of a finite score. -/
theorem unitsOf_inj {u v : UnpackedFloat} (hu : Canonical u) (hv : Canonical v) (ru : InRange u)
    (rv : InRange v) (fu : u.isFinite = true) (fv : v.isFinite = true) (h : place u = place v) :
    unitsOf u = unitsOf v := by
  have hpos : ∀ {v : UnpackedFloat}, Canonical v → InRange v → v.isFinite = true → place v = 0 →
      unitsOf v = 0 := by
    intro v hv rv fv h
    rcases hv with s | _ | s | ⟨s, m, k, hm, hm', hk⟩
    · cases fv
    · cases fv
    · rfl
    · have hk' : k ≤ 253 := by
        simp only [InRange] at rv
        omega
      have := magnitude_bounds hm hm' hk'
      rw [place_finite s hm hm' hk'] at h
      cases s <;> simp only [Sign.apply] at h <;> omega
  rcases hu with s | _ | s | ⟨s, m, k, hm, hm', hk⟩
  · cases fu
  · cases fu
  · exact (hpos hv rv fv h.symm).symm
  · rcases hv with s' | _ | s' | ⟨s', n, l, hn, hn', hl⟩
    · cases fv
    · cases fv
    · exact hpos (.finite s m k hm hm' hk) ru fu h
    · have hk' : k ≤ 253 := by
        simp only [InRange] at ru
        omega
      have hl' : l ≤ 253 := by
        simp only [InRange] at rv
        omega
      rw [place_finite s hm hm' hk', place_finite s' hn hn' hl'] at h
      have heq : s = s' ∧ k = l ∧ m = n := by
        cases s <;> cases s' <;> simp only [Sign.apply] at h <;>
          first
          | exact ⟨rfl, by omega, by omega⟩
          | omega
      obtain ⟨rfl, rfl, rfl⟩ := heq
      rfl

/-- Finite scores are worth more units at a higher level. -/
theorem units_mono {x y : Score} (hx : x.IsNumber) (hy : y.IsNumber) (fx : ¬ x.IsInfinite)
    (fy : ¬ y.IsInfinite) (h : x.level ≤ y.level) : x.units ≤ y.units := by
  by_contra hlt
  have hround := roundedLevel_mono (le_of_not_ge hlt)
  rw [← level_eq_roundedLevel hx fx, ← level_eq_roundedLevel hy fy] at hround
  have hlevel : x.level = y.level := by omega
  rw [level_eq_place hx, level_eq_place hy] at hlevel
  have := unitsOf_inj (canonical_unpack x) (canonical_unpack y) (inRange_unpack x)
    (inRange_unpack y) (isFinite_unpack hx fx) (isFinite_unpack hy fy) hlevel
  unfold units at hlt
  omega

/-- **Adding a score keeps the order,** as long as both sums are numbers. -/
theorem add_le_add_right {x y : Score} (h : x ≤ y) (p : Score) (hx : (x + p).IsNumber)
    (hy : (y + p).IsNumber) : x + p ≤ y + p := by
  obtain ⟨nx, ny, hle⟩ := le_iff.1 h
  obtain ⟨-, np, ix, ip, fx⟩ := level_add hx
  obtain ⟨-, -, iy, ip', fy⟩ := level_add hy
  refine le_iff.2 ⟨hx, hy, ?_⟩
  by_cases hp : p.IsInfinite
  · rw [ip hp, ip' hp]
  have hxu := hx.le_level
  have hyu := hy.level_le
  have hxt := nx.level_le
  have hyt := ny.le_level
  by_cases hxi : x.IsInfinite
  · rcases hxi with hxl | hxl
    · have hyi : y.IsInfinite := .inl (by have := ny.level_le; omega)
      rw [ix (.inl hxl), iy hyi]
      exact hle
    · rw [ix (.inr hxl), hxl]
      exact hy.le_level
  by_cases hyi : y.IsInfinite
  · rcases hyi with hyl | hyl
    · rw [iy (.inl hyl), hyl]
      exact hx.level_le
    · exact absurd (.inr (by have := nx.le_level; omega)) hxi
  rw [fx hxi hp, fy hyi hp]
  exact roundedLevel_mono (by have := units_mono nx ny hxi hyi hle; omega)

/-- **A sum with a score that is not positive** is no greater. -/
theorem add_le_self {x p : Score} (hp : ¬ certain < p) (h : (x + p).IsNumber) : x + p ≤ x := by
  obtain ⟨hx, np, ix, ip, fx⟩ := level_add h
  have hp' := (le_iff.1 (le_of_not_lt np isNumber_certain hp)).2.2
  rw [level_certain] at hp'
  have hlow := hx.le_level
  have htop : (0 : Int) < top := by decide
  refine le_iff.2 ⟨h, hx, ?_⟩
  by_cases hpi : p.IsInfinite
  · have hpl : p.level = -(top : Int) := hpi.resolve_left (by omega)
    rw [ip hpi, hpl]
    exact hlow
  by_cases hxi : x.IsInfinite
  · rw [ix hxi]
  have hcert : ¬ certain.IsInfinite := by decide
  have hzero : certain.units = 0 := by decide
  have hunits : p.units ≤ certain.units :=
    units_mono np isNumber_certain hpi hcert (by rw [level_certain]; exact hp')
  rw [fx hxi hpi, level_eq_roundedLevel hx hxi]
  exact roundedLevel_mono (by omega)

/-- **A sum with a score that is not negative** is no less. -/
theorem self_le_add {x p : Score} (hp : certain ≤ p) (h : (x + p).IsNumber) : x ≤ x + p := by
  obtain ⟨hx, np, ix, ip, fx⟩ := level_add h
  obtain ⟨-, -, hp'⟩ := le_iff.1 hp
  rw [level_certain] at hp'
  have htop : (0 : Int) < top := by decide
  refine le_iff.2 ⟨hx, h, ?_⟩
  by_cases hpi : p.IsInfinite
  · have hpl : p.level = (top : Int) := hpi.resolve_right (by omega)
    rw [ip hpi, hpl]
    exact hx.level_le
  by_cases hxi : x.IsInfinite
  · rw [ix hxi]
  have hcert : ¬ certain.IsInfinite := by decide
  have hzero : certain.units = 0 := by decide
  have hunits : certain.units ≤ p.units :=
    units_mono isNumber_certain np hcert hpi (by rw [level_certain]; exact hp')
  rw [fx hxi hpi, level_eq_roundedLevel hx hxi]
  exact roundedLevel_mono (by omega)

/-- What an arc leads to was lower before only if the token itself was higher. -/
theorem lt_of_lt_add {x y p : Score} (hp : ¬ certain < p) (h : x < y + p) : x < y := by
  have hle := add_le_self hp (lt_iff.1 h).2.1
  obtain ⟨hx, -, hlt⟩ := lt_iff.1 h
  obtain ⟨-, hy, hle⟩ := le_iff.1 hle
  exact lt_iff.2 ⟨hx, hy, by omega⟩

/-! ## Scores below infinity -/

/-- **Positive infinity,** which no log probability is. -/
def infinity : Score := Float32.ofBits 0x7F800000

theorem lt_infinity_iff {x : Score} : x < infinity ↔ x.IsNumber ∧ x.level < top := by
  have hnum : infinity.IsNumber := by decide
  have hlevel : infinity.level = (top : Int) := by decide
  rw [lt_iff, hlevel]
  exact ⟨fun h => ⟨h.1, h.2.2⟩, fun h => ⟨h.1, hnum, h.2⟩⟩

theorem isNumber_of_lt_infinity {x : Score} (h : x < infinity) : x.IsNumber :=
  (lt_infinity_iff.1 h).1

/-- An infinite score that is not positive infinity. -/
theorem unpack_of_lt_infinity {x : Score} (h : x < infinity) (hi : x.IsInfinite) :
    x.toModel.unpack = .infinity .negative := by
  obtain ⟨hx, hlt⟩ := lt_infinity_iff.1 h
  obtain ⟨s, hs⟩ := unpack_of_isInfinite hx hi
  cases s with
  | negative => exact hs
  | positive =>
    rw [level_eq_place hx, hs] at hlt
    simp [place, Sign.apply] at hlt

/-- **Sums of scores below infinity are numbers.** -/
theorem isNumber_add {x y : Score} (hx : x < infinity) (hy : y < infinity) : (x + y).IsNumber := by
  have hpack : ∀ u, Canonical u → u.isNaN = false → IsNumber (.ofModel (.pack u)) :=
    fun u hu hn => isNumber_iff.2 (pack_spec hu hn).2
  have hnx := isNumber_of_lt_infinity hx
  have hny := isNumber_of_lt_infinity hy
  have hny' : y.toModel.unpack.isNaN = false := hny
  have hnx' : x.toModel.unpack.isNaN = false := hnx
  rw [add_eq]
  by_cases ix : x.IsInfinite
  · rw [unpack_of_lt_infinity hx ix]
    by_cases iy : y.IsInfinite
    · rw [unpack_of_lt_infinity hy iy]
      exact hpack _ (.infinity _) rfl
    · have hf := isFinite_unpack hny iy
      cases hu : y.toModel.unpack with
      | infinity s => rw [hu] at hf; cases hf
      | notANumber => rw [hu] at hf; cases hf
      | zero s => exact hpack _ (.infinity _) rfl
      | finite s m e hm => exact hpack _ (.infinity _) rfl
  · by_cases iy : y.IsInfinite
    · rw [unpack_of_lt_infinity hy iy]
      have hf := isFinite_unpack hnx ix
      cases hu : x.toModel.unpack with
      | infinity s => rw [hu] at hf; cases hf
      | notANumber => rw [hu] at hf; cases hf
      | zero s => exact hpack _ (.infinity _) rfl
      | finite s m e hm => exact hpack _ (.infinity _) rfl
    · obtain ⟨h1, h2, -⟩ := place_add (canonical_unpack x) (canonical_unpack y)
        (isFinite_unpack hnx ix) (isFinite_unpack hny iy)
      exact hpack _ h1 h2

theorem lt_infinity_of_le {x y : Score} (h : x ≤ y) (hy : y < infinity) : x < infinity := by
  obtain ⟨hx, -, hle⟩ := le_iff.1 h
  exact lt_infinity_iff.2 ⟨hx, hle.trans_lt (lt_infinity_iff.1 hy).2⟩

theorem certain_lt_infinity : certain < infinity := by decide

/-- A score that is not positive is below infinity. -/
theorem lt_infinity_of_not_lt {p : Score} (hn : p.IsNumber) (hp : ¬ certain < p) : p < infinity :=
  lt_infinity_of_le (le_of_not_lt hn isNumber_certain hp) certain_lt_infinity

/-- Sums of scores that are not positive are not positive. -/
theorem add_le_certain {x p : Score} (hx : x ≤ certain) (hp : p ≤ certain) : x + p ≤ certain := by
  have hsum := isNumber_add (lt_infinity_of_le hx certain_lt_infinity)
    (lt_infinity_of_le hp certain_lt_infinity)
  exact le_trans (add_le_self (not_lt_of_le hp) hsum) hx

theorem add_lt_infinity {x p : Score} (hx : x < infinity) (hp : p ≤ certain) :
    x + p < infinity := by
  have hsum := isNumber_add hx (lt_infinity_of_le hp certain_lt_infinity)
  exact lt_infinity_of_le (add_le_self (not_lt_of_le hp) hsum) hx

/-- Nothing is below a sum with an impossible score. -/
theorem not_lt_add_impossible (x y : Score) : ¬ x < y + impossible := by
  intro h
  obtain ⟨hx, hsum, hlt⟩ := lt_iff.1 h
  obtain ⟨-, -, -, himp, -⟩ := level_add hsum
  rw [himp (.inr level_impossible), level_impossible] at hlt
  have := hx.le_level
  omega

/-- A sum with an impossible score is impossible. -/
theorem add_impossible_le {x y : Score} (hx : x < infinity) (hy : y.IsNumber) :
    x + impossible ≤ y := by
  have hsum := isNumber_add hx (lt_infinity_of_not_lt isNumber_impossible (by decide))
  exact le_of_not_lt hsum hy (not_lt_add_impossible y x)

/-- A margin below an impossible score excludes nothing. -/
theorem impossible_add_le {p y : Score} (hn : p.IsNumber) (hp : ¬ certain < p) (hy : y.IsNumber) :
    impossible + p ≤ y := by
  have himp : impossible < infinity := by decide
  have hsum := isNumber_add himp (lt_infinity_of_not_lt hn hp)
  exact le_trans (add_le_self hp hsum) (impossible_le hy)

end SpeechDecoder.Score

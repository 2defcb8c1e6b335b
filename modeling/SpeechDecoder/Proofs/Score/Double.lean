import SpeechDecoder.Decimal.Rounding
import SpeechDecoder.Proofs.Score.Rounding

/-!
# Doubles

The arithmetic of doubles of normal size, by their signs and magnitudes (`IsDouble`).  A whole number
times a power of ten, a product and a quotient are rounded once (`isDouble_nearest`, `IsDouble.mul`,
`IsDouble.div`), and `RoundsTo` says how near the result is.  A double is rounded to a score once
more (`IsDouble.ofDouble`).
-/

open Float.Model Float.Model.UnpackedFloat

namespace SpeechDecoder.Rounding

/-! ## Packing -/

section Packing

variable {spec : Format}

theorem unpackSign_packComponents (s : Sign) (e : BitVec spec.exponentBits)
    (m : BitVec spec.mantissaBitsWithoutImplicit) :
    unpackSign (packComponents spec s e m) = s.toBitVec := by
  refine BitVec.eq_of_getLsbD_eq fun i hi => ?_
  obtain rfl : i = 0 := by omega
  simp [unpackSign, packComponents, BitVec.getLsbD_append, BitVec.getElem_append]

theorem ofBitVec_toBitVec (s : Sign) : Sign.ofBitVec s.toBitVec = s := by
  cases s <;> rfl

/-- **A normal number is kept by packing.** -/
theorem unpack_pack {s : Sign} {m : ℕ} {e : ℤ} (hm : 0 < m)
    (hlow : 2 ^ spec.mantissaBitsWithoutImplicit ≤ m) (hup : m < 2 ^ spec.mantissaBits)
    (he : 0 < e + spec.exponentBias + spec.mantissaBitsWithoutImplicit)
    (he' : e + spec.exponentBias + spec.mantissaBitsWithoutImplicit + 1 < 2 ^ spec.exponentBits) :
    UnpackedFloat.unpack spec (UnpackedFloat.pack spec (.finite s m e hm)) = .finite s m e hm := by
  have hbits : spec.mantissaBits = spec.mantissaBitsWithoutImplicit + 1 := Nat.add_comm _ _
  obtain ⟨b, hb⟩ : ∃ b : ℕ, e + spec.exponentBias + spec.mantissaBitsWithoutImplicit = b :=
    ⟨(e + spec.exponentBias + spec.mantissaBitsWithoutImplicit).toNat, by omega⟩
  have hb0 : 0 < b := by omega
  have hb1 : b + 1 < 2 ^ spec.exponentBits := by
    rw [hb] at he'
    exact_mod_cast he'
  have hlog : m.log2 + 1 = spec.mantissaBits := by
    have h1 := (Nat.le_log2 hm.ne').2 hlow
    have h2 := (Nat.log2_lt hm.ne').2 hup
    omega
  have hpack : UnpackedFloat.pack spec (.finite s m e hm) =
      packComponents spec s (BitVec.ofNat _ b) (BitVec.ofNat _ m) := by
    unfold UnpackedFloat.pack
    simp only [hb, Int.toNat_natCast, hlog, if_true]
    exact if_neg (by omega)
  have hnat : (BitVec.ofNat spec.exponentBits b).toNat = b :=
    (BitVec.toNat_ofNat ..).trans (Nat.mod_eq_of_lt (by omega))
  have hones : BitVec.ofNat spec.exponentBits b ≠ -1#_ := by
    intro h
    have := congrArg BitVec.toNat h
    rw [hnat, BitVec.neg_one_eq_allOnes, BitVec.toNat_allOnes] at this
    omega
  have hzero : BitVec.ofNat spec.exponentBits b ≠ 0#_ := by
    intro h
    have := congrArg BitVec.toNat h
    rw [hnat, BitVec.toNat_zero] at this
    omega
  have hmantissa : (1#1 ++ BitVec.ofNat spec.mantissaBitsWithoutImplicit m).toNat = m := by
    have hdiv : m / 2 ^ spec.mantissaBitsWithoutImplicit = 1 := by
      rw [hbits, pow_succ] at hup
      exact Nat.div_eq_of_lt_le (by omega) (by omega)
    have hmod := Nat.div_add_mod m (2 ^ spec.mantissaBitsWithoutImplicit)
    rw [hdiv] at hmod
    rw [BitVec.toNat_append, ← Nat.shiftLeft_add_eq_or_of_lt (BitVec.isLt _), Nat.shiftLeft_eq]
    change 1 * 2 ^ spec.mantissaBitsWithoutImplicit +
      (BitVec.ofNat spec.mantissaBitsWithoutImplicit m).toNat = m
    rw [BitVec.toNat_ofNat]
    omega
  rw [hpack]
  unfold UnpackedFloat.unpack
  simp only [unpackMantissa_packComponents, unpackExponent_packComponents,
    unpackSign_packComponents, ofBitVec_toBitVec, hones, hzero, if_false, hnat, hmantissa]
  congr 1
  omega

end Packing

/-! ## Doubles -/

/-- **A double of normal size** with a sign and a magnitude. -/
def IsDouble (x : Float) (s : Sign) (y : ℚ) : Prop :=
  ∃ (m : ℕ) (e : ℤ) (hm : 0 < m), x.toModel.unpack = .finite s m e hm ∧ 2 ^ 52 ≤ m ∧
    m < 2 ^ 53 ∧ -1074 ≤ e ∧ e ≤ 971 ∧ (m : ℚ) * 2 ^ e = y

theorem minExponent_double : Format.binary64.minExponent = -1074 := by decide

theorem mantissaBits_double : Format.binary64.mantissaBits = 53 := by decide

/-- **A number and the double that it is rounded to.** -/
def RoundsTo (r y : ℚ) : Prop := ∃ M T, IsRounded Format.binary64 r M T ∧ y = M * 2 ^ T

/-- The error is at most half a unit in the last place. -/
theorem RoundsTo.near {r y : ℚ} (h : RoundsTo r y) {t : ℤ} (ht : -1000 ≤ t) (hr : r < 2 ^ t) :
    |y - r| ≤ 2 ^ (t - 54) := by
  obtain ⟨M, T, hround, rfl⟩ := h
  have := hround.near hr (by rw [minExponent_double, mantissaBits_double]; omega)
  rw [mantissaBits_double] at this
  refine this.trans_eq ?_
  congr 1
  omega

/-- A number that a double holds is kept. -/
theorem RoundsTo.exact {r y : ℚ} (h : RoundsTo r y) {N : ℕ} {e : ℤ} (hN : N < 2 ^ 53)
    (he : -1000 ≤ e) (hr : r = N * 2 ^ e) : y = r := by
  obtain ⟨M, T, hround, rfl⟩ := h
  exact hround.exact hr (by rw [mantissaBits_double]; exact hN) (by rw [minExponent_double]; omega)

theorem unpack_pack_double {s : Sign} {m : ℕ} {e : ℤ} (hm : 0 < m) (hlow : 2 ^ 52 ≤ m)
    (hup : m < 2 ^ 53) (he : -1074 ≤ e) (he' : e ≤ 971) :
    (Float.Model.pack (.finite s m e hm)).unpack = .finite s m e hm := by
  have hbias : Format.binary64.exponentBias = 1023 := by decide
  have hcapacity : (2 : ℤ) ^ Format.binary64.exponentBits = 2048 := by norm_num
  have hwidth : Format.binary64.mantissaBitsWithoutImplicit = 52 := rfl
  refine unpack_pack hm hlow (by rwa [mantissaBits_double]) ?_ ?_
  · rw [hbias, hwidth]
    omega
  · rw [hbias, hwidth, hcapacity]
    omega

/-- **Rounding to a double.** -/
theorem exists_isDouble (s : Sign) {n : ℕ} (hn : 0 < n) {e : ℤ} {acc : Accuracy} {x r : ℚ}
    (ht : Tells (.ofMantissaAndAccuracy n acc) x) (hr : r = x * 2 ^ e)
    (he : e ≤ max (n.log2 + 1 + e - 53) (-1074)) (hlow : (2 : ℚ) ^ (-1000 : ℤ) ≤ r)
    (hup : r < 2 ^ (1000 : ℤ)) : ∃ y, RoundsTo r y ∧
      IsDouble (.ofModel (.pack (roundWithAccuracy Format.binary64 s n e acc))) s y := by
  have htarget : Format.binary64.targetExponent (totalExponent n e) =
      max (n.log2 + 1 + e - 53) (-1074) := by
    unfold Format.targetExponent totalExponent
    rw [minExponent_double, mantissaBits_double]
    rfl
  obtain ⟨M, T, hround, hcarry⟩ := exists_isRounded s hn ht hr (htarget ▸ he)
  refine ⟨M * 2 ^ T, ⟨M, T, hround, rfl⟩, ?_⟩
  obtain ⟨m, e', hm, hu, hlow', hup', hmin, hmax, hval⟩ := hround.normal s
    ((two_zpow_le (by rw [minExponent_double, mantissaBits_double]; decide)).trans hlow) hup
  rw [minExponent_double] at hmin
  rw [mantissaBits_double] at hmax hup'
  refine ⟨m, e', hm, ?_, hlow', hup', hmin, by omega, hval⟩
  rw [hcarry, hu]
  exact unpack_pack_double hm hlow' hup' hmin (by omega)

theorem ofScientific_double {c : ℕ} (hc : 0 < c) {k : ℕ} (hk : k ≤ 2048) :
    UnpackedFloat.ofScientific Format.binary64 c k =
      roundWithAccuracy Format.binary64 .positive ((c <<< 53) * 10 ^ k) (-53) .exact := by
  have hlarge : ¬ (k : ℤ) > 2 ^ Format.binary64.exponentBits := by
    norm_num
    omega
  have hsmall : ¬ (k : ℤ) < -((2 ^ Format.binary64.exponentBits : ℤ) + c.log2) := by
    norm_num
    omega
  unfold UnpackedFloat.ofScientific
  rw [dif_neg hc.ne', if_neg hlarge, if_neg hsmall, if_pos (by omega)]
  rfl

/-- **The double nearest to a whole number.** -/
theorem isDouble_nearest {c : ℕ} (hc : 0 < c) {k : ℕ} (hk : k ≤ 2048)
    (hup : (c * 10 ^ k : ℚ) < 2 ^ (1000 : ℤ)) :
    ∃ y, RoundsTo (c * 10 ^ k) y ∧ IsDouble (Decimal.nearest c k) .positive y := by
  have hn : 0 < (c <<< 53) * 10 ^ k := by
    rw [Nat.shiftLeft_eq]
    positivity
  have hlog : 53 ≤ ((c <<< 53) * 10 ^ k).log2 := by
    rw [Nat.le_log2 hn.ne', Nat.shiftLeft_eq]
    have h1 : 2 ^ 53 ≤ c * 2 ^ 53 := Nat.le_mul_of_pos_left _ hc
    exact h1.trans (Nat.le_mul_of_pos_right _ (by positivity))
  have hval : (c * 10 ^ k : ℚ) = (((c <<< 53) * 10 ^ k : ℕ) : ℚ) * 2 ^ (-53 : ℤ) := by
    rw [Nat.shiftLeft_eq]
    push_cast
    rw [zpow_neg, ← div_eq_mul_inv, eq_div_iff (by positivity)]
    norm_cast
    ring
  have hlow : (2 : ℚ) ^ (-1000 : ℤ) ≤ c * 10 ^ k := by
    have hone : (1 : ℚ) ≤ c * 10 ^ k := by exact_mod_cast Nat.mul_pos hc (by positivity)
    exact (zpow_le_one_of_nonpos₀ (by norm_num) (by norm_num)).trans hone
  have := exists_isDouble .positive hn (tells_exact _) hval (by omega) hlow hup
  rw [← ofScientific_double hc hk] at this
  exact this

section Arithmetic

variable {a b : Float} {s s' : Sign} {u v : ℚ}

/-- **The product of doubles** is rounded once. -/
theorem IsDouble.mul (ha : IsDouble a s u) (hb : IsDouble b s' v)
    (hlow : (2 : ℚ) ^ (-1000 : ℤ) ≤ u * v) (hup : u * v < 2 ^ (1000 : ℤ)) :
    ∃ y, RoundsTo (u * v) y ∧ IsDouble (a * b) (s * s') y := by
  obtain ⟨m, e, hm, hu, hlo, -, -, -, rfl⟩ := ha
  obtain ⟨n, f, hn, hv, hlo', -, -, -, rfl⟩ := hb
  have hmul : a * b = .ofModel (.pack (roundWithAccuracy Format.binary64 (s * s') (m * n) (e + f)
      .exact)) := by
    change Float.ofModel (.pack (UnpackedFloat.mul Format.binary64 a.toModel.unpack
      b.toModel.unpack)) = _
    rw [hu, hv]
    rfl
  have hlog : 104 ≤ (m * n).log2 := by
    rw [Nat.le_log2 (Nat.mul_pos hm hn).ne']
    exact (Nat.mul_le_mul hlo hlo').trans' (by norm_num)
  rw [hmul]
  refine exists_isDouble (s * s') (Nat.mul_pos hm hn) (tells_exact _) ?_ (by omega) hlow hup
  push_cast
  rw [zpow_add₀ (by norm_num)]
  ring

/-- **The quotient of doubles** is rounded once. -/
theorem IsDouble.div (ha : IsDouble a s u) (hb : IsDouble b s' v)
    (hlow : (2 : ℚ) ^ (-1000 : ℤ) ≤ u / v) (hup : u / v < 2 ^ (1000 : ℤ)) :
    ∃ y, RoundsTo (u / v) y ∧ IsDouble (a / b) (s / s') y := by
  obtain ⟨m, e, hm, hu, hlo, hhi, -, -, rfl⟩ := ha
  obtain ⟨n, f, hn, hv, hlo', hhi', -, -, rfl⟩ := hb
  have hnpos : (0 : ℚ) < n := by exact_mod_cast hn
  have hratio : (m * 2 ^ e / (n * 2 ^ f) : ℚ) = m / n * 2 ^ (e - f) := by
    rw [zpow_sub₀ (by norm_num)]
    field_simp
  have hexp : -1000 < e - f + 1 := by
    refine lt_of_two_zpow_lt (hlow.trans_lt ?_)
    have htwo : (m / n : ℚ) < 2 := by
      rw [div_lt_iff₀ hnpos]
      have : m < 2 * n := by omega
      exact_mod_cast this
    rw [hratio, zpow_add_one₀ (by norm_num), mul_comm _ (2 : ℚ)]
    exact mul_lt_mul_of_pos_right htwo (two_zpow_pos _)
  have hlog : ∀ {k : ℕ}, 2 ^ 52 ≤ k → k < 2 ^ 53 → k.log2 = 52 := by
    intro k h h'
    have hk : k ≠ 0 := by omega
    have hge := (Nat.le_log2 hk).2 h
    have hlt := (Nat.log2_lt hk).2 h'
    omega
  have htarget : min (e - f) (Format.binary64.targetExponent (totalExponent m e -
      totalExponent n f)) = e - f - 53 := by
    unfold Format.targetExponent totalExponent
    rw [minExponent_double, mantissaBits_double, hlog hlo hhi, hlog hlo' hhi']
    omega
  have hdiv : a / b = .ofModel (.pack (roundWithAccuracy Format.binary64 (s / s')
      ((m <<< 53) / n) (e - f - 53) (accuracyOfFraction ((m <<< 53) % n) n))) := by
    change Float.ofModel (.pack (UnpackedFloat.div Format.binary64 a.toModel.unpack
      b.toModel.unpack)) = _
    have hshift : (e - f - (e - f - 53)).toNat = 53 := by omega
    rw [hu, hv]
    simp only [UnpackedFloat.div, divCore, htarget, hshift]
  have hquot : 2 ^ 52 ≤ (m <<< 53) / n := by
    rw [Nat.le_div_iff_mul_le hn, Nat.shiftLeft_eq]
    omega
  have hpos : 0 < (m <<< 53) / n := (Nat.two_pow_pos 52).trans_le hquot
  have hlogq : 52 ≤ ((m <<< 53) / n).log2 := (Nat.le_log2 hpos.ne').2 hquot
  have htells := tells_quotient (m <<< 53) hn
  have hval : (m * 2 ^ e / (n * 2 ^ f) : ℚ) = (m <<< 53 : ℕ) / n * 2 ^ (e - f - 53) := by
    rw [hratio, Nat.shiftLeft_eq, zpow_sub₀ (by norm_num) (e - f)]
    push_cast
    field_simp
  rw [hdiv]
  exact exists_isDouble (s / s') hpos htells hval (by omega) hlow hup

theorem IsDouble.isInf (ha : IsDouble a s u) : a.isInf = false := by
  obtain ⟨m, e, hm, hu, -⟩ := ha
  change a.toModel.unpack.isInf = false
  rw [hu]
  rfl

/-- The opposite of a double. -/
theorem IsDouble.neg (ha : IsDouble a s u) : IsDouble (-a) (-s) u := by
  obtain ⟨m, e, hm, hu, hlo, hhi, he, he', rfl⟩ := ha
  refine ⟨m, e, hm, ?_, hlo, hhi, he, he', rfl⟩
  change (Float.Model.pack a.toModel.unpack.neg).unpack = _
  rw [hu]
  exact unpack_pack_double hm hlo hhi he he'

/-- **A double is rounded to a score.** -/
theorem IsDouble.ofDouble (ha : IsDouble a s u) : ∃ M T, IsRounded Format.binary32 u M T ∧
    Score.ofDouble a = .ofModel (.pack (carried Format.binary32 s M T)) := by
  obtain ⟨m, e, hm, hu, hlo, hhi, -, -, rfl⟩ := ha
  have hlog : m.log2 = 52 := by
    have hge := (Nat.le_log2 hm.ne').2 hlo
    have hlt := (Nat.log2_lt hm.ne').2 hhi
    omega
  have hmin : Format.binary32.minExponent = -149 := by decide
  have hbits : Format.binary32.mantissaBits = 24 := by decide
  have htarget : Format.binary32.targetExponent (totalExponent m e) = max (e + 29) (-149) := by
    unfold Format.targetExponent totalExponent
    rw [hmin, hbits, hlog]
    omega
  -- a double has more bits than a score, so none are appended
  have hshift : (e - max (e + 29) (-149)).toNat = 0 := by omega
  have hround : UnpackedFloat.round Format.binary32 s m e =
      roundWithAccuracy Format.binary32 s m e .exact := by
    unfold UnpackedFloat.round decreaseExponent
    simp only [htarget, hshift]
    rw [Nat.shiftLeft_zero, Int.natCast_zero, Int.sub_zero]
  obtain ⟨M, T, hM, hcarry⟩ := exists_isRounded s hm (tells_exact m) rfl
    (by rw [htarget]; omega)
  refine ⟨M, T, hM, ?_⟩
  unfold Score.ofDouble
  rw [hu]
  simp only [hround, hcarry]

end Arithmetic

end SpeechDecoder.Rounding

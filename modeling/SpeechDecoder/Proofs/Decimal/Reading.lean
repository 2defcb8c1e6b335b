import SpeechDecoder.Json.Number
import SpeechDecoder.Graph.Json
import SpeechDecoder.Proofs.Decimal.Numeral
import SpeechDecoder.Proofs.Decimal.Separation
import SpeechDecoder.Proofs.Score.Double

/-!
# How the numeral of a decimal is read

The numeral that stands for a decimal `d · 10 ^ k` in a JSON text is read as a double, and what it
is rounded from is `d` times or by the double nearest to the power of ten (`double?_decimal`).

* `significand_eq` says that no digit is lost before a double is made of them.
* `isDouble_power` says which double stands for a power of ten.
* `scale?_isDouble` multiplies or divides by it.
-/

namespace SpeechDecoder.Decimal

open Rounding
open Float.Model (Format)
open Float.Model.UnpackedFloat (Sign)

/-! ## Whole numbers and powers of ten as doubles -/

theorem nearest_halfEven (n k : ℕ) : Nearest (Score.halfEven n k) (n / 2 ^ k) := by
  rw [← Score.roundedMantissa_shift]
  exact nearest_roundedMantissa (tells_shift (tells_exact n) k)

/-- **The double nearest to a whole number.** -/
theorem roundsTo_natCast {n : ℕ} (hn : 0 < n) {y : ℚ} (h : RoundsTo n y) :
    y = (Score.halfEven n (n.log2 - 52) * 2 ^ (n.log2 - 52) : ℕ) := by
  have hlow := Nat.log2_self_le hn.ne'
  have hup := Nat.lt_log2_self (n := n)
  rcases Nat.lt_or_ge n.log2 53 with hlog | hlog
  · have hzero : n.log2 - 52 = 0 := by omega
    have hlt : n < 2 ^ 53 := (Nat.log2_lt hn.ne').1 hlog
    rw [hzero, Score.halfEven_zero, pow_zero, Nat.mul_one]
    exact h.exact hlt (e := 0) (by omega) (by rw [zpow_zero, mul_one])
  · obtain ⟨M, T, hround, rfl⟩ := h
    obtain ⟨τ, hτ, hτ', hT⟩ := hround.place
    have hlow' : (2 : ℚ) ^ (n.log2 : ℤ) ≤ n := by exact_mod_cast hlow
    have hup' : (n : ℚ) < 2 ^ ((n.log2 + 1 : ℕ) : ℤ) := by exact_mod_cast hup
    have h1 := lt_of_two_zpow_lt (hlow'.trans_lt hτ')
    have h2 := lt_of_two_zpow_lt (hτ.trans_lt hup')
    have hplace : T = (n.log2 - 52 : ℕ) := by
      rw [hT]
      unfold Format.targetExponent
      rw [minExponent_double, mantissaBits_double]
      push_cast at h2
      omega
    subst hplace
    have hnearest := hround.nearest
    rw [zpow_natCast] at hnearest
    rw [hnearest.unique (nearest_halfEven n _)]
    push_cast
    rfl

theorem power_lt {n : ℕ} (hn : n < 47) : (power n : ℚ) < 2 ^ (200 : ℤ) := by
  obtain ⟨hnear, -⟩ := power_near n hn
  have hten : tens n ≤ 10 ^ 46 := Nat.pow_le_pow_right (by decide) (by omega)
  have hlt : power n < 2 ^ 200 := by
    norm_num at hnear hten ⊢
    omega
  exact_mod_cast hlt

/-- **The double that stands for a power of ten.** -/
theorem isDouble_power {n : ℕ} (hn : n < 47) : IsDouble (nearest 1 n) .positive (power n) := by
  have hup : ((1 : ℕ) * 10 ^ n : ℚ) < 2 ^ (1000 : ℤ) := by
    rw [Nat.cast_one, one_mul]
    calc (10 : ℚ) ^ n ≤ 10 ^ 46 := pow_le_pow_right₀ (by norm_num) (by omega)
      _ < 2 ^ (200 : ℤ) := by norm_num
      _ ≤ 2 ^ (1000 : ℤ) := two_zpow_le (by decide)
  obtain ⟨y, hy, hdouble⟩ := isDouble_nearest Nat.one_pos (by omega) hup
  have hten : ((1 : ℕ) * 10 ^ n : ℚ) = (tens n : ℕ) := by
    unfold tens
    push_cast
    ring
  rw [hten] at hy
  rwa [roundsTo_natCast (tens_pos n) hy] at hdouble

/-- A whole number that a double holds. -/
theorem isDouble_natCast {c : ℕ} (hc : 0 < c) (hc' : c < 2 ^ 53) :
    IsDouble (nearest c 0) .positive c := by
  have hlt : (c : ℚ) < 2 ^ (53 : ℤ) := by exact_mod_cast hc'
  have hup : (c * 10 ^ 0 : ℚ) < 2 ^ (1000 : ℤ) := by
    rw [pow_zero, mul_one]
    exact hlt.trans_le (two_zpow_le (by decide))
  obtain ⟨y, hy, hdouble⟩ := isDouble_nearest hc (by decide) hup
  rwa [hy.exact hc' (e := 0) (by omega) (by simp), pow_zero, mul_one] at hdouble

/-! ## Scaling -/

section Scaling

variable {c n : ℕ}

theorem one_le_power (n : ℕ) : (1 : ℚ) ≤ power n := by exact_mod_cast power_pos n

/-- A whole number is divided by a power of ten. -/
theorem isDouble_div_power (hc : 0 < c) (hc' : c < 2 ^ 53) (hn : n < 47) :
    ∃ y, RoundsTo (c / power n) y ∧ IsDouble (nearest c 0 / nearest 1 n) .positive y := by
  have hone : (1 : ℚ) ≤ c := by exact_mod_cast hc
  have hlt : (c : ℚ) < 2 ^ (53 : ℤ) := by exact_mod_cast hc'
  have hpower := one_le_power n
  have hlow : (2 : ℚ) ^ (-1000 : ℤ) ≤ c / power n := by
    rw [le_div_iff₀ (by linarith)]
    calc (2 : ℚ) ^ (-1000 : ℤ) * power n ≤ 2 ^ (-200 : ℤ) * 2 ^ (200 : ℤ) :=
          mul_le_mul (two_zpow_le (by decide)) (power_lt hn).le (by linarith) (two_zpow_pos _).le
      _ = 1 := by rw [← zpow_add₀ (by norm_num), Int.add_left_neg, zpow_zero]
      _ ≤ c := hone
  have hup : (c / power n : ℚ) < 2 ^ (1000 : ℤ) :=
    ((div_le_self (by linarith) hpower).trans_lt hlt).trans_le (two_zpow_le (by decide))
  exact (isDouble_natCast hc hc').div (isDouble_power hn) hlow hup

/-- A whole number is multiplied by a power of ten. -/
theorem isDouble_mul_power (hc : 0 < c) (hc' : c < 2 ^ 53) (hn : n < 47) :
    ∃ y, RoundsTo (c * power n) y ∧ IsDouble (nearest c 0 * nearest 1 n) .positive y := by
  have hone : (1 : ℚ) ≤ c := by exact_mod_cast hc
  have hlt : (c : ℚ) < 2 ^ (53 : ℤ) := by exact_mod_cast hc'
  have hpower := one_le_power n
  have hlow : (2 : ℚ) ^ (-1000 : ℤ) ≤ c * power n :=
    (zpow_le_one_of_nonpos₀ (by norm_num) (by norm_num)).trans
      (one_le_mul_of_one_le_of_one_le hone hpower)
  have hup : (c * power n : ℚ) < 2 ^ (1000 : ℤ) := by
    calc (c * power n : ℚ) < 2 ^ (53 : ℤ) * 2 ^ (200 : ℤ) :=
          mul_lt_mul'' hlt (power_lt hn) (by linarith) (by linarith)
      _ = 2 ^ (253 : ℤ) := by
          rw [← zpow_add₀ (by norm_num)]
          rfl
      _ ≤ 2 ^ (1000 : ℤ) := two_zpow_le (by decide)
  exact (isDouble_natCast hc hc').mul (isDouble_power hn) hlow hup

end Scaling

namespace Numeral

/-- **A significand is multiplied or divided once.** -/
theorem scale?_isDouble {c : ℕ} (hc : 0 < c) (hc' : c < 2 ^ 53) {k : ℤ} (hk : k.natAbs < 47) :
    ∃ x y, scale? (nearest c 0) k = some x ∧ RoundsTo (c * step power k) y ∧
      IsDouble x .positive y := by
  have hone : power 0 = 1 := power_eq_tens 0 (by decide)
  have hmax : k.natAbs ≤ maxPower := by
    unfold maxPower
    omega
  unfold scale?
  rcases lt_or_ge k 0 with hneg | hnonneg
  · have hstep : (c * step power k : ℚ) = c / power k.natAbs := by
      unfold step
      rw [show k.toNat = 0 by omega, show (-k).toNat = k.natAbs by omega, hone, Nat.cast_one,
        mul_one_div]
    obtain ⟨y, hy, hquot⟩ := isDouble_div_power hc hc' hk
    refine ⟨_, y, if_pos hneg, hstep ▸ hy, ?_⟩
    unfold shrink
    rwa [if_pos hmax]
  · obtain ⟨n, rfl⟩ := Int.eq_ofNat_of_zero_le hnonneg
    have hstep : (c * step power n : ℚ) = c * power n := by
      unfold step
      rw [Int.toNat_natCast, show (-(n : ℤ)).toNat = 0 by omega, hone, Nat.cast_one, div_one]
    rw [Int.natAbs_natCast] at hk hmax
    obtain ⟨y, hy, hprod⟩ := isDouble_mul_power hc hc' hk
    refine ⟨_, y, ?_, hstep ▸ hy, hprod⟩
    rw [if_neg (not_lt.2 hnonneg), if_pos (by exact_mod_cast hmax)]
    exact if_neg (by rw [hprod.isInf]; decide)

/-! ## Significands -/

/-- Further digits do not make a number smaller. -/
theorem le_ofDigitChars (cs : List Char) (v : ℕ) : v ≤ Nat.ofDigitChars 10 cs v := by
  rw [Nat.ofDigitChars_eq_ofDigitChars_zero]
  exact (Nat.le_mul_of_pos_left v (by positivity)).trans (Nat.le_add_right _ _)

/-- A digit that leaves the significand within 64 bits fits. -/
theorem fits_of_lt {c : Char} {cs : List Char} {v : ℕ} {e : ℤ}
    (h : Nat.ofDigitChars 10 (c :: cs) v < UInt64.size) :
    Significand.fits ⟨v, e, false⟩ c = true := by
  rw [Nat.ofDigitChars_cons] at h
  have := (le_ofDigitChars _ _).trans_lt h
  simpa [Significand.fits] using this

theorem foldl_whole (cs : List Char) (v : ℕ) (e : ℤ) (h : Nat.ofDigitChars 10 cs v < UInt64.size) :
    cs.foldl Significand.whole ⟨v, e, false⟩ = ⟨Nat.ofDigitChars 10 cs v, e, false⟩ := by
  induction cs generalizing v with
  | nil => rfl
  | cons c cs ih =>
    have hfits := fits_of_lt (e := e) h
    rw [Nat.ofDigitChars_cons] at h ⊢
    rw [List.foldl_cons, ← ih _ h]
    unfold Significand.whole
    rw [if_pos hfits]

theorem foldl_fraction (cs : List Char) (v : ℕ) (e : ℤ)
    (h : Nat.ofDigitChars 10 cs v < UInt64.size) :
    cs.foldl Significand.fraction ⟨v, e, false⟩ =
      ⟨Nat.ofDigitChars 10 cs v, e - cs.length, false⟩ := by
  induction cs generalizing v e with
  | nil => simp [Nat.ofDigitChars]
  | cons c cs ih =>
    have hfits := fits_of_lt (e := e) h
    rw [Nat.ofDigitChars_cons] at h ⊢
    have hstep : Significand.fraction ⟨v, e, false⟩ c =
        ⟨10 * v + (c.toNat - '0'.toNat), e - 1, false⟩ := if_pos hfits
    rw [List.foldl_cons, hstep, ih _ _ h, List.length_cons]
    congr 1
    push_cast
    omega

/-- **All digits of a short numeral are taken.** -/
theorem significand_eq {n : Numeral}
    (h : ofDigits (n.whole ++ n.fraction.getD []) < UInt64.size) :
    n.significand =
      ⟨ofDigits (n.whole ++ n.fraction.getD []), -((n.fraction.getD []).length : ℤ), false⟩ := by
  rw [ofDigits_eq, Nat.ofDigitChars_append] at h ⊢
  have hwhole := (le_ofDigitChars _ _).trans_lt h
  unfold significand
  rw [foldl_whole _ 0 0 hwhole]
  dsimp only
  rw [foldl_fraction _ _ 0 h, Int.zero_sub]

/-! ## Reading -/

/-- What the exponent of a numeral stands for. -/
def exponentValue : Option (ExponentSign × List Char) → ℤ
  | none => 0
  | some (.minus, ds) => -(ofDigits ds : ℤ)
  | some (_, ds) => ofDigits ds

/-- **A numeral is its significand, scaled once.** -/
theorem double?_eq {n : Numeral} {c : ℕ} {e : ℤ} (hs : n.significand = ⟨c, e, false⟩)
    (hsmall : ∀ sign ds, n.exponent = some (sign, ds) → ofDigits ds ≤ maxExponent) :
    n.double? = (scale? (nearest c 0) (e + exponentValue n.exponent)).map (signed n.negative) := by
  unfold double?
  rw [hs, Option.map_eq_bind]
  rcases hexp : n.exponent with _ | ⟨sign, ds⟩
  · rw [exponentValue, Int.add_zero]
    rfl
  · have hle := hsmall sign ds hexp
    simp only [Option.bind_eq_bind]
    rw [if_neg (not_lt.2 hle)]
    cases sign <;> rfl

end Numeral

/-! ## The numerals of decimals -/

namespace Layout

variable (negative : Bool) {d : ℕ} {k : ℤ}

/-- The digits of a number, and zeros before them. -/
theorem ofDigits_zeros_append (j : ℕ) (ds : List Char) :
    ofDigits (List.replicate j '0' ++ ds) = ofDigits ds := by
  rw [ofDigits_append, ofDigits_zeros, Nat.mul_zero, Nat.zero_add]

theorem ofDigits_append_zeros (ds : List Char) (j : ℕ) :
    ofDigits (ds ++ List.replicate j '0') = ofDigits ds * 10 ^ j := by
  rw [ofDigits_append, ofDigits_zeros, List.length_replicate, Nat.add_zero, Nat.mul_comm]

/-- **A whole number that is written positionally** ends in a zero after the point. -/
theorem significand_positional_whole (hk : 0 ≤ k) (hlt : d * 10 ^ (k.toNat + 1) < UInt64.size) :
    (Graph.Description.scoreLayout.positional negative (digits d) k).significand =
      ⟨d * 10 ^ (k.toNat + 1), -1, false⟩ := by
  have hpos : Graph.Description.scoreLayout.positional negative (digits d) k =
      ⟨negative, digits d ++ List.replicate k.toNat '0', some ['0'], none⟩ := by
    unfold positional
    dsimp only
    rw [if_pos hk]
    rfl
  have hdigits : ofDigits (digits d ++ List.replicate k.toNat '0' ++ ['0']) =
      d * 10 ^ (k.toNat + 1) := by
    rw [List.append_assoc, ← List.replicate_succ', ofDigits_append_zeros, ofDigits_digits]
  rw [hpos, Numeral.significand_eq]
  · dsimp only
    rw [Option.getD_some, hdigits]
    rfl
  · dsimp only
    rwa [Option.getD_some, hdigits]

/-- A number that is written positionally with digits after the point. -/
theorem significand_positional (hk : k < 0) (hlt : d < UInt64.size) :
    (Graph.Description.scoreLayout.positional negative (digits d) k).significand =
      ⟨d, k, false⟩ := by
  have hlen := List.length_pos_iff.2 (isDigits_digits d).1
  unfold positional
  dsimp only
  rw [if_neg (not_le.2 hk)]
  split_ifs with hplaces
  · have hdigits : ofDigits ((digits d).take ((digits d).length + k).toNat ++
        (digits d).drop ((digits d).length + k).toNat) = d := by
      rw [List.take_append_drop, ofDigits_digits]
    rw [Numeral.significand_eq]
    · dsimp only
      rw [Option.getD_some, hdigits, List.length_drop]
      congr 1
      omega
    · dsimp only
      rwa [Option.getD_some, hdigits]
  · have hdigits : ofDigits (['0'] ++ (List.replicate (-((digits d).length + k)).toNat '0' ++
        digits d)) = d := by
      rw [← List.append_assoc, ← List.replicate_one, List.replicate_append_replicate,
        ofDigits_zeros_append, ofDigits_digits]
    rw [Numeral.significand_eq]
    · dsimp only
      rw [Option.getD_some, hdigits, List.length_append, List.length_replicate]
      congr 1
      omega
    · dsimp only
      rwa [Option.getD_some, hdigits]

/-- A number that is written scientifically: its point stands after the first digit. -/
theorem significand_scientific (lead : ℤ) (hlt : d < UInt64.size) :
    (scientific negative (digits d) lead).significand =
      ⟨d, 1 - (digits d).length, false⟩ := by
  have hlen := List.length_pos_iff.2 (isDigits_digits d).1
  have hfraction : ((if (digits d).length ≤ 1 then none else some ((digits d).drop 1)) : Option
      (List Char)).getD [] = (digits d).drop 1 := by
    split_ifs with h
    · rw [List.drop_eq_nil_of_le h]
      rfl
    · rfl
  have hdigits : ofDigits ((digits d).take 1 ++ (digits d).drop 1) = d := by
    rw [List.take_append_drop, ofDigits_digits]
  unfold scientific
  rw [Numeral.significand_eq]
  · dsimp only
    rw [hfraction, hdigits, List.length_drop]
    congr 1
    omega
  · dsimp only
    rwa [hfraction, hdigits]

/-- A number that is written positionally has no exponent. -/
theorem exponent_positional (l : Layout) (ds : List Char) (e : ℤ) :
    (l.positional negative ds e).exponent = none ∧
      (l.positional negative ds e).negative = negative := by
  unfold positional
  dsimp only
  split_ifs <;> exact ⟨rfl, rfl⟩

/-- What a number that is written positionally is read as. -/
theorem double?_positional (l : Layout) {ds : List Char} {e e' : ℤ} {c : ℕ}
    (hs : (l.positional negative ds e).significand = ⟨c, e', false⟩) :
    (l.positional negative ds e).double? =
      (Numeral.scale? (nearest c 0) e').map (signed negative) := by
  obtain ⟨hexp, hneg⟩ := l.exponent_positional negative ds e
  rw [Numeral.double?_eq hs (by simp [hexp]), hexp, hneg, Numeral.exponentValue, Int.add_zero]

/-- What a number that is written scientifically is read as. -/
theorem double?_scientific {ds : List Char} {lead e : ℤ} {c : ℕ}
    (hlead : lead.natAbs ≤ Numeral.maxExponent)
    (hs : (scientific negative ds lead).significand = ⟨c, e, false⟩) :
    (scientific negative ds lead).double? =
      (Numeral.scale? (nearest c 0) (e + lead)).map (signed negative) := by
  rw [Numeral.double?_eq hs]
  · have hvalue : Numeral.exponentValue (scientific negative ds lead).exponent = lead := by
      unfold scientific
      dsimp only
      split_ifs with h
      · rw [Numeral.exponentValue, ofDigits_digits]
        omega
      · change (ofDigits (digits lead.natAbs) : ℤ) = lead
        rw [ofDigits_digits]
        omega
    rw [hvalue]
    rfl
  · intro sign es hes
    cases hes
    rwa [ofDigits_digits]

/-- **The numeral of a decimal is rounded twice** when it is read. -/
theorem double?_decimal (hd : 0 < d) (hd' : d < 2 ^ 29) (hk : k.natAbs < 47) :
    ∃ x y, (Graph.Description.scoreLayout.decimal negative ⟨d, k⟩).double? =
        some (signed negative x) ∧
      RoundsTo (d * step power k) y ∧ IsDouble x .positive y := by
  have hsize : UInt64.size = 18446744073709551616 := rfl
  have hlen : (digits d).length ≤ 9 := (length_digits_le (by decide)).2 (by omega)
  have hlen' := List.length_pos_iff.2 (isDigits_digits d).1
  have hscale := Numeral.scale?_isDouble hd (by omega) hk
  unfold decimal
  rw [show Graph.Description.scoreLayout.plain = some (-6, 12) from rfl]
  dsimp only
  split_ifs with hplain
  · rcases lt_or_ge k 0 with hneg | hnonneg
    · obtain ⟨x, y, hx, hy, hdouble⟩ := hscale
      refine ⟨x, y, ?_, hy, hdouble⟩
      rw [double?_positional negative _ (significand_positional negative hneg (by omega)), hx]
      rfl
    · -- the zero after the point makes ten times the number the significand
      have hc : d * 10 ^ (k.toNat + 1) < 10 ^ 14 := by
        have hlt : d < 10 ^ (digits d).length := (length_digits_le hlen').1 le_rfl
        calc d * 10 ^ (k.toNat + 1) < 10 ^ (digits d).length * 10 ^ (k.toNat + 1) :=
              Nat.mul_lt_mul_of_pos_right hlt (by positivity)
          _ = 10 ^ ((digits d).length + (k.toNat + 1)) := (Nat.pow_add ..).symm
          _ ≤ 10 ^ 14 := Nat.pow_le_pow_right (by decide) (by omega)
      obtain ⟨x, y, hx, hy, hdouble⟩ := Numeral.scale?_isDouble (c := d * 10 ^ (k.toNat + 1))
        (by positivity) (by omega) (k := -1) (by decide)
      refine ⟨x, y, ?_, ?_, hdouble⟩
      · rw [double?_positional negative _
          (significand_positional_whole negative hnonneg (by omega)), hx]
        rfl
      · have hvalue : ((d * 10 ^ (k.toNat + 1) : ℕ) * step power (-1) : ℚ) = d * step power k := by
          rw [step_power_eq (by decide), step_power_eq (by omega)]
          obtain ⟨n, rfl⟩ := Int.eq_ofNat_of_zero_le hnonneg
          rw [Int.toNat_natCast, zpow_natCast]
          push_cast
          rw [pow_succ, zpow_neg_one]
          field_simp
        rwa [hvalue] at hy
  · obtain ⟨x, y, hx, hy, hdouble⟩ := hscale
    refine ⟨x, y, ?_, hy, hdouble⟩
    rw [double?_scientific negative (by unfold Numeral.maxExponent; omega)
      (significand_scientific negative _ (by omega)),
      show 1 - ((digits d).length : ℤ) + ((digits d).length + k - 1) = k by omega, hx]
    rfl

theorem machineInt?_of_part {n : Numeral} (h : (n.fraction.isSome || n.exponent.isSome) = true) :
    n.machineInt? = none := by
  have hint : n.int? = none := by
    unfold Numeral.int?
    rw [if_pos h]
  unfold Numeral.machineInt?
  rw [hint]

theorem machineInt?_positional (ds : List Char) (e : ℤ) :
    (Graph.Description.scoreLayout.positional negative ds e).machineInt? = none := by
  refine machineInt?_of_part ?_
  unfold positional
  dsimp only
  split_ifs <;> first | rfl | contradiction

/-- The numeral of a decimal is not read as a whole number. -/
theorem machineInt?_decimal (d : Scientific) :
    (Graph.Description.scoreLayout.decimal negative d).machineInt? = none := by
  unfold decimal
  rw [show Graph.Description.scoreLayout.plain = some (-6, 12) from rfl]
  dsimp only
  split_ifs
  · exact machineInt?_positional negative _ _
  · exact machineInt?_of_part (Bool.or_true _)

end Layout

end SpeechDecoder.Decimal

import SpeechDecoder.Decimal.Shortest
import SpeechDecoder.Proofs.Score.Sum

/-!
# How near a short decimal comes to the middle of two scores

A reader of a decimal `d · 10 ^ k` rounds twice before the number becomes a score: the power of ten
to a double, and what comes out of the multiplication or division by it.  The score is the right one
unless these errors carry the number across the middle of two scores, `N · 2 ^ (q - 1)` for an odd
number `N` of 25 bits at most.

On a grid that is not finer than the scores this is a question about fractions.  Both numbers are
compared by comparing `d / N` with the ratio of `2 ^ (q - 1)` to `10 ^ k`.  Between two neighbouring
fractions, whose cross products differ by one, there is none with a smaller denominator than the
sum of theirs (`Bracket.separates`).  So it suffices that neighbours around the ratio have large
denominators and keep a distance from it.  `Bracket.find` goes down the tree of fractions to such
neighbours; there are less than three thousand ratios to try (`settled_tried`).  A ratio of small
numbers has no such neighbours, but then the powers of ten are not rounded (`apart_of_gcd`).
-/

namespace SpeechDecoder.Decimal

/-! ## Neighbouring fractions -/

/-- **Two fractions around a ratio.** -/
structure Bracket where
  num : ℕ
  den : ℕ
  num' : ℕ
  den' : ℕ

namespace Bracket

/-- The greatest denominator in question. -/
def maxDen : ℕ := 33554432

/-- The lower fraction is moved towards the upper one as far as it stays below `A / B` and its
denominator is not too large. -/
def raise (A B : ℕ) (f : Bracket) : Bracket :=
  let t := min ((A * f.den - f.num * B - 1) / (f.num' * B - A * f.den'))
    ((maxDen - f.den) / f.den')
  { f with num := f.num + t * f.num', den := f.den + t * f.den' }

/-- The upper fraction is moved towards the lower one likewise. -/
def lower (A B : ℕ) (f : Bracket) : Bracket :=
  let t := min ((f.num' * B - A * f.den' - 1) / (A * f.den - f.num * B))
    ((maxDen - f.den') / f.den)
  { f with num' := f.num' + t * f.num, den' := f.den' + t * f.den }

/-- The neighbours of `A / B` that have no further one between them. -/
def find (A B : ℕ) : ℕ → Bracket → Bracket
  | 0, f => f
  | n + 1, f => if maxDen < f.den + f.den' then f else find A B n (lower A B (raise A B f))

/-- **The fractions are neighbours around `A / B`,** no fraction of the denominators in question
lies between them, and they keep a distance from `A' / B'`. -/
def Fits (A B A' B' : ℕ) (f : Bracket) : Prop :=
  f.den * f.num' = f.num * f.den' + 1 ∧ maxDen < f.den + f.den' ∧
    f.num * B < A * f.den ∧ A * f.den' < f.num' * B ∧
    2 ^ 29 * (f.num * B') + A' < 2 ^ 29 * (f.den * A') ∧
    2 ^ 29 * (f.den' * A') + A' < 2 ^ 29 * (f.num' * B')

instance (A B A' B' : ℕ) (f : Bracket) : Decidable (f.Fits A B A' B') :=
  inferInstanceAs (Decidable (_ ∧ _ ∧ _ ∧ _ ∧ _ ∧ _))

end Bracket

/-! ## Keeping apart -/

/-- **What lies on one side of a ratio stays there:** `d / N` is not `A / B`, and on whichever side
of it, it keeps a distance from `A' / B'` on the same side. -/
structure Apart (A B A' B' d N : ℕ) : Prop where
  below : d * B < N * A → 2 ^ 29 * (d * B') + A' < 2 ^ 29 * (N * A')
  above : N * A < d * B → 2 ^ 29 * (N * A') + A' < 2 ^ 29 * (d * B')

section Separation

variable {f : Bracket} {A B A' B' d N : ℕ}

/-- The steps from the lower fraction, and those to the upper one, make up the fraction. -/
theorem Bracket.coordinates (h : f.Fits A B A' B') (d N : ℕ) :
    (N : ℤ) = f.den * (f.num' * N - d * f.den') + f.den' * (d * f.den - f.num * N) ∧
      (d : ℤ) = f.num * (f.num' * N - d * f.den') + f.num' * (d * f.den - f.num * N) := by
  have hdet : (f.den * f.num' : ℤ) = f.num * f.den' + 1 := by exact_mod_cast h.1
  constructor
  · linear_combination (-(N : ℤ)) * hdet
  · linear_combination (-(d : ℤ)) * hdet

/-- No fraction with so small a denominator lies between the two. -/
theorem Bracket.not_between (h : f.Fits A B A' B') (hN : N ≤ maxDen)
    (hlow : f.num * N < d * f.den) (hhigh : d * f.den' < f.num' * N) : False := by
  obtain ⟨hcoord, -⟩ := Bracket.coordinates h d N
  obtain ⟨-, hlarge, -⟩ := h
  have hu : (1 : ℤ) ≤ d * f.den - f.num * N := by
    have : ((f.num * N : ℕ) : ℤ) < (d * f.den : ℕ) := by exact_mod_cast hlow
    push_cast at this
    omega
  have hw : (1 : ℤ) ≤ f.num' * N - d * f.den' := by
    have : ((d * f.den' : ℕ) : ℤ) < (f.num' * N : ℕ) := by exact_mod_cast hhigh
    push_cast at this
    omega
  have hlarge' : (maxDen : ℤ) < f.den + f.den' := by exact_mod_cast hlarge
  have hN' : (N : ℤ) ≤ maxDen := by exact_mod_cast hN
  have h1 := mul_le_mul_of_nonneg_left hw (Int.natCast_nonneg f.den)
  have h2 := mul_le_mul_of_nonneg_left hu (Int.natCast_nonneg f.den')
  linarith

/-- What is below the ratio is below the upper fraction. -/
theorem Bracket.lt_upper (h : f.Fits A B A' B') (hN : 0 < N) (hle : d * B ≤ N * A) :
    d * f.den' < f.num' * N := by
  obtain ⟨-, -, -, hup, -⟩ := h
  refine lt_of_mul_lt_mul_right (a := B) ?_ (Nat.zero_le _)
  calc d * f.den' * B = d * B * f.den' := by ring
    _ ≤ N * A * f.den' := Nat.mul_le_mul_right _ hle
    _ = A * f.den' * N := by ring
    _ < f.num' * B * N := Nat.mul_lt_mul_of_pos_right hup hN
    _ = f.num' * N * B := by ring

/-- What is above the ratio is above the lower fraction. -/
theorem Bracket.lower_lt (h : f.Fits A B A' B') (hN : 0 < N) (hle : N * A ≤ d * B) :
    f.num * N < d * f.den := by
  obtain ⟨-, -, hlow, -⟩ := h
  refine lt_of_mul_lt_mul_right (a := B) ?_ (Nat.zero_le _)
  calc f.num * N * B = f.num * B * N := by ring
    _ < A * f.den * N := Nat.mul_lt_mul_of_pos_right hlow hN
    _ = N * A * f.den := by ring
    _ ≤ d * B * f.den := Nat.mul_le_mul_right _ hle
    _ = d * f.den * B := by ring

/-- The distance of a fraction from `A' / B'`, in steps from the lower fraction and to the upper. -/
theorem Bracket.distance (h : f.Fits A B A' B') (d N : ℕ) :
    (N * A' - d * B' : ℤ) = (f.num' * N - d * f.den') * (f.den * A' - f.num * B') -
      (d * f.den - f.num * N) * (f.num' * B' - f.den' * A') := by
  obtain ⟨hN, hd⟩ := Bracket.coordinates h d N
  linear_combination (A' : ℤ) * hN - (B' : ℤ) * hd

/-- **Neighbouring fractions keep other fractions apart** from what lies between them. -/
theorem Bracket.separates (h : f.Fits A B A' B') (hN : 0 < N) (hN' : N ≤ maxDen) :
    Apart A B A' B' d N ∧ d * B ≠ N * A := by
  have hdist := Bracket.distance h d N
  obtain ⟨-, -, -, -, hlow, hhigh⟩ := id h
  zify at hlow hhigh
  have hA : (0 : ℤ) ≤ A' := Int.natCast_nonneg A'
  have hP : (0 : ℤ) ≤ f.den * A' - f.num * B' := by linarith
  have hQ : (0 : ℤ) ≤ f.num' * B' - f.den' * A' := by linarith
  refine ⟨⟨fun hlt => ?_, fun hlt => ?_⟩, fun heq => ?_⟩
  · have hw := Bracket.lt_upper h hN hlt.le
    have hu : d * f.den ≤ f.num * N := not_lt.1 fun hu => Bracket.not_between h hN' hu hw
    zify at hw hu ⊢
    have h1 := mul_le_mul_of_nonneg_right (show (1 : ℤ) ≤ f.num' * N - d * f.den' by omega) hP
    have h2 := mul_nonneg (show (0 : ℤ) ≤ f.num * N - d * f.den by omega) hQ
    linarith
  · have hu := Bracket.lower_lt h hN hlt.le
    have hw : f.num' * N ≤ d * f.den' := not_lt.1 fun hw => Bracket.not_between h hN' hu hw
    zify at hw hu ⊢
    have h1 := mul_le_mul_of_nonneg_right (show (1 : ℤ) ≤ d * f.den - f.num * N by omega) hQ
    have h2 := mul_nonneg (show (0 : ℤ) ≤ d * f.den' - f.num' * N by omega) hP
    linarith
  · exact Bracket.not_between h hN' (Bracket.lower_lt h hN heq.ge) (Bracket.lt_upper h hN heq.le)

/-- **Fractions other than a ratio of small numbers** keep a distance from it. -/
theorem apart_of_gcd (h : A < Nat.gcd A B * 2 ^ 29) : Apart A B A B d N := by
  have hA : Nat.gcd A B ∣ N * A := (Nat.gcd_dvd_left A B).mul_left N
  have hB : Nat.gcd A B ∣ d * B := (Nat.gcd_dvd_right A B).mul_left d
  constructor
  · intro hlt
    have := Nat.le_of_dvd (Nat.sub_pos_of_lt hlt) (Nat.dvd_sub hA hB)
    omega
  · intro hlt
    have := Nat.le_of_dvd (Nat.sub_pos_of_lt hlt) (Nat.dvd_sub hB hA)
    omega

end Separation

/-! ## The ratios of scores and grids -/

/-- A power of ten. -/
def tens (n : ℕ) : ℕ := 10 ^ n

/-- **The double nearest to a power of ten,** which is a whole number. -/
def power (n : ℕ) : ℕ :=
  Score.halfEven (tens n) ((tens n).log2 - 52) * 2 ^ ((tens n).log2 - 52)

/-- The ratio of half of the last place to a step of the grid `10 ^ k`: its numerator, with the
powers of ten as they are or rounded. -/
def numer (p : ℕ → ℕ) (q k : ℤ) : ℕ := 2 ^ (q - 1).toNat * p (-k).toNat

/-- Its denominator. -/
def denom (p : ℕ → ℕ) (q k : ℤ) : ℕ := p k.toNat * 2 ^ (1 - q).toNat

/-- The coarsest grid with steps of half of the last place at most. -/
def grid (q : ℤ) : ℤ := (q - 1) * 30103 / 100000

/-- **What is to be tried for a grid:** if it is finer than the scores, it is so by a margin; if it
is coarser, it is too coarse to meet them, or has exact powers of ten and a ratio of small numbers,
or has a ratio with neighbours of large denominators. -/
def Settled (q k : ℤ) : Prop :=
  if denom tens q k < 2 * numer tens q k then
    1048576 * denom tens q k ≤ 1048575 * (2 * numer tens q k)
  else
    33554432 * numer tens q k ≤ denom tens q k ∨
      (k.natAbs ≤ 22 ∧ numer tens q k < Nat.gcd (numer tens q k) (denom tens q k) * 2 ^ 29) ∨
      (Bracket.find (numer tens q k) (denom tens q k) 12 ⟨0, 1, 1, 1⟩).Fits (numer tens q k)
        (denom tens q k) (numer power q k) (denom power q k)

instance (q k : ℤ) : Decidable (Settled q k) := inferInstanceAs (Decidable (ite _ _ _))

/-- The lower end of the basin of a power of two is nearer; there all grid points are tried. -/
def SettledPower (q k : ℤ) (d : ℕ) : Prop :=
  (Basin.ofMantissa 8388608 q).holds k d = true →
    (2 ^ 28 * (33554431 * numer power q k) + numer power q k < 2 ^ 29 * (d * denom power q k) ∧
      2 ^ 29 * (d * denom power q k) + numer power q k < 2 ^ 28 * (33554434 * numer power q k)) ∨
    (k.natAbs ≤ 22 ∧ d * denom tens q k = 16777217 * numer tens q k)

instance (q k : ℤ) (d : ℕ) : Decidable (SettledPower q k d) := inferInstanceAs (Decidable (_ → _))

/-! ### As rational numbers -/

theorem zpow_mul_toNat {a : ℚ} (ha : a ≠ 0) (k : ℤ) : a ^ k * a ^ (-k).toNat = a ^ k.toNat := by
  rw [← zpow_natCast, ← zpow_natCast, ← zpow_add₀ ha]
  congr 1
  omega

theorem natCast_lt_iff {a b : ℕ} {c x y : ℚ} (hc : 0 < c) (ha : (a : ℚ) = c * x)
    (hb : (b : ℚ) = c * y) : a < b ↔ x < y := by
  have hcast : (a : ℚ) < b ↔ a < b := Nat.cast_lt
  rw [← hcast, ha, hb, mul_lt_mul_iff_right₀ hc]

theorem natCast_le_iff {a b : ℕ} {c x y : ℚ} (hc : 0 < c) (ha : (a : ℚ) = c * x)
    (hb : (b : ℚ) = c * y) : a ≤ b ↔ x ≤ y := by
  have hcast : (a : ℚ) ≤ b ↔ a ≤ b := Nat.cast_le
  rw [← hcast, ha, hb, mul_le_mul_iff_right₀ hc]

theorem natCast_eq_iff {a b : ℕ} {c x y : ℚ} (hc : 0 < c) (ha : (a : ℚ) = c * x)
    (hb : (b : ℚ) = c * y) : a = b ↔ x = y := by
  rw [← Nat.cast_inj (R := ℚ), ha, hb, mul_right_inj' hc.ne']

/-- **A step of the grid `10 ^ k`,** with the powers of ten as they are or rounded. -/
def step (p : ℕ → ℕ) (k : ℤ) : ℚ := p k.toNat / p (-k).toNat

/-- The factor that makes natural numbers of a step and of half of the last place. -/
def factor (p : ℕ → ℕ) (q k : ℤ) : ℚ := p (-k).toNat * 2 ^ (1 - q).toNat

section Ratio

variable {p : ℕ → ℕ} (hp : ∀ n, 0 < p n) (q k : ℤ)

include hp in
theorem factor_pos : 0 < factor p q k := by
  have : (0 : ℚ) < p (-k).toNat := by exact_mod_cast hp _
  unfold factor
  positivity

theorem cast_numer : (numer p q k : ℚ) = factor p q k * 2 ^ (q - 1) := by
  have htwo := zpow_mul_toNat (a := 2) (by norm_num) (q - 1)
  rw [neg_sub] at htwo
  unfold numer factor
  push_cast
  rw [← htwo]
  ring

include hp in
theorem cast_denom : (denom p q k : ℚ) = factor p q k * step p k := by
  have : (0 : ℚ) < p (-k).toNat := by exact_mod_cast hp _
  unfold denom factor step
  push_cast
  field_simp

end Ratio

theorem tens_pos (n : ℕ) : 0 < tens n := Nat.pow_pos (by decide)

theorem power_pos (n : ℕ) : 0 < power n := by
  have hlog := Nat.log2_self_le (tens_pos n).ne'
  have hle : 2 ^ ((tens n).log2 - 52) ≤ tens n :=
    (Nat.pow_le_pow_right (by decide) (Nat.sub_le _ _)).trans hlog
  have hdiv := Nat.div_pos hle (Nat.two_pow_pos _)
  exact Nat.mul_pos (hdiv.trans_le (Score.le_halfEven _ _)) (Nat.two_pow_pos _)

theorem step_tens (k : ℤ) : step tens k = 10 ^ k := by
  have hten := zpow_mul_toNat (a := 10) (by norm_num) k
  unfold step tens
  rw [div_eq_iff (by positivity)]
  push_cast
  exact hten.symm

/-! ### What is tried -/

theorem power_eq_tens : ∀ n < 23, power n = tens n := by decide

theorem power_near : ∀ n < 47, 2 ^ 53 * power n ≤ 2 ^ 53 * tens n + tens n ∧
    2 ^ 53 * tens n ≤ 2 ^ 53 * power n + tens n := by decide +kernel

theorem grid_tried : ∀ i : ℕ, i < 254 →
    denom tens (i - 149) (grid (i - 149)) ≤ numer tens (i - 149) (grid (i - 149)) ∧
      numer tens (i - 149) (grid (i - 149) + 1) < denom tens (i - 149) (grid (i - 149) + 1) := by
  decide +kernel

theorem settled_tried : ∀ i : ℕ, i < 254 → ∀ j : ℕ, j < 10 →
    Settled (i - 149) (grid (i - 149) + j) := by
  decide +kernel

theorem settledPower_tried : ∀ i : ℕ, i < 253 → ∀ j : ℕ, j < 10 →
    SettledPower (i - 148) (grid (i - 148) + j)
        ((Basin.ofMantissa 8388608 (i - 148)).below (grid (i - 148) + j)) ∧
      SettledPower (i - 148) (grid (i - 148) + j)
        ((Basin.ofMantissa 8388608 (i - 148)).below (grid (i - 148) + j) + 1) := by
  decide +kernel

/-! ### Powers of ten as doubles -/

/-- Powers of ten that a double holds. -/
theorem step_power_eq {k : ℤ} (hk : k.natAbs ≤ 22) : step power k = 10 ^ k := by
  rw [← step_tens]
  unfold step
  rw [power_eq_tens _ (by omega), power_eq_tens _ (by omega)]

/-- **The error of a power of ten.** -/
theorem step_power_near {k : ℤ} (hk : k.natAbs < 47) :
    |step power k - 10 ^ k| ≤ 10 ^ k / 2 ^ 52 := by
  have hnear : ∀ n : ℕ, n < 47 → (2 ^ 53 * power n : ℚ) ≤ 2 ^ 53 * tens n + tens n ∧
      (2 ^ 53 * tens n : ℚ) ≤ 2 ^ 53 * power n + tens n :=
    fun n hn => by exact_mod_cast power_near n hn
  rw [← step_tens]
  unfold step
  rcases le_total 0 k with h | h
  · have hzero : (-k).toNat = 0 := by omega
    obtain ⟨hup, hlow⟩ := hnear k.toNat (by omega)
    rw [hzero, power_eq_tens 0 (by decide), abs_le]
    simp only [tens, pow_zero, Nat.cast_one, div_one] at *
    constructor <;> linarith
  · have hzero : k.toNat = 0 := by omega
    obtain ⟨hup, hlow⟩ := hnear (-k).toNat (by omega)
    have hpos : (0 : ℚ) < tens (-k).toNat := by exact_mod_cast tens_pos _
    have hpos' : (0 : ℚ) < power (-k).toNat := by exact_mod_cast power_pos _
    rw [hzero, power_eq_tens 0 (by decide)]
    simp only [show tens 0 = 1 from rfl, Nat.cast_one]
    rw [abs_le, div_sub_div _ _ hpos'.ne' hpos.ne', div_div, ← neg_div,
      div_le_div_iff₀ (by positivity) (by positivity),
      div_le_div_iff₀ (by positivity) (by positivity)]
    constructor <;> nlinarith only [hup, hlow, hpos, hpos']

end SpeechDecoder.Decimal

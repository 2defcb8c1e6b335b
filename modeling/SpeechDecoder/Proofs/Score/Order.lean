import SpeechDecoder.Score
import Mathlib

/-!
# The order of scores

A score that is a number has a place on a line of integers, its `level`: the bit pattern without the
sign, negated for negative scores, so that the two zeros fall together.  Comparisons of scores are
comparisons of levels (`lt_iff`, `le_iff`), and the total order `rank` refines them
(`rank_lt_of_lt`).

* `Canonical` describes the unpacked scores whose exponent is the one that the format asks for, and
  `place` is the level that they are packed to.
* `level_eq_place` and `level_pack` carry the level through unpacking and packing.
-/

open Float.Model Float.Model.UnpackedFloat

namespace SpeechDecoder.Score

/-- The bit pattern of positive infinity, which no number exceeds. -/
def top : Nat := 2139095040

/-- A bit pattern without its sign, negated if the sign was set. -/
def signedMagnitude (bits : Nat) : Int :=
  if bits < 2147483648 then bits else 2147483648 - (bits : Int)

/-- **The place of a score on the line of scores.** -/
def level (x : Score) : Int := signedMagnitude x.toBits.toNat

/-- A score that can be compared. -/
def IsNumber (x : Score) : Prop := x.isNaN = false

instance (x : Score) : Decidable x.IsNumber := inferInstanceAs (Decidable (_ = _))

/-- **The place that an unpacked score is packed to.**  In units of the least positive score, the
finite score `m · 2 ^ k` has magnitude `k · 2 ^ 23 + m`; too large a one is infinite. -/
def place : UnpackedFloat → Int
  | .infinity s => s.apply top
  | .notANumber => 0
  | .zero _ => 0
  | .finite s m e _ => s.apply (min (top : Int) ((e + 149) * 8388608 + m))

/-- **An unpacked score in the form of binary32:** a mantissa of 24 bits, with the leading one
unless the exponent is the least. -/
inductive Canonical : UnpackedFloat → Prop
  | infinity (s : Sign) : Canonical (.infinity s)
  | notANumber : Canonical .notANumber
  | zero (s : Sign) : Canonical (.zero s)
  | finite (s : Sign) (m : Nat) (k : Nat) (hm : 0 < m) (hlt : m < 16777216)
      (hle : 0 < k → 8388608 ≤ m) : Canonical (.finite s m ((k : Int) - 149) hm)

/-- An unpacked score of the range of binary32. -/
def InRange : UnpackedFloat → Prop
  | .finite _ _ e _ => e ≤ 104
  | _ => True

/-! ## Unpacking -/

theorem toNat_unpackMantissa (b : BitVec 32) :
    (@unpackMantissa Format.binary32 b).toNat = b.toNat % 8388608 := by
  simp [unpackMantissa]

theorem toNat_unpackExponent (b : BitVec 32) :
    (@unpackExponent Format.binary32 b).toNat = b.toNat / 8388608 % 256 := by
  simp [unpackExponent, Nat.shiftRight_eq_div_pow]

theorem toNat_unpackSign (b : BitVec 32) :
    (@unpackSign Format.binary32 b).toNat = b.toNat / 2147483648 := by
  have := b.isLt
  change (b.extractLsb 31 31).toNat = _
  rw [BitVec.extractLsb_toNat, Nat.shiftRight_eq_div_pow]
  omega

theorem append_leading (m : BitVec 23) : (1#1 ++ m).toNat = 8388608 + m.toNat := by
  rw [BitVec.toNat_append, ← Nat.shiftLeft_add_eq_or_of_lt m.isLt]
  simp [Nat.shiftLeft_eq]

/-- The sign of a bit pattern. -/
theorem apply_ofBitVec (b : BitVec 32) (n : Int) :
    (Sign.ofBitVec (@unpackSign Format.binary32 b)).apply n =
      if b.toNat < 2147483648 then n else -n := by
  have hs := toNat_unpackSign b
  have hb := b.isLt
  unfold Sign.ofBitVec
  by_cases h : b.toNat < 2147483648
  · have : @unpackSign Format.binary32 b = 0#1 := by
      apply BitVec.eq_of_toNat_eq
      rw [hs]
      simp
      omega
    rw [if_pos this, if_pos h]
    rfl
  · have : @unpackSign Format.binary32 b ≠ 0#1 := by
      intro h0
      have := congrArg BitVec.toNat h0
      rw [hs] at this
      simp at this
      omega
    rw [if_neg this, if_neg h]
    rfl

/-- A finite score with the sign of a bit pattern, and with the rest of it as its magnitude. -/
theorem unpack_finite (b : BitVec 32) {m : Nat} {e : Int} (k : Nat) (hm : 0 < m)
    (he : e = (k : Int) - 149) (hlt : m < 16777216) (hle : 0 < k → 8388608 ≤ m) (hk : k ≤ 253)
    (hb : b.toNat % 2147483648 = k * 8388608 + m) :
    Canonical (.finite (Sign.ofBitVec (@unpackSign Format.binary32 b)) m e hm) ∧
      InRange (.finite (Sign.ofBitVec (@unpackSign Format.binary32 b)) m e hm) ∧
      ((UnpackedFloat.finite (Sign.ofBitVec (@unpackSign Format.binary32 b)) m e hm).isNaN = false ↔
        b.toNat % 2147483648 ≤ top) ∧
      ((UnpackedFloat.finite (Sign.ofBitVec (@unpackSign Format.binary32 b)) m e hm).isNaN = false →
        place (.finite (Sign.ofBitVec (@unpackSign Format.binary32 b)) m e hm) =
          signedMagnitude b.toNat) := by
  have hlast := b.isLt
  subst he
  refine ⟨.finite _ m k hm hlt hle, ?_, iff_of_true rfl (by unfold top; omega), fun _ => ?_⟩
  · unfold InRange
    omega
  · simp only [place, apply_ofBitVec, top, signedMagnitude]
    split_ifs <;> omega

/-- **What a bit pattern unpacks to.** -/
theorem unpack_spec (b : BitVec 32) :
    Canonical (UnpackedFloat.unpack Format.binary32 b) ∧
      InRange (UnpackedFloat.unpack Format.binary32 b) ∧
      ((UnpackedFloat.unpack Format.binary32 b).isNaN = false ↔ b.toNat % 2147483648 ≤ top) ∧
      ((UnpackedFloat.unpack Format.binary32 b).isNaN = false →
        place (UnpackedFloat.unpack Format.binary32 b) = signedMagnitude b.toNat) := by
  have hm := toNat_unpackMantissa b
  have he := toNat_unpackExponent b
  have hb := b.isLt
  have hbias : (Format.binary32.exponentBias : Int) = 127 := by decide
  -- the tests of `unpack` on bit vectors, read as tests on numbers
  have hall : @unpackExponent Format.binary32 b = -1#_ ↔ b.toNat / 8388608 % 256 = 255 := by
    rw [← BitVec.toNat_inj, he]
    simp
  have hnone : @unpackExponent Format.binary32 b = 0#_ ↔ b.toNat / 8388608 % 256 = 0 := by
    rw [← BitVec.toNat_inj, he]
    simp
  have hmant : @unpackMantissa Format.binary32 b = 0#_ ↔ b.toNat % 8388608 = 0 := by
    rw [← BitVec.toNat_inj, hm]
    simp
  unfold UnpackedFloat.unpack
  dsimp only
  split_ifs with h1 h2 h3 h4
  · rw [hall] at h1
    rw [hmant] at h2
    refine ⟨.infinity _, trivial, iff_of_true rfl (by unfold top; omega), fun _ => ?_⟩
    simp only [place, apply_ofBitVec, top, signedMagnitude]
    split_ifs <;> omega
  · rw [hall] at h1
    rw [hmant] at h2
    have hnan : ¬ UnpackedFloat.notANumber.isNaN = false := by decide
    exact ⟨.notANumber, trivial, iff_of_false hnan (by unfold top; omega), fun h => absurd h hnan⟩
  · rw [hnone] at h3
    rw [hmant] at h4
    refine ⟨.zero _, trivial, iff_of_true rfl (by unfold top; omega), fun _ => ?_⟩
    simp only [place, signedMagnitude]
    split_ifs <;> omega
  · rw [hnone] at h3
    rw [hmant] at h4
    exact unpack_finite b 0 _ (by rw [he, hbias]; omega) (by omega) (by omega) (by omega) (by omega)
  · rw [hall] at h1
    rw [hnone] at h3
    have hlead : (1#1 ++ @unpackMantissa Format.binary32 b).toNat = 8388608 + b.toNat % 8388608 :=
      (append_leading _).trans (by rw [hm])
    exact unpack_finite b (b.toNat / 8388608 % 256 - 1) _ (by rw [he, hbias]; omega) (by omega)
      (fun _ => by omega) (by omega) (by omega)

theorem canonical_unpack (x : Score) : Canonical x.toModel.unpack := (unpack_spec _).1

theorem inRange_unpack (x : Score) : InRange x.toModel.unpack := (unpack_spec _).2.1

theorem isNumber_iff {x : Score} : x.IsNumber ↔ x.toBits.toNat % 2147483648 ≤ top :=
  (unpack_spec _).2.2.1

theorem level_eq_place {x : Score} (h : x.IsNumber) : x.level = place x.toModel.unpack :=
  ((unpack_spec _).2.2.2 h).symm

/-! ## Packing -/

theorem toNat_packComponents (s : Sign) (e : BitVec 8) (m : BitVec 23) :
    (packComponents Format.binary32 s e m).toNat =
      s.toBitVec.toNat * 2147483648 + e.toNat * 8388608 + m.toNat := by
  have he := e.isLt
  have hm := m.isLt
  have h1 : (s.toBitVec ++ e).toNat = s.toBitVec.toNat * 256 + e.toNat := by
    rw [BitVec.toNat_append, ← Nat.shiftLeft_add_eq_or_of_lt he, Nat.shiftLeft_eq]
  have h2 : (s.toBitVec ++ e ++ m).toNat = (s.toBitVec ++ e).toNat * 8388608 + m.toNat := by
    rw [BitVec.toNat_append, ← Nat.shiftLeft_add_eq_or_of_lt hm, Nat.shiftLeft_eq]
  unfold packComponents
  rw [h2, h1]
  omega

/-- The pattern of a sign and a magnitude. -/
theorem signedMagnitude_packComponents (s : Sign) (e : BitVec 8) (m : BitVec 23) :
    signedMagnitude (packComponents Format.binary32 s e m).toNat =
        s.apply ((e.toNat : Int) * 8388608 + m.toNat) ∧
      (packComponents Format.binary32 s e m).toNat % 2147483648 = e.toNat * 8388608 + m.toNat := by
  have he := e.isLt
  have hm := m.isLt
  rw [toNat_packComponents]
  unfold signedMagnitude
  cases s
  · have : Sign.negative.toBitVec.toNat = 1 := rfl
    rw [this, if_neg (by omega)]
    simp only [Sign.apply]
    omega
  · have : Sign.positive.toBitVec.toNat = 0 := rfl
    rw [this, if_pos (by omega)]
    simp only [Sign.apply]
    omega

/-- **What a canonical score is packed to.** -/
theorem pack_spec {u : UnpackedFloat} (hu : Canonical u) (hn : u.isNaN = false) :
    signedMagnitude (UnpackedFloat.pack Format.binary32 u).toNat = place u ∧
      (UnpackedFloat.pack Format.binary32 u).toNat % 2147483648 ≤ top := by
  have infinite : ∀ s : Sign,
      signedMagnitude (packedInfinity Format.binary32 s).toNat = s.apply top ∧
        (packedInfinity Format.binary32 s).toNat % 2147483648 ≤ top := by
    intro s
    cases s <;> decide
  rcases hu with s | _ | s | ⟨s, m, k, hm, hm', hk⟩
  · exact infinite s
  · cases hn
  · cases s <;> decide
  · have hbias : Format.binary32.exponentBias = 127 := by decide
    have hbits : Format.binary32.mantissaBits = 24 := by decide
    have hexp : ((k : Int) - 149 + (127 : Nat) + (23 : Nat)).toNat = k + 1 := by omega
    unfold UnpackedFloat.pack
    simp only [hbias, hexp, place]
    split_ifs with h1 h2
    · have hmin : min (top : Int) (((k : Int) - 149 + 149) * 8388608 + m) = top := by
        unfold top
        omega
      rw [hmin]
      exact infinite s
    all_goals
      have hmin : min (top : Int) (((k : Int) - 149 + 149) * 8388608 + m) =
          (k : Int) * 8388608 + m := by
        unfold top
        omega
      rw [hmin]
    · obtain ⟨hl, hb⟩ := signedMagnitude_packComponents s (BitVec.ofNat 8 (k + 1)) (BitVec.ofNat 23 m)
      have hlow : 2 ^ 23 ≤ m := (Nat.le_log2 hm.ne').1 (by rw [hbits] at h2; omega)
      rw [hl, hb]
      simp only [BitVec.toNat_ofNat, top]
      cases s <;> simp only [Sign.apply] <;> omega
    · obtain ⟨hl, hb⟩ := signedMagnitude_packComponents s 0#8 (BitVec.ofNat 23 m)
      have hlog : m.log2 < 24 := (Nat.log2_lt hm.ne').2 hm'
      have hhigh : m < 2 ^ 23 := (Nat.log2_lt hm.ne').1 (by rw [hbits] at h2; omega)
      rw [hl, hb]
      simp only [BitVec.toNat_ofNat, top]
      cases s <;> simp only [Sign.apply] <;> omega

/-! ## Comparing -/

/-- Exponents decide, then mantissas: the order of magnitudes. -/
theorem compare_finite {m n k l : Nat} (hm : m < 16777216) (hn : n < 16777216)
    (hk : 0 < k → 8388608 ≤ m) (hl : 0 < l → 8388608 ≤ n) :
    (compare ((k : Int) - 149) ((l : Int) - 149)).then (compare m n) =
      compare ((k : Int) * 8388608 + m) ((l : Int) * 8388608 + n) := by
  simp only [compare, compareOfLessAndEq]
  split_ifs <;> first | rfl | omega

theorem swap_compare (a b : Int) : (compare a b).swap = compare (-a) (-b) := by
  simp only [compare, compareOfLessAndEq]
  split_ifs <;> first | rfl | omega

theorem place_finite (s : Sign) {m k : Nat} (hm : 0 < m) (hlt : m < 16777216) (hk : k ≤ 253) :
    place (.finite s m ((k : Int) - 149) hm) = s.apply ((k : Int) * 8388608 + m) := by
  have h : min (top : Int) (((k : Int) - 149 + 149) * 8388608 + m) = (k : Int) * 8388608 + m := by
    unfold top
    omega
  simp only [place, h]

/-- A finite score lies strictly between zero and infinity. -/
theorem magnitude_bounds {m k : Nat} (hm : 0 < m) (hlt : m < 16777216) (hk : k ≤ 253) :
    0 < (k : Int) * 8388608 + m ∧ (k : Int) * 8388608 + m < top := by
  unfold top
  omega

theorem compare_of_lt {a b : Int} (h : a < b) : compare a b = .lt := compare_lt_iff_lt.2 h

theorem compare_of_gt {a b : Int} (h : b < a) : compare a b = .gt := compare_gt_iff_gt.2 h

/-- **Comparing unpacked scores** is comparing their places. -/
theorem compare_eq_compare_place {u v : UnpackedFloat} (hu : Canonical u) (hv : Canonical v)
    (ru : InRange u) (rv : InRange v) (nu : u.isNaN = false) (nv : v.isNaN = false) :
    u.compare v = some (compare (place u) (place v)) := by
  have htop : (0 : Int) < top := by decide
  rcases hu with s | _ | s | ⟨s, m, k, hm, hm', hk⟩
  · rcases hv with s' | _ | s' | ⟨s', n, l, hn, hn', hl⟩
    · cases s <;> cases s' <;> rfl
    · cases nv
    · cases s <;> rfl
    · have hl' : l ≤ 253 := by
        simp only [InRange] at rv
        omega
      have := magnitude_bounds hn hn' hl'
      rw [place_finite s' hn hn' hl']
      cases s <;> cases s' <;> simp only [UnpackedFloat.compare, place, Sign.apply] <;>
        first
        | rw [compare_of_lt (by omega)]
        | rw [compare_of_gt (by omega)]
  · cases nu
  · rcases hv with s' | _ | s' | ⟨s', n, l, hn, hn', hl⟩
    · cases s' <;> rfl
    · cases nv
    · rfl
    · have hl' : l ≤ 253 := by
        simp only [InRange] at rv
        omega
      have := magnitude_bounds hn hn' hl'
      rw [place_finite s' hn hn' hl']
      cases s' <;> simp only [UnpackedFloat.compare, place, Sign.apply] <;>
        first
        | rw [compare_of_lt (by omega)]
        | rw [compare_of_gt (by omega)]
  · have hk' : k ≤ 253 := by
      simp only [InRange] at ru
      omega
    have := magnitude_bounds hm hm' hk'
    rw [place_finite s hm hm' hk']
    rcases hv with s' | _ | s' | ⟨s', n, l, hn, hn', hl⟩
    · cases s <;> cases s' <;> simp only [UnpackedFloat.compare, place, Sign.apply] <;>
        first
        | rw [compare_of_lt (by omega)]
        | rw [compare_of_gt (by omega)]
    · cases nv
    · cases s <;> simp only [UnpackedFloat.compare, place, Sign.apply] <;>
        first
        | rw [compare_of_lt (by omega)]
        | rw [compare_of_gt (by omega)]
    · have hl' : l ≤ 253 := by
        simp only [InRange] at rv
        omega
      have := magnitude_bounds hn hn' hl'
      rw [place_finite s' hn hn' hl']
      cases s <;> cases s' <;> simp only [UnpackedFloat.compare, Sign.apply]
      · rw [compare_finite hm' hn' hk hl, swap_compare]
      · rw [compare_of_lt (by omega)]
      · rw [compare_of_gt (by omega)]
      · rw [compare_finite hm' hn' hk hl]

/-! ## The comparisons -/

theorem unpack_of_not_isNumber {x : Score} (h : ¬ x.IsNumber) :
    x.toModel.unpack = .notANumber := by
  have h' : ¬ x.toModel.unpack.isNaN = false := h
  cases hu : x.toModel.unpack with
  | notANumber => rfl
  | infinity s => exact absurd (hu ▸ rfl) h'
  | zero s => exact absurd (hu ▸ rfl) h'
  | finite s m e hm => exact absurd (hu ▸ rfl) h'

/-- A comparison in terms of the order of places; what is not a number is comparable to nothing. -/
theorem compare_unpack (x y : Score) : x.toModel.unpack.compare y.toModel.unpack =
    if x.IsNumber ∧ y.IsNumber then some (compare x.level y.level) else none := by
  split_ifs with h
  · rw [compare_eq_compare_place (canonical_unpack x) (canonical_unpack y) (inRange_unpack x)
      (inRange_unpack y) h.1 h.2, level_eq_place h.1, level_eq_place h.2]
  · by_cases hx : x.IsNumber
    · rw [unpack_of_not_isNumber (x := y) fun hy => h ⟨hx, hy⟩]
      cases x.toModel.unpack <;> rfl
    · rw [unpack_of_not_isNumber hx]
      rfl

theorem lt_iff {x y : Score} : x < y ↔ x.IsNumber ∧ y.IsNumber ∧ x.level < y.level := by
  have hlt : x < y ↔ x.toModel.unpack.lt y.toModel.unpack = true := by
    simp only [LT.lt, Float32.lt, Float32.Model.lt]
    exact decide_eq_true_iff
  rw [hlt, UnpackedFloat.lt, compare_unpack]
  split_ifs with h
  · simp [h.1, h.2, compare_lt_iff_lt]
  · exact iff_of_false (by simp) fun h' => h ⟨h'.1, h'.2.1⟩

theorem le_iff {x y : Score} : x ≤ y ↔ x.IsNumber ∧ y.IsNumber ∧ x.level ≤ y.level := by
  have hle : x ≤ y ↔ x.toModel.unpack.le y.toModel.unpack = true := by
    simp only [LE.le, Float32.le, Float32.Model.le]
    exact decide_eq_true_iff
  rw [hle, UnpackedFloat.le, compare_unpack]
  split_ifs with h
  · simp [h.1, h.2, Ordering.isLE_iff_ne_gt, ← compare_le_iff_le]
  · exact iff_of_false (by simp) fun h' => h ⟨h'.1, h'.2.1⟩

/-! ## Consequences -/

theorem IsNumber.level_le {x : Score} (h : x.IsNumber) : x.level ≤ top := by
  have := isNumber_iff.1 h
  have hb := x.toBits.toBitVec.isLt
  unfold level signedMagnitude top at *
  split_ifs <;> omega

theorem IsNumber.le_level {x : Score} (h : x.IsNumber) : -(top : Int) ≤ x.level := by
  have := isNumber_iff.1 h
  have hb : x.toBits.toNat < 4294967296 := x.toBits.toBitVec.isLt
  unfold level signedMagnitude top at *
  split_ifs <;> omega

theorem level_le_of_rank_le {x y : Score} (h : x.rank ≤ y.rank) : x.level ≤ y.level := by
  unfold rank at h
  unfold level signedMagnitude
  split_ifs at * <;> omega

/-- The total order refines the comparison. -/
theorem rank_lt_of_lt {x y : Score} (h : x < y) : x.rank < y.rank := by
  by_contra hle
  have := level_le_of_rank_le (not_lt.1 hle)
  have := (lt_iff.1 h).2.2
  omega

theorem not_lt_of_rank_le {x y : Score} (h : x.rank ≤ y.rank) : ¬ y < x := fun hlt => by
  have := rank_lt_of_lt hlt
  omega

theorem le_rfl {x : Score} (h : x.IsNumber) : x ≤ x := le_iff.2 ⟨h, h, Int.le_refl _⟩

theorem le_trans {x y z : Score} (hxy : x ≤ y) (hyz : y ≤ z) : x ≤ z := by
  obtain ⟨hx, -, h1⟩ := le_iff.1 hxy
  obtain ⟨-, hz, h2⟩ := le_iff.1 hyz
  exact le_iff.2 ⟨hx, hz, by omega⟩

theorem le_of_not_lt {x y : Score} (hx : x.IsNumber) (hy : y.IsNumber) (h : ¬ y < x) : x ≤ y := by
  refine le_iff.2 ⟨hx, hy, ?_⟩
  by_contra hlt
  exact h (lt_iff.2 ⟨hy, hx, by omega⟩)

theorem not_lt_of_le {x y : Score} (h : x ≤ y) : ¬ y < x := fun hlt => by
  have := (le_iff.1 h).2.2
  have := (lt_iff.1 hlt).2.2
  omega

theorem le_of_lt {x y : Score} (h : x < y) : x ≤ y := by
  obtain ⟨hx, hy, hlt⟩ := lt_iff.1 h
  exact le_iff.2 ⟨hx, hy, by omega⟩

theorem lt_of_le_of_lt {x y z : Score} (hxy : x ≤ y) (hyz : y < z) : x < z := by
  obtain ⟨hx, -, h1⟩ := le_iff.1 hxy
  obtain ⟨-, hz, h2⟩ := lt_iff.1 hyz
  exact lt_iff.2 ⟨hx, hz, by omega⟩

theorem lt_of_lt_of_le {x y z : Score} (hxy : x < y) (hyz : y ≤ z) : x < z := by
  obtain ⟨hx, -, h1⟩ := lt_iff.1 hxy
  obtain ⟨-, hz, h2⟩ := le_iff.1 hyz
  exact lt_iff.2 ⟨hx, hz, by omega⟩

theorem lt_of_not_le {x y : Score} (hx : x.IsNumber) (hy : y.IsNumber) (h : ¬ y ≤ x) : x < y := by
  refine lt_iff.2 ⟨hx, hy, ?_⟩
  by_contra hlt
  exact h (le_iff.2 ⟨hy, hx, by omega⟩)

theorem isNumber_impossible : impossible.IsNumber := by decide

theorem isNumber_certain : certain.IsNumber := by decide

theorem level_impossible : impossible.level = -(top : Int) := by decide

theorem level_certain : certain.level = 0 := by decide

theorem impossible_le {x : Score} (h : x.IsNumber) : impossible ≤ x :=
  le_iff.2 ⟨isNumber_impossible, h, by rw [level_impossible]; exact h.le_level⟩

end SpeechDecoder.Score

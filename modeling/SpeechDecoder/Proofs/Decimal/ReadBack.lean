import SpeechDecoder.Proofs.Decimal.Margin
import SpeechDecoder.Proofs.Decimal.Reading
import SpeechDecoder.Proofs.Score.Zero

/-!
# Scores are read back

The numeral of a finite score in a JSON text is read back as the score, bit for bit
(`Layout.score?_numeral?`).  The shortest decimal lies in the basin of the score, and the errors of
the reader do not leave it.
-/

open Float.Model Float.Model.UnpackedFloat

namespace SpeechDecoder.Decimal

open Rounding Score

/-! ## Finite scores -/

section Finite

variable {x : Score} {s : Sign} {m : ℕ} {q : ℤ} {hm : 0 < m}

/-- The parts of a finite score. -/
theorem isScore_of_unpack (h : x.toModel.unpack = .finite s m q hm) : IsScore m q := by
  have hcanonical := canonical_unpack x
  have hrange := inRange_unpack x
  rw [h] at hcanonical hrange
  cases hcanonical with
  | finite _ _ k _ hlt hle => exact ⟨hm, hlt, by omega, hrange, fun hq => hle (by omega)⟩

/-- **A finite score is made of its parts.** -/
theorem pack_of_unpack (h : x.toModel.unpack = .finite s m q hm) :
    Float32.ofModel (.pack (.finite s m q hm)) = x := by
  have hcanonical := canonical_unpack x
  have hnumber : x.IsNumber := by
    change x.toModel.unpack.isNaN = false
    rw [h]
    rfl
  have hlevel := level_eq_place hnumber
  rw [h] at hcanonical hlevel
  have hpack := level_pack hcanonical rfl
  have hne : place (.finite s m q hm) ≠ 0 := by
    have hscore := isScore_of_unpack h
    have := hscore.le
    unfold place top
    cases s <;> simp only [Sign.apply] <;> omega
  refine eq_of_level ?_ ?_ (hpack.trans hlevel.symm)
  · intro heq
    rw [heq, level_negativeZero] at hpack
    exact hne hpack.symm
  · intro heq
    rw [heq, level_negativeZero] at hlevel
    exact hne hlevel.symm

/-- The zeros. -/
theorem eq_of_unpack_zero (h : x.toModel.unpack = .zero s) :
    x = if s == .negative then negativeZero else certain := by
  cases s with
  | negative => exact eq_negativeZero_of_unpack h
  | positive =>
    have hnumber : x.IsNumber := by
      change x.toModel.unpack.isNaN = false
      rw [h]
      rfl
    change x = certain
    refine eq_of_level ?_ (by decide) ?_
    · rintro rfl
      have hzero : negativeZero.toModel.unpack = .zero .negative := rfl
      rw [hzero] at h
      cases h
    · rw [level_eq_place hnumber, h, level_certain]
      rfl

end Finite

/-- A sign before a double. -/
theorem isDouble_signed {a : Float} {y : ℚ} (h : IsDouble a .positive y) (s : Sign) :
    IsDouble (signed (s == .negative) a) s y := by
  cases s with
  | negative => exact h.neg
  | positive => exact h

namespace Layout

variable {x : Score} {n : Numeral}

/-- Exactly the finite scores have a numeral. -/
theorem isSome_numeral? (l : Layout) (x : Score) : (l.numeral? x).isSome = x.isFinite := by
  have hfinite : x.isFinite = x.toModel.unpack.isFinite := rfl
  rw [hfinite]
  unfold numeral?
  cases x.toModel.unpack <;> rfl

/-- **A score is written as a proper numeral.** -/
theorem proper_numeral? {l : Layout} (h : l.numeral? x = some n) : n.Proper := by
  unfold numeral? at h
  split at h
  · cases h
  · cases h
  · cases h
    exact l.proper_zero _
  · next s m q hm hu =>
    cases h
    have hscore := isScore_of_unpack hu
    obtain ⟨d, k, hshortest, hs⟩ := exists_isShortest hscore l.tie
    rw [hshortest]
    exact l.proper_decimal _ (hs.pos hm)

/-- **A score is read back from its numeral.** -/
theorem score?_numeral? (h : Graph.Description.scoreLayout.numeral? x = some n) :
    n.score? = some x := by
  unfold numeral? at h
  split at h
  · cases h
  · cases h
  · next s hu =>
    cases h
    rw [eq_of_unpack_zero hu]
    cases s <;> rfl
  · next s m q hm hu =>
    cases h
    have hscore := isScore_of_unpack hu
    obtain ⟨d, k, hshortest, hs⟩ := exists_isShortest hscore Graph.Description.scoreLayout.tie
    obtain ⟨a, y, hread, hy, ha⟩ := double?_decimal (s == .negative) (hs.pos hm) (hs.lt hscore)
      (hs.natAbs_lt hscore)
    obtain ⟨M, T, hround, hdouble⟩ := (isDouble_signed ha s).ofDouble
    rw [hshortest]
    unfold Numeral.score?
    rw [machineInt?_decimal, hread]
    change some (Score.ofDouble _) = some x
    rw [hdouble, carried_of_contains hscore s (hs.contains_rounded hscore hy) hround,
      pack_of_unpack hu]

end Layout

end SpeechDecoder.Decimal

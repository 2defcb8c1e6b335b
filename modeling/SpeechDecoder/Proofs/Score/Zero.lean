import SpeechDecoder.Proofs.Score.Greatest

/-!
# The two zeros

The two zeros are at one level, so the greatest of some scores is determined by its level only if
one of them does not occur.  The negative zero does not occur among the scores of a search, since a
sum is the negative zero only if both sides are (`add_ne_negativeZero`): an exact cancellation gives
the other zero, and nothing is rounded to zero.
-/

open Float.Model Float.Model.UnpackedFloat

namespace SpeechDecoder.Score

/-- Zero with a sign. -/
def negativeZero : Score := Float32.ofBits 0x80000000

theorem isNumber_negativeZero : negativeZero.IsNumber := by decide

theorem level_negativeZero : negativeZero.level = 0 := by decide

/-- **A number without the sign of a zero** is determined by its level. -/
theorem eq_of_level {x y : Score} (hx : x ≠ negativeZero) (hy : y ≠ negativeZero)
    (h : x.level = y.level) : x = y := by
  have hltx : x.toBits.toNat < 4294967296 := x.toBits.toBitVec.isLt
  have hlty : y.toBits.toNat < 4294967296 := y.toBits.toBitVec.isLt
  have hbits : ∀ z : Score, z ≠ negativeZero → z.toBits.toNat ≠ 2147483648 := by
    intro z hz hbits
    refine hz ?_
    rw [← Float32.ofBits_toBits z, show z.toBits = 0x80000000 from UInt32.toNat_inj.1 hbits]
    rfl
  have hx' := hbits x hx
  have hy' := hbits y hy
  have heq : x.toBits = y.toBits := by
    apply UInt32.toNat_inj.1
    unfold level signedMagnitude at h
    split_ifs at h <;> omega
  rw [← Float32.ofBits_toBits x, heq, Float32.ofBits_toBits]

/-- One score unpacks to the negative zero. -/
theorem eq_negativeZero_of_unpack {x : Score} (h : x.toModel.unpack = .zero .negative) :
    x = negativeZero := by
  have hx : x.IsNumber := by
    unfold IsNumber
    change x.toModel.unpack.isNaN = false
    rw [h]
    rfl
  have hlevel : x.level = certain.level := by
    rw [level_eq_place hx, h, level_certain]
    rfl
  by_contra hne
  rw [eq_of_level hne (by decide) hlevel, show certain.toModel.unpack = .zero .positive from rfl] at h
  cases h

/-- What is packed to the negative zero. -/
theorem eq_of_pack_eq_negativeZero {u : UnpackedFloat} (hu : Canonical u) (hn : u.isNaN = false)
    (h : Float32.ofModel (Float32.Model.pack u) = negativeZero) : u = .zero .negative := by
  have hplace : place u = 0 := by rw [← level_pack hu hn, h, level_negativeZero]
  rcases hu with s | _ | s | ⟨s, m, k, hm, hm', hk⟩
  · cases s <;> exact absurd hplace (by decide)
  · cases hn
  · cases s
    · rfl
    · exact absurd h (by decide)
  · have htop : (0 : Int) < top := by decide
    unfold place at hplace
    cases s <;> simp only [Sign.apply] at hplace <;> omega

/-- **A sum of finite scores is the negative zero** only if both of them are. -/
theorem eq_of_add_eq_negativeZero {u v : UnpackedFloat} (hu : Canonical u) (hv : Canonical v)
    (fu : u.isFinite = true) (fv : v.isFinite = true)
    (h : UnpackedFloat.add Format.binary32 u v = .zero .negative) : u = .zero .negative := by
  rcases hu with s | _ | s | ⟨s, m, k, hm, hm', hk⟩
  · cases fu
  · cases fu
  · rcases hv with s' | _ | s' | ⟨s', n, l, hn, hn', hl⟩
    · cases fv
    · cases fv
    · cases s
      · rfl
      · cases s' <;> cases h
    · cases h
  · rcases hv with s' | _ | s' | ⟨s', n, l, hn, hn', hl⟩
    · cases fv
    · cases fv
    · cases h
    · -- the exact sum is zero, which gets no sign, or it is rounded to a finite score
      have hmin : min ((k : Int) - 149) ((l : Int) - 149) = ((min k l : Nat) : Int) - 149 := by
        omega
      simp only [UnpackedFloat.add, hmin] at h
      generalize s.apply _ + s'.apply _ = v at h
      unfold UnpackedFloat.normalize at h
      rcases lt_trichotomy v 0 with hv | hv | hv
      · rw [compare_of_lt hv] at h
        obtain ⟨_, _, _, heq, -⟩ := round_spec .negative (n := (-v).toNat) (by omega) (min k l)
        simp only [heq] at h
        cases h
      · rw [hv] at h
        cases h
      · rw [compare_of_gt hv] at h
        obtain ⟨_, _, _, heq, -⟩ := round_spec .positive (n := v.toNat) (by omega) (min k l)
        simp only [heq] at h
        cases h

/-- **A sum is the negative zero** only if its left side is. -/
theorem add_ne_negativeZero {x : Score} (hx : x ≠ negativeZero) (y : Score) :
    x + y ≠ negativeZero := by
  intro h
  obtain ⟨hnx, hny, hix, hiy, -⟩ := level_add (x := x) (y := y) (h ▸ isNumber_negativeZero)
  rw [h, level_negativeZero] at hix hiy
  have htop : (0 : Int) < top := by decide
  have hfinite : ∀ {z : Score}, (z.IsInfinite → 0 = z.level) → ¬ z.IsInfinite := by
    intro z hz hi
    have := hz hi
    rcases hi with hi | hi <;> omega
  have fx := isFinite_unpack hnx (hfinite hix)
  have fy := isFinite_unpack hny (hfinite hiy)
  obtain ⟨hcanonical, hnumber, -⟩ := place_add (canonical_unpack x) (canonical_unpack y) fx fy
  rw [add_eq] at h
  exact hx (eq_negativeZero_of_unpack (eq_of_add_eq_negativeZero (canonical_unpack x)
    (canonical_unpack y) fx fy (eq_of_pack_eq_negativeZero hcanonical hnumber h)))

end SpeechDecoder.Score

import SpeechDecoder.Proofs.Score.Greatest

/-!
# Opposite scores

A sum of numbers is a number unless two opposite infinities meet in it (`isNumber_add_iff`).  A
difference is the sum with the negation (`sub_eq`), so a finite score stands at zero against itself
(`sub_self`), and no score is positive against one that it does not exceed (`sub_le_certain`).
-/

open Float.Model Float.Model.UnpackedFloat

namespace SpeechDecoder.Score

/-! ## Sums -/

/-- **One score is positive infinity.** -/
theorem eq_infinity {x : Score} (h : x.level = top) : x = infinity := by
  have hlt : x.toBits.toNat < 4294967296 := x.toBits.toBitVec.isLt
  have hbits : x.toBits = 0x7F800000 := by
    apply UInt32.toNat_inj.1
    unfold level signedMagnitude top at h
    split_ifs at h <;> simp <;> omega
  rw [← Float32.ofBits_toBits x, hbits]
  rfl

/-- A number is below positive infinity, or is that score. -/
theorem lt_infinity_iff_ne {x : Score} (h : x.IsNumber) : x < infinity ↔ x ≠ infinity := by
  rw [lt_infinity_iff]
  refine ⟨fun hlt heq => ?_, fun hne => ⟨h, lt_of_le_of_ne h.level_le fun heq => hne (eq_infinity heq)⟩⟩
  rw [heq, show infinity.level = (top : Int) by decide] at hlt
  exact lt_irrefl _ hlt.2

/-- A score between the infinities is finite. -/
theorem not_isInfinite {x : Score} (hlow : impossible < x) (hup : x < infinity) :
    ¬ x.IsInfinite := by
  have h1 := (lt_iff.1 hlow).2.2
  have h2 := (lt_infinity_iff.1 hup).2
  rw [level_impossible] at h1
  unfold IsInfinite
  omega

theorem isNumber_pack {u : UnpackedFloat} (hu : Canonical u) (hn : u.isNaN = false) :
    IsNumber (.ofModel (.pack u)) :=
  isNumber_iff.2 (pack_spec hu hn).2

/-- A sum of an infinite score and a finite one is the infinite one. -/
theorem add_of_isFinite (s : Sign) {u : UnpackedFloat} (hu : u.isFinite = true) :
    UnpackedFloat.add Format.binary32 (.infinity s) u = .infinity s ∧
      UnpackedFloat.add Format.binary32 u (.infinity s) = .infinity s := by
  cases u with
  | infinity => cases hu
  | notANumber => cases hu
  | zero => exact ⟨rfl, rfl⟩
  | finite => exact ⟨rfl, rfl⟩

/-- **Opposite infinities.** -/
def Opposite (x y : Score) : Prop :=
  x = infinity ∧ y = impossible ∨ x = impossible ∧ y = infinity

instance (x y : Score) : Decidable (Opposite x y) := inferInstanceAs (Decidable (_ ∨ _))

/-- **When a sum is a number:** both sides are, and they are not opposite infinities. -/
theorem isNumber_add_iff {x y : Score} :
    (x + y).IsNumber ↔ x.IsNumber ∧ y.IsNumber ∧ ¬ Opposite x y := by
  constructor
  · intro h
    obtain ⟨hx, hy, -⟩ := level_add h
    refine ⟨hx, hy, ?_⟩
    rintro (⟨rfl, rfl⟩ | ⟨rfl, rfl⟩)
    · exact absurd h (by decide)
    · exact absurd h (by decide)
  · rintro ⟨hx, hy, hno⟩
    by_cases ix : x.IsInfinite
    · by_cases iy : y.IsInfinite
      · rcases ix with ix | ix <;> rcases iy with iy | iy
        · rw [eq_infinity ix, eq_infinity iy]
          decide
        · exact absurd (.inl ⟨eq_infinity ix, eq_impossible iy⟩) hno
        · exact absurd (.inr ⟨eq_impossible ix, eq_infinity iy⟩) hno
        · rw [eq_impossible ix, eq_impossible iy]
          decide
      · obtain ⟨s, hs⟩ := unpack_of_isInfinite hx ix
        rw [add_eq, hs, (add_of_isFinite s (isFinite_unpack hy iy)).1]
        exact isNumber_pack (.infinity s) rfl
    · by_cases iy : y.IsInfinite
      · obtain ⟨s, hs⟩ := unpack_of_isInfinite hy iy
        rw [add_eq, hs, (add_of_isFinite s (isFinite_unpack hx ix)).2]
        exact isNumber_pack (.infinity s) rfl
      · obtain ⟨hc, hn, -⟩ := place_add (canonical_unpack x) (canonical_unpack y)
          (isFinite_unpack hx ix) (isFinite_unpack hy iy)
        exact isNumber_pack hc hn

/-! ## Differences -/

/-- A difference is the sum with the negation. -/
theorem sub_eq_add_neg (spec : Format) (u v : UnpackedFloat) :
    UnpackedFloat.sub spec u v = UnpackedFloat.add spec u v.neg := by
  rcases u with s | _ | s | ⟨s, m, e, hm⟩ <;> rcases v with s' | _ | s' | ⟨s', m', e', hm'⟩
  case finite.finite =>
    simp only [UnpackedFloat.sub, UnpackedFloat.add, UnpackedFloat.neg]
    cases s'
    · congr 1
      exact Int.sub_neg _ _
    · congr 1
  all_goals rfl

theorem sub_eq (x y : Score) : x - y = Float32.ofModel
    (.pack (UnpackedFloat.add Format.binary32 x.toModel.unpack y.toModel.unpack.neg)) :=
  congrArg (fun u => Float32.ofModel (.pack u)) (sub_eq_add_neg Format.binary32 _ _)

theorem canonical_neg {u : UnpackedFloat} (hu : Canonical u) : Canonical u.neg := by
  rcases hu with s | _ | s | ⟨s, m, k, hm, hm', hk⟩
  · exact .infinity _
  · exact .notANumber
  · exact .zero _
  · exact .finite _ m k hm hm' hk

theorem isFinite_neg {u : UnpackedFloat} (hu : u.isFinite = true) : u.neg.isFinite = true := by
  cases u with
  | infinity => cases hu
  | notANumber => cases hu
  | zero => rfl
  | finite => rfl

theorem unitsOf_neg (u : UnpackedFloat) : unitsOf u.neg = -unitsOf u := by
  cases u with
  | finite s m e hm =>
    cases s
    · exact (Int.neg_neg _).symm
    · rfl
  | _ => rfl

/-- **The difference of two finite scores** is a number, the exact difference rounded. -/
theorem level_sub {x y : Score} (hx : x.IsNumber) (hy : y.IsNumber) (fx : ¬ x.IsInfinite)
    (fy : ¬ y.IsInfinite) :
    (x - y).IsNumber ∧ (x - y).level = roundedLevel (x.units - y.units) := by
  obtain ⟨hc, hn, hp⟩ := place_add (canonical_unpack x) (canonical_neg (canonical_unpack y))
    (isFinite_unpack hx fx) (isFinite_neg (isFinite_unpack hy fy))
  rw [sub_eq]
  refine ⟨isNumber_pack hc hn, ?_⟩
  rw [level_pack hc hn, hp, unitsOf_neg]
  rfl

/-- **Differences of finite scores keep the order.** -/
theorem sub_le_sub {x x' y y' : Score} (hx : x ≤ x') (hy : y' ≤ y) (fx : ¬ x.IsInfinite)
    (fx' : ¬ x'.IsInfinite) (fy : ¬ y.IsInfinite) (fy' : ¬ y'.IsInfinite) : x - y ≤ x' - y' := by
  obtain ⟨nx, nx', hlx⟩ := le_iff.1 hx
  obtain ⟨ny', ny, hly⟩ := le_iff.1 hy
  obtain ⟨hnum, hlevel⟩ := level_sub nx ny fx fy
  obtain ⟨hnum', hlevel'⟩ := level_sub nx' ny' fx' fy'
  have hux := units_mono nx nx' fx fx' hlx
  have huy := units_mono ny' ny fy' fy hly
  refine le_iff.2 ⟨hnum, hnum', ?_⟩
  rw [hlevel, hlevel']
  exact roundedLevel_mono (by omega)

/-- **A finite score stands at zero against itself.** -/
theorem sub_self {x : Score} (hx : x.IsNumber) (fx : ¬ x.IsInfinite) : x - x = certain := by
  have hunpacked : ∀ u : UnpackedFloat, u.isFinite = true →
      UnpackedFloat.sub Format.binary32 u u = .zero .positive := by
    intro u hu
    cases u with
    | infinity => cases hu
    | notANumber => cases hu
    | zero s => cases s <;> rfl
    | finite s m e hm =>
      simp only [UnpackedFloat.sub, Int.sub_self]
      rfl
  change Float32.ofModel (.pack (UnpackedFloat.sub Format.binary32 x.toModel.unpack
    x.toModel.unpack)) = certain
  rw [hunpacked _ (isFinite_unpack hx fx)]
  rfl

/-- Whatever stands against positive infinity is impossible, or not a number. -/
theorem sub_infinity (x : Score) : x - infinity = impossible ∨ ¬ (x - infinity).IsNumber := by
  have hneg : infinity.toModel.unpack.neg = .infinity .negative := rfl
  rw [sub_eq, hneg]
  rcases (add_infinity .negative x.toModel.unpack).2 with heq | heq
  · rw [heq]
    exact .inl rfl
  · rw [heq]
    exact .inr not_isNumber_pack_notANumber

/-- **A score is not positive against one that it does not exceed,** as long as the difference is a
number. -/
theorem sub_le_certain {x y : Score} (hx : impossible < x) (h : x ≤ y) (hn : (x - y).IsNumber) :
    x - y ≤ certain := by
  obtain ⟨-, ny, -⟩ := le_iff.1 h
  have hy := lt_of_lt_of_le hx h
  by_cases hup : y < infinity
  · have fy := not_isInfinite hy hup
    have fx := not_isInfinite hx (lt_infinity_of_le h hup)
    have hle := sub_le_sub h (le_rfl ny) fx fy fy fy
    rwa [sub_self ny fy] at hle
  · obtain rfl : y = infinity := by
      by_contra hne
      exact hup ((lt_infinity_iff_ne ny).2 hne)
    rcases sub_infinity x with heq | hno
    · rw [heq]
      exact impossible_le isNumber_certain
    · exact absurd hn hno

end SpeechDecoder.Score

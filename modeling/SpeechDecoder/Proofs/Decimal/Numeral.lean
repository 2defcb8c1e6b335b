import SpeechDecoder.Decimal.Layout
import Mathlib

/-!
# Numerals and their texts

What a numeral is written as is read back as the same numeral, as long as the text does not go on as
a number would (`scan_text`).  That takes a numeral which a number may be written as: it has digits
in every part, and no zero before them (`Numeral.Proper`).  Whole numbers and scores are written as
such numerals (`proper_ofInt`, `Layout.proper_decimal`).
-/

namespace SpeechDecoder.Decimal

/-- **Digits,** at least one. -/
def IsDigits (ds : List Char) : Prop := ds ≠ [] ∧ ∀ c ∈ ds, c.isDigit = true

/-- A text that does not begin with a digit. -/
def EndsDigits (rest : List Char) : Prop := ∀ c, rest.head? = some c → c.isDigit = false

/-- **A text that does not go on as a number.** -/
def EndsNumber (rest : List Char) : Prop :=
  ∀ c, rest.head? = some c → c.isDigit = false ∧ c ≠ '.' ∧ c ≠ 'e' ∧ c ≠ 'E'

theorem EndsNumber.endsDigits {rest : List Char} (h : EndsNumber rest) : EndsDigits rest :=
  fun c hc => (h c hc).1

theorem endsDigits_cons {c : Char} (h : c.isDigit = false) (rest : List Char) :
    EndsDigits (c :: rest) := by
  intro d hd
  cases hd
  exact h

/-! ## The digits of a number -/

theorem isDigits_digits (n : Nat) : IsDigits (digits n) :=
  ⟨Nat.toDigits_ne_nil, fun _ h => Nat.isDigit_of_mem_toDigits (by decide) (by decide) h⟩

theorem ofDigits_eq (ds : List Char) : ofDigits ds = Nat.ofDigitChars 10 ds 0 := rfl

/-- **The digits of a number denote it.** -/
theorem ofDigits_digits (n : Nat) : ofDigits (digits n) = n := Nat.ofDigitChars_ten_toDigits

theorem ofDigits_append (ds es : List Char) :
    ofDigits (ds ++ es) = 10 ^ es.length * ofDigits ds + ofDigits es := by
  rw [ofDigits_eq, Nat.ofDigitChars_append, Nat.ofDigitChars_eq_ofDigitChars_zero]
  rfl

theorem ofDigits_zeros (k : Nat) : ofDigits (List.replicate k '0') = 0 := by
  rw [ofDigits_eq, Nat.ofDigitChars_replicate_zero, Nat.mul_zero]

/-- The digits of a positive number do not begin with a zero. -/
theorem head_digits {n : Nat} (hn : 0 < n) : (digits n).head? ≠ some '0' := by
  induction n using Nat.strong_induction_on with
  | _ n ih =>
    unfold digits
    rw [Nat.toDigits_eq_if (by decide)]
    split_ifs with h
    · rintro heq
      have hc : Nat.digitChar n = '0' := by simpa using heq
      interval_cases n <;> revert hc <;> decide
    · rw [List.head?_append_of_ne_nil _ Nat.toDigits_ne_nil]
      exact ih (n / 10) (by omega) (by omega)

theorem length_digits_le {n k : Nat} (hk : 0 < k) : (digits n).length ≤ k ↔ n < 10 ^ k :=
  Nat.length_toDigits_le_iff (by decide) hk

namespace Numeral

/-- **A numeral that a number may be written as:** all its parts have digits, and a zero before the
point stands alone. -/
structure Proper (n : Numeral) : Prop where
  whole : IsDigits n.whole
  lead : n.whole = ['0'] ∨ n.whole.head? ≠ some '0'
  fraction : ∀ ds, n.fraction = some ds → IsDigits ds
  exponent : ∀ sign ds, n.exponent = some (sign, ds) → IsDigits ds

/-! ## Reading what is written -/

theorem scanDigits_append {ds rest : List Char} (h : IsDigits ds) (hr : EndsDigits rest) :
    scanDigits (ds ++ rest) = some (ds, rest) := by
  have htake : rest.takeWhile Char.isDigit = [] := by
    rw [List.takeWhile_eq_nil_iff]
    intro hpos
    have := hr _ (List.head?_eq_getElem? ▸ List.getElem?_eq_getElem hpos)
    simpa using this
  have hdrop : rest.dropWhile Char.isDigit = rest := by
    have := List.takeWhile_append_dropWhile (p := Char.isDigit) (l := rest)
    rwa [htake, List.nil_append] at this
  unfold scanDigits
  rw [List.takeWhile_append_of_pos h.2, List.dropWhile_append_of_pos h.2, htake, hdrop,
    List.append_nil]
  obtain ⟨hne, -⟩ := h
  cases ds with
  | nil => exact absurd rfl hne
  | cons d ds => rfl

theorem scanWhole_append {ds rest : List Char} (h : IsDigits ds)
    (hlead : ds = ['0'] ∨ ds.head? ≠ some '0') (hr : EndsDigits rest) :
    scanWhole (ds ++ rest) = some (ds, rest) := by
  unfold scanWhole
  rw [scanDigits_append h hr]
  split
  · next heq =>
    cases heq
    rcases hlead with hlead | hlead
    · cases hlead
    · exact absurd rfl hlead
  · rfl

theorem scanFraction_append {f : Option (List Char)} (hf : ∀ ds, f = some ds → IsDigits ds)
    {rest : List Char} (hr : EndsDigits rest) (hp : rest.head? ≠ some '.') :
    scanFraction (fractionText f ++ rest) = some (f, rest) := by
  cases f with
  | none =>
    change scanFraction rest = _
    unfold scanFraction
    split
    · exact absurd rfl hp
    · rfl
  | some ds =>
    change (scanDigits (ds ++ rest)).map _ = _
    rw [scanDigits_append (hf ds rfl) hr]
    rfl

/-- A digit right after the letter is no sign. -/
theorem scanExponent_digit {d : Char} (hd : d.isDigit = true) (ds : List Char) :
    scanExponent ('e' :: d :: ds) =
      (scanDigits (d :: ds)).map fun (ds, rest) => (some (.none, ds), rest) := by
  have hplus : d ≠ '+' := by
    rintro rfl
    cases hd
  have hminus : d ≠ '-' := by
    rintro rfl
    cases hd
  simp [scanExponent, hplus, hminus]

theorem scanExponent_append {e : Option (ExponentSign × List Char)}
    (he : ∀ sign ds, e = some (sign, ds) → IsDigits ds) {rest : List Char} (hr : EndsNumber rest) :
    scanExponent (exponentText e ++ rest) = some (e, rest) := by
  rcases e with _ | ⟨sign, ds⟩
  · change scanExponent rest = _
    cases rest with
    | nil => rfl
    | cons c cs =>
      obtain ⟨-, -, he, hE⟩ := hr c rfl
      exact if_neg (by simp [he, hE])
  · have hd := he sign ds rfl
    cases sign with
    | plus =>
      change (scanDigits (ds ++ rest)).map _ = _
      rw [scanDigits_append hd hr.endsDigits]
      rfl
    | minus =>
      change (scanDigits (ds ++ rest)).map _ = _
      rw [scanDigits_append hd hr.endsDigits]
      rfl
    | none =>
      obtain ⟨d, ds, rfl⟩ := List.exists_cons_of_ne_nil hd.1
      have hdigit : d.isDigit = true := hd.2 d (List.mem_cons_self ..)
      have hscan := scanDigits_append hd hr.endsDigits
      change scanExponent ('e' :: d :: (ds ++ rest)) = _
      rw [scanExponent_digit hdigit]
      change (scanDigits (d :: ds ++ rest)).map _ = _
      rw [hscan]
      rfl

theorem EndsNumber.exponentText {e : Option (ExponentSign × List Char)} {rest : List Char}
    (hr : EndsNumber rest) : EndsDigits (exponentText e ++ rest) ∧
      (exponentText e ++ rest).head? ≠ some '.' := by
  rcases e with _ | ⟨_ | _ | _, ds⟩
  · refine ⟨hr.endsDigits, fun h => ?_⟩
    exact (hr '.' h).2.1 rfl
  all_goals exact ⟨endsDigits_cons (by decide) _, by simp [Numeral.exponentText]⟩

theorem endsDigits_fractionText {f : Option (List Char)} {rest : List Char}
    (hr : EndsDigits rest) : EndsDigits (fractionText f ++ rest) := by
  cases f with
  | none => exact hr
  | some ds => exact endsDigits_cons (by decide) _

theorem scanUnsigned_append {n : Numeral} (hn : n.Proper) {rest : List Char}
    (hr : EndsNumber rest) (negative : Bool) :
    scanUnsigned negative (n.whole ++ fractionText n.fraction ++ exponentText n.exponent ++ rest) =
      some (⟨negative, n.whole, n.fraction, n.exponent⟩, rest) := by
  obtain ⟨hexp, hpoint⟩ := EndsNumber.exponentText (e := n.exponent) hr
  unfold scanUnsigned
  rw [List.append_assoc, List.append_assoc, scanWhole_append hn.whole hn.lead
    (endsDigits_fractionText hexp)]
  simp only [Option.bind_eq_bind, Option.bind_some]
  rw [scanFraction_append hn.fraction hexp hpoint]
  simp only [Option.bind_some]
  rw [scanExponent_append hn.exponent hr]
  rfl

/-- A numeral begins with a sign or with a digit. -/
theorem head_text {n : Numeral} (hn : n.Proper) :
    ∃ c cs, n.text = c :: cs ∧ (c = '-' ∨ c.isDigit = true) := by
  obtain ⟨d, ds, hw⟩ := List.exists_cons_of_ne_nil hn.whole.1
  have hd : d.isDigit = true := hn.whole.2 d (hw ▸ List.mem_cons_self ..)
  unfold text
  rw [hw]
  cases n.negative with
  | true => exact ⟨_, _, rfl, .inl rfl⟩
  | false => exact ⟨_, _, rfl, .inr hd⟩

/-- **The text of a numeral is read back as the numeral.** -/
theorem scan_text {n : Numeral} (hn : n.Proper) {rest : List Char} (hr : EndsNumber rest) :
    scan (n.text ++ rest) = some (n, rest) := by
  have hscan := scanUnsigned_append hn hr n.negative
  have htext : n.text ++ rest = (if n.negative then ['-'] else []) ++
      (n.whole ++ fractionText n.fraction ++ exponentText n.exponent ++ rest) := by
    simp only [text, List.append_assoc]
  rw [htext]
  obtain ⟨negative, whole, fraction, exponent⟩ := n
  cases negative with
  | true => exact hscan
  | false =>
    obtain ⟨d, ds, rfl⟩ := List.exists_cons_of_ne_nil hn.whole.1
    have hd : d.isDigit = true := hn.whole.2 d (List.mem_cons_self ..)
    change scan (d :: (ds ++ fractionText fraction ++ exponentText exponent ++ rest)) = _
    unfold scan
    split
    · next heq =>
      cases heq
      exact absurd hd (by decide)
    · exact hscan

/-! ## Numerals of numbers -/

theorem proper_ofInt (i : Int) : (ofInt i).Proper where
  whole := isDigits_digits _
  lead := by
    by_cases h : i.natAbs = 0
    · left
      simp only [ofInt, h]
      rfl
    · exact .inr (head_digits (by omega))
  fraction := by
    rintro ds ⟨⟩
  exponent := by
    rintro sign ds ⟨⟩

end Numeral

namespace Layout

theorem take_of_head {ds : List Char} (hhead : ds.head? ≠ some '0') {k : Nat} (hk : 0 < k) :
    (ds.take k).head? ≠ some '0' := by
  rwa [List.head?_take, if_neg hk.ne']

/-- Digits written positionally, no zero before them, make a proper numeral. -/
theorem proper_positional (l : Layout) (negative : Bool) {ds : List Char} (h : IsDigits ds)
    (hhead : ds.head? ≠ some '0') (exponent : Int) : (l.positional negative ds exponent).Proper := by
  obtain ⟨hne, hd⟩ := h
  have hzeros : ∀ k, ∀ c ∈ List.replicate k '0', c.isDigit = true := by
    intro k c hc
    rw [List.eq_of_mem_replicate hc]
    rfl
  unfold positional
  dsimp only
  split_ifs with h1 h2 h3
  · refine ⟨⟨by simp [hne], ?_⟩, .inr ?_, ?_, by rintro _ _ ⟨⟩⟩
    · exact List.forall_mem_append.2 ⟨hd, hzeros _⟩
    · rwa [List.head?_append_of_ne_nil _ hne]
    · rintro _ ⟨⟩
      exact ⟨by simp, hzeros 1⟩
  · refine ⟨⟨by simp [hne], ?_⟩, .inr ?_, by rintro _ ⟨⟩, by rintro _ _ ⟨⟩⟩
    · exact List.forall_mem_append.2 ⟨hd, hzeros _⟩
    · rwa [List.head?_append_of_ne_nil _ hne]
  · refine ⟨⟨?_, fun c hc => hd c (List.mem_of_mem_take hc)⟩, .inr (take_of_head hhead (by omega)),
      ?_, by rintro _ _ ⟨⟩⟩
    · have := List.length_pos_iff.2 hne
      rw [← List.length_pos_iff, List.length_take]
      omega
    · rintro _ ⟨⟩
      refine ⟨?_, fun c hc => hd c (List.mem_of_mem_drop hc)⟩
      rw [← List.length_pos_iff, List.length_drop]
      omega
  · refine ⟨⟨by simp, hzeros 1⟩, .inl rfl, ?_, by rintro _ _ ⟨⟩⟩
    rintro _ ⟨⟩
    exact ⟨by simp [hne], List.forall_mem_append.2 ⟨hzeros _, hd⟩⟩

theorem proper_scientific (negative : Bool) {ds : List Char} (h : IsDigits ds)
    (hhead : ds.head? ≠ some '0') (lead : Int) : (scientific negative ds lead).Proper := by
  obtain ⟨hne, hd⟩ := h
  have hpos := List.length_pos_iff.2 hne
  refine ⟨⟨?_, fun c hc => hd c (List.mem_of_mem_take hc)⟩, .inr (take_of_head hhead (by omega)),
    ?_, ?_⟩
  · rw [← List.length_pos_iff]
    simp only [scientific, List.length_take]
    omega
  · intro fs hfs
    simp only [scientific] at hfs
    split_ifs at hfs with hlen
    cases hfs
    refine ⟨?_, fun c hc => hd c (List.mem_of_mem_drop hc)⟩
    rw [← List.length_pos_iff, List.length_drop]
    omega
  · intro sign es hes
    simp only [scientific] at hes
    cases hes
    exact isDigits_digits _

/-- **A positive decimal is written as a proper numeral.** -/
theorem proper_decimal (l : Layout) (negative : Bool) {d : Scientific} (hd : 0 < d.coefficient) :
    (l.decimal negative d).Proper := by
  have hdigits := isDigits_digits d.coefficient
  have hhead := head_digits hd
  unfold decimal
  dsimp only
  split
  · exact l.proper_positional negative hdigits hhead _
  · split_ifs
    · exact l.proper_positional negative hdigits hhead _
    · exact proper_scientific negative hdigits hhead _

/-- Zero is written as a proper numeral. -/
theorem proper_zero (l : Layout) (negative : Bool) : (l.positional negative ['0'] 0).Proper := by
  have hzero : IsDigits ['0'] := ⟨by simp, by simp⟩
  refine ⟨hzero, .inl rfl, ?_, by rintro _ _ ⟨⟩⟩
  intro ds hds
  simp only [positional, if_pos (le_refl (0 : Int))] at hds
  split_ifs at hds
  cases hds
  exact hzero

end Layout

end SpeechDecoder.Decimal

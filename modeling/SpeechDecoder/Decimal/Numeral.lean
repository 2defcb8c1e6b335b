import SpeechDecoder.Decimal.Rounding

/-!
# Numerals

A numeral is a number as it is written: a sign, digits, perhaps digits after a point, perhaps an
exponent.  `Numeral.text` is its text, and `Numeral.scan` takes one off the front of a text.
-/

namespace SpeechDecoder.Decimal

/-- The sign of a written exponent. -/
inductive ExponentSign where
  | none
  | plus
  | minus
  deriving DecidableEq, Repr

/-- **A written number.** -/
structure Numeral where
  negative : Bool
  /-- The digits before the point. -/
  whole : List Char
  /-- The digits after the point, if there is one. -/
  fraction : Option (List Char)
  /-- The sign and the digits of the exponent, if there is one. -/
  exponent : Option (ExponentSign × List Char)
  deriving DecidableEq, Repr

/-- The decimal digits of a number. -/
def digits (n : Nat) : List Char := Nat.toDigits 10 n

namespace Numeral

/-- The numeral of a whole number. -/
def ofInt (i : Int) : Numeral := ⟨decide (i < 0), digits i.natAbs, none, none⟩

variable (n : Numeral)

/-- The text of an exponent. -/
def exponentText : Option (ExponentSign × List Char) → List Char
  | none => []
  | some (.none, ds) => 'e' :: ds
  | some (.plus, ds) => 'e' :: '+' :: ds
  | some (.minus, ds) => 'e' :: '-' :: ds

/-- The text of a fraction. -/
def fractionText : Option (List Char) → List Char
  | none => []
  | some ds => '.' :: ds

/-- **The text of a numeral.** -/
def text : List Char :=
  (if n.negative then ['-'] else []) ++ n.whole ++ fractionText n.fraction ++
    exponentText n.exponent

/-! ## Reading -/

/-- The digits at the front of a text, at least one, and the rest. -/
def scanDigits (cs : List Char) : Option (List Char × List Char) :=
  match cs.takeWhile Char.isDigit with
  | [] => none
  | d :: ds => some (d :: ds, cs.dropWhile Char.isDigit)

/-- The digits before the point: a single zero, or digits that do not begin with one. -/
def scanWhole (cs : List Char) : Option (List Char × List Char) :=
  match scanDigits cs with
  | some ('0' :: _ :: _, _) => none
  | other => other

/-- The fraction, if the text goes on with a point. -/
def scanFraction : List Char → Option (Option (List Char) × List Char)
  | '.' :: cs => (scanDigits cs).map fun (ds, rest) => (some ds, rest)
  | cs => some (none, cs)

/-- The exponent, if the text goes on with one. -/
def scanExponent : List Char → Option (Option (ExponentSign × List Char) × List Char)
  | c :: cs =>
    if c = 'e' ∨ c = 'E' then
      match cs with
      | '+' :: cs => (scanDigits cs).map fun (ds, rest) => (some (.plus, ds), rest)
      | '-' :: cs => (scanDigits cs).map fun (ds, rest) => (some (.minus, ds), rest)
      | cs => (scanDigits cs).map fun (ds, rest) => (some (.none, ds), rest)
    else some (none, c :: cs)
  | [] => some (none, [])

/-- The numeral after its sign. -/
def scanUnsigned (negative : Bool) (cs : List Char) : Option (Numeral × List Char) := do
  let (whole, cs) ← scanWhole cs
  let (fraction, cs) ← scanFraction cs
  let (exponent, cs) ← scanExponent cs
  return (⟨negative, whole, fraction, exponent⟩, cs)

/-- **The numeral at the front of a text,** and the rest. -/
def scan : List Char → Option (Numeral × List Char)
  | '-' :: cs => scanUnsigned true cs
  | cs => scanUnsigned false cs

end Numeral

end SpeechDecoder.Decimal

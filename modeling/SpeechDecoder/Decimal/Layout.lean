import SpeechDecoder.Decimal.Numeral
import SpeechDecoder.Decimal.Shortest

/-!
# How a score is written

A layout says where positional writing ends, whether a whole number keeps its `.0`, and which of two
equally near decimals is written.  `Layout.numeral?` is the numeral of a finite score in it.
-/

namespace SpeechDecoder.Decimal

/-- **The conventions of a written score.** -/
structure Layout where
  /-- The decimal exponents, that of the first digit, which are written positionally; all of them if
  there is no range. -/
  plain : Option (Int × Int)
  /-- Whether a whole number that is written positionally ends in `.0`. -/
  pointZero : Bool
  tie : Tie
  deriving DecidableEq, Repr

namespace Layout

variable (l : Layout)

/-- **Positional writing:** the point stands after the first `ds.length + exponent` places. -/
def positional (negative : Bool) (ds : List Char) (exponent : Int) : Numeral :=
  let places := (ds.length : Int) + exponent
  if 0 ≤ exponent then
    ⟨negative, ds ++ List.replicate exponent.toNat '0', if l.pointZero then some ['0'] else none,
      none⟩
  else if 0 < places then ⟨negative, ds.take places.toNat, some (ds.drop places.toNat), none⟩
  else ⟨negative, ['0'], some (List.replicate (-places).toNat '0' ++ ds), none⟩

/-- **Scientific writing:** one digit before the point, and the sign of the exponent always. -/
def scientific (negative : Bool) (ds : List Char) (lead : Int) : Numeral :=
  ⟨negative, ds.take 1, if ds.length ≤ 1 then none else some (ds.drop 1),
    some (if lead < 0 then .minus else .plus, digits lead.natAbs)⟩

/-- A positive decimal, in whichever way its size asks for. -/
def decimal (negative : Bool) (d : Scientific) : Numeral :=
  let ds := digits d.coefficient
  let lead := (ds.length : Int) + d.exponent - 1
  match l.plain with
  | none => l.positional negative ds d.exponent
  | some (first, last) =>
    if first ≤ lead ∧ lead ≤ last then l.positional negative ds d.exponent
    else scientific negative ds lead

/-- **The numeral of a finite score.** -/
def numeral? (x : Score) : Option Numeral :=
  match x.toModel.unpack with
  | .notANumber => none
  | .infinity _ => none
  | .zero sign => some (l.positional (sign == .negative) ['0'] 0)
  | .finite sign mantissa exponent _ =>
    some (l.decimal (sign == .negative) ((Basin.ofMantissa mantissa exponent).shortest l.tie))

end Layout

end SpeechDecoder.Decimal

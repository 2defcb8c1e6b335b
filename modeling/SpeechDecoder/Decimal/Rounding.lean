import SpeechDecoder.Score

/-!
# From decimals to scores

A decimal in a text names a real number.  It is first rounded to the nearest binary64 number
(`nearest`), then to the nearest binary32 number (`Score.ofDouble`); whole numbers of a text are
rounded once (`Score.ofWhole`).  Every rounding goes to the nearest number, a half to the even one,
and what is too large becomes infinite.
-/

namespace SpeechDecoder

open Float.Model (UnpackedFloat Format)

/-- **The nearest binary32 number.** -/
def Score.ofDouble (x : Float) : Score :=
  .ofModel <| .pack <| match x.toModel.unpack with
    | .finite sign mantissa exponent _ => UnpackedFloat.round Format.binary32 sign mantissa exponent
    | special => special

/-- The binary32 number nearest to a whole number. -/
def Score.ofWhole (i : Int) : Score :=
  .ofModel (Float32.Model.ofInt i)

namespace Decimal

/-- **The binary64 number nearest to `coefficient · 10 ^ exponent`.** -/
def nearest (coefficient : Nat) (exponent : Int) : Float :=
  .ofModel (Float.Model.ofScientific coefficient exponent)

/-- A magnitude with the sign that stood before it. -/
def signed (negative : Bool) (x : Float) : Float :=
  if negative then -x else x

/-- The number that a run of decimal digits denotes. -/
def ofDigits (digits : List Char) : Nat :=
  digits.foldl (fun n c => 10 * n + (c.toNat - '0'.toNat)) 0

end Decimal

end SpeechDecoder

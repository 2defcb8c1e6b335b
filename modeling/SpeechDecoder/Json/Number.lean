import SpeechDecoder.Json.Value

/-!
# The numbers of JSON texts

A numeral without fraction and exponent is a whole number, unless it is minus zero.  Any other
numeral, and a whole number beyond 64 bits, is read as binary64: as many digits as a 64-bit word can
hold make the significand, and one multiplication by a power of ten, or one division, makes the
number.  A number that becomes infinite is out of range.
-/

namespace SpeechDecoder.Decimal.Numeral

open Decimal

variable (n : Numeral)

/-- **The whole number that a numeral denotes,** if it does.  Minus zero is not one. -/
def int? : Option Int :=
  if n.fraction.isSome || n.exponent.isSome then none
  else
    match n.negative, ofDigits n.whole with
    | false, m => some m
    | true, 0 => none
    | true, m => some (-(m : Int))

/-- A whole number within a range. -/
def natBelow? (bound : Nat) : Option Nat :=
  match n.int? with
  | some (.ofNat m) => if m < bound then some m else none
  | _ => none

/-- A whole number that a 64-bit word holds, with or without sign. -/
def machineInt? : Option Int :=
  match n.int? with
  | some i => if -9223372036854775808 ≤ i ∧ i < 18446744073709551616 then some i else none
  | none => none

/-- A significand with the power of ten that belongs to it. -/
structure Significand where
  value : Nat
  exponent : Int
  /-- Whether a digit did not fit; no further digit is taken then. -/
  full : Bool
  deriving DecidableEq

namespace Significand

/-- Whether one more digit fits into 64 bits. -/
def fits (s : Significand) (c : Char) : Bool :=
  !s.full && decide (10 * s.value + (c.toNat - '0'.toNat) < UInt64.size)

/-- Takes a digit before the point; a digit that does not fit counts as a power of ten. -/
def whole (s : Significand) (c : Char) : Significand :=
  if s.fits c then { s with value := 10 * s.value + (c.toNat - '0'.toNat) }
  else { s with exponent := s.exponent + 1, full := true }

/-- Takes a digit after the point; a digit that does not fit is dropped. -/
def fraction (s : Significand) (c : Char) : Significand :=
  if s.fits c then ⟨10 * s.value + (c.toNat - '0'.toNat), s.exponent - 1, false⟩
  else { s with full := true }

end Significand

/-- **The significand of a numeral,** its written exponent left aside. -/
def significand : Significand :=
  let s := n.whole.foldl Significand.whole ⟨0, 0, false⟩
  (n.fraction.getD []).foldl Significand.fraction { s with full := false }

/-- The greatest power of ten that a number is scaled by at once. -/
def maxPower : Nat := 308

/-- Divides by a power of ten, by the greatest one first as long as there is more; three steps bring
every significand to zero. -/
def shrink : Nat → Float → Nat → Float
  | 0, x, _ => x
  | steps + 1, x, power =>
    if power ≤ maxPower then x / nearest 1 power
    else if x == 0 then x
    else shrink steps (x / nearest 1 maxPower) (power - maxPower)

/-- A number times a power of ten, if it stays finite. -/
def scale? (x : Float) (exponent : Int) : Option Float :=
  if exponent < 0 then some (shrink 3 x exponent.natAbs)
  else if exponent ≤ maxPower then
    let y := x * nearest 1 exponent
    if y.isInf then none else some y
  else if x == 0 then some x
  else none

/-- The greatest exponent that is looked at. -/
def maxExponent : Nat := 2147483647

/-- **The binary64 number of a numeral,** if it is in range. -/
def double? : Option Float := do
  let s := n.significand
  let x := nearest s.value 0
  let y ← match n.exponent with
    | none => scale? x s.exponent
    | some (sign, ds) =>
      let e := ofDigits ds
      if maxExponent < e then
        if s.value ≠ 0 ∧ sign ≠ .minus then none else some 0
      else scale? x (s.exponent + (if sign = .minus then -(e : Int) else e))
  return signed n.negative y

/-- **The score of a numeral:** a machine word is rounded once, any other number twice. -/
def score? : Option Score :=
  match n.machineInt? with
  | some i => some (.ofWhole i)
  | none => n.double?.map .ofDouble

end SpeechDecoder.Decimal.Numeral

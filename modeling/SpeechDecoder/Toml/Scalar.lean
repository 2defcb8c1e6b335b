import SpeechDecoder.Decimal.Rounding
import SpeechDecoder.Toml.Text
import SpeechDecoder.Toml.Value

/-!
# Numbers, dates and times in TOML texts

Integers are of 64 bits, in decimal with a sign or in hexadecimal, octal or binary without one.
Floating-point numbers are rounded to the nearest binary64 number; one that becomes positive
infinity is refused.  A single underscore may stand between two digits.
-/

namespace SpeechDecoder.Toml

open Decimal

/-! ## Digits -/

/-- The digits after the first one, up to what is neither a digit nor an underscore between two. -/
def scanMore (isDigit : Char → Bool) : List Char → List Char × List Char
  | '_' :: d :: cs =>
    if isDigit d then
      let (ds, rest) := scanMore isDigit cs
      (d :: ds, rest)
    else ([], '_' :: d :: cs)
  | c :: cs =>
    if isDigit c then
      let (ds, rest) := scanMore isDigit cs
      (c :: ds, rest)
    else ([], c :: cs)
  | [] => ([], [])

/-- The digits at the front of a text, at least one. -/
def scanDigits (isDigit : Char → Bool) : List Char → Option (List Char × List Char)
  | c :: cs =>
    if isDigit c then
      let (ds, rest) := scanMore isDigit cs
      some (c :: ds, rest)
    else none
  | [] => none

/-- Decimal digits that do not begin with a zero, or a zero alone. -/
def scanWhole : List Char → Option (List Char × List Char)
  | '0' :: cs => some (['0'], cs)
  | cs => scanDigits Char.isDigit cs

/-- The digits of a base. -/
def isDigitOf (base : Nat) (c : Char) : Bool :=
  match hexValue? c with
  | some d => decide (d < base)
  | none => false

/-- The number that digits of a base denote. -/
def ofDigitsIn (base : Nat) (ds : List Char) : Nat :=
  ds.foldl (fun n c => base * n + (hexValue? c).getD 0) 0

/-! ## Numbers -/

/-- An integer that 64 bits hold. -/
def integer? (i : Int) : Option Toml :=
  if -9223372036854775808 ≤ i ∧ i ≤ 9223372036854775807 then some (.integer i) else none

/-- A number with the sign that stood before it. -/
def signedNat (negative : Bool) (n : Nat) : Int := if negative then -(n : Int) else n

/-- An integer of a base, after the mark of the base. -/
def scanBased (base : Nat) (cs : List Char) : Option (Toml × List Char) := do
  let (ds, rest) ← scanDigits (isDigitOf base) cs
  return (← integer? (ofDigitsIn base ds), rest)

/-- The exponent, if the text goes on with one: its value. -/
def scanExponent : List Char → Option (Option Int × List Char)
  | c :: cs =>
    if c = 'e' ∨ c = 'E' then
      let (negative, cs) := match cs with
        | '+' :: cs => (false, cs)
        | '-' :: cs => (true, cs)
        | cs => (false, cs)
      (scanDigits Char.isDigit cs).map fun (ds, rest) => (some (signedNat negative (ofDigits ds)), rest)
    else some (none, c :: cs)
  | [] => some (none, [])

/-- The fraction, if the text goes on with one: its digits. -/
def scanFraction : List Char → Option (Option (List Char) × List Char)
  | '.' :: cs => (scanDigits Char.isDigit cs).map fun (ds, rest) => (some ds, rest)
  | cs => some (none, cs)

/-- The floating-point number of its parts; positive infinity is refused. -/
def float? (negative : Bool) (whole fraction : List Char) (exponent : Int) : Option Toml :=
  let x := nearest (ofDigits (whole ++ fraction)) (exponent - fraction.length)
  if x.isInf && !negative then none else some (.float (signed negative x))

/-- A decimal number after its sign. -/
def scanDecimal (negative : Bool) (cs : List Char) : Option (Toml × List Char) := do
  let (whole, cs) ← scanWhole cs
  let (fraction, cs) ← scanFraction cs
  let (exponent, cs) ← scanExponent cs
  if fraction.isNone && exponent.isNone then
    return (← integer? (signedNat negative (ofDigits whole)), cs)
  else return (← float? negative whole (fraction.getD []) (exponent.getD 0), cs)

/-- Positive infinity. -/
def infinity : Float := Float.ofBits 0x7FF0000000000000

/-- The value that is not a number. -/
def notANumber : Float := Float.ofBits 0x7FF8000000000000

/-- A number after its sign. -/
def scanUnsigned (negative : Bool) : List Char → Option (Toml × List Char)
  | 'i' :: 'n' :: 'f' :: cs => some (.float (signed negative infinity), cs)
  | 'n' :: 'a' :: 'n' :: cs => some (.float (signed negative notANumber), cs)
  | cs => scanDecimal negative cs

/-- **The number at the front of a text.** -/
def scanNumber : List Char → Option (Toml × List Char)
  | '+' :: cs => scanUnsigned false cs
  | '-' :: cs => scanUnsigned true cs
  | '0' :: 'x' :: cs => scanBased 16 cs
  | '0' :: 'o' :: cs => scanBased 8 cs
  | '0' :: 'b' :: cs => scanBased 2 cs
  | cs => scanUnsigned false cs

/-! ## Dates and times -/

/-- A number of so many digits within bounds. -/
def scanField (count least greatest : Nat) (cs : List Char) : Option (Nat × List Char) :=
  let ds := cs.take count
  if ds.length = count && ds.all Char.isDigit then
    let n := ofDigits ds
    if least ≤ n ∧ n ≤ greatest then some (n, cs.drop count) else none
  else none

/-- The rest of a text after a character. -/
def expect (c : Char) : List Char → Option (List Char)
  | d :: cs => if d = c then some cs else none
  | [] => none

/-- How many days a month has. -/
def daysIn (year month : Nat) : Nat :=
  if month = 2 then
    if year % 4 = 0 ∧ (year % 100 ≠ 0 ∨ year % 400 = 0) then 29 else 28
  else if month = 4 ∨ month = 6 ∨ month = 9 ∨ month = 11 then 30
  else 31

/-- A date. -/
def scanDate (cs : List Char) : Option (List Char) := do
  let (year, cs) ← scanField 4 0 9999 cs
  let cs ← expect '-' cs
  let (month, cs) ← scanField 2 1 12 cs
  let cs ← expect '-' cs
  let (_, cs) ← scanField 2 1 (daysIn year month) cs
  return cs

/-- The fraction of a second, if there is one. -/
def skipSecondFraction : List Char → Option (List Char)
  | '.' :: cs =>
    match cs.takeWhile Char.isDigit with
    | [] => some ('.' :: cs)
    | _ => some (cs.dropWhile Char.isDigit)
  | cs => some cs

/-- A time of day. -/
def scanTime (cs : List Char) : Option (List Char) := do
  let (_, cs) ← scanField 2 0 23 cs
  let cs ← expect ':' cs
  let (_, cs) ← scanField 2 0 59 cs
  let cs ← expect ':' cs
  let (_, cs) ← scanField 2 0 60 cs
  skipSecondFraction cs

/-- An offset from universal time, if there is one. -/
def skipOffset : List Char → Option (List Char)
  | c :: cs =>
    if c = 'Z' ∨ c = 'z' then some cs
    else if c = '+' ∨ c = '-' then do
      let (_, cs) ← scanField 2 0 23 cs
      let cs ← expect ':' cs
      let (_, cs) ← scanField 2 0 59 cs
      return cs
    else some (c :: cs)
  | [] => some []

/-- A time after its date.  A blank after the date may also be the end of it. -/
def skipTimeOfDate : List Char → Option (List Char)
  | 'T' :: cs => (scanTime cs).bind skipOffset
  | 't' :: cs => (scanTime cs).bind skipOffset
  | ' ' :: cs =>
    match cs with
    | a :: b :: ':' :: _ =>
      if a.isDigit && b.isDigit then (scanTime cs).bind skipOffset else some (' ' :: cs)
    | _ => some (' ' :: cs)
  | cs => some cs

/-- Whether a text begins with digits and then a character. -/
def beginsWithDigitsAnd (count : Nat) (c : Char) (cs : List Char) : Bool :=
  (cs.take count).length == count && (cs.take count).all Char.isDigit && (cs.drop count).head? == some c

/-- **The number, date or time at the front of a text.** -/
def scanNumberOrTime (cs : List Char) : Option (Toml × List Char) :=
  if beginsWithDigitsAnd 4 '-' cs then
    ((scanDate cs).bind skipTimeOfDate).map fun rest => (.datetime, rest)
  else if beginsWithDigitsAnd 2 ':' cs then (scanTime cs).map fun rest => (.datetime, rest)
  else scanNumber cs

end SpeechDecoder.Toml

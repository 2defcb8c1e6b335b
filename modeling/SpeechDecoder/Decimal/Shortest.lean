import SpeechDecoder.Score

/-!
# The shortest decimal of a score

A finite score `m · 2 ^ q` is what every real number of an interval around it is rounded to.  Its
shortest decimal is a point of the coarsest grid `10 ^ k · ℕ` that meets this interval, and of two
such points the nearer one.

Everything is counted in natural numbers.  For the grid of step `10 ^ k`, a decimal `d · 10 ^ k` and
a quarter `u · 2 ^ (q - 2)` of the last place are multiplied by the same factor, which makes them
`d * gridUnit` and `u * quarterUnit`.
-/

namespace SpeechDecoder.Decimal

/-- `coefficient · 10 ^ exponent`. -/
structure Scientific where
  coefficient : Nat
  exponent : Int
  deriving DecidableEq, Repr

/-- **Which of two equally near decimals is written.** -/
inductive Tie where
  | toEven
  | upward
  deriving DecidableEq, Repr

/-- **The reals that round to a score:** the positive score is `4 · mantissa` quarters of the last
place, the ends are `low` and `high` quarters, and they belong to it if `closed`. -/
structure Basin where
  mantissa : Nat
  exponent : Int
  low : Nat
  high : Nat
  closed : Bool
  deriving DecidableEq, Repr

namespace Basin

/-- The basin of `mantissa · 2 ^ exponent`.  Below a power of two the numbers lie twice as close,
except among the smallest numbers; a half goes to the even mantissa. -/
def ofMantissa (mantissa : Nat) (exponent : Int) : Basin where
  mantissa
  exponent
  low := if mantissa = 8388608 ∧ -149 < exponent then 4 * mantissa - 1 else 4 * mantissa - 2
  high := 4 * mantissa + 2
  closed := mantissa % 2 = 0

variable (b : Basin)

/-- A step of the grid `10 ^ k`, scaled. -/
def gridUnit (k : Int) : Nat := Nat.pow 10 k.toNat * Nat.pow 2 (2 - b.exponent).toNat

/-- A quarter of the last place, scaled alike. -/
def quarterUnit (k : Int) : Nat := Nat.pow 2 (b.exponent - 2).toNat * Nat.pow 10 (-k).toNat

/-- Whether `d · 10 ^ k` rounds to the score. -/
def holds (k : Int) (d : Nat) : Bool :=
  let point := d * b.gridUnit k
  let low := b.low * b.quarterUnit k
  let high := b.high * b.quarterUnit k
  if b.closed then decide (low ≤ point ∧ point ≤ high) else decide (low < point ∧ point < high)

/-- The grid point at or below the score. -/
def below (k : Int) : Nat := 4 * b.mantissa * b.quarterUnit k / b.gridUnit k

/-- Whether the grid point above the score is nearer than the one below it. -/
def upperIsNearer (tie : Tie) (k : Int) : Bool :=
  let past := 4 * b.mantissa * b.quarterUnit k - b.below k * b.gridUnit k
  match compare (2 * past) (b.gridUnit k) with
  | .lt => false
  | .gt => true
  | .eq => match tie with
    | .upward => true
    | .toEven => decide (b.below k % 2 = 1)

/-- **The point of the grid `10 ^ k` that stands for the score,** if the grid has one. -/
def onGrid? (tie : Tie) (k : Int) : Option Scientific :=
  let d := b.below k
  match b.holds k d, b.holds k (d + 1) with
  | false, false => none
  | true, false => some ⟨d, k⟩
  | false, true => some ⟨d + 1, k⟩
  | true, true => some ⟨if b.upperIsNearer tie k then d + 1 else d, k⟩

/-- The score itself, which every basin holds. -/
def exact : Scientific :=
  if 0 ≤ b.exponent then ⟨b.mantissa * Nat.pow 2 b.exponent.toNat, 0⟩
  else ⟨b.mantissa * Nat.pow 5 (-b.exponent).toNat, b.exponent⟩

/-- **The shortest decimal:** the grids are tried from the coarsest on. -/
def shortest (tie : Tie) : Scientific :=
  ((List.range 110).findSome? fun (i : Nat) => b.onGrid? tie (40 - (i : Int))).getD b.exact

end Basin

end SpeechDecoder.Decimal

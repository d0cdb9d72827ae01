import Eutxo.Number.Basic
import Eutxo.Text.Basic

/-!
# Shortest decimal text of a number

A number is written with the fewest significant digits that read back as the
same number, and with the nearest such digits.  The digits stand in positional
notation between `10 ^ -7` and `10 ^ 21`, otherwise with an exponent.
-/

namespace Eutxo.Number

/-- The reals that are read as one positive number: from `low` to `high`, the ends included iff
`closed`. -/
structure Interval where
  low : Rat
  high : Rat
  closed : Bool

/-- Whether a real lies in an interval. -/
def Interval.holds (i : Interval) (x : Rat) : Bool :=
  if i.closed then i.low ≤ x && x ≤ i.high else i.low < x && x < i.high

/-- The reals whose nearest binary64 number is the positive number `x`.  Below a power of two the
neighbours stand twice as close. -/
def Interval.around (x : Rat) : Interval :=
  let unitPower := unitExponent x.num.natAbs x.den
  let unit : Rat := (2 : Rat) ^ unitPower
  let mantissa := (x / unit).num.natAbs
  let below := if mantissa = 1 <<< 52 ∧ -1074 < unitPower then unit / 4 else unit / 2
  ⟨x - below, x + unit / 2, mantissa % 2 = 0⟩

/-- The number of digits before the decimal point of a positive `x`; zero or negative when as many
zeros follow the point. -/
def decimalExponent (x : Rat) : Int :=
  let num := x.num.natAbs
  if x.den ≤ num then ((Nat.toDigits 10 (num / x.den)).length : Int)
  else 1 - ((Nat.toDigits 10 ((x.den + num - 1) / num - 1)).length : Int)

/-- Of the two neighbours of `x` among the multiples of `grid`, the one in the interval, and if
both are, the nearer; a tie goes to the even multiple. -/
def nearestOnGrid? (i : Interval) (x grid : Rat) : Option Nat :=
  let lower := (x / grid).floor.toNat
  let upper := lower + 1
  match i.holds (lower * grid), i.holds (upper * grid) with
  | true, true =>
    let down := x - lower * grid
    let up := upper * grid - x
    if down < up ∨ (down = up ∧ lower % 2 = 0) then some lower else some upper
  | true, false => some lower
  | false, true => some upper
  | false, false => none

/-- The coarsest grid of at most `fuel` further digits on which the interval has a point, as the
multiple taken and the exponent of the grid. -/
def shortestFrom (i : Interval) (x : Rat) (top : Int) : Nat → Nat → Nat × Int
  | 0, count => ((x / (10 : Rat) ^ (top - count)).floor.toNat, top - count)
  | fuel + 1, count =>
    match nearestOnGrid? i x ((10 : Rat) ^ (top - count)) with
    | some digits => (digits, top - count)
    | none => shortestFrom i x top fuel (count + 1)

/-- The shortest digits of a positive number, without zeros at the end, and the number of digits
before the decimal point. -/
def shortestDigits (x : Rat) : List Char × Int :=
  let (digits, power) := shortestFrom (Interval.around x) x (decimalExponent x) 17 1
  let spelled := Nat.toDigits 10 digits
  ((spelled.reverse.dropWhile (· = '0')).reverse, power + spelled.length)

/-- Lays out digits with the decimal point after the first `point` of them. -/
def layout (digits : List Char) (point : Int) : List Char :=
  let count : Int := digits.length
  if count ≤ point ∧ point ≤ 21 then digits ++ List.replicate (point - count).toNat '0'
  else if 0 < point ∧ point ≤ 21 then
    digits.take point.toNat ++ ['.'] ++ digits.drop point.toNat
  else if -6 < point ∧ point ≤ 0 then
    ['0', '.'] ++ List.replicate (-point).toNat '0' ++ digits
  else
    let exponent := point - 1
    let sign := if exponent < 0 then '-' else '+'
    let tail := 'e' :: sign :: Nat.toDigits 10 exponent.natAbs
    match digits with
    | [d] => d :: tail
    | d :: ds => d :: '.' :: ds ++ tail
    | [] => tail

/-- The text of a positive real that is a binary64 number. -/
def positiveText (x : Rat) : Text :=
  let (digits, point) := shortestDigits x
  Text.ofString (String.ofList (layout digits point))

/-- The shortest text of a number; the negative zero is written `0`. -/
def toText : Number → Text
  | .nan => "NaN"
  | .infinite false => "Infinity"
  | .infinite true => "-Infinity"
  | .negativeZero => "0"
  | .integer n =>
    if n.natAbs ≤ maxSafe then Text.ofInt n
    else if n < 0 then "-" ++ positiveText (-n : Int) else positiveText n
  | .fraction q => if q < 0 then "-" ++ positiveText (-q) else positiveText q

end Eutxo.Number

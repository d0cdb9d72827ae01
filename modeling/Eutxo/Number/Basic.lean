/-!
# Binary64 numbers

Numbers in JSON are binary64: 53 significant bits, exponents from `-1074`, a
zero of either sign, infinities and a not-a-number.  They are modelled by what
they denote.  Integral values are kept apart from fractions, because ledger
data takes integers only.
-/

namespace Eutxo

/-- A binary64 number.  An integral value other than the negative zero is always an `integer`. -/
inductive Number where
  | nan
  | infinite (negative : Bool)
  | negativeZero
  | integer (n : Int)
  | fraction (q : Rat)
  deriving DecidableEq, Repr

namespace Number

/-- The largest integer up to which every integer is a binary64 number and prints as itself,
`2 ^ 53 - 1`. -/
def maxSafe : Nat := 0x1FFFFFFFFFFFFF

/-- The exponent of the leading binary digit of the positive quotient `num / den`. -/
def binaryExponent (num den : Nat) : Int :=
  let k : Int := (num.log2 : Int) - (den.log2 : Int)
  -- The quotient lies strictly between `2 ^ (k - 1)` and `2 ^ (k + 1)`.
  let reaches := if 0 ≤ k then den <<< k.toNat ≤ num else den ≤ num <<< (-k).toNat
  if reaches then k else k - 1

/-- The exponent of the last binary digit kept of a positive quotient. -/
def unitExponent (num den : Nat) : Int := max (binaryExponent num den - 52) (-1074)

/-- The quotient `num / den` rounded to an integer, a half going to the even neighbour. -/
def roundHalfEven (num den : Nat) : Nat :=
  let q := num / den
  let r := num % den
  if 2 * r < den ∨ (2 * r = den ∧ q % 2 = 0) then q else q + 1

/-- The binary64 number nearest to `num / den` with a given sign, for a positive `den`. -/
def ofQuotient (negative : Bool) (num den : Nat) : Number :=
  if num = 0 then (if negative then .negativeZero else .integer 0)
  else
    let unit := unitExponent num den
    let mantissa :=
      if 0 ≤ unit then roundHalfEven num (den <<< unit.toNat)
      else roundHalfEven (num <<< (-unit).toNat) den
    if mantissa = 0 then (if negative then .negativeZero else .integer 0)
    else if 0 ≤ unit then
      let magnitude := mantissa <<< unit.toNat
      if 1 <<< 1024 ≤ magnitude then .infinite negative
      else .integer (if negative then -(magnitude : Int) else magnitude)
    else
      let scale := 1 <<< (-unit).toNat
      if mantissa % scale = 0 then
        .integer (if negative then -((mantissa / scale : Nat) : Int) else (mantissa / scale : Nat))
      else .fraction (if negative then -mkRat mantissa scale else mkRat mantissa scale)

/-- The binary64 number nearest to an integer. -/
def ofInt (n : Int) : Number :=
  if n.natAbs ≤ maxSafe then .integer n else ofQuotient (n < 0) n.natAbs 1

/-- The binary64 number nearest to a natural number. -/
def ofNat (n : Nat) : Number := ofInt n

/-- The number nearest to a rational. -/
def ofRat (q : Rat) : Number := ofQuotient (q < 0) q.num.natAbs q.den

/-- The rational that a finite number is. -/
def toRat? : Number → Option Rat
  | .negativeZero => some 0
  | .integer n => some n
  | .fraction q => some q
  | _ => none

/-- A number, with `0` for either zero. -/
def withoutZeroSign : Number → Number
  | .negativeZero => .integer 0
  | n => n

/-- The integer that a number is, if it is one; either zero is `0`. -/
def integer? : Number → Option Int
  | .negativeZero => some 0
  | .integer n => some n
  | _ => none

/-- The integer that a number is, if it is one of magnitude at most `maxSafe`. -/
def safeInteger? (x : Number) : Option Int :=
  x.integer?.filter fun n => n.natAbs ≤ maxSafe

/-- The number that a sign bit, an exponent field and a significand field denote, in a format with
exponents of `exponentBits` bits and significands of `fractionBits` bits. -/
def ofFields (exponentBits fractionBits : Nat) (negative : Bool) (exponent significand : Nat) :
    Number :=
  let top := (1 <<< exponentBits) - 1
  let bias := (1 <<< (exponentBits - 1)) - 1 + fractionBits
  if exponent = top then (if significand = 0 then .infinite negative else .nan)
  else
    let (mantissa, power) :=
      if exponent = 0 then (significand, 1) else (significand + (1 <<< fractionBits), exponent)
    ofQuotient negative (mantissa <<< power) (1 <<< bias)

end Number

end Eutxo

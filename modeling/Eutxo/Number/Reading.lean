import Eutxo.Number.Basic
import Eutxo.Text.Basic

/-!
# Reading numbers

A number is read from decimal text and rounded to the nearest binary64 number.
Two grammars share the decimal part: that of JSON, and a lenient one for values
typed by people, which allows blanks around the number, reads no digits at all
as zero, and knows `Infinity` and the bases two, eight and sixteen.
-/

namespace Eutxo.Number

/-- The value of a decimal digit. -/
def decimalDigit? (u : UInt16) : Option Nat :=
  if 0x30 ≤ u ∧ u ≤ 0x39 then some (u.toNat - 0x30) else none

/-- The leading decimal digits of a text, and what follows them. -/
def takeDigits : List UInt16 → List Nat × List UInt16
  | [] => ([], [])
  | u :: us =>
    match decimalDigit? u with
    | some d => let (ds, rest) := takeDigits us; (d :: ds, rest)
    | none => ([], u :: us)

/-- The number that decimal digits spell, most significant first. -/
def ofDigits (ds : List Nat) : Nat := ds.foldl (fun n d => 10 * n + d) 0

/-- The number nearest to `± digits * 10 ^ power`.  Powers far outside the range of binary64 are
decided by the number of digits alone. -/
def ofDecimal (negative : Bool) (digits : Nat) (power : Int) : Number :=
  let size : Int := (Nat.toDigits 10 digits).length + power
  if digits = 0 then ofQuotient negative 0 1
  else if 400 < size then .infinite negative
  else if size < -400 then ofQuotient negative 0 1
  else if 0 ≤ power then ofQuotient negative (digits * Nat.pow 10 power.toNat) 1
  else ofQuotient negative digits (Nat.pow 10 (-power).toNat)

/-- Reads an optional exponent part; an `e` without digits behind it is not one. -/
def takeExponent (us : List UInt16) : Int × List UInt16 :=
  match us with
  | e :: rest =>
    if e = 0x65 ∨ e = 0x45 then
      let (negative, body) : Bool × List UInt16 :=
        match rest with
        | s :: body =>
          if s = 0x2D then (true, body) else if s = 0x2B then (false, body) else (false, rest)
        | [] => (false, [])
      match takeDigits body with
      | ([], _) => (0, us)
      | (ds, after) => (if negative then -(ofDigits ds : Int) else ofDigits ds, after)
    else (0, us)
  | [] => (0, [])

/-- Reads an optional fraction part with at least `least` digits. -/
def takeFraction (least : Nat) (us : List UInt16) : List Nat × List UInt16 :=
  match us with
  | 0x2E :: rest =>
    let (ds, after) := takeDigits rest
    if least ≤ ds.length then (ds, after) else ([], us)
  | _ => ([], us)

/-- Reads a number of the JSON grammar from the front of a text: an optional minus sign, an integer
part without needless zeros, then optional fraction and exponent. -/
def readJson? (us : List UInt16) : Option (Number × List UInt16) :=
  let (negative, body) : Bool × List UInt16 :=
    match us with
    | 0x2D :: body => (true, body)
    | _ => (false, us)
  let (whole, rest) := takeDigits body
  match whole with
  | [] => none
  | 0 :: _ :: _ => none
  | _ =>
    let (part, rest) := takeFraction 1 rest
    let (power, rest) := takeExponent rest
    some (ofDecimal negative (ofDigits (whole ++ part)) (power - part.length), rest)

/-- White space and line ends. -/
def isBlank (u : UInt16) : Bool :=
  (0x9 ≤ u && u ≤ 0xD) || u = 0x20 || u = 0xA0 || u = 0x1680 || (0x2000 ≤ u && u ≤ 0x200A)
    || u = 0x2028 || u = 0x2029 || u = 0x202F || u = 0x205F || u = 0x3000 || u = 0xFEFF

/-- A text without the blanks at its ends. -/
def trim (us : List UInt16) : List UInt16 :=
  ((us.dropWhile isBlank).reverse.dropWhile isBlank).reverse

/-- The value of a digit in a base up to sixteen. -/
def digitInBase? (base : Nat) (u : UInt16) : Option Nat :=
  let n := u.toNat
  let value :=
    if 0x30 ≤ n ∧ n ≤ 0x39 then n - 0x30
    else if 0x61 ≤ n ∧ n ≤ 0x66 then n - 0x57
    else if 0x41 ≤ n ∧ n ≤ 0x46 then n - 0x37
    else base
  if value < base then some value else none

/-- Reads one or more digits of a base to the end of the text. -/
def readBase (base : Nat) (us : List UInt16) : Number :=
  match us with
  | [] => .nan
  | _ =>
    match us.mapM (digitInBase? base) with
    | some ds => ofNat (ds.foldl (fun n d => base * n + d) 0)
    | none => .nan

/-- Reads an unsigned decimal number to the end of the text: digits on at least one side of the
point, then an optional exponent. -/
def readUnsigned (negative : Bool) (us : List UInt16) : Number :=
  if us = (Text.ofString "Infinity").units then .infinite negative
  else
    let (whole, rest) := takeDigits us
    let (part, rest) := takeFraction (if whole.isEmpty then 1 else 0) rest
    if whole.isEmpty && part.isEmpty then .nan
    else
      let (power, rest) := takeExponent rest
      if rest.isEmpty then
        ofDecimal negative (ofDigits (whole ++ part)) (power - part.length)
      else .nan

/-- Reads a number leniently; anything that is not a number is read as `nan`. -/
def ofText (t : Text) : Number :=
  match trim t.units with
  | [] => .integer 0
  | 0x2D :: us => readUnsigned true us
  | 0x2B :: us => readUnsigned false us
  | 0x30 :: u :: us =>
    if u = 0x78 ∨ u = 0x58 then readBase 16 us
    else if u = 0x6F ∨ u = 0x4F then readBase 8 us
    else if u = 0x62 ∨ u = 0x42 then readBase 2 us
    else readUnsigned false (0x30 :: u :: us)
  | us => readUnsigned false us

end Eutxo.Number

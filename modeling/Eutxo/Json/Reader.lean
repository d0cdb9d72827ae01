import Eutxo.Json.Basic
import Eutxo.Json.SyntaxFault
import Eutxo.Number.Reading

/-!
# Reading JSON

The reader takes exactly one JSON value with blanks around it.  Of members with
one name the last one counts.  Each step returns what it did not read, or fails
with the rest of the text from where it cannot go on.  A value is at least one
code unit long, so the length of the text bounds the depth of the recursion.
-/

namespace Eutxo.Json

/-- A step reads the front of a text, or fails with the rest of it from where it cannot go on. -/
abbrev Scan := Except (List UInt16)

/-- Space, tab, line feed and carriage return. -/
def isSpace (u : UInt16) : Bool := u = 0x20 || u = 0x9 || u = 0xA || u = 0xD

/-- A text without the blanks in front. -/
def skip (us : List UInt16) : List UInt16 := us.dropWhile isSpace

/-- Reads `value` from a text that begins with `word`. -/
def readWord (value : Json) : List UInt16 → List UInt16 → Scan (Json × List UInt16)
  | [], us => .ok (value, us)
  | w :: ws, u :: us => if w = u then readWord value ws us else .error (u :: us)
  | _ :: _, [] => .error []

/-- Reads a number. -/
def readNumber (us : List UInt16) : Scan (Json × List UInt16) :=
  match Number.readJson? us, us with
  | some (n, after), _ => .ok (.number n, after)
  | none, 0x2D :: rest => .error rest
  | none, _ => .error us

/-- The value of a hexadecimal digit. -/
def hexadecimal? (u : UInt16) : Option Nat := Number.digitInBase? 16 u

/-- The code unit that four hexadecimal digits spell. -/
def unitOfDigits? (a b c d : UInt16) : Option UInt16 := do
  let a ← hexadecimal? a
  let b ← hexadecimal? b
  let c ← hexadecimal? c
  let d ← hexadecimal? d
  return UInt16.ofNat (0x1000 * a + 0x100 * b + 0x10 * c + d)

/-- The code unit that a letter stands for behind a backslash. -/
def unitOfEscape? (e : UInt16) : Option UInt16 :=
  if e = 0x22 ∨ e = 0x5C ∨ e = 0x2F then some e
  else if e = 0x62 then some 0x8
  else if e = 0x66 then some 0xC
  else if e = 0x6E then some 0xA
  else if e = 0x72 then some 0xD
  else if e = 0x74 then some 0x9
  else none

/-- Reads the inside of a string up to its closing quote. -/
def readString : List UInt16 → Scan (List UInt16 × List UInt16)
  | [] => .error []
  | 0x22 :: rest => .ok ([], rest)
  | 0x5C :: 0x75 :: a :: b :: c :: d :: rest =>
    match unitOfDigits? a b c d with
    | some unit => do
      let (us, after) ← readString rest
      return (unit :: us, after)
    | none => .error (a :: b :: c :: d :: rest)
  | 0x5C :: e :: rest =>
    match unitOfEscape? e with
    | some unit => do
      let (us, after) ← readString rest
      return (unit :: us, after)
    | none => .error (e :: rest)
  | u :: rest =>
    if u < 0x20 then .error (u :: rest)
    else do
      let (us, after) ← readString rest
      return (u :: us, after)

mutual

/-- Reads a value from the front of a text without leading blanks. -/
def readValue : Nat → List UInt16 → Scan (Json × List UInt16)
  | 0, us => .error us
  | fuel + 1, us =>
    match us with
    | 0x22 :: rest => do
      let (t, after) ← readString rest
      return (.string ⟨t⟩, after)
    | 0x5B :: rest =>
      match skip rest with
      | 0x5D :: after => .ok (.array [], after)
      | body => do
        let (items, after) ← readItems fuel body
        return (.array items, after)
    | 0x7B :: rest =>
      match skip rest with
      | 0x7D :: after => .ok (.object [], after)
      | body => do
        let (pairs, after) ← readPairs fuel body
        return (ofPairs pairs, after)
    | 0x74 :: rest => readWord (.bool true) [0x72, 0x75, 0x65] rest
    | 0x66 :: rest => readWord (.bool false) [0x61, 0x6C, 0x73, 0x65] rest
    | 0x6E :: rest => readWord .null [0x75, 0x6C, 0x6C] rest
    | _ => readNumber us

/-- Reads the items of an array up to its closing bracket. -/
def readItems : Nat → List UInt16 → Scan (List Json × List UInt16)
  | 0, us => .error us
  | fuel + 1, us => do
    let (item, after) ← readValue fuel us
    match skip after with
    | 0x5D :: rest => return ([item], rest)
    | 0x2C :: rest =>
      let (items, rest) ← readItems fuel (skip rest)
      return (item :: items, rest)
    | rest => .error rest

/-- Reads the members of an object up to its closing brace. -/
def readPairs : Nat → List UInt16 → Scan (List (Text × Json) × List UInt16)
  | 0, us => .error us
  | fuel + 1, us =>
    match us with
    | 0x22 :: rest => do
      let (name, after) ← readString rest
      match skip after with
      | 0x3A :: body =>
        let (value, after) ← readValue fuel (skip body)
        match skip after with
        | 0x7D :: rest => return ([(⟨name⟩, value)], rest)
        | 0x2C :: rest =>
          let (pairs, rest) ← readPairs fuel (skip rest)
          return ((⟨name⟩, value) :: pairs, rest)
        | rest => .error rest
      | rest => .error rest
    | _ => .error us

end

/-- Reads the units of one JSON value with blanks around it. -/
def readUnits (us : List UInt16) : Scan Json := do
  let (value, after) ← readValue (2 * us.length + 2) (skip us)
  match skip after with
  | [] => return value
  | rest => .error rest

/-- Reads a text that is one JSON value. -/
def read (t : Text) : Except SyntaxFault Json :=
  (readUnits t.units).mapError fun rest => ⟨t, t.length - rest.length⟩

/-- The JSON value that a text is. -/
def read? (t : Text) : Option Json := (read t).toOption

end Eutxo.Json

import Eutxo.Json.Basic
import Eutxo.Number.Shortest

/-!
# Writing JSON

JSON is written without blanks.  A string escapes quotes, backslashes, control
characters and stray surrogates, so the written text is always well formed.
-/

namespace Eutxo

/-- The escape of a code unit by its four hexadecimal digits. -/
def Json.escapeUnit (u : UInt16) : List UInt16 :=
  let digit (n : Nat) : UInt16 := UInt16.ofNat (if n < 10 then 0x30 + n else 0x57 + n)
  let n := u.toNat
  [0x5C, 0x75, digit (n / 0x1000), digit (n / 0x100 % 0x10), digit (n / 0x10 % 0x10),
    digit (n % 0x10)]

/-- A code unit that is no half of a surrogate pair, as it stands in a JSON string. -/
def Json.quoteUnit (u : UInt16) : List UInt16 :=
  if u = 0x22 then [0x5C, 0x22]
  else if u = 0x5C then [0x5C, 0x5C]
  else if u = 0x8 then [0x5C, 0x62]
  else if u = 0x9 then [0x5C, 0x74]
  else if u = 0xA then [0x5C, 0x6E]
  else if u = 0xC then [0x5C, 0x66]
  else if u = 0xD then [0x5C, 0x72]
  else if u < 0x20 || Text.isSurrogate u then Json.escapeUnit u
  else [u]

/-- The inside of a JSON string. -/
def Json.quoteUnits : List UInt16 → List UInt16
  | [] => []
  | [u] => Json.quoteUnit u
  | u :: v :: rest =>
    if Text.isHighSurrogate u && Text.isLowSurrogate v then u :: v :: Json.quoteUnits rest
    else Json.quoteUnit u ++ Json.quoteUnits (v :: rest)

/-- A text as a JSON string, quotes included. -/
def Text.quote (t : Text) : Text := ⟨0x22 :: Json.quoteUnits t.units ++ [0x22]⟩

namespace Json

/-- The text of a number; numbers that are not finite have no JSON form and are written `null`. -/
def numberText : Number → Text
  | .nan => "null"
  | .infinite _ => "null"
  | n => n.toText

mutual

/-- The shortest text of a JSON value. -/
def render : Json → Text
  | .null => "null"
  | .bool b => if b then "true" else "false"
  | .number n => numberText n
  | .string t => t.quote
  | .array items => "[" ++ Text.join "," (renderItems items) ++ "]"
  | .object members => "\x7b" ++ Text.join "," (renderMembers members) ++ "\x7d"

/-- The texts of the items of an array. -/
def renderItems : List Json → List Text
  | [] => []
  | j :: js => render j :: renderItems js

/-- The texts of the members of an object. -/
def renderMembers : List (Text × Json) → List Text
  | [] => []
  | (name, j) :: ms => (name.quote ++ ":" ++ render j) :: renderMembers ms

end

end Json

end Eutxo

import Eutxo.Text.Basic

/-!
# Syntax faults

A text that is no JSON value is reported by the place where it stops being one.
The report shows a few code units on both sides of that place.
-/

namespace Eutxo.Json

/-- The place where a text stops being JSON. -/
structure SyntaxFault where
  source : Text
  position : Nat
  deriving DecidableEq, Repr

namespace SyntaxFault

/-- The number of code units shown on each side of the place. -/
def margin : Nat := 10

/-- What stands around the place, in quotes, with dots at each side where it is cut off; a short
text is shown whole. -/
def excerpt (f : SyntaxFault) : Text :=
  let size := f.source.length
  if size ≤ 2 * margin then "\"" ++ f.source ++ "\""
  else
    let cutBefore := margin ≤ f.position
    let cutBehind := f.position < margin ∨ f.position + margin < size
    let start := f.position - margin
    let stop := if cutBehind then f.position + margin else size
    (if cutBefore then "..." else "" : String) ++ ("\"" : Text)
      ++ (f.source.drop start).take (stop - start) ++ "\""
      ++ (if cutBehind then "..." else "" : String)

/-- Whether a minus sign stands right in front of the place. -/
def followsMinus (f : SyntaxFault) : Bool :=
  (f.source.take f.position).units.getLast? = some 0x2D

/-- The message of a syntax fault in a text of one line. -/
def message (f : SyntaxFault) : Text :=
  if f.followsMinus then
    "No number after minus sign in JSON at position " ++ Text.ofNat f.position
      ++ " (line 1 column " ++ Text.ofNat (f.position + 1) ++ ")"
  else
    match f.source.units[f.position]? with
    | none => "Unexpected end of JSON input"
    | some u => "Unexpected token '" ++ ⟨[u]⟩ ++ "', " ++ f.excerpt ++ " is not valid JSON"

end SyntaxFault

end Eutxo.Json

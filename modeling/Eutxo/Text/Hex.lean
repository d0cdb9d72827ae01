import Eutxo.Bytes
import Eutxo.Text.Basic

/-!
# Hexadecimal

Bytes are written with two lower-case digits each.  Reading takes digits of
either case and accepts a text only if it consists of whole bytes.
-/

namespace Eutxo

namespace Text

/-- The lower-case hexadecimal digit of a number below sixteen. -/
def hexDigit (n : Nat) : UInt16 := UInt16.ofNat (if n < 10 then 0x30 + n else 0x57 + n)

/-- The value of a hexadecimal digit of either case. -/
def hexValue? (u : UInt16) : Option Nat :=
  let n := u.toNat
  if 0x30 ≤ n ∧ n ≤ 0x39 then some (n - 0x30)
  else if 0x61 ≤ n ∧ n ≤ 0x66 then some (n - 0x57)
  else if 0x41 ≤ n ∧ n ≤ 0x46 then some (n - 0x37)
  else none

/-- The two digits of a byte, high half first. -/
def hexOfByte (b : UInt8) : List UInt16 := [hexDigit (b.toNat / 16), hexDigit (b.toNat % 16)]

/-- Reads digits two at a time. -/
def bytesOfHexUnits : List UInt16 → Option Bytes
  | [] => some []
  | [_] => none
  | u :: v :: rest => do
    let high ← hexValue? u
    let low ← hexValue? v
    let bytes ← bytesOfHexUnits rest
    return UInt8.ofNat (16 * high + low) :: bytes

/-- Whether a text is an even number of hexadecimal digits. -/
def isHex (t : Text) : Bool := (bytesOfHexUnits t.units).isSome

end Text

namespace Bytes

/-- Lower-case hexadecimal. -/
def toHex (bs : Bytes) : Text := ⟨bs.flatMap Text.hexOfByte⟩

/-- The bytes that a text of hexadecimal digits spells. -/
def ofHex? (t : Text) : Option Bytes := Text.bytesOfHexUnits t.units

end Bytes

end Eutxo

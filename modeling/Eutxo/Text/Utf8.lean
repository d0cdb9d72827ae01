import Eutxo.Bytes
import Eutxo.Text.Basic

/-!
# UTF-8

Writing text as UTF-8 replaces stray surrogates by `U+FFFD`.  Reading never
fails: each maximal part of the input that begins like a character but cannot
be finished is read as one `U+FFFD`, and so is each byte that begins none.
-/

namespace Eutxo.Text

/-- The UTF-8 bytes of a scalar value. -/
def utf8OfScalar (c : Nat) : Bytes :=
  if c < 0x80 then [UInt8.ofNat c]
  else if c < 0x800 then [UInt8.ofNat (0xC0 + c / 0x40), UInt8.ofNat (0x80 + c % 0x40)]
  else if c < 0x10000 then
    [UInt8.ofNat (0xE0 + c / 0x1000), UInt8.ofNat (0x80 + c / 0x40 % 0x40),
      UInt8.ofNat (0x80 + c % 0x40)]
  else
    [UInt8.ofNat (0xF0 + c / 0x40000), UInt8.ofNat (0x80 + c / 0x1000 % 0x40),
      UInt8.ofNat (0x80 + c / 0x40 % 0x40), UInt8.ofNat (0x80 + c % 0x40)]

/-- The UTF-8 bytes of a text, stray surrogates replaced. -/
def toUtf8 (t : Text) : Bytes := t.scalars.flatMap utf8OfScalar

/-- A character whose first bytes have been read: the bits so far, how many bytes are still owed,
and the range in which the next one must lie. -/
structure Pending where
  bits : Nat
  owed : Nat
  low : Nat
  high : Nat

/-- What a byte does at the start of a character: it is a character by itself, or begins a longer
one, or begins none.  The first continuation byte is narrowed after `E0`, `ED`, `F0` and `F4`, which
keeps out overlong forms, surrogates and values beyond `U+10FFFF`. -/
inductive Lead where
  | single (c : Nat)
  | opens (p : Pending)
  | malformed

/-- Reads a byte at the start of a character. -/
def Lead.ofByte (byte : UInt8) : Lead :=
  let b := byte.toNat
  if b < 0x80 then .single b
  else if b < 0xC2 then .malformed
  else if b < 0xE0 then .opens ⟨b - 0xC0, 1, 0x80, 0xBF⟩
  else if b = 0xE0 then .opens ⟨0, 2, 0xA0, 0xBF⟩
  else if b = 0xED then .opens ⟨0xD, 2, 0x80, 0x9F⟩
  else if b < 0xF0 then .opens ⟨b - 0xE0, 2, 0x80, 0xBF⟩
  else if b = 0xF0 then .opens ⟨0, 3, 0x90, 0xBF⟩
  else if b < 0xF4 then .opens ⟨b - 0xF0, 3, 0x80, 0xBF⟩
  else if b = 0xF4 then .opens ⟨4, 3, 0x80, 0x8F⟩
  else .malformed

/-- Reads a byte at the start of a character: the scalar values it completes, and the character
it leaves open. -/
def start (byte : UInt8) : List Nat × Option Pending :=
  match Lead.ofByte byte with
  | .single c => ([c], none)
  | .opens p => ([], some p)
  | .malformed => ([0xFFFD], none)

/-- Reads a byte inside a character.  A byte out of range ends the open character as one `U+FFFD`
and is then read as the start of the next. -/
def resume (p : Pending) (byte : UInt8) : List Nat × Option Pending :=
  if p.low ≤ byte.toNat ∧ byte.toNat ≤ p.high then
    let bits := p.bits * 0x40 + (byte.toNat - 0x80)
    if p.owed = 1 then ([bits], none) else ([], some ⟨bits, p.owed - 1, 0x80, 0xBF⟩)
  else (0xFFFD :: (start byte).1, (start byte).2)

/-- The scalar values of a byte string read from inside or outside a character. -/
def scalarsOfUtf8 : Option Pending → Bytes → List Nat
  | none, [] => []
  | some _, [] => [0xFFFD]
  | none, b :: bs => (start b).1 ++ scalarsOfUtf8 (start b).2 bs
  | some p, b :: bs => (resume p b).1 ++ scalarsOfUtf8 (resume p b).2 bs

/-- The UTF-8 reading of a byte string; malformed parts become `U+FFFD`, a byte order mark stays. -/
def ofUtf8 (bs : Bytes) : Text := ofScalars (scalarsOfUtf8 none bs)

end Eutxo.Text

/-!
# Text

Text is a sequence of UTF-16 code units.  Surrogates need not come in pairs:
text of that kind is legal in JSON and has to survive until it is written.
Lengths, cuts and chunks count code units.
-/

namespace Eutxo

/-- A sequence of UTF-16 code units, not necessarily well formed. -/
structure Text where
  units : List UInt16
  deriving DecidableEq, Repr

namespace Text

/-- A first half of a surrogate pair. -/
def isHighSurrogate (u : UInt16) : Bool := 0xD800 ≤ u && u < 0xDC00

/-- A second half of a surrogate pair. -/
def isLowSurrogate (u : UInt16) : Bool := 0xDC00 ≤ u && u < 0xE000

/-- Either half of a surrogate pair. -/
def isSurrogate (u : UInt16) : Bool := 0xD800 ≤ u && u < 0xE000

/-- The code units of a scalar value: one below `0x10000`, else a surrogate pair. -/
def unitsOfScalar (c : Nat) : List UInt16 :=
  if c < 0x10000 then [UInt16.ofNat c]
  else
    [UInt16.ofNat (0xD800 + (c - 0x10000) / 0x400), UInt16.ofNat (0xDC00 + (c - 0x10000) % 0x400)]

/-- The text of a string of characters. -/
def ofString (s : String) : Text := ⟨s.toList.flatMap fun c => unitsOfScalar c.toNat⟩

instance : Coe String Text := ⟨ofString⟩

instance : Append Text := ⟨fun a b => ⟨a.units ++ b.units⟩⟩

instance : Inhabited Text := ⟨⟨[]⟩⟩

/-- The empty text. -/
def empty : Text := ⟨[]⟩

/-- The number of code units. -/
def length (t : Text) : Nat := t.units.length

/-- The first `n` code units. -/
def take (t : Text) (n : Nat) : Text := ⟨t.units.take n⟩

/-- All but the first `n` code units. -/
def drop (t : Text) (n : Nat) : Text := ⟨t.units.drop n⟩

/-- The texts one after the other. -/
def concat (ts : List Text) : Text := ⟨ts.flatMap units⟩

/-- The texts one after the other, with `sep` between neighbours. -/
def join (sep : Text) : List Text → Text
  | [] => empty
  | [t] => t
  | t :: ts => t ++ sep ++ join sep ts

/-- Decimal digits of a natural number. -/
def ofNat (n : Nat) : Text := ofString (toString n)

/-- Decimal digits of an integer, with a minus sign below zero. -/
def ofInt : Int → Text
  | .ofNat n => ofNat n
  | .negSucc n => "-" ++ ofNat (n + 1)

/-- Whether every surrogate is half of a pair. -/
def wellFormedUnits : List UInt16 → Bool
  | [] => true
  | [u] => !isSurrogate u
  | u :: v :: rest =>
    if isHighSurrogate u && isLowSurrogate v then wellFormedUnits rest
    else !isSurrogate u && wellFormedUnits (v :: rest)

/-- Every surrogate is half of a pair, so the text spells scalar values. -/
def WellFormed (t : Text) : Prop := wellFormedUnits t.units = true

instance (t : Text) : Decidable t.WellFormed := inferInstanceAs (Decidable (_ = true))

/-- The scalar values of a sequence of code units; a surrogate that is half of no pair is read
as the replacement character `U+FFFD`. -/
def scalarsOfUnits : List UInt16 → List Nat
  | [] => []
  | [u] => [if isSurrogate u then 0xFFFD else u.toNat]
  | u :: v :: rest =>
    if isHighSurrogate u && isLowSurrogate v then
      (0x10000 + (u.toNat - 0xD800) * 0x400 + (v.toNat - 0xDC00)) :: scalarsOfUnits rest
    else (if isSurrogate u then 0xFFFD else u.toNat) :: scalarsOfUnits (v :: rest)

/-- The text that a sequence of scalar values spells. -/
def ofScalars (cs : List Nat) : Text := ⟨cs.flatMap unitsOfScalar⟩

/-- The scalar values of a text, stray surrogates replaced. -/
def scalars (t : Text) : List Nat := scalarsOfUnits t.units

end Text

end Eutxo

import Eutxo.Cbor.Head

/-!
# The float walk

Floating point numbers are found by walking from head to head over the bytes of
an item, counting how many items are still to come.  String contents are
stepped over, an array or map adds the items it holds, a tag adds its content.
-/

namespace Eutxo.Cbor

/-- A position in a walk: how many bytes lie behind, the bytes ahead, and the number of items still
to come. -/
structure Cursor where
  offset : Nat
  rest : Bytes
  pending : Nat
  deriving DecidableEq, Repr

namespace Cursor

/-- The number of argument bytes that a first byte announces; none for a first byte that begins no
head. -/
def argumentWidth (b : UInt8) : Nat := (Head.widthOf? b).getD 0

/-- Steps over the bytes of a head and of the content behind it. -/
def skip (c : Cursor) (n : Nat) : Cursor := ⟨c.offset + n, c.rest.drop n, c.pending⟩

/-- Steps over the item head at the cursor, and over its content if it is a string.  The items held
by an array, map or tag become pending. -/
def step (c : Cursor) (b : UInt8) : Cursor :=
  let width := argumentWidth b
  let info := b.toNat % 32
  let argument :=
    if width = 0 then (if info < 24 then info else 0)
    else Bytes.toNatBE ((c.rest.drop 1).take width)
  let pending := c.pending - 1
  match Major.ofByte b with
  | .bytes => { c.skip (1 + width + argument) with pending := pending }
  | .text => { c.skip (1 + width + argument) with pending := pending }
  | .array => { c.skip (1 + width) with pending := pending + argument }
  | .map => { c.skip (1 + width) with pending := pending + 2 * argument }
  | .tag => { c.skip (1 + width) with pending := pending + 1 }
  | _ => { c.skip (1 + width) with pending := pending }

/-- Whether a first byte begins a floating point number. -/
def beginsFloat (b : UInt8) : Bool := Major.ofByte b = .simple && 1 < argumentWidth b

/-- Walks until no items are pending, the bytes run out, or a floating point number is met, whose
offset is then the error. -/
def walk : Nat → Cursor → Except Nat Cursor
  | 0, c => .ok c
  | fuel + 1, c =>
    if c.pending = 0 then .ok c
    else
      match c.rest with
      | [] => .ok c
      | b :: _ => if beginsFloat b then .error c.offset else walk fuel (c.step b)

end Cursor

/-- The offset of the first floating point number in the item that begins the input. -/
def firstFloat? (bs : Bytes) : Option Nat :=
  match Cursor.walk bs.length ⟨0, bs, 1⟩ with
  | .ok _ => none
  | .error offset => some offset

end Eutxo.Cbor

import Eutxo.Bytes

/-!
# Heads of data items

Every CBOR data item begins with a head: a major type and an argument.  An
argument below twenty-four stands in the first byte, a larger one in one, two,
four or eight bytes behind it.  Heads are written with the fewest bytes.
-/

namespace Eutxo.Cbor

/-- The major types of data items. -/
inductive Major where
  | unsigned
  | negative
  | bytes
  | text
  | array
  | map
  | tag
  | simple
  deriving DecidableEq, Repr

namespace Major

/-- The three bits that stand for a major type. -/
def code : Major → Nat
  | .unsigned => 0
  | .negative => 1
  | .bytes => 2
  | .text => 3
  | .array => 4
  | .map => 5
  | .tag => 6
  | .simple => 7

/-- The major type that the three highest bits of a byte stand for. -/
def ofByte (b : UInt8) : Major :=
  match b.toNat / 32 with
  | 0 => .unsigned
  | 1 => .negative
  | 2 => .bytes
  | 3 => .text
  | 4 => .array
  | 5 => .map
  | 6 => .tag
  | _ => .simple

end Major

/-- The head of a data item.  `width` is the number of bytes in which the argument stands behind
the first byte. -/
structure Head where
  major : Major
  width : Nat
  argument : Nat
  deriving DecidableEq, Repr

namespace Head

/-- The number of argument bytes behind a first byte; `none` for the reserved first bytes and for
those that open or close an item of indefinite length. -/
def widthOf? (b : UInt8) : Option Nat :=
  let info := b.toNat % 32
  if info < 24 then some 0
  else if info = 24 then some 1
  else if info = 25 then some 2
  else if info = 26 then some 4
  else if info = 27 then some 8
  else none

/-- Reads a head, and returns what follows it. -/
def read? : Bytes → Option (Head × Bytes)
  | [] => none
  | b :: rest => do
    let width ← widthOf? b
    if width = 0 then return (⟨.ofByte b, 0, b.toNat % 32⟩, rest)
    else if rest.length < width then none
    else return (⟨.ofByte b, width, Bytes.toNatBE (rest.take width)⟩, rest.drop width)

/-- The fewest bytes in which an argument can stand behind the first byte; `none` beyond sixty-four
bits. -/
def minimalWidth? (n : Nat) : Option Nat :=
  if n < 24 then some 0
  else if n < 0x100 then some 1
  else if n < 0x10000 then some 2
  else if n < 0x100000000 then some 4
  else if n < 0x10000000000000000 then some 8
  else none

/-- Whether the argument stands in the fewest bytes. -/
def isMinimal (h : Head) : Bool := minimalWidth? h.argument = some h.width

/-- The bits of a first byte that announce `width` argument bytes. -/
def widthCode (width : Nat) : Nat :=
  if width = 1 then 24 else if width = 2 then 25 else if width = 4 then 26 else 27

/-- The shortest head of a major type and an argument. -/
def write? (major : Major) (n : Nat) : Option Bytes := do
  let width ← minimalWidth? n
  if width = 0 then return [UInt8.ofNat (32 * major.code + n)]
  else return UInt8.ofNat (32 * major.code + widthCode width) :: Bytes.ofNatBE width n

end Head

end Eutxo.Cbor

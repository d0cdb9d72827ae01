import Eutxo.Cbor.Head
import Eutxo.Cbor.Term

/-!
# Data items

A data item is what the bytes of CBOR spell, before anything is made of it:
texts are still bytes, bignums are still tags, and floating point numbers have
a place.  A term is turned into the item that spells it, and an item is written
with the shortest heads and definite lengths.
-/

namespace Eutxo.Cbor

/-- A data item. -/
inductive Item where
  | unsigned (n : Nat)
  /-- The integer `-1 - n`. -/
  | negative (n : Nat)
  | bytes (content : Bytes)
  | text (content : Bytes)
  | array (items : List Item)
  | map (entries : List (Item × Item))
  | tag (number : Nat) (content : Item)
  /-- A tag behind which the input ends. -/
  | bareTag (number : Nat)
  | bool (b : Bool)
  | null
  /-- A floating point number: its width in bytes and its bits. -/
  | float (width : Nat) (bits : Nat)
  deriving Repr

/-- The tag of an unsigned bignum. -/
def unsignedBignumTag : Nat := 2

/-- The tag of a negative bignum. -/
def negativeBignumTag : Nat := 3

/-- The largest integer that a head can carry, `2 ^ 64 - 1`. -/
def maxArgument : Nat := 0xFFFFFFFFFFFFFFFF

namespace Item

/-- The item of an integer: a bignum if its magnitude does not fit in a head. -/
def ofInt : Int → Item
  | .ofNat n =>
    if n ≤ maxArgument then .unsigned n else .tag unsignedBignumTag (.bytes (Bytes.ofNat n))
  | .negSucc n =>
    if n ≤ maxArgument then .negative n else .tag negativeBignumTag (.bytes (Bytes.ofNat n))

mutual

/-- The item that spells a term, the entries of each map in the order given. -/
def ofTerm : Term → Item
  | .int n => ofInt n
  | .bytes bs => .bytes bs
  | .text t => .text t.toUtf8
  | .bool b => .bool b
  | .null => .null
  | .seq items => .array (ofItems items)
  | .map entries => .map (ofEntries entries)
  | .tag number content => .tag number (ofTerm content)

/-- The items of the terms of a list. -/
def ofItems : List Term → List Item
  | [] => []
  | t :: ts => ofTerm t :: ofItems ts

/-- The items of the keys and values of a list of entries. -/
def ofEntries : List (Term × Term) → List (Item × Item)
  | [] => []
  | (k, v) :: es => (ofTerm k, ofTerm v) :: ofEntries es

end

mutual

/-- The bytes of an item; `none` if a number in it is too large for a head. -/
def write? : Item → Option Bytes
  | .unsigned n => Head.write? .unsigned n
  | .negative n => Head.write? .negative n
  | .bytes content => do return (← Head.write? .bytes content.length) ++ content
  | .text content => do return (← Head.write? .text content.length) ++ content
  | .array items => do return (← Head.write? .array items.length) ++ (← writeItems? items)
  | .map entries => do return (← Head.write? .map entries.length) ++ (← writeEntries? entries)
  | .tag number content => do return (← Head.write? .tag number) ++ (← write? content)
  | .bareTag number => Head.write? .tag number
  | .bool b => some [if b then 0xF5 else 0xF4]
  | .null => some [0xF6]
  | .float width bits =>
    some (UInt8.ofNat (0xE0 + Head.widthCode width) :: Bytes.ofNatBE width bits)

/-- The bytes of the items of a list, one after the other. -/
def writeItems? : List Item → Option Bytes
  | [] => some []
  | x :: xs => do return (← write? x) ++ (← writeItems? xs)

/-- The bytes of the keys and values of a list of entries, one after the other. -/
def writeEntries? : List (Item × Item) → Option Bytes
  | [] => some []
  | (k, v) :: es => do return (← write? k) ++ (← write? v) ++ (← writeEntries? es)

end

end Item

end Eutxo.Cbor

import Eutxo.Cbor.Canonical
import Eutxo.Cbor.FloatWalk
import Eutxo.Cbor.Reader
import Eutxo.Cbor.ScalarKeys

/-!
# Strict decoding

The input must be exactly one data item.  It is first read as a whole, then
checked for what follows it, for floating point numbers, and last, node by
node, for bignums out of range, tags without content and repeated keys.  The
first check that fails is the one reported.
-/

namespace Eutxo.Cbor

/-- The integer of a bignum with given content: it must have no needless zero and must not fit in a
head. -/
def bignum (path : Path) (content : Bytes) : Except Fault Nat :=
  let magnitude := Bytes.toNatBE content
  if content.head? = some 0 ∨ magnitude ≤ maxArgument then
    .error (.decode path (.bignumRange content))
  else .ok magnitude

/-- The term of a tag whose content is known: the bignum tags become integers. -/
def bignumOfItem (path : Path) (number : Nat) (content : Item) : Except Fault Term :=
  match content with
  | .bytes bs => do
    let magnitude ← bignum path bs
    return .int (if number = unsignedBignumTag then (magnitude : Int) else -1 - (magnitude : Int))
  | _ => .error (.decode path (.bignumContent number))

/-- Whether a tag marks a bignum. -/
def isBignumTag (number : Nat) : Bool := number = unsignedBignumTag || number = negativeBignumTag

namespace Item

mutual

/-- The term that an item spells. -/
def toTerm (path : Path) : Item → Except Fault Term
  | .unsigned n => .ok (.int n)
  | .negative n => .ok (.int (-1 - n))
  | .bytes content => .ok (.bytes content)
  | .text content => .ok (.text (textOfContent content))
  | .array items => .seq <$> toTerms path 0 items
  | .map entries => .map <$> toEntries path [] entries
  | .tag number content =>
    if isBignumTag number then bignumOfItem path number content
    else .tag number <$> toTerm path content
  | .bareTag number =>
    .error (.decode path (if isBignumTag number then .bignumContent number else .missingContent))
  | .bool b => .ok (.bool b)
  | .null => .ok .null
  | .float _ _ => .error (.decode path .malformed)

/-- The terms of the items of an array, from a position on. -/
def toTerms (path : Path) (index : Nat) : List Item → Except Fault (List Term)
  | [] => .ok []
  | x :: xs => do return (← toTerm (.item path index) x) :: (← toTerms path (index + 1) xs)

/-- The entries of a map, none of whose encoded keys may be among those seen before it. -/
def toEntries (path : Path) (seen : List Bytes) :
    List (Item × Item) → Except Fault (List (Term × Term))
  | [] => .ok []
  | (k, v) :: es => do
    let key ← toTerm (.key path) k
    let keyBytes ← encode key
    if seen.contains keyBytes then .error (.decode path (.duplicateKey keyBytes))
    else
      let value ← toTerm (.entry path keyBytes.toHex) v
      return (key, value) :: (← toEntries path (keyBytes :: seen) es)

end

end Item

/-- Reads a term from input that is exactly one data item; `path` names the input in a fault. -/
def decode (path : Path) (bs : Bytes) : Except Fault Term :=
  match Item.ofBytes? bs with
  | none => .error (.decode path .malformed)
  | some (item, rest) =>
    if item.repeatsScalarKey then .error (.decode path .malformed)
    else if !rest.isEmpty then .error (.decode path (.trailing rest.length))
    else
      match firstFloat? bs with
      | some offset => .error (.decode path (.float offset))
      | none => item.toTerm path

end Eutxo.Cbor

import Eutxo.Cbor.Item

/-!
# Reading data items

One data item is read from the front of the input.  Heads have to be minimal
and lengths definite, only the tags in use are known, and of the simple values
only the booleans, null and the floating point numbers.  An item is at least
one byte long, so the length of the input bounds the depth of the recursion.
-/

namespace Eutxo.Cbor

/-- The tags in use: bignums, embedded data, rational numbers, constructors of script data, sets. -/
def supportsTag (n : Nat) : Bool :=
  n = 2 || n = 3 || n = 24 || n = 30 || n = 102 || (121 ≤ n && n ≤ 127) || n = 258
    || (1280 ≤ n && n ≤ 1400)

/-- The largest length of a string, array or map, `2 ^ 53 - 1`. -/
def maxLength : Nat := 0x1FFFFFFFFFFFFF

/-- Splits off the first `n` bytes. -/
def split? (n : Nat) (bs : Bytes) : Option (Bytes × Bytes) :=
  if n ≤ maxLength ∧ n ≤ bs.length then some (bs.take n, bs.drop n) else none

/-- The simple value or floating point number of a head. -/
def Item.ofSimple? (h : Head) : Option Item :=
  if h.width = 0 then
    if h.argument = 20 then some (.bool false)
    else if h.argument = 21 then some (.bool true)
    else if h.argument = 22 then some .null
    else none
  else if h.width = 1 then none
  else some (.float h.width h.argument)

mutual

/-- Reads one item, and returns what follows it. -/
def Item.read? : Nat → Bytes → Option (Item × Bytes)
  | 0, _ => none
  | fuel + 1, bs => do
    let (h, rest) ← Head.read? bs
    if h.major ≠ .simple ∧ !h.isMinimal then none
    else
      match h.major with
      | .unsigned => return (.unsigned h.argument, rest)
      | .negative => return (.negative h.argument, rest)
      | .bytes =>
        let (content, rest) ← split? h.argument rest
        return (.bytes content, rest)
      | .text =>
        let (content, rest) ← split? h.argument rest
        return (.text content, rest)
      | .array =>
        if maxLength < h.argument then none
        else
          let (items, rest) ← Item.readItems? fuel h.argument rest
          return (.array items, rest)
      | .map =>
        if maxLength < h.argument then none
        else
          let (entries, rest) ← Item.readEntries? fuel h.argument rest
          return (.map entries, rest)
      | .tag =>
        if !supportsTag h.argument then none
        else if rest.isEmpty then return (.bareTag h.argument, [])
        else
          let (content, rest) ← Item.read? fuel rest
          return (.tag h.argument content, rest)
      | .simple => (·, rest) <$> Item.ofSimple? h

/-- Reads a number of items. -/
def Item.readItems? : Nat → Nat → Bytes → Option (List Item × Bytes)
  | _, 0, bs => some ([], bs)
  | 0, _ + 1, _ => none
  | fuel + 1, count + 1, bs => do
    let (item, rest) ← Item.read? fuel bs
    let (items, rest) ← Item.readItems? fuel count rest
    return (item :: items, rest)

/-- Reads a number of keys, each followed by its value. -/
def Item.readEntries? : Nat → Nat → Bytes → Option (List (Item × Item) × Bytes)
  | _, 0, bs => some ([], bs)
  | 0, _ + 1, _ => none
  | fuel + 1, count + 1, bs => do
    let (key, rest) ← Item.read? fuel bs
    let (value, rest) ← Item.read? fuel rest
    let (entries, rest) ← Item.readEntries? fuel count rest
    return ((key, value) :: entries, rest)

end

/-- Reads one item, and returns what follows it. -/
def Item.ofBytes? (bs : Bytes) : Option (Item × Bytes) := Item.read? (2 * bs.length + 2) bs

end Eutxo.Cbor

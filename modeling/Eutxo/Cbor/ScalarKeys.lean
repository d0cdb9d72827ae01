import Eutxo.Cbor.Item
import Eutxo.Number.Basic

/-!
# Repeated scalar keys

A map must not repeat a key that is a number, a text, a boolean, null or the
empty byte string.  Numbers are compared by value, so `1.0` repeats `1`, `-0.0`
repeats `0`, and a not-a-number repeats every other; only integers beyond the
range in which binary64 is exact are no numbers in this sense and are compared
with one another.  Texts are compared as they are read.
-/

namespace Eutxo.Cbor

/-- The text that a text string with this content is read as; one leading byte order mark is
dropped. -/
def textOfContent (content : Bytes) : Text :=
  match content with
  | 0xEF :: 0xBB :: 0xBF :: rest => Text.ofUtf8 rest
  | _ => Text.ofUtf8 content

/-- A key that is compared by value. -/
inductive ScalarKey where
  | number (n : Number)
  | wide (n : Int)
  | text (t : Text)
  | bool (b : Bool)
  | null
  | noBytes
  deriving DecidableEq, Repr

/-- The key of an integer. -/
def ScalarKey.ofInt (n : Int) : ScalarKey :=
  if n.natAbs ≤ Number.maxSafe then .number (.integer n) else .wide n

/-- The key of a number; the sign of a zero does not count. -/
def ScalarKey.ofNumber : Number → ScalarKey
  | .negativeZero => .number (.integer 0)
  | n => .number n

/-- The number that the bits of a floating point number of a width in bytes denote. -/
def floatValue (width bits : Nat) : Number :=
  if width = 2 then Number.ofFields 5 10 (bits >>> 15 = 1) (bits >>> 10 % 0x20) (bits % 0x400)
  else if width = 4 then
    Number.ofFields 8 23 (bits >>> 31 = 1) (bits >>> 23 % 0x100) (bits % 0x800000)
  else Number.ofFields 11 52 (bits >>> 63 = 1) (bits >>> 52 % 0x800) (bits % 0x10000000000000)

namespace Item

/-- The scalar key that an item is, if it is one. -/
def scalarKey? : Item → Option ScalarKey
  | .unsigned n => some (.ofInt n)
  | .negative n => some (.ofInt (-1 - n))
  | .text content => some (.text (textOfContent content))
  | .bool b => some (.bool b)
  | .null => some .null
  | .bytes [] => some .noBytes
  | .float width bits => some (.ofNumber (floatValue width bits))
  | _ => none

/-- Whether an element of a list occurs in it again. -/
def hasRepeats (keys : List ScalarKey) : Bool :=
  match keys with
  | [] => false
  | k :: ks => ks.contains k || hasRepeats ks

mutual

/-- Whether some map in an item repeats a scalar key. -/
def repeatsScalarKey : Item → Bool
  | .array items => itemsRepeatScalarKey items
  | .map entries =>
    hasRepeats (entries.filterMap fun e => e.1.scalarKey?) || entriesRepeatScalarKey entries
  | .tag _ content => repeatsScalarKey content
  | _ => false

/-- Whether some map in one of the items repeats a scalar key. -/
def itemsRepeatScalarKey : List Item → Bool
  | [] => false
  | x :: xs => repeatsScalarKey x || itemsRepeatScalarKey xs

/-- Whether some map in one of the keys or values repeats a scalar key. -/
def entriesRepeatScalarKey : List (Item × Item) → Bool
  | [] => false
  | (k, v) :: es => repeatsScalarKey k || repeatsScalarKey v || entriesRepeatScalarKey es

end

end Item

end Eutxo.Cbor

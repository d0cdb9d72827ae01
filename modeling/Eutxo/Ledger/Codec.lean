import Eutxo.Cbor.Expect
import Eutxo.Cbor.Strict

/-!
# Ledger types and their terms

A ledger type says how its values are turned into terms and back.  Bytes,
hexadecimal and equality by bytes follow from that.
-/

namespace Eutxo

/-- A type whose values are written as terms. -/
class Codec (α : Type) where
  /-- The name under which a value is reported when the caller gives none. -/
  name : Text
  /-- The term of a value. -/
  toTerm : α → Term
  /-- The value that a term spells; the path names the term in a fault. -/
  ofTerm : Path → Term → Except Fault α

/-- The bytes that a text of hexadecimal digits spells. -/
def parseHex (t : Text) : Except Fault Bytes :=
  match Bytes.ofHex? t with
  | some bs => .ok bs
  | none => .error (.hex t)

/-- The path under which input is reported that has no name of its own. -/
def Path.input : Path := .root "$"

namespace Codec

variable {α : Type} [Codec α]

/-- The path under which a value is reported when the caller gives none. -/
def path (α : Type) [Codec α] : Path := .root (name α)

/-- The canonical bytes of a value. -/
def toCbor (a : α) : Except Fault Bytes := Cbor.encode (toTerm a)

/-- The value that canonical or other acceptable bytes spell. -/
def ofCbor (bs : Bytes) : Except Fault α := do ofTerm (path α) (← Cbor.decode .input bs)

/-- The value whose bytes a text spells in hexadecimal. -/
def ofCborHex (t : Text) : Except Fault α := do ofCbor (← parseHex t)

/-- The term of a list of values, marked as a set or not. -/
def setToTerm (s : Term.SetLike α) : Term := Term.setLike (s.items.map toTerm) s.tagged

/-- The list of values that a term spells, with or without the mark of a set. -/
def setOfTerm (path : Path) (t : Term) : Except Fault (Term.SetLike α) := do
  let s ← t.asSetLike path
  return ⟨← Term.decodeItems path ofTerm s.items, s.tagged⟩

/-- Whether two values have the same canonical bytes. -/
def sameBytes (a b : α) : Except Fault Bool := do
  let x ← toCbor a
  let y ← toCbor b
  return x = y

end Codec

end Eutxo

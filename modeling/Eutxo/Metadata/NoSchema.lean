import Eutxo.Json.Printer
import Eutxo.Metadata.Auxiliary

/-!
# Metadata as JSON without a schema

Indexers show metadata as plain JSON.  A byte string is a text of hexadecimal
digits behind `0x`, and a map is an object: a key that is no text there is
named by its JSON text.  Integers beyond the range in which JSON numbers are
exact become decimal texts.
-/

namespace Eutxo

/-- Metadata in the form of JSON without a schema. -/
inductive NoSchema where
  | text (t : Text)
  | number (n : Number)
  | list (items : List NoSchema)
  | object (members : List (Text × NoSchema))
  deriving Repr

namespace NoSchema

instance : Inhabited NoSchema := ⟨.object []⟩

/-- The object that the insertion of `pairs` one by one builds. -/
def ofPairs (pairs : List (Text × NoSchema)) : NoSchema := .object (Json.membersOfPairs pairs)

mutual

/-- The JSON value that shows some metadata. -/
def toJson : NoSchema → Json
  | .text t => .string t
  | .number n => .number n
  | .list items => .array (itemsToJson items)
  | .object members => .object (membersToJson members)

/-- The JSON values of the items of a list. -/
def itemsToJson : List NoSchema → List Json
  | [] => []
  | j :: js => toJson j :: itemsToJson js

/-- The JSON values of the members of an object. -/
def membersToJson : List (Text × NoSchema) → List (Text × Json)
  | [] => []
  | (name, j) :: ms => (name, toJson j) :: membersToJson ms

end

/-- The bytes that a text stands for: hexadecimal digits behind `0x`. -/
def bytesOfText? (t : Text) : Option Bytes :=
  if t.units.take 2 = [0x30, 0x78] then Bytes.ofHex? (t.drop 2) else none

/-- The metadatum that a text stands for. -/
def stringToTerm (t : Text) : Except Fault Term :=
  let (length, term) : Nat × Term :=
    match bytesOfText? t with
    | some bs => (bs.length, .bytes bs)
    | none => (t.toUtf8.length, .text t)
  if maxMetadatumSize < length then .error (.metadataString length) else .ok term

mutual

/-- The metadatum that JSON without a schema stands for. -/
def toTerm : NoSchema → Except Fault Term
  | .text t => stringToTerm t
  | .number n =>
    match n.safeInteger? with
    | some i => .ok (.int i)
    | none => .error (.metadataNumber n)
  | .list items => .seq <$> itemsToTerms items
  | .object members => .map <$> membersToEntries members

/-- The metadata of the items of a list. -/
def itemsToTerms : List NoSchema → Except Fault (List Term)
  | [] => .ok []
  | j :: js => do return (← toTerm j) :: (← itemsToTerms js)

/-- The map entries of the members of an object. -/
def membersToEntries : List (Text × NoSchema) → Except Fault (List (Term × Term))
  | [] => .ok []
  | (name, j) :: ms => do
    let key ← stringToTerm name
    let value ← toTerm j
    return (key, value) :: (← membersToEntries ms)

end

/-- The name under which a map key stands in an object. -/
def memberName : NoSchema → Text
  | .text t => t
  | j => j.toJson.render

mutual

/-- A metadatum in the form of JSON without a schema. -/
def ofTerm : Term → Except Fault NoSchema
  | .int n =>
    .ok (if n.natAbs ≤ Number.maxSafe then .number (.integer n) else .text (Text.ofInt n))
  | .bytes bs => .ok (.text ("0x" ++ bs.toHex))
  | .text t => .ok (.text t)
  | .seq items => .list <$> ofItems items
  | .map entries => ofPairs <$> ofEntries entries
  | .bool b => .error (.notMetadatum (.bool b))
  | .null => .error (.notMetadatum .null)
  | .tag m content => .error (.notMetadatum (.tag m content))

/-- The items of a sequence in the form of JSON without a schema. -/
def ofItems : List Term → Except Fault (List NoSchema)
  | [] => .ok []
  | t :: ts => do return (← ofTerm t) :: (← ofItems ts)

/-- The entries of a map as named members. -/
def ofEntries : List (Term × Term) → Except Fault (List (Text × NoSchema))
  | [] => .ok []
  | (k, v) :: es => do
    let key ← ofTerm k
    let value ← ofTerm v
    return (memberName key, value) :: (← ofEntries es)

end

end NoSchema

end Eutxo

import Eutxo.Ledger.Identifier
import Eutxo.Table

/-!
# Assets of one policy

A bundle holds a signed quantity of each of some asset names.  A zero quantity
stays in the bundle; only a subtraction removes a name, and only one whose
quantities are equal on both sides.
-/

namespace Eutxo

/-- Quantities of the assets of one policy, by name. -/
structure Asset where
  quantities : Table AssetName Int
  deriving DecidableEq, Repr

namespace Asset

/-- The bundle without names. -/
def empty : Asset := ⟨.empty⟩

/-- The bundle of a list of quantities, in which no name may occur twice. -/
def ofEntries (entries : List (AssetName × Int)) : Except Fault Asset :=
  match Table.ofEntries entries with
  | .ok t => .ok ⟨t⟩
  | .error name => .error (.duplicateName name.bytes)

/-- The names and their quantities in order. -/
def entries (a : Asset) : List (AssetName × Int) := a.quantities.entries

/-- The number of names. -/
def size (a : Asset) : Nat := a.quantities.size

/-- Whether there are no names. -/
def isEmpty (a : Asset) : Bool := a.quantities.isEmpty

/-- The quantity of a name that the bundle holds. -/
def get? (a : Asset) (name : AssetName) : Option Int := a.quantities.get? name

/-- Adds quantities name by name; names of `b` alone come behind those of `a`. -/
def add (a b : Asset) : Asset :=
  ⟨b.entries.foldl (fun t e => t.insert e.1 ((t.get? e.1).getD 0 + e.2)) a.quantities⟩

/-- Whether `b` holds every name of `a` with at least the same quantity. -/
def coveredBy (a b : Asset) : Bool :=
  a.entries.all fun e =>
    match b.get? e.1 with
    | some q => e.2 ≤ q
    | none => false

/-- The term of a bundle: a map from names to quantities. -/
def toTerm (a : Asset) : Term :=
  .map (a.entries.map fun e => (Codec.toTerm e.1, .int e.2))

/-- The bundle that a term spells. -/
def ofTerm (path : Path) (t : Term) : Except Fault Asset := do
  let entries ← (← t.asMap path).mapM fun (k, v) => do
    let name : AssetName ← Codec.ofTerm (.key path) k
    return (name, ← v.asInt (.entry path name.toText))
  ofEntries entries

instance : Codec Asset where
  name := "asset"
  toTerm := toTerm
  ofTerm := ofTerm

/-- Takes the quantity of one name away; a name left with nothing is removed. -/
def takeAway (t : Table AssetName Int) (name : AssetName) (q : Int) : Table AssetName Int :=
  let remaining := (t.get? name).getD 0 - q
  if remaining = 0 then t.erase name else t.insert name remaining

/-- Subtracts from `a` the quantities of `b`, which `a` has to cover. -/
def subtract (a b : Asset) : Except Fault Asset :=
  if b.coveredBy a then .ok ⟨b.entries.foldl (fun t e => takeAway t e.1 e.2) a.quantities⟩
  else do
    let minuend ← Codec.toCbor a
    let subtrahend ← Codec.toCbor b
    throw (.assetShortfall minuend subtrahend)

end Asset

end Eutxo

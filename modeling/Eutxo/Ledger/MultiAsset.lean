import Eutxo.Ledger.Asset

/-!
# Assets of several policies

Bundles are grouped by policy.  Quantities are signed, because the same type
describes what a transaction mints and burns.
-/

namespace Eutxo

/-- Bundles of assets by policy. -/
structure MultiAsset where
  bundles : Table PolicyId Asset
  deriving DecidableEq, Repr

namespace MultiAsset

/-- No bundle at all. -/
def empty : MultiAsset := ⟨.empty⟩

/-- The bundles of a list, in which no policy may occur twice. -/
def ofEntries (entries : List (PolicyId × Asset)) : Except Fault MultiAsset :=
  match Table.ofEntries entries with
  | .ok t => .ok ⟨t⟩
  | .error policy => .error (.duplicatePolicy policy.bytes)

/-- The policies and their bundles in order. -/
def entries (m : MultiAsset) : List (PolicyId × Asset) := m.bundles.entries

/-- The number of policies. -/
def size (m : MultiAsset) : Nat := m.bundles.size

/-- Whether there are no policies. -/
def isEmpty (m : MultiAsset) : Bool := m.bundles.isEmpty

/-- The bundle of a policy. -/
def get? (m : MultiAsset) (policy : PolicyId) : Option Asset := m.bundles.get? policy

/-- The quantity of one asset, zero if it is not held. -/
def quantityOf (m : MultiAsset) (policy : PolicyId) (name : AssetName) : Int :=
  ((m.get? policy).bind fun a => a.get? name).getD 0

/-- Every policy and name that is held, with its quantity. -/
def flatten (m : MultiAsset) : List (PolicyId × AssetName × Int) :=
  m.entries.flatMap fun e => e.2.entries.map fun f => (e.1, f.1, f.2)

/-- Adds bundles policy by policy; policies of `n` alone come behind those of `m`. -/
def add (m n : MultiAsset) : MultiAsset :=
  ⟨n.entries.foldl (fun t e => t.insert e.1 (((t.get? e.1).getD .empty).add e.2)) m.bundles⟩

/-- Whether `n` holds every policy of `m` with a bundle that covers the one of `m`. -/
def coveredBy (m n : MultiAsset) : Bool :=
  m.entries.all fun e =>
    match n.get? e.1 with
    | some a => e.2.coveredBy a
    | none => false

/-- The term of the bundles: a map from policies to maps from names to quantities. -/
def toTerm (m : MultiAsset) : Term :=
  .map (m.entries.map fun e => (Codec.toTerm e.1, Codec.toTerm e.2))

/-- The bundles that a term spells. -/
def ofTerm (path : Path) (t : Term) : Except Fault MultiAsset := do
  let entries ← (← t.asMap path).mapM fun (k, v) => do
    let policy : PolicyId ← Codec.ofTerm (.key path) k
    return (policy, ← Asset.ofTerm (.entry path policy.toText) v)
  ofEntries entries

instance : Codec MultiAsset where
  name := "multiasset"
  toTerm := toTerm
  ofTerm := ofTerm

/-- Takes the bundle of one policy away; a policy left with no names is removed. -/
def takeAway (t : Table PolicyId Asset) (policy : PolicyId) (a : Asset) :
    Except Fault (Table PolicyId Asset) := do
  let remaining ← ((t.get? policy).getD .empty).subtract a
  return if remaining.isEmpty then t.erase policy else t.insert policy remaining

/-- Subtracts from `m` the bundles of `n`, which `m` has to cover. -/
def subtract (m n : MultiAsset) : Except Fault MultiAsset :=
  if n.coveredBy m then do
    return ⟨← n.entries.foldlM (fun t e => takeAway t e.1 e.2) m.bundles⟩
  else do
    let minuend ← Codec.toCbor m
    let subtrahend ← Codec.toCbor n
    throw (.multiAssetShortfall minuend subtrahend)

end MultiAsset

end Eutxo

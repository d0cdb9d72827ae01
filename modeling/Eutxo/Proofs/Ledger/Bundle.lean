import Eutxo.Proofs.Ledger.Equality

/-!
# Bundles

The assets of one policy, the assets of several policies and values are compared,
added and subtracted alike.  Here stands what the three have in common, so that a
law is stated once and holds of each of them.
-/

namespace Eutxo

/-- A type of bundles. -/
class Bundle (α : Type) [Codec α] where
  /-- A bundle as a record; records are what is compared. -/
  record : α → Record
  /-- The bundle that holds nothing. -/
  empty : α
  /-- Whether the second bundle covers the first one. -/
  coveredBy : α → α → Bool
  /-- The sum of two bundles. -/
  add : α → α → α
  /-- What is left of the first bundle when the second one is taken away. -/
  subtract : α → α → Except Fault α
  /-- The two bundles hold the same, in whatever order. -/
  Same : α → α → Prop
  /-- No asset is held with a negative quantity. -/
  NonNegative : α → Prop
  /-- Every asset is held with a positive quantity, under no policy is there nothing, and there is
  no debt of coin. -/
  Normal : α → Prop

namespace Bundle

variable {α : Type} [Codec α] [Bundle α]

/-- The second bundle covers the first one. -/
def Covered (a b : α) : Prop := Record.coveredBy? (record a) (.record (record b)) = some (.ok true)

/-- The two bundles are equal, which is found out by writing them. -/
def Equal (a b : α) : Prop := Record.equals (record a) (record b) = .ok true

end Bundle

/-! ## One policy -/

namespace Asset

/-- The names in order. -/
def names (a : Asset) : List AssetName := a.quantities.keys

def NonNegative (a : Asset) : Prop := ∀ e ∈ a.entries, 0 ≤ e.2

def Normal (a : Asset) : Prop := ∀ e ∈ a.entries, 0 < e.2

instance (a : Asset) : Decidable a.NonNegative :=
  inferInstanceAs (Decidable (∀ e ∈ a.entries, 0 ≤ e.2))

instance (a : Asset) : Decidable a.Normal :=
  inferInstanceAs (Decidable (∀ e ∈ a.entries, 0 < e.2))

theorem nonNegative_iff {a : Asset} :
    a.NonNegative ↔ ∀ name q, a.get? name = some q → 0 ≤ q :=
  Table.forall_entries_iff (P := (0 ≤ ·))

theorem normal_iff {a : Asset} : a.Normal ↔ ∀ name q, a.get? name = some q → 0 < q :=
  Table.forall_entries_iff (P := (0 < ·))

instance : Bundle Asset where
  record := .asset
  empty := empty
  coveredBy := coveredBy
  add := add
  subtract := subtract
  Same := Same
  NonNegative := NonNegative
  Normal := Normal

end Asset

/-! ## Several policies -/

namespace MultiAsset

variable {m : MultiAsset}

/-- The policies in order. -/
def policies (m : MultiAsset) : List PolicyId := m.bundles.keys

/-- The names that are held under a policy, in order. -/
def namesUnder (m : MultiAsset) (policy : PolicyId) : List AssetName :=
  ((m.get? policy).map Asset.names).getD []

theorem namesUnder_of_none {policy : PolicyId} (h : m.get? policy = none) :
    m.namesUnder policy = [] := by
  rw [namesUnder, h, Option.map_none, Option.getD_none]

theorem namesUnder_of_some {policy : PolicyId} {a : Asset} (h : m.get? policy = some a) :
    m.namesUnder policy = a.names := by
  rw [namesUnder, h, Option.map_some, Option.getD_some]

/-- What is listed is what is held, with its quantity. -/
theorem mem_flatten_iff {policy : PolicyId} {name : AssetName} {q : Int} :
    (policy, name, q) ∈ m.flatten ↔ ∃ a, m.get? policy = some a ∧ a.get? name = some q := by
  simp only [get?, Asset.get?, Table.get?_eq_some_iff]
  simp [flatten, entries, Asset.entries]

def NonNegative (m : MultiAsset) : Prop := ∀ e ∈ m.entries, e.2.NonNegative

def Normal (m : MultiAsset) : Prop := ∀ e ∈ m.entries, e.2.isEmpty = false ∧ e.2.Normal

instance (m : MultiAsset) : Decidable m.NonNegative :=
  inferInstanceAs (Decidable (∀ e ∈ m.entries, e.2.NonNegative))

instance (m : MultiAsset) : Decidable m.Normal :=
  inferInstanceAs (Decidable (∀ e ∈ m.entries, e.2.isEmpty = false ∧ e.2.Normal))

theorem nonNegative_iff :
    m.NonNegative ↔ ∀ policy a, m.get? policy = some a → a.NonNegative :=
  Table.forall_entries_iff (P := Asset.NonNegative)

theorem normal_iff :
    m.Normal ↔ ∀ policy a, m.get? policy = some a → a.isEmpty = false ∧ a.Normal :=
  Table.forall_entries_iff (P := fun a : Asset => a.isEmpty = false ∧ a.Normal)

instance : Bundle MultiAsset where
  record := .multiAsset
  empty := empty
  coveredBy := coveredBy
  add := add
  subtract := subtract
  Same := Same
  NonNegative := NonNegative
  Normal := Normal

end MultiAsset

/-! ## Values -/

namespace Value

def NonNegative (v : Value) : Prop := v.assets.NonNegative

def Normal (v : Value) : Prop := 0 ≤ v.coin ∧ v.assets.Normal

instance (v : Value) : Decidable v.NonNegative :=
  inferInstanceAs (Decidable v.assets.NonNegative)

instance (v : Value) : Decidable v.Normal :=
  inferInstanceAs (Decidable (0 ≤ v.coin ∧ v.assets.Normal))

instance : Bundle Value where
  record := .value
  empty := ofCoin 0
  coveredBy := coveredBy
  add := add
  subtract := subtract
  Same := Same
  NonNegative := NonNegative
  Normal := Normal

end Value

end Eutxo

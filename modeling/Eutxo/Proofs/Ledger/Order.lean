import Eutxo.Proofs.Ledger.Bundle
import Eutxo.Proofs.Ledger.Subtraction

/-!
# The order of bundles

A bundle is at most another one if that covers it, key by key.  This is a partial
order up to content: bundles that cover each other are those that hold the same,
and those are the ones that are written as the same bytes.
-/

namespace Eutxo

open Traversal Term Cbor

/-! ## Tables -/

namespace Table

variable {κ α : Type} [DecidableEq κ] {le : α → α → Prop} {t u v : Table κ α}

/-- Each key of `t` is one of `u`, under which there stands at least as much. -/
def Below (le : α → α → Prop) (t u : Table κ α) : Prop :=
  ∀ k a, t.get? k = some a → ∃ b, u.get? k = some b ∧ le a b

theorem below_refl (hle : ∀ a, le a a) (t : Table κ α) : Below le t t := by
  intro k a ha
  exact ⟨a, ha, hle a⟩

theorem Below.trans (hle : ∀ a b c, le a b → le b c → le a c) (htu : Below le t u)
    (huv : Below le u v) : Below le t v := by
  intro k a ha
  obtain ⟨b, hb, hab⟩ := htu k a ha
  obtain ⟨c, hc, hbc⟩ := huv k b hb
  exact ⟨c, hc, hle a b c hab hbc⟩

/-- Tables are below each other exactly if they have the same keys, under each of which what stands
here and there is below each other. -/
theorem below_and_below_iff :
    Below le t u ∧ Below le u t ↔
      ∀ k, Option.Rel (fun a b => le a b ∧ le b a) (t.get? k) (u.get? k) := by
  constructor
  · intro ⟨htu, hut⟩ k
    apply optionRel_iff.2
    constructor
    · intro a ha
      obtain ⟨b, hb, hab⟩ := htu k a ha
      obtain ⟨a', ha', hba⟩ := hut k b hb
      cases ha.symm.trans ha'
      exact ⟨b, hb, hab, hba⟩
    · intro b hb
      obtain ⟨a, ha, hba⟩ := hut k b hb
      obtain ⟨b', hb', hab⟩ := htu k a ha
      cases hb.symm.trans hb'
      exact ⟨a, ha, hab, hba⟩
  · intro h
    constructor
    · intro k a ha
      obtain ⟨b, hb, hab, -⟩ := (optionRel_iff.1 (h k)).1 a ha
      exact ⟨b, hb, hab⟩
    · intro k b hb
      obtain ⟨a, ha, -, hba⟩ := (optionRel_iff.1 (h k)).2 b hb
      exact ⟨a, ha, hba⟩

end Table

/-! ## One policy -/

namespace Asset

variable {a b c : Asset}

theorem coveredBy_refl (a : Asset) : a.coveredBy a = true :=
  coveredBy_iff.2 (Table.below_refl Int.le_refl a.quantities)

theorem coveredBy_trans (hab : a.coveredBy b = true) (hbc : b.coveredBy c = true) :
    a.coveredBy c = true :=
  coveredBy_iff.2 (Table.Below.trans (fun _ _ _ => Int.le_trans) (coveredBy_iff.1 hab)
    (coveredBy_iff.1 hbc))

theorem coveredBy_and_coveredBy_iff :
    a.coveredBy b = true ∧ b.coveredBy a = true ↔ a.Same b := by
  have hquantity : (fun p q : Int => p ≤ q ∧ q ≤ p) = Eq := by
    funext p q
    exact propext Int.le_antisymm_iff.symm
  rw [coveredBy_iff, coveredBy_iff]
  apply Table.below_and_below_iff.trans
  rw [hquantity]
  exact forall_congr' fun name => optionRel_eq_iff

end Asset

/-! ## Several policies -/

namespace MultiAsset

variable {m n o : MultiAsset}

theorem coveredBy_refl (m : MultiAsset) : m.coveredBy m = true :=
  coveredBy_iff.2 (Table.below_refl Asset.coveredBy_refl m.bundles)

theorem coveredBy_trans (hmn : m.coveredBy n = true) (hno : n.coveredBy o = true) :
    m.coveredBy o = true :=
  coveredBy_iff.2 (Table.Below.trans (fun _ _ _ => Asset.coveredBy_trans) (coveredBy_iff.1 hmn)
    (coveredBy_iff.1 hno))

theorem coveredBy_and_coveredBy_iff :
    m.coveredBy n = true ∧ n.coveredBy m = true ↔ m.Same n := by
  have hbundle : (fun a b : Asset => a.coveredBy b = true ∧ b.coveredBy a = true) =
      Asset.Same := by
    funext a b
    exact propext Asset.coveredBy_and_coveredBy_iff
  rw [coveredBy_iff, coveredBy_iff]
  apply Table.below_and_below_iff.trans
  rw [hbundle]
  exact Iff.rfl

end MultiAsset

/-! ## Values -/

namespace Value

variable {v w x : Value}

theorem coveredBy_refl (v : Value) : v.coveredBy v = true :=
  coveredBy_iff.2 ⟨Int.le_refl v.coin, v.assets.coveredBy_refl⟩

theorem coveredBy_trans (hvw : v.coveredBy w = true) (hwx : w.coveredBy x = true) :
    v.coveredBy x = true := by
  obtain ⟨hcoin, hassets⟩ := coveredBy_iff.1 hvw
  obtain ⟨hcoin', hassets'⟩ := coveredBy_iff.1 hwx
  exact coveredBy_iff.2
    ⟨Int.le_trans hcoin hcoin', MultiAsset.coveredBy_trans hassets hassets'⟩

theorem coveredBy_and_coveredBy_iff :
    v.coveredBy w = true ∧ w.coveredBy v = true ↔ v.Same w := by
  rw [coveredBy_iff, coveredBy_iff, Same, Int.le_antisymm_iff,
    ← MultiAsset.coveredBy_and_coveredBy_iff]
  exact and_and_and_comm

end Value

/-! ## Bundles of each type -/

/-- Bundles whose order is partial up to content, and whose content shows in the bytes. -/
class LawfulBundle (α : Type) [Codec α] [Bundle α] : Prop extends Codec.Regular α where
  coveredBy?_record (a b : α) :
    Record.coveredBy? (Bundle.record a) (.record (Bundle.record b)) =
      some (.ok (Bundle.coveredBy a b))
  equals_record (a b : α) :
    Record.equals (Bundle.record a) (Bundle.record b) = Codec.sameBytes a b
  coveredBy_refl (a : α) : Bundle.coveredBy a a = true
  coveredBy_trans {a b c : α} : Bundle.coveredBy a b = true → Bundle.coveredBy b c = true →
    Bundle.coveredBy a c = true
  coveredBy_and_coveredBy_iff {a b : α} :
    Bundle.coveredBy a b = true ∧ Bundle.coveredBy b a = true ↔ Bundle.Same a b
  reordered_iff_same {a b : α} :
    Reordered (Codec.toTerm a) (Codec.toTerm b) ↔ Bundle.Same a b

instance : LawfulBundle Asset where
  coveredBy?_record _ _ := rfl
  equals_record _ _ := rfl
  coveredBy_refl := Asset.coveredBy_refl
  coveredBy_trans := Asset.coveredBy_trans
  coveredBy_and_coveredBy_iff := Asset.coveredBy_and_coveredBy_iff
  reordered_iff_same := Asset.reordered_iff_same

instance : LawfulBundle MultiAsset where
  coveredBy?_record _ _ := rfl
  equals_record _ _ := rfl
  coveredBy_refl := MultiAsset.coveredBy_refl
  coveredBy_trans := MultiAsset.coveredBy_trans
  coveredBy_and_coveredBy_iff := MultiAsset.coveredBy_and_coveredBy_iff
  reordered_iff_same := MultiAsset.reordered_iff_same

instance : LawfulBundle Value where
  coveredBy?_record _ _ := rfl
  equals_record _ _ := rfl
  coveredBy_refl := Value.coveredBy_refl
  coveredBy_trans := Value.coveredBy_trans
  coveredBy_and_coveredBy_iff := Value.coveredBy_and_coveredBy_iff
  reordered_iff_same := Value.reordered_iff_same

namespace Bundle

open LawfulBundle

variable {α : Type} [Codec α] [Bundle α] [LawfulBundle α] {a b c : α}

theorem covered_iff : Covered a b ↔ coveredBy a b = true := by
  rw [Covered, coveredBy?_record, Option.some.injEq, Except.ok.injEq]

theorem covered_and_covered_iff : Covered a b ∧ Covered b a ↔ Same a b := by
  rw [covered_iff, covered_iff, coveredBy_and_coveredBy_iff]

theorem equal_iff : Equal a b ↔ Codec.Fits b ∧ Same a b := by
  rw [Equal, equals_record, Codec.sameBytes_eq_true_iff, reordered_iff_same]

theorem same_refl (a : α) : Same a a :=
  coveredBy_and_coveredBy_iff.1 ⟨coveredBy_refl a, coveredBy_refl a⟩

theorem Same.fits {a b : α} (h : Same a b) (ha : Codec.Fits a) : Codec.Fits b :=
  (reordered_iff_same.2 h).everywhere FitsAt.of_alike ha

/-- Covering is a partial order whose equality is equality by bytes, and that says whether two
bundles hold the same. -/
structure Ordered (α : Type) [Codec α] [Bundle α] : Prop where
  refl : ∀ a : α, Covered a a
  trans : ∀ a b c : α, Covered a b → Covered b c → Covered a c
  antisymm_iff : ∀ a b : α, Codec.Fits b → (Covered a b ∧ Covered b a ↔ Equal a b)
  equals : ∀ a b : α, Codec.Fits a → Codec.Fits b →
    ∃ e, Record.equals (record a) (record b) = .ok e ∧ (e = true ↔ Same a b)

theorem ordered : Ordered α where
  refl a := covered_iff.2 (coveredBy_refl a)
  trans a b c hab hbc :=
    covered_iff.2 (coveredBy_trans (covered_iff.1 hab) (covered_iff.1 hbc))
  antisymm_iff a b hb := by
    rw [covered_and_covered_iff, equal_iff, and_iff_right hb]
  equals a b ha hb := by
    obtain ⟨e, he⟩ := Codec.exists_sameBytes ha hb
    rw [← equals_record] at he
    refine ⟨e, he, ?_⟩
    calc e = true ↔ Equal a b := by rw [Equal, he, Except.ok.injEq]
      _ ↔ Same a b := equal_iff.trans (and_iff_right hb)

end Bundle

/-- Covering is a partial order of the assets of one policy, of the assets of several policies and
of values.  Two that cover each other are equal, and equal are those that have the same coin, the
same policies and under each policy the same names with the same quantities, in whatever order. -/
theorem bundles_partially_ordered :
    Bundle.Ordered Asset ∧ Bundle.Ordered MultiAsset ∧ Bundle.Ordered Value :=
  ⟨Bundle.ordered, Bundle.ordered, Bundle.ordered⟩

/-- A policy for each byte. -/
def policyOf (b : UInt8) : PolicyId := ⟨List.replicate 28 b, rfl⟩

/-- A name for each byte. -/
def nameOf (b : UInt8) : AssetName := ⟨[b], Nat.succ_le_succ (Nat.zero_le 31)⟩

/-- What `holding` holds, in another order of the policies and of the names. -/
def reshuffled : Value where
  coin := 10
  assets := ⟨[
    (policyOf 3, .empty),
    (policyOf 1, ⟨[(nameOf 0x63, -2), (nameOf 0x61, 5), (nameOf 0x62, 0)], by decide⟩),
    (policyOf 2, .empty)], by decide⟩

theorem bundles_partially_ordered_reshuffled :
    Codec.Fits holding ∧ Codec.Fits reshuffled ∧ holding ≠ reshuffled ∧
      Bundle.Covered spending holding ∧ Bundle.Covered holding reshuffled ∧
      Bundle.Covered spending reshuffled ∧ Bundle.Covered reshuffled holding ∧
      Bundle.Equal holding reshuffled ∧ holding.Same reshuffled := by
  have hholding : Codec.Fits holding := by decide
  have hreshuffled : Codec.Fits reshuffled := by decide
  have hspending : Bundle.Covered spending holding := by rfl
  have hover : Bundle.Covered holding reshuffled := by rfl
  have hback : Bundle.Covered reshuffled holding := by rfl
  obtain ⟨-, htrans, hantisymm, hequals⟩ := bundles_partially_ordered.2.2
  have hequal : Bundle.Equal holding reshuffled :=
    (hantisymm holding reshuffled hreshuffled).1 ⟨hover, hback⟩
  obtain ⟨e, he, hsame⟩ := hequals holding reshuffled hholding hreshuffled
  have htrue : e = true := Except.ok.inj (he.symm.trans hequal)
  exact ⟨hholding, hreshuffled, by decide, hspending, hover,
    htrans spending holding reshuffled hspending hover, hback, hequal, hsame.1 htrue⟩

end Eutxo

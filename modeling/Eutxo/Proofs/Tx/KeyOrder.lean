import Eutxo.Proofs.Cbor.Canonicity
import Eutxo.Proofs.Cbor.ValueOrder
import Eutxo.Proofs.Tx.Body
import Eutxo.Proofs.Tx.WitnessSet

/-!
# The order of fields, policies and asset names

The maps that ledger types are written as list their entries in an order that
does not depend on how they were put together: bodies and witness sets by field
key, bundles by policy, and the assets of a policy by the length of the name and
then by the name.
-/

namespace Eutxo

open Cbor

/-- A keyed map is written with its fields by increasing key. -/
theorem FieldEntry.listsBy_of_encode {ε φ : Type} [FieldKey φ] [FieldEntry ε φ]
    (entries : List ε) {bs : Bytes} (h : encode (termOf entries) = .ok bs) :
    ListsBy toTerms (fun d e : ε => FieldKey.key (field d) < FieldKey.key (field e)) entries
      bs := by
  refine listsBy_of_encodedBefore (fun d e hde => ?_) h
  exact Int.ofNat_lt.1 (hde.lt (Int.natCast_nonneg _) (Int.natCast_nonneg _))

/-- Bundles are written by increasing policy. -/
theorem MultiAsset.listsBy_of_toCbor {m : MultiAsset} {bs : Bytes} (h : Codec.toCbor m = .ok bs) :
    ListsBy (fun e : PolicyId × Asset => (Codec.toTerm e.1, Codec.toTerm e.2))
      (fun d e => Bytes.cmp d.1.bytes e.1.bytes = .lt) m.entries bs := by
  refine listsBy_of_encodedBefore (fun d e hde => ?_) h
  exact hde.cmp_eq_lt (d.1.length_bytes.trans e.1.length_bytes.symm)

/-- The assets of a policy are written by the lengths of their names, then by their names. -/
theorem Asset.listsBy_of_toCbor {a : Asset} {bs : Bytes} (h : Codec.toCbor a = .ok bs) :
    ListsBy (fun e : AssetName × Int => (Codec.toTerm e.1, .int e.2))
      (fun d e => cmpBytes d.1.bytes e.1.bytes = .lt) a.entries bs :=
  listsBy_of_encodedBefore (fun _ _ h => h.cmpBytes) h

/-- The bytewise order of encoded keys in terms of the keys: integers by class and then by absolute
value, byte strings by length and then bytewise.  So bodies and witness sets are written by
increasing field key, bundles by increasing policy, and the assets of a policy by the lengths of
their names and then by their names. -/
theorem keys_ascend_by_value :
    (∀ a b : Int, FitsAt maxArgument (.int a) → FitsAt maxArgument (.int b) →
      ∃ x y, encode (.int a) = .ok x ∧ encode (.int b) = .ok y ∧ Bytes.cmp x y = cmpInt a b) ∧
    (∀ a b : Bytes, a.length ≤ maxArgument → b.length ≤ maxArgument →
      ∃ x y, encode (.bytes a) = .ok x ∧ encode (.bytes b) = .ok y ∧
        Bytes.cmp x y = cmpBytes a b) ∧
    (∀ (b : TxBody) (bs : Bytes), Codec.toCbor b = .ok bs →
      ListsBy BodyEntry.toTerms (fun d e => d.field.key < e.field.key) b.entries bs) ∧
    (∀ (w : WitnessSet) (bs : Bytes), Codec.toCbor w = .ok bs →
      ListsBy WitnessEntry.toTerms (fun d e => d.field.key < e.field.key) w.entries bs) ∧
    (∀ (m : MultiAsset) (bs : Bytes), Codec.toCbor m = .ok bs →
      ListsBy (fun e : PolicyId × Asset => (Codec.toTerm e.1, Codec.toTerm e.2))
        (fun d e => Bytes.cmp d.1.bytes e.1.bytes = .lt) m.entries bs) ∧
    ∀ (a : Asset) (bs : Bytes), Codec.toCbor a = .ok bs →
      ListsBy (fun e : AssetName × Int => (Codec.toTerm e.1, .int e.2))
        (fun d e => cmpBytes d.1.bytes e.1.bytes = .lt) a.entries bs := by
  refine ⟨fun a b ha hb => ?_, fun a b ha hb => ?_, fun b bs h => ?_, fun w bs h => ?_,
    fun m bs h => m.listsBy_of_toCbor h, fun a bs h => a.listsBy_of_toCbor h⟩
  · obtain ⟨x, hx⟩ := exists_encode_of_leaf (t := .int a) rfl trivial ha
    obtain ⟨y, hy⟩ := exists_encode_of_leaf (t := .int b) rfl trivial hb
    exact ⟨x, y, hx, hy, cmp_encode_int hx hy⟩
  · obtain ⟨x, hx⟩ := exists_encode_of_leaf (t := .bytes a) rfl trivial ha
    obtain ⟨y, hy⟩ := exists_encode_of_leaf (t := .bytes b) rfl trivial hb
    exact ⟨x, y, hx, hy, cmp_encode_bytes hx hy⟩
  · exact FieldEntry.listsBy_of_encode b.entries h
  · exact FieldEntry.listsBy_of_encode w.entries h

/-- Two assets of a policy, the one with the longer name first. -/
def longNameFirst : Asset :=
  ⟨⟨[(⟨[0x6D, 0x6D], by decide⟩, 1), (⟨[0x6E], by decide⟩, -2)], by decide⟩⟩

theorem keys_ascend_by_value_longNameFirst :
    (∃ x y, encode (.int (2 ^ 64)) = .ok x ∧ encode (.int (-256)) = .ok y ∧
      Bytes.cmp x y = .gt) ∧
    (∃ x y, encode (.bytes [0x6D, 0x6D]) = .ok x ∧ encode (.bytes [0x6E]) = .ok y ∧
      Bytes.cmp x y = .gt) ∧
    Codec.toCbor longNameFirst = .ok [0xA2, 0x41, 0x6E, 0x21, 0x42, 0x6D, 0x6D, 1] ∧
    ListsBy (fun e : AssetName × Int => (Codec.toTerm e.1, .int e.2))
      (fun d e => cmpBytes d.1.bytes e.1.bytes = .lt) longNameFirst.entries
      [0xA2, 0x41, 0x6E, 0x21, 0x42, 0x6D, 0x6D, 1] := by
  obtain ⟨hints, hbytes, -, -, -, hassets⟩ := keys_ascend_by_value
  have hbignum : FitsAt maxArgument (.int (2 ^ 64)) := by decide +kernel
  have hnegative : FitsAt maxArgument (.int (-256)) := by decide +kernel
  have hencode : Codec.toCbor longNameFirst =
      .ok [0xA2, 0x41, 0x6E, 0x21, 0x42, 0x6D, 0x6D, 1] := by rfl
  exact ⟨hints _ _ hbignum hnegative, hbytes _ _ (by decide) (by decide), hencode,
    hassets _ _ hencode⟩

end Eutxo

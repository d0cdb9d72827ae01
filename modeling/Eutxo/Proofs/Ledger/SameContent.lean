import Eutxo.Tx.Input
import Eutxo.Tx.Output
import Eutxo.Proofs.Cbor.KeyedMap
import Eutxo.Proofs.Table

/-!
# Content of ledger types

Two values of a ledger type have the same content if they differ at most in the
order in which policies and asset names were inserted.  They are then written as
the same term up to the order of map entries, and only then.
-/

namespace Eutxo

open Traversal Term

/-! ## Types without maps -/

/-- A type whose values are written without maps, and read back from what they are written as. -/
class Codec.Rigid (α : Type) [Codec α] : Prop where
  eq_toTerm {a : α} {t : Term} : Reordered (Codec.toTerm a) t → t = Codec.toTerm a
  ofTerm_toTerm (path : Path) (a : α) : Codec.ofTerm path (Codec.toTerm a) = .ok a

namespace Codec

variable {α : Type} [Codec α]

theorem toTerm_injective [Rigid α] {a b : α} (h : toTerm a = toTerm b) : a = b := by
  have hread := Rigid.ofTerm_toTerm .input a
  rw [h, Rigid.ofTerm_toTerm] at hread
  exact (Except.ok.inj hread).symm

theorem reordered_iff_eq [Rigid α] {a b : α} : Reordered (toTerm a) (toTerm b) ↔ a = b :=
  ⟨fun h => toTerm_injective (Rigid.eq_toTerm h).symm, fun h => h ▸ .refl _⟩

theorem reordered_seq_iff {xs ys : List α} :
    Reordered (.seq (xs.map toTerm)) (.seq (ys.map toTerm)) ↔
      List.Forall₂ (fun a b => Reordered (toTerm a) (toTerm b)) xs ys := by
  rw [Reordered.seq_seq_iff, List.forall₂_map_left_iff, List.forall₂_map_right_iff]

theorem forall₂_reordered_iff_eq [Rigid α] {xs ys : List α} :
    List.Forall₂ (fun a b => Reordered (toTerm a) (toTerm b)) xs ys ↔ xs = ys := by
  simp only [reordered_iff_eq]
  rw [List.forall₂_eq_eq_eq]

end Codec

/-- The mark of a set is seen in what is written. -/
theorem Term.reordered_setLike_iff {xs ys : List Term} {s t : Bool} :
    Reordered (setLike xs s) (setLike ys t) ↔ s = t ∧ List.Forall₂ Reordered xs ys := by
  cases s <;> cases t <;>
    simp [setLike, Reordered.tag_left_iff, Reordered.seq_left_iff]

theorem Codec.reordered_setToTerm_iff {α : Type} [Codec α] [Codec.Rigid α]
    {s t : Term.SetLike α} :
    Reordered (Codec.setToTerm s) (Codec.setToTerm t) ↔
      s.tagged = t.tagged ∧ s.items = t.items := by
  rw [Codec.setToTerm, Codec.setToTerm, Term.reordered_setLike_iff, List.forall₂_map_left_iff,
    List.forall₂_map_right_iff, Codec.forall₂_reordered_iff_eq]

instance {kind : IdentifierKind} : Codec.Rigid (Identifier kind) where
  eq_toTerm := Reordered.bytes_left_iff.1
  ofTerm_toTerm _ a := dif_pos a.length_bytes

instance : Codec.Rigid AssetName where
  eq_toTerm := Reordered.bytes_left_iff.1
  ofTerm_toTerm _ a := dif_pos a.length_bytes_le

/-- A pair of parts without maps is without maps. -/
theorem Term.eq_pair_of_reordered {x y t : Term} (hx : ∀ {u}, Reordered x u → u = x)
    (hy : ∀ {u}, Reordered y u → u = y) (h : Reordered (.seq [x, y]) t) : t = .seq [x, y] := by
  obtain ⟨u, v, rfl, hu, hv⟩ := Reordered.pair_left_iff.1 h
  rw [hx hu, hy hv]

instance : Codec.Rigid TxInput where
  eq_toTerm := Term.eq_pair_of_reordered Codec.Rigid.eq_toTerm Reordered.int_left_iff.1
  ofTerm_toTerm path i := by
    have hnumber : Number.ofNat i.index = .integer i.index := if_pos i.index_le
    show (do
      let transaction ← Codec.ofTerm (.item path 0) (Codec.toTerm i.transaction)
      let index ← (Term.int i.index).asSafeUnsigned (.item path 1)
      TxInput.ofNumber transaction (.ofNat index)) = .ok i
    have hindex : (Term.int i.index).asSafeUnsigned (.item path 1) = .ok i.index :=
      if_pos i.index_le
    rw [Codec.Rigid.ofTerm_toTerm, hindex, ok_bind, ok_bind, hnumber]
    exact dif_pos i.index_le

/-! ## Bundles -/

/-- The map of a table lists what the table holds. -/
theorem Table.lists {κ α : Type} [DecidableEq κ] {key : κ → Term} (term : α → Term)
    (hkey : ∀ j k, Reordered (key j) (key k) → j = k) (t : Table κ α) :
    Lists key (fun k => (t.get? k).map term) (t.entries.map fun e => (key e.1, term e.2)) where
  apart := by
    have hkeys := List.pairwise_map.1 t.nodup_keys
    exact List.pairwise_map.2 (hkeys.imp fun hne hsame => hne (hkey _ _ hsame))
  mem_iff k u := by
    rw [List.mem_map, Option.map_eq_some_iff]
    constructor
    · rintro ⟨⟨j, a⟩, hmem, hpair⟩
      obtain ⟨hk, hu⟩ := Prod.ext_iff.1 hpair
      have hkeys : key j = key k := hk
      have hsame : j = k := hkey j k (hkeys ▸ .refl _)
      exact ⟨a, get?_eq_some_iff.2 (hsame ▸ hmem), hu⟩
    · rintro ⟨a, ha, rfl⟩
      exact ⟨(k, a), get?_eq_some_iff.1 ha, rfl⟩
  exists_key e he := by
    obtain ⟨f, -, rfl⟩ := List.mem_map.1 he
    exact ⟨f.1, rfl⟩

/-- Tables are written as reorderings of each other exactly if they hold the same under each key. -/
theorem Table.reordered_iff {κ α : Type} [DecidableEq κ] {key : κ → Term} (term : α → Term)
    (hkey : ∀ j k, Reordered (key j) (key k) → j = k) {t u : Table κ α} :
    Reordered (.map (t.entries.map fun e => (key e.1, term e.2)))
        (.map (u.entries.map fun e => (key e.1, term e.2))) ↔
      ∀ k, Option.Rel (fun a b => Reordered (term a) (term b)) (t.get? k) (u.get? k) := by
  rw [(t.lists term hkey).reordered_iff hkey (u.lists term hkey)]
  simp only [optionRel_map_iff]

/-- The bundles hold the same quantities. -/
def Asset.Same (a b : Asset) : Prop := ∀ name, a.get? name = b.get? name

theorem Asset.reordered_iff_same {a b : Asset} :
    Reordered (Codec.toTerm a) (Codec.toTerm b) ↔ a.Same b := by
  refine (Table.reordered_iff _ fun _ _ => Codec.reordered_iff_eq.1).trans ?_
  refine forall_congr' fun name => ?_
  simp only [Reordered.int_int_iff]
  exact optionRel_eq_iff

/-- The same policies have bundles, with the same quantities. -/
def MultiAsset.Same (m n : MultiAsset) : Prop :=
  ∀ policy, Option.Rel Asset.Same (m.get? policy) (n.get? policy)

theorem MultiAsset.reordered_iff_same {m n : MultiAsset} :
    Reordered (Codec.toTerm m) (Codec.toTerm n) ↔ m.Same n := by
  refine (Table.reordered_iff _ fun _ _ => Codec.reordered_iff_eq.1).trans ?_
  simp only [Asset.reordered_iff_same]
  exact Iff.rfl

/-! ## Values and outputs -/

/-- The same coin, and the same quantities of assets. -/
def Value.Same (v w : Value) : Prop := v.coin = w.coin ∧ v.assets.Same w.assets

theorem Value.reordered_iff_same {v w : Value} :
    Reordered (Codec.toTerm v) (Codec.toTerm w) ↔ v.Same w := by
  refine Reordered.seq_seq_iff.trans ?_
  rw [List.forall₂_cons, List.forall₂_cons, Reordered.int_int_iff]
  simp only [List.Forall₂.nil, and_true]
  exact and_congr_right fun _ => MultiAsset.reordered_iff_same

theorem MultiAsset.Same.isEmpty_eq {m n : MultiAsset} (h : m.Same n) : m.isEmpty = n.isEmpty := by
  obtain ⟨fs, gs, hmap, hperm, hmatch⟩ :=
    Reordered.map_left_iff.1 (MultiAsset.reordered_iff_same.2 h)
  injection hmap with hentries
  have hlength := hperm.length_eq.trans hmatch.length_eq
  rw [← hentries, List.length_map, List.length_map] at hlength
  rw [Bool.eq_iff_iff, isEmpty, isEmpty, Table.isEmpty, Table.isEmpty, List.isEmpty_iff,
    List.isEmpty_iff, ← List.length_eq_zero_iff, ← List.length_eq_zero_iff]
  exact hlength ▸ Iff.rfl

theorem MultiAsset.same_of_isEmpty {m n : MultiAsset} (hm : m.isEmpty = true)
    (hn : n.isEmpty = true) : m.Same n := by
  have hm : m.bundles.entries = [] := List.isEmpty_iff.1 hm
  have hn : n.bundles.entries = [] := List.isEmpty_iff.1 hn
  apply MultiAsset.reordered_iff_same.1
  show Reordered m.toTerm n.toTerm
  rw [toTerm, toTerm, entries, entries, hm, hn]
  exact .refl _

/-- Amounts are told apart although coin alone is written in short. -/
theorem Value.reordered_toAmount_iff {v w : Value} :
    Reordered v.toAmount w.toAmount ↔ v.Same w := by
  rw [toAmount, toAmount]
  by_cases hcoin : v.isCoinOnly = w.isCoinOnly
  · rw [hcoin]
    split_ifs with hw
    · rw [Reordered.int_int_iff]
      have hassets : v.assets.Same w.assets := MultiAsset.same_of_isEmpty (hcoin.trans hw) hw
      exact (and_iff_left hassets).symm
    · exact Value.reordered_iff_same
  · refine iff_of_false ?_ fun hsame => hcoin hsame.2.isEmpty_eq
    -- One of the two is an integer and the other a sequence.
    cases hv : v.isCoinOnly <;> cases hw : w.isCoinOnly <;>
      simp_all [toTerm, Reordered.seq_left_iff]

/-- The same address, amount and datum. -/
structure TxOutput.Same (o p : TxOutput) : Prop where
  address : o.address = p.address
  amount : o.amount.Same p.amount
  datumHash : o.datumHash = p.datumHash

theorem TxOutput.reordered_iff_same {o p : TxOutput} :
    Reordered (Codec.toTerm o) (Codec.toTerm p) ↔ o.Same p := by
  have hdatum : List.Forall₂ Reordered (o.datumHash.toList.map Codec.toTerm)
      (p.datumHash.toList.map Codec.toTerm) ↔ o.datumHash = p.datumHash := by
    rw [List.forall₂_map_left_iff, List.forall₂_map_right_iff, Codec.forall₂_reordered_iff_eq]
    cases o.datumHash <;> cases p.datumHash <;> simp
  calc Reordered (Codec.toTerm o) (Codec.toTerm p)
    _ ↔ List.Forall₂ Reordered
        (.bytes o.address :: o.amount.toAmount :: o.datumHash.toList.map Codec.toTerm)
        (.bytes p.address :: p.amount.toAmount :: p.datumHash.toList.map Codec.toTerm) :=
      Reordered.seq_seq_iff
    _ ↔ o.address = p.address ∧ o.amount.Same p.amount ∧ o.datumHash = p.datumHash := by
      rw [List.forall₂_cons, List.forall₂_cons, hdatum, Reordered.bytes_left_iff,
        Term.bytes.injEq, Value.reordered_toAmount_iff, eq_comm]
    _ ↔ o.Same p := ⟨fun h => ⟨h.1, h.2.1, h.2.2⟩, fun h => ⟨h.address, h.amount, h.datumHash⟩⟩

end Eutxo

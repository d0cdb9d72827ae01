import Eutxo.Proofs.Cbor.Canonicity
import Eutxo.Proofs.Ledger.SameContent

/-!
# Nodes of ledger types

Ledger types are written without texts, with no tag but the mark of a set, and
with maps whose keys are apart.  What is asked of the nodes of a transaction is
therefore asked of the terms that it keeps as they are, and of nothing else.
-/

namespace Eutxo

open Term Cbor

/-- The condition holds of every node that ledger types are written with. -/
structure Term.LedgerNodes (P : Term → Prop) : Prop where
  int : ∀ n, P (.int n)
  bytes : ∀ bs, P (.bytes bs)
  bool : ∀ b, P (.bool b)
  null : P .null
  seq : ∀ items, P (.seq items)
  map : ∀ es, KeysApart es → P (.map es)
  mark : ∀ t, P (.tag setTag t)

theorem ledgerNodes_faithfulAt : LedgerNodes FaithfulAt where
  int _ := trivial
  bytes _ := trivial
  bool _ := trivial
  null := trivial
  seq _ := trivial
  map _ _ := trivial
  mark _ := ⟨.inl (by decide), by decide, by decide⟩

theorem ledgerNodes_decodedAt : LedgerNodes DecodedAt where
  int _ := trivial
  bytes _ := trivial
  bool _ := trivial
  null := trivial
  seq _ := trivial
  map _ _ := trivial
  mark _ := ⟨by decide, by decide⟩

theorem ledgerNodes_unmarkedAt : LedgerNodes UnmarkedAt where
  int _ := trivial
  bytes _ := trivial
  bool _ := trivial
  null := trivial
  seq _ := trivial
  map _ _ := trivial
  mark _ := trivial

theorem ledgerNodes_keysApartAt : LedgerNodes KeysApartAt where
  int _ := trivial
  bytes _ := trivial
  bool _ := trivial
  null := trivial
  seq _ := trivial
  map _ h := h
  mark _ := trivial

/-- A type that is written with such nodes alone. -/
class Codec.Regular (α : Type) [Codec α] : Prop where
  everywhere_toTerm {P : Term → Prop} (hP : LedgerNodes P) (a : α) : Everywhere P (Codec.toTerm a)

open Codec.Regular (everywhere_toTerm)

namespace Term.LedgerNodes

variable {P : Term → Prop} (hP : LedgerNodes P)

include hP

theorem everywhere_int (n : Int) : Everywhere P (.int n) := .leaf (hP.int n) rfl

theorem everywhere_bytes (bs : Bytes) : Everywhere P (.bytes bs) := .leaf (hP.bytes bs) rfl

theorem everywhere_seq {items : List Term} (h : ∀ t ∈ items, Everywhere P t) :
    Everywhere P (.seq items) :=
  Term.everywhere_seq_iff.2 ⟨hP.seq items, h⟩

theorem everywhere_pair {t u : Term} (ht : Everywhere P t) (hu : Everywhere P u) :
    Everywhere P (.seq [t, u]) :=
  hP.everywhere_seq (List.forall_mem_cons.2 ⟨ht, List.forall_mem_singleton.2 hu⟩)

theorem everywhere_setLike {items : List Term} (h : ∀ t ∈ items, Everywhere P t) (tagged : Bool) :
    Everywhere P (setLike items tagged) := by
  cases tagged with
  | false => exact hP.everywhere_seq h
  | true => exact Term.everywhere_tag_iff.2 ⟨hP.mark _, hP.everywhere_seq h⟩

theorem everywhere_table {κ α : Type} [DecidableEq κ] {key : κ → Term} (term : α → Term)
    (hkey : ∀ j k, Reordered (key j) (key k) → j = k) (hkeys : ∀ k, Everywhere P (key k))
    (t : Table κ α) (hvalues : ∀ e ∈ t.entries, Everywhere P (term e.2)) :
    Everywhere P (.map (t.entries.map fun e => (key e.1, term e.2))) := by
  refine Term.everywhere_map_iff.2 ⟨hP.map _ (t.lists term hkey).apart, ?_⟩
  intro f hf
  obtain ⟨e, he, rfl⟩ := List.mem_map.1 hf
  exact ⟨hkeys e.1, hvalues e he⟩

theorem everywhere_items {α : Type} [Codec α] [Codec.Regular α] (as : List α) :
    ∀ t ∈ as.map Codec.toTerm, Everywhere P t := by
  intro t ht
  obtain ⟨a, -, rfl⟩ := List.mem_map.1 ht
  exact everywhere_toTerm hP a

theorem everywhere_setToTerm {α : Type} [Codec α] [Codec.Regular α] (s : Term.SetLike α) :
    Everywhere P (Codec.setToTerm s) :=
  hP.everywhere_setLike (hP.everywhere_items s.items) s.tagged

end Term.LedgerNodes

instance {kind : IdentifierKind} : Codec.Regular (Identifier kind) where
  everywhere_toTerm hP a := hP.everywhere_bytes a.bytes

instance : Codec.Regular AssetName where
  everywhere_toTerm hP a := hP.everywhere_bytes a.bytes

instance : Codec.Regular TxInput where
  everywhere_toTerm hP i :=
    hP.everywhere_pair (everywhere_toTerm hP i.transaction) (hP.everywhere_int i.index)

instance : Codec.Regular Asset where
  everywhere_toTerm hP a := hP.everywhere_table _ (fun _ _ => Codec.reordered_iff_eq.1)
    (everywhere_toTerm hP) a.quantities fun e _ => hP.everywhere_int e.2

instance : Codec.Regular MultiAsset where
  everywhere_toTerm hP m := hP.everywhere_table _ (fun _ _ => Codec.reordered_iff_eq.1)
    (everywhere_toTerm hP) m.bundles fun e _ => everywhere_toTerm hP e.2

instance : Codec.Regular Value where
  everywhere_toTerm hP v :=
    hP.everywhere_pair (hP.everywhere_int v.coin) (everywhere_toTerm hP v.assets)

theorem Value.everywhere_toAmount {P : Term → Prop} (hP : LedgerNodes P) (v : Value) :
    Everywhere P v.toAmount := by
  rw [toAmount]
  split_ifs
  · exact hP.everywhere_int v.coin
  · exact everywhere_toTerm hP v

instance : Codec.Regular TxOutput where
  everywhere_toTerm hP o := hP.everywhere_seq (List.forall_mem_cons.2
    ⟨hP.everywhere_bytes o.address, List.forall_mem_cons.2
      ⟨o.amount.everywhere_toAmount hP, hP.everywhere_items o.datumHash.toList⟩⟩)

end Eutxo

import Eutxo.Tx.Output
import Eutxo.Tx.Input
import Eutxo.Proofs.Cbor.Expect
import Eutxo.Proofs.Table

/-!
# Ledger types that read exactly

Hashes, names, bundles and values are written as the term that they were read
from.  The amount of an output is too, save that coin with an empty bundle is
written as the bare coin.
-/

namespace Eutxo

open Traversal

/-- A type whose values are written as the terms that they were read from. -/
class Codec.Exact (α : Type) [Codec α] : Prop where
  toTerm_eq {path : Path} {t : Term} {a : α} : Codec.ofTerm path t = .ok a → Codec.toTerm a = t

open Codec.Exact (toTerm_eq)

instance {kind : IdentifierKind} : Codec.Exact (Identifier kind) where
  toTerm_eq {path t a} h := by
    obtain ⟨bs, hbs, hof⟩ := bind_eq_ok.1 h
    rw [Identifier.ofBytes] at hof
    split_ifs at hof
    cases hof
    exact (Term.asBytes_eq_ok_iff.1 hbs).symm

instance : Codec.Exact AssetName where
  toTerm_eq {path t a} h := by
    obtain ⟨bs, hbs, hof⟩ := bind_eq_ok.1 h
    rw [AssetName.ofBytes] at hof
    split_ifs at hof
    cases hof
    exact (Term.asBytes_eq_ok_iff.1 hbs).symm

theorem Codec.setToTerm_eq {α : Type} [Codec α] [Codec.Exact α] {path : Path} {t : Term}
    {s : Term.SetLike α} (h : Codec.setOfTerm path t = .ok s) : Codec.setToTerm s = t := by
  obtain ⟨r, hr, hitems⟩ := bind_eq_ok.1 h
  obtain ⟨xs, hxs, hpure⟩ := bind_eq_ok.1 hitems
  cases hpure
  have hmap : xs.map Codec.toTerm = r.items.map id :=
    Term.map_of_decodeItems (fun h => toTerm_eq h) hxs
  rw [Codec.setToTerm, hmap, List.map_id]
  exact (Term.eq_setLike_of_asSetLike hr).symm

theorem Asset.entries_of_ofEntries {es : List (AssetName × Int)} {a : Asset}
    (h : Asset.ofEntries es = .ok a) : a.entries = es := by
  rw [Asset.ofEntries] at h
  cases htable : Table.ofEntries es with
  | error name =>
    rw [htable] at h
    cases h
  | ok table =>
    rw [htable] at h
    cases h
    exact Table.entries_of_ofEntries htable

instance : Codec.Exact Asset where
  toTerm_eq {path t a} h := by
    obtain ⟨es, hes, hrest⟩ := bind_eq_ok.1 h
    obtain ⟨entries, hentries, hof⟩ := bind_eq_ok.1 hrest
    show Asset.toTerm a = t
    rw [Asset.toTerm, Asset.entries_of_ofEntries hof, Term.asMap_eq_ok_iff.1 hes]
    refine congrArg Term.map ((map_eq_of_forall₂ ?_).trans (List.map_id es))
    apply (mapM_eq_ok.1 hentries).imp
    rintro ⟨k, v⟩ e he
    obtain ⟨name, hname, hvalue⟩ := bind_eq_ok.1 he
    obtain ⟨q, hq, hpure⟩ := bind_eq_ok.1 hvalue
    cases hpure
    exact Prod.ext (toTerm_eq hname) (Term.asInt_eq_ok_iff.1 hq).symm

theorem MultiAsset.entries_of_ofEntries {es : List (PolicyId × Asset)} {m : MultiAsset}
    (h : MultiAsset.ofEntries es = .ok m) : m.entries = es := by
  rw [MultiAsset.ofEntries] at h
  cases htable : Table.ofEntries es with
  | error policy =>
    rw [htable] at h
    cases h
  | ok table =>
    rw [htable] at h
    cases h
    exact Table.entries_of_ofEntries htable

instance : Codec.Exact MultiAsset where
  toTerm_eq {path t m} h := by
    obtain ⟨es, hes, hrest⟩ := bind_eq_ok.1 h
    obtain ⟨entries, hentries, hof⟩ := bind_eq_ok.1 hrest
    show MultiAsset.toTerm m = t
    rw [MultiAsset.toTerm, MultiAsset.entries_of_ofEntries hof, Term.asMap_eq_ok_iff.1 hes]
    refine congrArg Term.map ((map_eq_of_forall₂ ?_).trans (List.map_id es))
    apply (mapM_eq_ok.1 hentries).imp
    rintro ⟨k, v⟩ e he
    obtain ⟨policy, hpolicy, hvalue⟩ := bind_eq_ok.1 he
    obtain ⟨a, ha, hpure⟩ := bind_eq_ok.1 hvalue
    cases hpure
    exact Prod.ext (toTerm_eq hpolicy) (Codec.Exact.toTerm_eq ha)

instance : Codec.Exact Value where
  toTerm_eq {path t v} h := by
    obtain ⟨items, hitems, hrest⟩ := bind_eq_ok.1 h
    rw [Term.eq_seq_of_asFixedSequence hitems]
    match items, hrest with
    | [coin, assets], hrest =>
      obtain ⟨n, hn, hassets⟩ := bind_eq_ok.1 hrest
      obtain ⟨m, hm, hpure⟩ := bind_eq_ok.1 hassets
      cases hpure
      have hcoin := Term.asInt_eq_ok_iff.1 hn
      have hbundles : Codec.toTerm m = assets := toTerm_eq hm
      show Term.seq [.int n, Codec.toTerm m] = .seq [coin, assets]
      rw [hcoin, hbundles]
    | [], hrest => cases hrest
    | [_], hrest => cases hrest
    | _ :: _ :: _ :: _, hrest => cases hrest

instance : Codec.Exact TxInput where
  toTerm_eq {path t i} h := by
    obtain ⟨items, hitems, hrest⟩ := bind_eq_ok.1 h
    rw [Term.eq_seq_of_asFixedSequence hitems]
    match items, hrest with
    | [transaction, index], hrest =>
      obtain ⟨id, hid, hindex⟩ := bind_eq_ok.1 hrest
      obtain ⟨n, hn, hof⟩ := bind_eq_ok.1 hindex
      obtain ⟨hposition, hsafe⟩ := Term.asSafeUnsigned_eq_ok_iff.1 hn
      have hnumber : Number.ofNat n = .integer n := if_pos hsafe
      rw [TxInput.ofNumber, hnumber] at hof
      simp only [Number.integer?] at hof
      split_ifs at hof
      cases hof
      have htransaction : Codec.toTerm id = transaction := toTerm_eq hid
      show Term.seq [Codec.toTerm id, .int n] = .seq [transaction, index]
      rw [htransaction, hposition]
    | [], hrest => cases hrest
    | [_], hrest => cases hrest
    | _ :: _ :: _ :: _, hrest => cases hrest

/-! ## Amounts -/

/-- An amount as it is written: coin with no bundle is the bare coin. -/
def Value.shortAmount : Term → Term
  | .seq [.int coin, .map []] => .int coin
  | t => t

theorem Value.toAmount_eq_shortAmount (v : Value) :
    v.toAmount = Value.shortAmount (Codec.toTerm v) := by
  obtain ⟨coin, ⟨⟨entries, hnodup⟩⟩⟩ := v
  cases entries with
  | nil => rfl
  | cons e es => rfl

/-- An amount is written as it was read, save that an empty bundle is left out. -/
theorem Value.toAmount_eq {path : Path} {t : Term} {v : Value}
    (h : Value.ofAmount path t = .ok v) : v.toAmount = Value.shortAmount t := by
  cases t with
  | int n =>
    cases h
    rfl
  | _ =>
    have hexact := toTerm_eq (a := v) h
    rw [Value.toAmount_eq_shortAmount, hexact]

/-- An output as it is written. -/
def TxOutput.shortOutput : Term → Term
  | .seq (address :: amount :: rest) => .seq (address :: Value.shortAmount amount :: rest)
  | t => t

/-- An output is written as it was read, save for its amount. -/
theorem TxOutput.toTerm_eq {path : Path} {t : Term} {o : TxOutput}
    (h : Codec.ofTerm path t = .ok o) : Codec.toTerm o = TxOutput.shortOutput t := by
  obtain ⟨items, hitems, hrest⟩ := bind_eq_ok.1 h
  rw [Term.eq_seq_of_asFixedSequence hitems]
  match items, hrest with
  | [address, amount], hrest =>
    obtain ⟨bs, hbs, hrest⟩ := bind_eq_ok.1 hrest
    obtain ⟨v, hv, hpure⟩ := bind_eq_ok.1 hrest
    cases hpure
    show Term.seq [.bytes bs, v.toAmount] = .seq [address, Value.shortAmount amount]
    rw [Term.asBytes_eq_ok_iff.1 hbs, Value.toAmount_eq hv]
  | [address, amount, datum], hrest =>
    obtain ⟨bs, hbs, hrest⟩ := bind_eq_ok.1 hrest
    obtain ⟨v, hv, hrest⟩ := bind_eq_ok.1 hrest
    obtain ⟨d, hd, hpure⟩ := bind_eq_ok.1 hrest
    cases hpure
    have hdatum : Codec.toTerm d = datum := Codec.Exact.toTerm_eq hd
    show Term.seq [.bytes bs, v.toAmount, Codec.toTerm d] =
      .seq [address, Value.shortAmount amount, datum]
    rw [Term.asBytes_eq_ok_iff.1 hbs, Value.toAmount_eq hv, hdatum]
  | [], hrest => cases hrest
  | [_], hrest => cases hrest
  | _ :: _ :: _ :: _ :: _, hrest => cases hrest

end Eutxo

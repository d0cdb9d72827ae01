import Eutxo.Proofs.Ledger.Exact
import Eutxo.Proofs.Ledger.SameContent

/-!
# Ledger types are read back

The term of a value of a ledger type is read back however its map entries are
listed, and the value that is read is written as the very term that it was read
from.
-/

namespace Eutxo

open Traversal Term

/-- A type whose values are read back from their terms, the entries of maps in any order. -/
class Codec.Readable (α : Type) [Codec α] : Prop where
  exists_ofTerm (path : Path) {a : α} {t : Term} :
    Reordered (Codec.toTerm a) t → ∃ b : α, Codec.ofTerm path t = .ok b ∧ Codec.toTerm b = t

open Codec.Readable (exists_ofTerm)

instance {α : Type} [Codec α] [Codec.Rigid α] : Codec.Readable α where
  exists_ofTerm path {a t} h := by
    rw [Codec.Rigid.eq_toTerm h]
    exact ⟨a, Codec.Rigid.ofTerm_toTerm path a, rfl⟩

/-! ## Lists -/

/-- Items are read back one by one. -/
theorem Term.exists_decodeItems {α β : Type} (path : Path) {f : Path → Term → Except Fault β}
    {g : α → Term} {R : Term → β → Prop} {as : List α}
    (hf : ∀ p, ∀ a ∈ as, ∀ t, Reordered (g a) t → ∃ b, f p t = .ok b ∧ R t b) {items : List Term}
    (h : List.Forall₂ Reordered (as.map g) items) :
    ∃ bs, decodeItems path f items = .ok bs ∧ List.Forall₂ R items bs := by
  have hstep : ∀ x ∈ items.zipIdx, ∃ b, f (.item path x.2) x.1 = .ok b ∧ R x.1 b := by
    rintro ⟨t, i⟩ hmem
    obtain ⟨u, hu, hut⟩ := exists_mem_of_forall₂ h t (List.fst_mem_of_mem_zipIdx hmem)
    obtain ⟨a, ha, rfl⟩ := List.mem_map.1 hu
    exact hf _ a ha t hut
  obtain ⟨bs, hbs, hmatch⟩ := exists_mapM hstep
  refine ⟨bs, hbs, ?_⟩
  have hfirst : List.Forall₂ R (items.zipIdx.map Prod.fst) bs := List.forall₂_map_left_iff.2 hmatch
  rwa [List.zipIdx_map_fst] at hfirst

theorem Term.asSetLike_setLike (path : Path) (items : List Term) (tagged : Bool) :
    (setLike items tagged).asSetLike path = .ok ⟨items, tagged⟩ := by
  cases tagged <;> rfl

theorem Term.eq_setLike_of_reordered {items : List Term} {tagged : Bool} {t : Term}
    (h : Reordered (setLike items tagged) t) :
    ∃ items', t = setLike items' tagged ∧ List.Forall₂ Reordered items items' := by
  cases tagged with
  | false =>
    obtain ⟨items', rfl, hitems⟩ := Reordered.seq_left_iff.1 h
    exact ⟨items', rfl, hitems⟩
  | true =>
    obtain ⟨content, rfl, hcontent⟩ := Reordered.tag_left_iff.1 h
    obtain ⟨items', rfl, hitems⟩ := Reordered.seq_left_iff.1 hcontent
    exact ⟨items', rfl, hitems⟩

namespace Codec

variable {α : Type} [Codec α] [Readable α]

theorem exists_decodeItems (path : Path) {as : List α} {items : List Term}
    (h : List.Forall₂ Reordered (as.map toTerm) items) :
    ∃ bs : List α, Term.decodeItems path ofTerm items = .ok bs ∧ bs.map toTerm = items := by
  obtain ⟨bs, hbs, hmatch⟩ := Term.exists_decodeItems path (f := ofTerm)
    (R := fun t (b : α) => toTerm b = t) (fun p _ _ _ ht => exists_ofTerm p ht) h
  exact ⟨bs, hbs, (map_eq_of_forall₂ (f := id) hmatch).trans (List.map_id items)⟩

/-- A list is read back with its mark. -/
theorem exists_setOfTerm (path : Path) {s : Term.SetLike α} {t : Term}
    (h : Reordered (setToTerm s) t) :
    ∃ r : Term.SetLike α, setOfTerm path t = .ok r ∧ setToTerm r = t := by
  obtain ⟨items, rfl, hitems⟩ := Term.eq_setLike_of_reordered h
  obtain ⟨bs, hbs, hmap⟩ := exists_decodeItems path hitems
  refine ⟨⟨bs, s.tagged⟩, ?_, congrArg (Term.setLike · s.tagged) hmap⟩
  rw [setOfTerm, Term.asSetLike_setLike, ok_bind, hbs]
  rfl

end Codec

/-! ## Bundles -/

/-- The entries of a table are read back, each key by itself and each value by the key. -/
theorem Table.exists_ofEntries_of_reordered {κ α : Type} [DecidableEq κ] [Codec κ] [Codec.Rigid κ]
    (path : Path) (term : α → Term) (read : κ → Term → Except Fault α)
    (hread : ∀ k a t, Reordered (term a) t → ∃ b, read k t = .ok b ∧ term b = t)
    {table : Table κ α} {fs : List (Term × Term)}
    (h : Reordered (.map (table.entries.map fun e => (Codec.toTerm e.1, term e.2))) (.map fs)) :
    ∃ (es : List (κ × α)) (u : Table κ α), (fs.mapM fun f => do
      let k : κ ← Codec.ofTerm (.key path) f.1
      return (k, ← read k f.2)) = .ok es ∧ Table.ofEntries es = .ok u := by
  have hstep : ∀ f ∈ fs, ∃ e : κ × α, (do
      let k : κ ← Codec.ofTerm (.key path) f.1
      return (k, ← read k f.2)) = .ok e ∧ (Codec.toTerm e.1, term e.2) = f := by
    rintro ⟨k, v⟩ hf
    obtain ⟨g, hg, hkey, hvalue⟩ := Reordered.exists_entry h _ hf
    obtain ⟨⟨j, a⟩, -, rfl⟩ := List.mem_map.1 hg
    have hk : k = Codec.toTerm j := Codec.Rigid.eq_toTerm hkey
    obtain ⟨b, hb, hv⟩ := hread j a v hvalue
    refine ⟨(j, b), ?_, by rw [hk, hv]⟩
    rw [hk, Codec.Rigid.ofTerm_toTerm, ok_bind, hb]
    rfl
  obtain ⟨es, hes, hmatch⟩ := exists_mapM hstep
  have hmap : es.map (fun e => (Codec.toTerm e.1, term e.2)) = fs :=
    (map_eq_of_forall₂ (f := id) hmatch).trans (List.map_id fs)
  have hapart := h.keysApart (table.lists term fun _ _ => Codec.reordered_iff_eq.1).apart
  obtain ⟨u, hu⟩ := exists_ofEntries (KeysApart.nodup_keys _ term (hmap ▸ hapart))
  exact ⟨es, u, hes, hu⟩

instance : Codec.Readable Asset where
  exists_ofTerm path {a t} h := by
    obtain ⟨fs, rfl, -⟩ := Reordered.exists_entries h
    obtain ⟨es, table, hes, htable⟩ := Table.exists_ofEntries_of_reordered path
      .int (fun name t => t.asInt (.entry path name.toText))
      (fun name q t ht => ⟨q, Term.asInt_eq_ok_iff.2 (Reordered.int_left_iff.1 ht),
        (Reordered.int_left_iff.1 ht).symm⟩) h
    have hread : Asset.ofTerm path (.map fs) = .ok ⟨table⟩ := by
      show fs.mapM _ >>= Asset.ofEntries = _
      rw [hes, ok_bind, Asset.ofEntries, htable]
    exact ⟨⟨table⟩, hread, Codec.Exact.toTerm_eq hread⟩

instance : Codec.Readable MultiAsset where
  exists_ofTerm path {m t} h := by
    obtain ⟨fs, rfl, -⟩ := Reordered.exists_entries h
    obtain ⟨es, table, hes, htable⟩ := Table.exists_ofEntries_of_reordered path
      Asset.toTerm (fun policy t => Asset.ofTerm (.entry path policy.toText) t)
      (fun _ _ _ ht => exists_ofTerm (α := Asset) _ ht) h
    have hread : MultiAsset.ofTerm path (.map fs) = .ok ⟨table⟩ := by
      show fs.mapM _ >>= MultiAsset.ofEntries = _
      rw [hes, ok_bind, MultiAsset.ofEntries, htable]
    exact ⟨⟨table⟩, hread, Codec.Exact.toTerm_eq hread⟩

/-! ## Values and outputs -/

instance : Codec.Readable Value where
  exists_ofTerm path {v t} h := by
    obtain ⟨coin, assets, rfl, hcoin, hassets⟩ := Reordered.pair_left_iff.1 h
    obtain ⟨m, hm, -⟩ := exists_ofTerm (α := MultiAsset) (.item path 1) hassets
    have hread : Value.ofTerm path (.seq [coin, assets]) = .ok ⟨v.coin, m⟩ := by
      show (do return (⟨← coin.asInt (.item path 0), ← MultiAsset.ofTerm (.item path 1) assets⟩ :
        Value)) = _
      rw [Reordered.int_left_iff.1 hcoin]
      show (do return (⟨v.coin, ← MultiAsset.ofTerm (.item path 1) assets⟩ : Value)) = _
      have hm : MultiAsset.ofTerm (.item path 1) assets = .ok m := hm
      rw [hm]
      rfl
    exact ⟨⟨v.coin, m⟩, hread, Codec.Exact.toTerm_eq hread⟩

theorem Value.exists_ofAmount (path : Path) {v : Value} {t : Term} (h : Reordered v.toAmount t) :
    ∃ w, ofAmount path t = .ok w ∧ w.toAmount = t := by
  rw [toAmount] at h
  split_ifs at h with hcoin
  · rw [Reordered.int_left_iff.1 h]
    exact ⟨ofCoin v.coin, rfl, rfl⟩
  · obtain ⟨w, hw, rfl⟩ := exists_ofTerm (α := Value) path h
    have hsame : v.Same w := Value.reordered_iff_same.1 h
    have hlong : ¬ w.isCoinOnly = true := by
      rw [isCoinOnly, ← hsame.2.isEmpty_eq]
      exact hcoin
    exact ⟨w, hw, if_neg hlong⟩

instance : Codec.Readable TxOutput where
  exists_ofTerm path {o t} h := by
    obtain ⟨items, rfl, hitems⟩ := Reordered.seq_left_iff.1 h
    obtain ⟨address, rest, haddress, hrest, rfl⟩ := List.forall₂_cons_left_iff.1 hitems
    obtain ⟨amount, datum, hamount, hdatum, rfl⟩ := List.forall₂_cons_left_iff.1 hrest
    have haddress := Reordered.bytes_left_iff.1 haddress
    obtain ⟨w, hw, rfl⟩ := Value.exists_ofAmount (.item path 1) hamount
    subst haddress
    cases hash : o.datumHash with
    | none =>
      rw [hash] at hdatum
      cases hdatum
      refine ⟨⟨o.address, w, none⟩, ?_, rfl⟩
      show (do
        let amount ← Value.ofAmount (.item path 1) w.toAmount
        return (⟨o.address, amount, none⟩ : TxOutput)) = _
      rw [hw]
      rfl
    | some d =>
      rw [hash] at hdatum
      obtain ⟨u, us, hu, hus, rfl⟩ := List.forall₂_cons_left_iff.1 hdatum
      cases hus
      rw [Codec.Rigid.eq_toTerm hu]
      refine ⟨⟨o.address, w, some d⟩, ?_, rfl⟩
      show (do
        let amount ← Value.ofAmount (.item path 1) w.toAmount
        let datum : DatumHash ← Codec.ofTerm (.item path 2) (Codec.toTerm d)
        return (⟨o.address, amount, some datum⟩ : TxOutput)) = _
      rw [hw, Codec.Rigid.ofTerm_toTerm]
      rfl

end Eutxo

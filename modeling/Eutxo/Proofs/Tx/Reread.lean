import Eutxo.Proofs.Cbor.Reread
import Eutxo.Proofs.Tx.Stability

/-!
# Transactions read back from their bytes

A body keeps certificates and updates as terms, and only these may come back
changed.  Where no text in them begins with a mark, the transaction that is read
back has the same id, and its key witnesses and required signers are the same in
any case.
-/

namespace Eutxo

open Traversal Term Cbor

/-! ## Amounts are written in short -/

theorem TxOutput.shortOutput_of_reordered {o : TxOutput} {t : Term}
    (h : Reordered (Codec.toTerm o) t) : shortOutput t = t := by
  obtain ⟨p, hread, hterm⟩ := Codec.Readable.exists_ofTerm .input h
  rw [← TxOutput.toTerm_eq hread, hterm]

theorem BodyEntry.shortContent_of_reordered {e : BodyEntry} {t : Term}
    (h : Reordered e.content t) : shortContent e.field t = t := by
  cases e
  case outputs os =>
    obtain ⟨items, rfl, hitems⟩ := Reordered.seq_left_iff.1 h
    refine congrArg Term.seq (map_eq_self_iff.2 fun t ht => ?_)
    obtain ⟨u, hu, hut⟩ := exists_mem_of_forall₂ hitems t ht
    obtain ⟨o, -, rfl⟩ := List.mem_map.1 hu
    exact TxOutput.shortOutput_of_reordered hut
  case collateralReturn o => exact TxOutput.shortOutput_of_reordered h
  all_goals rfl

theorem TxBody.shortBody_of_reordered {b : TxBody} {t : Term} (h : Reordered b.toTerm t) :
    shortBody t = t := by
  obtain ⟨fs, gs, rfl, hperm, hmatch⟩ := Reordered.map_left_iff.1 h
  refine congrArg Term.map (map_eq_self_iff.2 ?_)
  rintro ⟨k, v⟩ hf
  obtain ⟨g, hg, hkey, hvalue⟩ := exists_mem_of_forall₂ hmatch (k, v) hf
  obtain ⟨e, -, rfl⟩ := List.mem_map.1 (hperm.mem_iff.2 hg)
  cases Reordered.int_left_iff.1 hkey
  rw [BodyEntry.shortEntry_key, BodyEntry.shortContent_of_reordered hvalue]

/-! ## Bodies -/

/-- The entry with the term that is read back in the place of one that is kept. -/
def BodyEntry.reread : BodyEntry → BodyEntry
  | .certificates t => .certificates (Cbor.reread t)
  | .update t => .update (Cbor.reread t)
  | e => e

theorem BodyEntry.toTerms_reread (e : BodyEntry) :
    e.reread.toTerms = (Cbor.reread e.toTerms.1, Cbor.reread e.toTerms.2) := by
  have hkept {e : BodyEntry} (hsame : e.reread = e) (hfaithful : Everywhere FaithfulAt e.content) :
      e.reread.toTerms = (Cbor.reread e.toTerms.1, Cbor.reread e.toTerms.2) := by
    rw [hsame, toTerms, reread_int, reread_of_faithful hfaithful]
  have hP := ledgerNodes_faithfulAt
  cases e
  case certificates t | update t => exact Prod.ext (reread_int _).symm rfl
  case inputs s | collateral s | requiredSigners s | referenceInputs s =>
    exact hkept rfl (hP.everywhere_setToTerm s)
  case outputs os => exact hkept rfl (hP.everywhere_seq (hP.everywhere_items os))
  case fee n | ttl n | validityStart n | networkId n | totalCollateral n =>
    exact hkept rfl (hP.everywhere_int n)
  case auxiliaryDataHash a | scriptDataHash a | mint a | collateralReturn a =>
    exact hkept rfl (Codec.Regular.everywhere_toTerm hP a)
  case withdrawals ws =>
    refine hkept rfl (everywhere_map_iff.2 ⟨trivial, fun e he => ?_⟩)
    obtain ⟨w, -, rfl⟩ := List.mem_map.1 he
    exact ⟨hP.everywhere_bytes w.rewardAddress, hP.everywhere_int w.amount⟩

namespace TxBody

/-- The body with what is read back in the place of the terms that it keeps. -/
def reread (b : TxBody) : TxBody :=
  { b with certificates := b.certificates.map Cbor.reread, update := b.update.map Cbor.reread }

theorem entries_reread (b : TxBody) : b.reread.entries = b.entries.map BodyEntry.reread := by
  simp [entries, reread, withMark, BodyEntry.reread, Option.toList_map, Function.comp_def]

theorem toTerm_reread (b : TxBody) : b.reread.toTerm = Cbor.reread b.toTerm := by
  rw [toTerm, toTerm, reread_map, entries_reread, List.map_map, List.map_map]
  exact congrArg Term.map (List.map_congr_left fun e _ => e.toTerms_reread)

end TxBody

/-! ## Transactions -/

namespace Transaction

/-- What is read back of a transaction, whether or not it is the same. -/
structure ReadBack (tx tx' : Transaction) : Prop where
  canonical : ∃ b, Cbor.canonical tx.body.toTerm = .ok b ∧ Item.Strict (Item.ofTerm b)
  body : Reordered tx.body.reread.toTerm tx'.body.toTerm
  witnessSet : Reordered (Cbor.reread tx.witnessSet.toTerm) tx'.witnessSet.toTerm

variable {tx tx' : Transaction} {bs : Bytes}

theorem readBack_of_ofCbor (h : Codec.toCbor tx = .ok bs) (hread : Codec.ofCbor bs = .ok tx') :
    tx.ReadBack tx' := by
  obtain ⟨t, ht, htx'⟩ := bind_eq_ok.1 hread
  obtain ⟨u, hu, hstrict, rfl⟩ := exists_canonical_of_decode h ht
  obtain ⟨hreordered, hascending⟩ := reordered_of_canonical hu
  obtain ⟨b, w, a, rfl, hb, hw, -⟩ := reordered_toTerm_iff.1 hreordered
  have hdistinct : Everywhere DistinctAt (Cbor.reread (.seq [b, w, .bool tx.valid, a])) :=
    (Item.encodable_term hstrict).imp fun _ => And.right
  have hbody : Reordered tx.body.reread.toTerm (Cbor.reread b) :=
    tx.body.toTerm_reread ▸ hb.reread
  have hterm : Cbor.reread (.seq [b, w, .bool tx.valid, a]) =
      .seq [Cbor.reread b, Cbor.reread w, .bool tx.valid, Cbor.reread a] := reread_seq _
  have hsame := reordered_of_ofTerm hdistinct htx'
  -- The amounts of a body were written in short, so nothing is left to shorten.
  rw [hterm, shortTransaction, TxBody.shortBody_of_reordered hbody, toTerm_eq,
    Reordered.seq_seq_iff] at hsame
  obtain ⟨hbody', htail⟩ := List.forall₂_cons.1 hsame
  obtain ⟨hwitnesses, -⟩ := List.forall₂_cons.1 htail
  have hcanonical : Cbor.canonical tx.body.toTerm = .ok b :=
    canonical_eq_ok_iff.2 ⟨hb, (everywhere_seq_iff.1 hascending).2 b List.mem_cons_self⟩
  have hbstrict : Item.Strict (Item.ofTerm b) := by
    rw [Item.ofTerm, Item.ofItems] at hstrict
    exact (Item.everywhere_array_iff.1 hstrict).2 _ List.mem_cons_self
  exact ⟨⟨b, hcanonical, hbstrict⟩, hbody.trans hbody', .trans hw.reread hwitnesses⟩

theorem ReadBack.requiredSigners_eq (h : tx.ReadBack tx') :
    tx'.body.requiredSigners = tx.body.requiredSigners :=
  (TxBody.reordered_iff_agreesOn.1 h.body .requiredSigners).1.symm

/-- Key witnesses come back as they were if there is nothing else among the witnesses. -/
theorem ReadBack.vkeyWitnesses_eq (h : tx.ReadBack tx')
    (hkept : tx.witnessSet.keptTerms = []) :
    tx'.witnessSet.vkeyWitnesses = tx.witnessSet.vkeyWitnesses := by
  have hfaithful : Everywhere FaithfulAt tx.witnessSet.toTerm :=
    WitnessSet.everywhere_toTerm ledgerNodes_faithfulAt (by simp [hkept])
  have hsame := h.witnessSet
  rw [reread_of_faithful hfaithful] at hsame
  exact (WitnessSet.reordered_iff_agreesOn.1 hsame .vkeyWitnesses).1.symm

/-- Without marks in front of the texts that a body keeps, a transaction is read back with the same
id. -/
theorem ReadBack.id_eq (h : tx.ReadBack tx')
    (hunmarked : ∀ t ∈ tx.body.keptTerms, Everywhere UnmarkedAt t) {id : TransactionId}
    (hid : tx.id = .ok id) : tx'.id = .ok id := by
  obtain ⟨x, hx, hpure⟩ := bind_eq_ok.1 hid
  obtain ⟨b, hcanonical, hstrict⟩ := h.canonical
  have hbody : Everywhere UnmarkedAt tx.body.toTerm :=
    tx.body.everywhere_toTerm ledgerNodes_unmarkedAt (fun _ _ => trivial) hunmarked
  have hreread : encode (Cbor.reread tx.body.toTerm) = .ok x :=
    encode_reread hx hcanonical hstrict hbody
  have hsame : Codec.toCbor tx'.body = .ok x :=
    encode_of_reordered h.body (tx.body.toTerm_reread ▸ hreread)
  rw [Transaction.id, TxBody.hash, hsame, ok_bind]
  exact hpure

end Transaction

end Eutxo

import Eutxo.Proofs.Cbor.Stability
import Eutxo.Proofs.Ledger.Equality
import Eutxo.Proofs.Tx.BodyBytes
import Eutxo.Proofs.Tx.Transaction

/-!
# Transactions that were read are stable

There are many spellings of a transaction and one that is written.  A transaction
that was read, whatever its spelling, is written, read back equal, and written as
the same bytes again.
-/

namespace Eutxo

open Traversal Term Cbor
open FieldEntry (Unrepeated)

/-! ## Witness sets -/

instance : Codec.Exact VkeyWitness where
  toTerm_eq {path t w} h := by
    obtain ⟨items, hitems, hrest⟩ := bind_eq_ok.1 h
    rw [eq_seq_of_asFixedSequence hitems]
    match items, hrest with
    | [key, signature], hrest =>
      obtain ⟨k, hk, hsignature⟩ := bind_eq_ok.1 hrest
      obtain ⟨s, hs, hpure⟩ := bind_eq_ok.1 hsignature
      cases hpure
      have hkey : Codec.toTerm k = key := Codec.Exact.toTerm_eq hk
      have hsignature : Codec.toTerm s = signature := Codec.Exact.toTerm_eq hs
      show Term.seq [Codec.toTerm k, Codec.toTerm s] = .seq [key, signature]
      rw [hkey, hsignature]
    | [], hrest => cases hrest
    | [_], hrest => cases hrest
    | _ :: _ :: _ :: _, hrest => cases hrest

namespace WitnessEntry

theorem scriptTerm_of_decodeScripts {path : Path} {t : Term} {s : Term.SetLike Bytes}
    (h : decodeScripts path t = .ok s) : scriptTerm s = t := by
  obtain ⟨r, hr, hitems⟩ := bind_eq_ok.1 h
  obtain ⟨xs, hxs, hpure⟩ := bind_eq_ok.1 hitems
  cases hpure
  have hmap : xs.map Term.bytes = r.items.map id :=
    map_of_decodeItems (r := id) (fun h => (asBytes_eq_ok_iff.1 h).symm) hxs
  rw [scriptTerm, hmap, List.map_id]
  exact (eq_setLike_of_asSetLike hr).symm

/-- An entry is written as it was read. -/
theorem toTerms_of_ofContent {path : Path} {t : Term} {f : WitnessField} {e : WitnessEntry}
    (h : ofContent path t f = .ok e) : e.toTerms = (.int f.key, t) := by
  cases f
  case vkeyWitnesses =>
    obtain ⟨s, hs, hpure⟩ := bind_eq_ok.1 h
    cases hpure
    exact Prod.ext rfl (Codec.setToTerm_eq hs)
  case nativeScripts | bootstrapWitnesses | plutusData =>
    obtain ⟨s, hs, hpure⟩ := bind_eq_ok.1 h
    cases hpure
    exact Prod.ext rfl (eq_setLike_of_asSetLike hs).symm
  case plutusV1Scripts | plutusV2Scripts | plutusV3Scripts =>
    obtain ⟨s, hs, hpure⟩ := bind_eq_ok.1 h
    cases hpure
    exact Prod.ext rfl (scriptTerm_of_decodeScripts hs)
  case redeemers =>
    cases h
    rfl

theorem toTerms_of_ofTerms {path : Path} {t : Term × Term} {e : WitnessEntry}
    (h : ofTerms path t = .ok e) : e.toTerms = t := by
  obtain ⟨key, hkey, hmatch⟩ := bind_eq_ok.1 h
  obtain ⟨hnumber, -⟩ := asSafeUnsigned_eq_ok_iff.1 hkey
  split at hmatch
  · next f hf =>
    rw [toTerms_of_ofContent hmatch, WitnessField.key_of_ofKey? hf, ← hnumber]
  · cases hmatch

end WitnessEntry

/-- A witness set is written as it was read, its entries in their own order. -/
theorem WitnessSet.reordered_of_ofTerm {path : Path} {t : Term} {w : WitnessSet}
    (hdistinct : DistinctAt t) (h : ofTerm path t = .ok w) : Reordered t w.toTerm := by
  obtain ⟨es, hes, hrest⟩ := bind_eq_ok.1 h
  obtain ⟨entries, hentries, hpure⟩ := bind_eq_ok.1 hrest
  cases hpure
  rw [asMap_eq_ok_iff.1 hes] at hdistinct ⊢
  have hunrepeated : Unrepeated entries := by
    apply FieldEntry.unrepeated_of_read hentries _ hdistinct
    intro t e h
    exact congrArg Prod.fst (WitnessEntry.toTerms_of_ofTerms h).symm
  have hterms : entries.map WitnessEntry.toTerms = es.map id :=
    map_eq_of_forall₂ ((mapM_eq_ok.1 hentries).imp fun _ _ => WitnessEntry.toTerms_of_ofTerms)
  rw [List.map_id] at hterms
  show Reordered (.map es) (.map ((ofEntries entries).entries.map WitnessEntry.toTerms))
  rw [← hterms]
  exact .permute ((entries_perm hunrepeated).map WitnessEntry.toTerms)

/-! ## Bodies -/

namespace BodyEntry

theorem amount_of_decodeWithdrawals {path : Path} {t : Term} {ws : List Withdrawal}
    (h : decodeWithdrawals path t = .ok ws) : ∀ w ∈ ws, 0 ≤ w.amount := by
  obtain ⟨es, -, hpairs⟩ := bind_eq_ok.1 h
  intro w hw
  obtain ⟨⟨⟨k, v⟩, i⟩, -, hpair⟩ := exists_mem_of_forall₂ (mapM_eq_ok.1 hpairs) w hw
  obtain ⟨rewardAddress, -, hamount⟩ := bind_eq_ok.1 hpair
  obtain ⟨amount, -, hpure⟩ := bind_eq_ok.1 hamount
  cases hpure
  exact Int.natCast_nonneg amount

/-- The numbers of an entry that was read are such as can be read. -/
theorem decodable_of_ofContent {path : Path} {t : Term} {f : BodyField} {e : BodyEntry}
    (h : ofContent path t f = .ok e) : e.Decodable := by
  cases f
  case fee | ttl | validityStart | totalCollateral =>
    obtain ⟨n, -, hpure⟩ := bind_eq_ok.1 h
    cases hpure
    exact Int.natCast_nonneg n
  case networkId =>
    obtain ⟨n, hn, hpure⟩ := bind_eq_ok.1 h
    cases hpure
    exact ⟨Int.natCast_nonneg n, Int.ofNat_le.2 (asSafeUnsigned_eq_ok_iff.1 hn).2⟩
  case withdrawals =>
    obtain ⟨ws, hws, hpure⟩ := bind_eq_ok.1 h
    cases hpure
    exact amount_of_decodeWithdrawals hws
  case outputs =>
    obtain ⟨items, -, hrest⟩ := bind_eq_ok.1 h
    obtain ⟨os, -, hpure⟩ := bind_eq_ok.1 hrest
    cases hpure
    exact trivial
  case certificates | update =>
    cases h
    exact trivial
  all_goals
    obtain ⟨a, -, hpure⟩ := bind_eq_ok.1 h
    cases hpure
    exact trivial

theorem decodable_of_ofTerms {path : Path} {t : Term × Term} {e : BodyEntry}
    (h : ofTerms path t = .ok e) : e.Decodable := by
  obtain ⟨key, -, hmatch⟩ := bind_eq_ok.1 h
  split at hmatch
  · exact decodable_of_ofContent hmatch
  · cases hmatch

end BodyEntry

namespace TxBody

theorem decodable_of_entries {b : TxBody} (h : ∀ e ∈ b.entries, e.Decodable)
    (haddresses : ∀ ws ∈ b.withdrawals, (ws.map Withdrawal.rewardAddress).Nodup) :
    b.Decodable := by
  have hentry (e : BodyEntry) (he : b.entryOf? e.field = some e) : e.Decodable :=
    h e (mem_entries_iff_entryOf?.2 he)
  exact {
    fee := hentry (.fee b.fee) rfl
    ttl := fun n hn => hentry (.ttl n) (Option.mem_map_of_mem _ hn)
    validityStart := fun n hn => hentry (.validityStart n) (Option.mem_map_of_mem _ hn)
    totalCollateral := fun n hn => hentry (.totalCollateral n) (Option.mem_map_of_mem _ hn)
    networkId := fun n hn => hentry (.networkId n) (Option.mem_map_of_mem _ hn)
    amounts := fun ws hws => hentry (.withdrawals ws) (Option.mem_map_of_mem _ hws)
    addresses := haddresses }

/-- A body that was read is one that can be read. -/
theorem decodable_of_ofTerm {path : Path} {t : Term} {b : TxBody} (hdistinct : DistinctAt t)
    (h : ofTerm path t = .ok b) (hkeys : Everywhere KeysApartAt b.toTerm) : b.Decodable := by
  obtain ⟨es, entries, rfl, hentries, hunrepeated, hb⟩ := exists_entries_of_ofTerm hdistinct h
  refine decodable_of_entries (fun e he => ?_) fun ws hws => ?_
  · obtain ⟨t, -, ht⟩ :=
      exists_mem_of_forall₂ hentries e ((mem_entries_iff hunrepeated hb e).1 he)
    exact BodyEntry.decodable_of_ofTerms ht
  · have hmem : BodyEntry.withdrawals ws ∈ b.entries :=
      mem_entries_iff_entryOf?.2 (Option.mem_map_of_mem BodyEntry.withdrawals hws)
    have hcontent := (Term.everywhere_map_iff.1 hkeys).2 _ (List.mem_map_of_mem hmem)
    have hapart : KeysApart (ws.map withdrawalTerms) := hcontent.2.here
    apply List.pairwise_map.2
    apply (List.pairwise_map.1 hapart).imp
    intro w v hne hsame
    apply hne
    show Reordered (.bytes w.rewardAddress) (.bytes v.rewardAddress)
    rw [hsame]
    exact .refl _

end TxBody

/-! ## Transactions -/

namespace Transaction

theorem auxiliaryTerm_of_auxiliaryOfTerm {path : Path} {t : Term} {o : Option AuxiliaryData}
    (h : auxiliaryOfTerm path t = .ok o) : auxiliaryTerm o = t := by
  unfold auxiliaryOfTerm at h
  split at h
  · cases h
    rfl
  · obtain ⟨a, ha, hpure⟩ := bind_eq_ok.1 h
    cases hpure
    exact (AuxiliaryData.ofTerm_eq_ok_iff.1 ha).symm

/-- The term of a transaction with its flag, and with its amounts as they are written. -/
def shortTransaction : Term → Term
  | .seq [b, w, a] => .seq [TxBody.shortBody b, w, .bool true, a]
  | .seq [b, w, v, a] => .seq [TxBody.shortBody b, w, v, a]
  | t => t

/-- A condition that is kept when amounts are shortened is kept when the flag is added too. -/
theorem everywhere_shortTransaction {P : Term → Prop} (hseq : ∀ b w v a, P (.seq [b, w, v, a]))
    (hbool : P (.bool true))
    (hshort : ∀ {t u}, Shortened t u → Everywhere P t → Everywhere P u) {t : Term}
    (h : Everywhere P t) : Everywhere P (shortTransaction t) := by
  unfold shortTransaction
  split
  · next b w a =>
    obtain ⟨-, hitems⟩ := Term.everywhere_seq_iff.1 h
    obtain ⟨hb, hrest⟩ := List.forall_mem_cons.1 hitems
    obtain ⟨hw, ha⟩ := List.forall_mem_cons.1 hrest
    exact Term.everywhere_seq_iff.2 ⟨hseq _ _ _ _, List.forall_mem_cons.2
      ⟨hshort (TxBody.shortened_shortBody b) hb, List.forall_mem_cons.2
        ⟨hw, List.forall_mem_cons.2 ⟨.leaf hbool rfl, ha⟩⟩⟩⟩
  · next b w v a =>
    obtain ⟨-, hitems⟩ := Term.everywhere_seq_iff.1 h
    obtain ⟨hb, hrest⟩ := List.forall_mem_cons.1 hitems
    exact Term.everywhere_seq_iff.2 ⟨hseq _ _ _ _, List.forall_mem_cons.2
      ⟨hshort (TxBody.shortened_shortBody b) hb, hrest⟩⟩
  · exact h

/-- The parts of a transaction are read from three elements, or from four with the flag. -/
theorem exists_elements_of_ofTerm {path : Path} {t : Term} {tx : Transaction}
    (hdistinct : Everywhere DistinctAt t) (h : ofTerm path t = .ok tx) :
    ∃ b w, shortTransaction t =
        .seq [TxBody.shortBody b, w, .bool tx.valid, auxiliaryTerm tx.auxiliaryData] ∧
      DistinctAt b ∧ (∃ p, TxBody.ofTerm p b = .ok tx.body) ∧
      DistinctAt w ∧ ∃ p, WitnessSet.ofTerm p w = .ok tx.witnessSet := by
  obtain ⟨items, hitems, hmatch⟩ := bind_eq_ok.1 h
  rw [eq_seq_of_asFixedSequence hitems] at hdistinct ⊢
  have hitem (x : Term) (hx : x ∈ items) : DistinctAt x :=
    ((Term.everywhere_seq_iff.1 hdistinct).2 x hx).here
  match items, hmatch, hitem with
  | [b, w, a], hmatch, hitem =>
    obtain ⟨body, hbody, hrest⟩ := bind_eq_ok.1 hmatch
    obtain ⟨witnessSet, hwitnessSet, hrest⟩ := bind_eq_ok.1 hrest
    obtain ⟨auxiliaryData, hauxiliaryData, hpure⟩ := bind_eq_ok.1 hrest
    cases hpure
    rw [auxiliaryTerm_of_auxiliaryOfTerm hauxiliaryData]
    exact ⟨b, w, rfl, hitem b (by simp), ⟨_, hbody⟩, hitem w (by simp), _, hwitnessSet⟩
  | [b, w, v, a], hmatch, hitem =>
    obtain ⟨body, hbody, hrest⟩ := bind_eq_ok.1 hmatch
    obtain ⟨witnessSet, hwitnessSet, hrest⟩ := bind_eq_ok.1 hrest
    obtain ⟨valid, hvalid, hrest⟩ := bind_eq_ok.1 hrest
    obtain ⟨auxiliaryData, hauxiliaryData, hpure⟩ := bind_eq_ok.1 hrest
    cases hpure
    rw [auxiliaryTerm_of_auxiliaryOfTerm hauxiliaryData, ← asBool_eq_ok_iff.1 hvalid]
    exact ⟨b, w, rfl, hitem b (by simp), ⟨_, hbody⟩, hitem w (by simp), _, hwitnessSet⟩
  | [], hmatch, _ => cases hmatch
  | [_], hmatch, _ => cases hmatch
  | [_, _], hmatch, _ => cases hmatch
  | _ :: _ :: _ :: _ :: _ :: _, hmatch, _ => cases hmatch

/-- A transaction is written as it was read, with its amounts in short and the entries of its body
and its witness set in their own order. -/
theorem reordered_of_ofTerm {path : Path} {t : Term} {tx : Transaction}
    (hdistinct : Everywhere DistinctAt t) (h : ofTerm path t = .ok tx) :
    Reordered (shortTransaction t) tx.toTerm := by
  obtain ⟨b, w, hshort, hb, ⟨p, hbody⟩, hw, ⟨q, hwitnessSet⟩⟩ :=
    exists_elements_of_ofTerm hdistinct h
  have hbody := TxBody.reordered_of_ofTerm hb hbody
  have hwitnessSet := WitnessSet.reordered_of_ofTerm hw hwitnessSet
  rw [hshort, toTerm_eq]
  exact .seq (.cons hbody (.cons hwitnessSet (.cons (.refl _) (.cons (.refl _) .nil))))

/-- A transaction that was read has a body that can be read. -/
theorem decodable_of_ofTerm {path : Path} {t : Term} {tx : Transaction}
    (hdistinct : Everywhere DistinctAt t) (h : ofTerm path t = .ok tx)
    (hkeys : Everywhere KeysApartAt tx.toTerm) : tx.body.Decodable := by
  obtain ⟨b, w, -, hb, ⟨p, hbody⟩, -⟩ := exists_elements_of_ofTerm hdistinct h
  rw [toTerm_eq] at hkeys
  have hbodykeys := (Term.everywhere_seq_iff.1 hkeys).2 tx.body.toTerm List.mem_cons_self
  exact TxBody.decodable_of_ofTerm hb hbody hbodykeys

/-- A transaction that was read is written from a term that decoding gives back, unless a text was
marked. -/
theorem exists_encode_of_ofCbor {bs : Bytes} {tx : Transaction} (hunmarked : Unmarked bs)
    (h : Codec.ofCbor bs = .ok tx) :
    ∃ t out, encode t = .ok out ∧ Reordered t tx.toTerm ∧ Everywhere FaithfulAt t ∧
      tx.body.Decodable := by
  obtain ⟨t, ht, hread⟩ := bind_eq_ok.1 h
  have hencodable := encodable_of_decode ht
  have hdistinct : Everywhere DistinctAt t := hencodable.imp fun _ => And.right
  have hreordered : Reordered (shortTransaction t) tx.toTerm := reordered_of_ofTerm hdistinct hread
  have hshort : Everywhere (FitsAt maxArgument) (shortTransaction t) :=
    everywhere_shortTransaction (fun _ _ _ _ => (by decide : 4 ≤ maxArgument)) trivial
      Term.Shortened.fits (hencodable.imp fun _ => And.left)
  have hapart : Everywhere DistinctAt (shortTransaction t) :=
    everywhere_shortTransaction (fun _ _ _ _ => trivial) trivial Term.Shortened.distinct hdistinct
  have hfaithful : Everywhere FaithfulAt (shortTransaction t) :=
    everywhere_shortTransaction (fun _ _ _ _ => trivial) trivial Term.Shortened.faithful
      (faithful_of_decode ht hunmarked)
  obtain ⟨out, hout⟩ := exists_encode (hshort.and hapart)
  -- What is written has no address among the withdrawals twice.
  have hkeys : Everywhere KeysApartAt tx.toTerm :=
    keysApart_of_encode (encode_of_reordered hreordered hout)
  exact ⟨shortTransaction t, out, hout, hreordered, hfaithful,
    decodable_of_ofTerm hdistinct hread hkeys⟩

/-- A transaction that was read from bytes without a marked text is written, and what is written is
read as an equal transaction with the same id, which is written as the same bytes.  What is asked
of the length holds of every array. -/
theorem ofCbor_stable {bs : Bytes} {tx : Transaction} (hunmarked : Unmarked bs)
    (h : Codec.ofCbor bs = .ok tx) :
    ∃ out, Codec.toCbor tx = .ok out ∧ (out.length ≤ maxLength →
      ∃ tx' : Transaction, Codec.ofCbor out = .ok tx' ∧
        Record.equals (.transaction tx') (.transaction tx) = .ok true ∧
        (∃ id, tx.id = .ok id ∧ tx'.id = .ok id) ∧ tx.SameContent tx' ∧
        Codec.toCbor tx' = .ok out) := by
  obtain ⟨t, out, hout, hreordered, hfaithful, hnumbers⟩ := exists_encode_of_ofCbor hunmarked h
  have hwritten : Codec.toCbor tx = .ok out := encode_of_reordered hreordered hout
  refine ⟨out, hwritten, fun hlength => ?_⟩
  obtain ⟨tx', hread, hagain, hsame⟩ :=
    Codec.exists_ofCbor (a := tx) hreordered hfaithful hout hlength fun u hu => by
      obtain ⟨tx', htx', hback, -⟩ := exists_ofTerm (Codec.path Transaction) hnumbers hu
      exact ⟨tx', htx', hback⟩
  exact ⟨tx', hread, Codec.sameBytes_of_toCbor hagain hwritten, id_of_reordered hsame hwritten,
    sameContent_of_reordered hsame, hagain⟩

/-- The bytes of a transaction without a flag.  Its fee comes first, the amount of its output is
paired with an empty map, and its metadata has a byte that is not UTF-8. -/
def unflagged : Bytes :=
  [0x83, 0xA3, 2, 0, 0, 0x80, 1, 0x81, 0x82, 0x41, 0x61, 0x82, 5, 0xA0, 0xA0,
    0xA1, 0x19, 0x02, 0xA2, 0x62, 0xFF, 0x41]

/-- The bytes that the transaction without a flag is written as. -/
def flagged : Bytes :=
  [0x84, 0xA3, 0, 0x80, 1, 0x81, 0x82, 0x41, 0x61, 5, 2, 0, 0xA0, 0xF5,
    0xA1, 0x19, 0x02, 0xA2, 0x64, 0xEF, 0xBF, 0xBD, 0x41]

theorem ofCbor_stable_unflagged : Unmarked unflagged ∧ ∃ tx tx' : Transaction,
    Codec.ofCbor unflagged = .ok tx ∧ Codec.toCbor tx = .ok flagged ∧
      Codec.ofCbor flagged = .ok tx' ∧
      Record.equals (.transaction tx') (.transaction tx) = .ok true ∧
      (∃ id, tx.id = .ok id ∧ tx'.id = .ok id) ∧ tx.SameContent tx' ∧
      Codec.toCbor tx' = .ok flagged := by
  have hunmarked : Unmarked unflagged := unmarked_of_no_mark (by decide)
  obtain ⟨tx, htx⟩ : ∃ tx : Transaction, Codec.ofCbor unflagged = .ok tx := ⟨_, rfl⟩
  have hflagged : (Codec.ofCbor unflagged >>= fun tx : Transaction => Codec.toCbor tx) =
      .ok flagged := rfl
  rw [htx, ok_bind] at hflagged
  obtain ⟨out, hout, hagain⟩ := ofCbor_stable hunmarked htx
  obtain rfl : out = flagged := Except.ok.inj (hout.symm.trans hflagged)
  obtain ⟨tx', hread⟩ := hagain (by decide)
  exact ⟨hunmarked, tx, tx', htx, hout, hread⟩

end Transaction

end Eutxo

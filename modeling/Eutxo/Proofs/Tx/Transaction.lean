import Eutxo.Tx.Transaction
import Eutxo.Proofs.Metadata.RoundTrip
import Eutxo.Proofs.Tx.BodyReadback
import Eutxo.Proofs.Tx.WitnessSet

/-!
# Transactions after a round trip

A transaction whose numbers can be read, and whose kept terms are given back by
decoding, is read back from its bytes: with the same bytes and the same id, with
the same content in every field, and with the marks of the lists that it has.
-/

namespace Eutxo

open Traversal Term Cbor

namespace Transaction

/-! ## The term of a transaction -/

/-- The term in the place of the auxiliary data. -/
def auxiliaryTerm : Option AuxiliaryData → Term
  | some a => a.toTerm
  | none => .null

theorem toTerm_eq (tx : Transaction) :
    tx.toTerm = .seq [tx.body.toTerm, tx.witnessSet.toTerm, .bool tx.valid,
      auxiliaryTerm tx.auxiliaryData] := rfl

/-- The bytes of a transaction: those of its four parts behind the head of a sequence. -/
theorem toCbor_eq_ok_iff {tx : Transaction} {bs : Bytes} : Codec.toCbor tx = .ok bs ↔
    ∃ body witnesses data, Codec.toCbor tx.body = .ok body ∧
      Codec.toCbor tx.witnessSet = .ok witnesses ∧
      encode (auxiliaryTerm tx.auxiliaryData) = .ok data ∧
      bs = 0x84 :: (body ++ (witnesses ++ ((if tx.valid then 0xF5 else 0xF4) :: data))) := by
  have hseq : Codec.toCbor tx = .ok bs ↔ encode tx.toTerm = .ok bs := Iff.rfl
  have hbool : encode (.bool tx.valid) = .ok [if tx.valid then 0xF5 else 0xF4] := by
    cases tx.valid <;> rfl
  rw [hseq, toTerm_eq, encode_seq_eq_ok_iff]
  simp only [forall₂_quadruple_left_iff, hbool, Except.ok.injEq]
  constructor
  · rintro ⟨head, _, hhead, ⟨body, witnesses, _, data, rfl, hbody, hwitnesses, rfl, hdata⟩, rfl⟩
    have hfour : some [0x84] = some head := hhead
    obtain rfl := Option.some.inj hfour
    refine ⟨body, witnesses, data, hbody, hwitnesses, hdata, ?_⟩
    simp
  · rintro ⟨body, witnesses, data, hbody, hwitnesses, hdata, rfl⟩
    refine ⟨[0x84], _, rfl, ⟨body, witnesses, _, data, rfl, hbody, hwitnesses, rfl, hdata⟩, ?_⟩
    simp

theorem reordered_toTerm_iff {tx : Transaction} {t : Term} :
    Reordered tx.toTerm t ↔ ∃ b w a, t = .seq [b, w, .bool tx.valid, a] ∧
      Reordered tx.body.toTerm b ∧ Reordered tx.witnessSet.toTerm w ∧
      Reordered (auxiliaryTerm tx.auxiliaryData) a := by
  simp only [toTerm_eq, Reordered.quadruple_left_iff, Reordered.bool_left_iff]
  constructor
  · rintro ⟨b, w, _, a, rfl, hb, hw, rfl, ha⟩
    exact ⟨b, w, a, rfl, hb, hw, ha⟩
  · rintro ⟨b, w, a, rfl, hb, hw, ha⟩
    exact ⟨b, w, _, a, rfl, hb, hw, rfl, ha⟩

theorem reordered_auxiliaryTerm_iff {o p : Option AuxiliaryData} :
    Reordered (auxiliaryTerm o) (auxiliaryTerm p) ↔ Option.Rel AuxiliaryData.Same o p := by
  cases o <;> cases p
  case none.none => exact iff_of_true (.refl _) .none
  case none.some => simp [auxiliaryTerm, AuxiliaryData.toTerm]
  case some.none => simp [auxiliaryTerm, AuxiliaryData.toTerm, Reordered.map_left_iff]
  case some.some => exact AuxiliaryData.reordered_iff_same.trans Option.rel_some_some.symm

/-- Two transactions have the same content in every field. -/
structure SameContent (tx tx' : Transaction) : Prop where
  body : ∀ f, tx.body.AgreesOn tx'.body f
  witnessSet : ∀ f, tx.witnessSet.AgreesOn tx'.witnessSet f
  valid : tx.valid = tx'.valid
  auxiliaryData : Option.Rel AuxiliaryData.Same tx.auxiliaryData tx'.auxiliaryData

theorem sameContent_of_reordered {tx tx' : Transaction} (h : Reordered tx.toTerm tx'.toTerm) :
    tx.SameContent tx' := by
  obtain ⟨b, w, a, heq, hb, hw, ha⟩ := reordered_toTerm_iff.1 h
  simp only [toTerm_eq, Term.seq.injEq, List.cons.injEq, Term.bool.injEq, and_true] at heq
  obtain ⟨rfl, rfl, hvalid, rfl⟩ := heq
  exact ⟨TxBody.reordered_iff_agreesOn.1 hb, WitnessSet.reordered_iff_agreesOn.1 hw, hvalid.symm,
    reordered_auxiliaryTerm_iff.1 ha⟩

/-! ## Nodes -/

/-- The terms that a transaction keeps as they are, metadata among them. -/
def keptTerms (tx : Transaction) : List Term :=
  tx.body.keptTerms ++ tx.witnessSet.keptTerms
    ++ tx.auxiliaryData.toList.flatMap fun a => a.entries.map Prod.snd

/-- What is asked of nodes holds of a transaction if it holds of the withdrawals and of the terms
that are kept. -/
theorem everywhere_toTerm {P : Term → Prop} (hP : LedgerNodes P) {tx : Transaction}
    (hwithdrawals : ∀ ws ∈ tx.body.withdrawals, P (BodyEntry.withdrawals ws).content)
    (hkept : ∀ t ∈ tx.keptTerms, Everywhere P t) : Everywhere P tx.toTerm := by
  obtain ⟨hbefore, hmetadata⟩ := List.forall_mem_append.1 hkept
  obtain ⟨hbody, hwitnesses⟩ := List.forall_mem_append.1 hbefore
  have hauxiliary : Everywhere P (auxiliaryTerm tx.auxiliaryData) := by
    cases hdata : tx.auxiliaryData with
    | none => exact .leaf hP.null rfl
    | some a =>
      refine (AuxiliaryData.everywhere_toTerm_iff hP.int).2
        ⟨hP.map _ a.keysApart, fun e he => hmetadata e.2 ?_⟩
      rw [hdata, Option.toList_some, List.flatMap_singleton]
      exact List.mem_map_of_mem he
  have hbool : Everywhere P (.bool tx.valid) := .leaf (hP.bool tx.valid) rfl
  exact hP.everywhere_seq (List.forall_mem_cons.2
    ⟨tx.body.everywhere_toTerm hP hwithdrawals hbody, List.forall_mem_cons.2
      ⟨tx.witnessSet.everywhere_toTerm hP hwitnesses, List.forall_mem_cons.2
        ⟨hbool, List.forall_mem_singleton.2 hauxiliary⟩⟩⟩)

/-! ## Reading -/

theorem exists_auxiliaryOfTerm (path : Path) {o : Option AuxiliaryData} {t : Term}
    (h : Reordered (auxiliaryTerm o) t) :
    ∃ p, auxiliaryOfTerm path t = .ok p ∧ auxiliaryTerm p = t := by
  cases o with
  | none =>
    rw [Reordered.null_left_iff.1 h]
    exact ⟨none, rfl, rfl⟩
  | some a =>
    obtain ⟨b, hread, rfl⟩ := Codec.Readable.exists_ofTerm (α := AuxiliaryData) path h
    exact ⟨some b, congrArg (some <$> ·) hread, rfl⟩

/-- A transaction is read back, with the marks of the lists that are present. -/
theorem exists_ofTerm (path : Path) {tx : Transaction} (htx : tx.body.Decodable) {t : Term}
    (h : Reordered tx.toTerm t) :
    ∃ tx', ofTerm path t = .ok tx' ∧ Reordered t tx'.toTerm ∧
      FieldEntry.RestrictsTo tx.body.taggedSets tx'.body.taggedSets tx.body.HasList ∧
      FieldEntry.RestrictsTo tx.witnessSet.taggedSets tx'.witnessSet.taggedSets
        tx.witnessSet.HasList := by
  obtain ⟨b, w, a, rfl, hb, hw, ha⟩ := reordered_toTerm_iff.1 h
  obtain ⟨body, hbody, hbodyback, hbodymarks⟩ := TxBody.exists_ofTerm (.item path 0) htx hb
  obtain ⟨witnesses, hwitnesses, hback, hmarks⟩ := WitnessSet.exists_ofTerm (.item path 1) hw
  obtain ⟨data, hdata, rfl⟩ := exists_auxiliaryOfTerm (.item path 3) ha
  refine ⟨⟨body, witnesses, tx.valid, data⟩, ?_, ?_, hbodymarks, hmarks⟩
  · show (do
      let body ← TxBody.ofTerm (.item path 0) b
      let witnessSet ← WitnessSet.ofTerm (.item path 1) w
      let valid ← (Term.bool tx.valid).asBool (.item path 2)
      let auxiliaryData ← auxiliaryOfTerm (.item path 3) (auxiliaryTerm data)
      return (⟨body, witnessSet, valid, auxiliaryData⟩ : Transaction)) = _
    rw [hbody, hwitnesses, hdata]
    rfl
  · rw [toTerm_eq]
    exact .seq (.cons hbodyback (.cons hback (.cons (.refl _) (.cons (.refl _) .nil))))

/-- Transactions that differ in the order of entries have the same id. -/
theorem id_of_reordered {tx tx' : Transaction} (h : Reordered tx.toTerm tx'.toTerm) {bs : Bytes}
    (hbs : Codec.toCbor tx = .ok bs) : ∃ id, tx.id = .ok id ∧ tx'.id = .ok id := by
  obtain ⟨x, -, -, hx, -⟩ := toCbor_eq_ok_iff.1 hbs
  have hx' : Codec.toCbor tx'.body = .ok x :=
    encode_of_reordered (TxBody.reordered_iff_agreesOn.2 (sameContent_of_reordered h).body) hx
  refine ⟨.hash x, ?_, ?_⟩
  · rw [Transaction.id, TxBody.hash, hx]
    rfl
  · rw [Transaction.id, TxBody.hash, hx']
    rfl

/-- A transaction survives being written and read: its numbers, its kept terms and its sizes being
such as decoding accepts, it is read back with the same bytes and the same id, with the same content
in every field, and with the marks of the lists that it has. -/
theorem ofCbor_toCbor {tx : Transaction} (hnumbers : tx.body.Decodable)
    (hkept : ∀ t ∈ tx.keptTerms, Everywhere FaithfulAt t ∧ Everywhere KeysApartAt t)
    (hfits : Everywhere (FitsAt maxLength) tx.toTerm) :
    ∃ bs tx', Codec.toCbor tx = .ok bs ∧ Codec.ofCbor bs = .ok tx' ∧ Codec.toCbor tx' = .ok bs ∧
      (∃ id, tx.id = .ok id ∧ tx'.id = .ok id) ∧ tx.SameContent tx' ∧
      FieldEntry.RestrictsTo tx.body.taggedSets tx'.body.taggedSets tx.body.HasList ∧
      FieldEntry.RestrictsTo tx.witnessSet.taggedSets tx'.witnessSet.taggedSets
        tx.witnessSet.HasList := by
  have hfaithful : Everywhere FaithfulAt tx.toTerm :=
    everywhere_toTerm ledgerNodes_faithfulAt (fun _ _ => trivial) fun t ht => (hkept t ht).1
  have hkeys : Everywhere KeysApartAt tx.toTerm :=
    everywhere_toTerm ledgerNodes_keysApartAt hnumbers.keysApart fun t ht => (hkept t ht).2
  obtain ⟨bs, hbs⟩ := (exists_encode_iff (hfaithful.imp fun _ => FaithfulAt.decodedAt)).2
    ⟨hfits.imp fun _ => FitsAt.mono (by decide), hkeys⟩
  -- Decoding gives the term with its map entries in the order of their keys, and every field is
  -- read from that.
  obtain ⟨t, ht, hreordered⟩ := exists_decode .input hfaithful hfits hbs
  obtain ⟨tx', htx', hback, hbodymarks, hmarks⟩ := exists_ofTerm (Codec.path Transaction) hnumbers
    hreordered
  have hsame : Reordered tx.toTerm tx'.toTerm := hreordered.trans hback
  have hread : Codec.ofCbor bs = .ok tx' := by
    rw [Codec.ofCbor, ht, ok_bind]
    exact htx'
  exact ⟨bs, tx', hbs, hread, encode_of_reordered hsame hbs, id_of_reordered hsame hbs,
    sameContent_of_reordered hsame, hbodymarks, hmarks⟩

/-- A transaction that lists withdrawals, certificates and metadata in descending order, and has
signers marked as a set but no signers. -/
def delegation : Transaction where
  body := {
    inputs := [⟨⟨List.replicate 32 7, rfl⟩, 1, by decide⟩]
    outputs := [⟨[0x61, 1], .ofCoin 5000000, none⟩]
    fee := 170000
    certificates := some (.map [(.int 1, .tag 258 (.seq [])), (.int 0, .null)])
    withdrawals := some [⟨[0xE1], 9⟩, ⟨[0xE0], 0⟩]
    networkId := some 1
    taggedSets := ⟨[.integer 14, .integer 0], by decide⟩ }
  witnessSet := { nativeScripts := some [.seq [.int 0, .bytes [1]]] }
  valid := false
  auxiliaryData := some
    ⟨⟨[(674, .map [(.text "to", .int 7), (.text "by", .int (-1))])], by decide⟩, by decide⟩

theorem ofCbor_toCbor_delegation : delegation.body.Decodable ∧
    (∀ t ∈ delegation.keptTerms, Everywhere FaithfulAt t ∧ Everywhere KeysApartAt t) ∧
    Everywhere (FitsAt maxLength) delegation.toTerm ∧
    ∃ bs tx, Codec.toCbor delegation = .ok bs ∧ Codec.ofCbor bs = .ok tx ∧
      Codec.toCbor tx = .ok bs ∧ (∃ id, delegation.id = .ok id ∧ tx.id = .ok id) ∧
      delegation.SameContent tx ∧
      FieldEntry.RestrictsTo delegation.body.taggedSets tx.body.taggedSets
        delegation.body.HasList ∧
      FieldEntry.RestrictsTo delegation.witnessSet.taggedSets tx.witnessSet.taggedSets
        delegation.witnessSet.HasList := by
  have hnumbers : delegation.body.Decodable := by constructor <;> decide
  have hkept : ∀ t ∈ delegation.keptTerms, Everywhere FaithfulAt t ∧ Everywhere KeysApartAt t :=
    List.forall_mem_cons.2 ⟨⟨by decide, keysApart_of_canonical rfl⟩, List.forall_mem_cons.2
      ⟨⟨by decide, keysApart_of_canonical rfl⟩, List.forall_mem_singleton.2
        ⟨by decide, keysApart_of_canonical rfl⟩⟩⟩
  have hfits : Everywhere (FitsAt maxLength) delegation.toTerm := by decide
  exact ⟨hnumbers, hkept, hfits, ofCbor_toCbor hnumbers hkept hfits⟩

end Transaction

end Eutxo

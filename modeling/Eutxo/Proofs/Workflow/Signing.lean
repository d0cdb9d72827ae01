import Eutxo.Proofs.Tx.Signing
import Eutxo.Proofs.Workflow.Basic
import Eutxo.Workflow.Signing

/-!
# Signing and verifying

A body is signed if there is a key and the body commits to the auxiliary data
that goes along.  The transaction verifies exactly if the keys cover the required
signers, and so does what is read back from its bytes.
-/

namespace Eutxo.Workflow

open Traversal Term Cbor

variable {σ : Type} {world world' : World σ} {body : TxBody} {keys : List SigningKey}
  {auxiliaryData : Option AuxiliaryData} {tx : Transaction}

/-- The body names the hash of the auxiliary data, if there is any. -/
def Committed (body : TxBody) (auxiliaryData : Option AuxiliaryData) : Prop :=
  ∀ a ∈ auxiliaryData, ∃ hash, a.hash = .ok hash ∧ body.auxiliaryDataHash = some hash

theorem returns_requireCommitment_bind_iff {id : TransactionId}
    {f : PUnit → Workflow σ Transaction} :
    Returns (auxiliaryData.forM (requireCommitment body id) >>= f) world tx ↔
      Committed body auxiliaryData ∧ Returns (f ⟨⟩) world tx := by
  cases auxiliaryData with
  | none =>
    show Returns (f ⟨⟩) world tx ↔ _
    simp [Committed]
  | some a =>
    show Returns (requireCommitment body id a >>= f) world tx ↔ _
    have hstep : ∀ hash, Returns ((if body.auxiliaryDataHash ≠ some hash
        then fail (.uncommitted id.bytes hash.bytes) else pure ()) >>= f) world tx ↔
          body.auxiliaryDataHash = some hash ∧ Returns (f ⟨⟩) world tx := by
      intro hash
      split_ifs with hne
      · simp [hne]
      · simp [not_not.1 hne]
    rw [requireCommitment, bind_assoc, returns_expect_bind_iff]
    simp only [hstep, Committed, Option.mem_def, Option.some.injEq, forall_eq', ← and_assoc,
      exists_and_right]

/-- Signing returns the one transaction that carries a witness of each key, if there is a key and
the body commits to the auxiliary data. -/
theorem returns_signTransaction_iff : Returns (signTransaction body keys auxiliaryData) world tx ↔
    ∃ id, body.hash = .ok id ∧ keys ≠ [] ∧ Committed body auxiliaryData ∧
      tx = ⟨body, { vkeyWitnesses := some (keys.map (SigningKey.witness id)) }, true,
        auxiliaryData⟩ := by
  rw [signTransaction, returns_expect_bind_iff]
  refine exists_congr fun id => and_congr_right fun hid => ?_
  cases keys with
  | nil => simp
  | cons k ks =>
    have hsign := TxBody.mapM_sign hid (k :: ks)
    have hwitnesses :
        ((k :: ks).map (SigningKey.witness id)).foldl WitnessSet.addVkeyWitness .empty =
          { vkeyWitnesses := some ((k :: ks).map (SigningKey.witness id)) } :=
      WitnessSet.foldl_addVkeyWitness .empty (List.cons_ne_nil _ _)
    simp only [List.isEmpty_cons, Bool.false_eq_true, if_false, ne_eq, reduceCtorEq,
      not_false_eq_true, true_and, returns_requireCommitment_bind_iff, returns_log_bind_iff,
      returns_expect_bind_iff, hsign, Except.ok.injEq, exists_eq_left', returns_pure_iff,
      hwitnesses, eq_comm (b := tx)]

theorem signedBy_of_returns (h : Returns (signTransaction body keys auxiliaryData) world tx) :
    tx.body = body ∧ tx.auxiliaryData = auxiliaryData ∧
      ∃ id, body.hash = .ok id ∧ tx.SignedBy id keys := by
  obtain ⟨id, hid, hkeys, -, rfl⟩ := returns_signTransaction_iff.1 h
  exact ⟨rfl, rfl, id, hid, hid, rfl, hkeys⟩

theorem verify_of_returns (h : Returns (signTransaction body keys auxiliaryData) world tx)
    (haccepted : ∀ id, body.hash = .ok id → ∀ k ∈ keys, k.Accepted id.bytes) :
    ∃ verdict, tx.verify = .ok verdict ∧ (verdict = true ↔
      ∀ s ∈ body.requiredSigners.getD [], ∃ k ∈ keys, k.verificationKey.hash = s) := by
  obtain ⟨hbody, -, id, hid, hsigned⟩ := signedBy_of_returns h
  rw [← hbody]
  exact hsigned.verify_eq (haccepted id hid)

/-- A body that can be written is signed exactly if there is a key and the body commits to the
auxiliary data.  The transaction carries one witness of each key, in their order, and verifies
exactly if the keys cover the required signers, whatever their order and however often they come.
Read back from its bytes it verifies as it did, with the same id, unless a text that the body keeps
begins with a byte order mark. -/
theorem signTransaction_verify (body : TxBody) (keys : List SigningKey)
    (auxiliaryData : Option AuxiliaryData) (hbody : ∃ x, Codec.toCbor body = .ok x)
    (haccepted : ∀ id, body.hash = .ok id → ∀ k ∈ keys, k.Accepted id.bytes) (world : World σ) :
    ((∃ tx, Returns (signTransaction body keys auxiliaryData) world tx) ↔
        keys ≠ [] ∧ Committed body auxiliaryData) ∧
      ∀ tx, Returns (signTransaction body keys auxiliaryData) world tx →
        tx.body = body ∧ tx.auxiliaryData = auxiliaryData ∧
        (∃ id, body.hash = .ok id ∧ tx.witnessSet =
          { vkeyWitnesses := some (keys.map fun k => ⟨k.verificationKey, k.sign id.bytes⟩) }) ∧
        (∃ verdict, tx.verify = .ok verdict ∧ (verdict = true ↔
          ∀ s ∈ body.requiredSigners.getD [], ∃ k ∈ keys, k.verificationKey.hash = s)) ∧
        (∀ keys' world' tx', (∀ k, k ∈ keys' ↔ k ∈ keys) →
          Returns (signTransaction body keys' auxiliaryData) (world' : World σ) tx' →
            tx'.verify = tx.verify) ∧
        ((∀ t ∈ body.keptTerms, Everywhere UnmarkedAt t) →
          ∀ (out : Bytes) (tx' : Transaction), Codec.toCbor tx = .ok out →
            Codec.ofCbor out = .ok tx' → tx'.id = tx.id ∧ tx'.verify = tx.verify) := by
  refine ⟨?_, fun tx htx => ?_⟩
  · constructor
    · rintro ⟨tx, htx⟩
      obtain ⟨id, -, hkeys, hcommitted, -⟩ := returns_signTransaction_iff.1 htx
      exact ⟨hkeys, hcommitted⟩
    · rintro ⟨hkeys, hcommitted⟩
      obtain ⟨x, hx⟩ := hbody
      have hid : body.hash = .ok (.hash x) := bind_eq_ok.2 ⟨x, hx, rfl⟩
      exact ⟨_, returns_signTransaction_iff.2 ⟨.hash x, hid, hkeys, hcommitted, rfl⟩⟩
  · obtain ⟨hsame, hauxiliary, id, hid, hsigned⟩ := signedBy_of_returns htx
    obtain ⟨verdict, hverdict, hcovered⟩ := verify_of_returns htx haccepted
    refine ⟨hsame, hauxiliary, ⟨id, hid, hsigned.witnessSet_eq⟩, ⟨verdict, hverdict, hcovered⟩,
      fun keys' world' tx' hkeys htx' => ?_, fun hunmarked out tx' hout hread => ?_⟩
    · obtain ⟨verdict', hverdict', hcovered'⟩ :=
        verify_of_returns htx' fun id hid k hk => haccepted id hid k ((hkeys k).1 hk)
      simp only [hkeys] at hcovered'
      rw [hverdict, hverdict', Bool.eq_iff_iff.2 (hcovered'.trans hcovered.symm)]
    · -- The witnesses keep no terms, so what may come back changed is in the body alone.
      have hback := Transaction.readBack_of_ofCbor hout hread
      have hkept : tx.witnessSet.keptTerms = [] := by
        rw [hsigned.witnessSet_eq]
        rfl
      have hid' : tx'.id = tx.id :=
        (hback.id_eq (hsame ▸ hunmarked) hsigned.id_eq).trans hsigned.id_eq.symm
      exact ⟨hid', Transaction.verify_congr hid' (hback.vkeyWitnesses_eq hkept)
        hback.requiredSigners_eq⟩

/-- A body that asks for the signature of one key and keeps a text. -/
def countersigned : TxBody where
  inputs := []
  outputs := []
  fee := 0
  certificates := some (.text "a")
  requiredSigners := some [SigningKey.nines.verificationKey.hash]

theorem accepted_countersigned (id : TransactionId) (hid : countersigned.hash = .ok id) :
    ∀ k ∈ [SigningKey.nines], k.Accepted id.bytes := by
  have hrun : (do
      let id ← countersigned.hash
      return decide (SigningKey.nines.Accepted id.bytes)).toOption = some true := by decide +kernel
  rw [hid, ok_bind] at hrun
  simpa [pure, Except.pure, Except.toOption] using hrun

theorem signTransaction_verify_countersigned :
    (∃ x, Codec.toCbor countersigned = .ok x) ∧
      (∀ id, countersigned.hash = .ok id → ∀ k ∈ [SigningKey.nines], k.Accepted id.bytes) ∧
        ∃ tx, Returns (signTransaction countersigned [SigningKey.nines] none)
            (⟨(), []⟩ : World Unit) tx ∧ tx.verify = .ok true ∧
          ∀ (out : Bytes) (tx' : Transaction), Codec.toCbor tx = .ok out →
            Codec.ofCbor out = .ok tx' → tx'.verify = .ok true := by
  have hbody : ∃ x, Codec.toCbor countersigned = .ok x := ⟨_, rfl⟩
  have hunmarked : ∀ t ∈ countersigned.keptTerms, Everywhere UnmarkedAt t := by decide
  obtain ⟨hreturns, hverified⟩ :=
    signTransaction_verify _ _ none hbody accepted_countersigned (⟨(), []⟩ : World Unit)
  obtain ⟨tx, htx⟩ := hreturns.2 ⟨List.cons_ne_nil _ _, nofun⟩
  obtain ⟨-, -, -, ⟨verdict, hverdict, hcovered⟩, -, hback⟩ := hverified tx htx
  have hsigned : tx.verify = .ok true := by
    rw [hverdict, hcovered.2 (by simp [countersigned])]
  refine ⟨hbody, accepted_countersigned, tx, htx, hsigned, fun out tx' hout hread => ?_⟩
  exact (hback hunmarked out tx' hout hread).2.trans hsigned

end Eutxo.Workflow

import Eutxo.Proofs.Key
import Eutxo.Proofs.Tx.Reread
import Eutxo.Tx.Signing

/-!
# Signed transactions

Witnesses are added behind those that are there.  A transaction whose witnesses
are the signatures of some keys verifies exactly if each required signer is one
of the keys.
-/

namespace Eutxo

open Traversal

/-- Adding a witness touches no other field. -/
theorem WitnessSet.addVkeyWitness_eq (w : WitnessSet) (witness : VkeyWitness) :
    w.addVkeyWitness witness =
      { w with vkeyWitnesses := some (w.vkeyWitnesses.getD [] ++ [witness]) } := by
  rw [addVkeyWitness, FieldSet.ofList_keys]

/-- Witnesses are added one after the other and nothing else is touched. -/
theorem WitnessSet.foldl_addVkeyWitness (w : WitnessSet) {ws : List VkeyWitness} (hws : ws ≠ []) :
    ws.foldl addVkeyWitness w =
      { w with vkeyWitnesses := some (w.vkeyWitnesses.getD [] ++ ws) } := by
  induction ws generalizing w with
  | nil => exact absurd rfl hws
  | cons witness ws ih =>
    rw [List.foldl_cons]
    cases ws with
    | nil => exact addVkeyWitness_eq w witness
    | cons next ws =>
      rw [ih _ (List.cons_ne_nil next ws), addVkeyWitness_eq]
      simp

/-- The witness that a key makes for the body with an id. -/
def SigningKey.witness (id : TransactionId) (k : SigningKey) : VkeyWitness :=
  ⟨k.verificationKey, k.sign id.bytes⟩

theorem TxBody.mapM_sign {b : TxBody} {id : TransactionId} (hid : b.hash = .ok id)
    (keys : List SigningKey) : keys.mapM b.sign = .ok (keys.map (SigningKey.witness id)) := by
  rw [mapM_eq_ok, List.forall₂_map_right_iff, List.forall₂_same]
  intro k _
  rw [TxBody.sign, hid]
  rfl

namespace Transaction

variable {tx tx' : Transaction} {id : TransactionId} {keys : List SigningKey}

/-- A transaction with key witnesses is verified by checking each of them, and then that each
required signer is among their keys. -/
theorem verify_eq {ws : List VkeyWitness} (hws : tx.witnessSet.vkeyWitnesses = some ws)
    (hne : ws ≠ []) (hid : tx.id = .ok id) :
    ∃ verdict, tx.verify = .ok verdict ∧ (verdict = true ↔
      (∀ w ∈ ws, w.key.verify id.bytes w.signature = true) ∧
        ∀ s ∈ tx.body.requiredSigners.getD [], ∃ w ∈ ws, w.key.hash = s) := by
  obtain ⟨w, rest, rfl⟩ := List.exists_cons_of_ne_nil hne
  rw [verify, hws, Option.getD_some]
  simp only [hid, ok_bind]
  refine ⟨_, rfl, ?_⟩
  simp only [Bool.and_eq_true, List.all_eq_true, List.contains_iff_mem, List.mem_map]

/-- What a transaction verifies as depends on its id, its key witnesses and its required signers
alone. -/
theorem verify_congr (hid : tx'.id = tx.id)
    (hwitnesses : tx'.witnessSet.vkeyWitnesses = tx.witnessSet.vkeyWitnesses)
    (hsigners : tx'.body.requiredSigners = tx.body.requiredSigners) : tx'.verify = tx.verify := by
  rw [verify, verify, hid, hwitnesses, hsigners]

/-- The transaction carries the witnesses of some keys for its body, in their order, and nothing
else that justifies it. -/
structure SignedBy (tx : Transaction) (id : TransactionId) (keys : List SigningKey) : Prop where
  id_eq : tx.id = .ok id
  witnessSet_eq : tx.witnessSet = { vkeyWitnesses := some (keys.map (SigningKey.witness id)) }
  keys_ne_nil : keys ≠ []

/-- A signed transaction verifies exactly if each required signer is one of the keys. -/
theorem SignedBy.verify_eq (h : tx.SignedBy id keys)
    (haccepted : ∀ k ∈ keys, k.Accepted id.bytes) :
    ∃ verdict, tx.verify = .ok verdict ∧ (verdict = true ↔
      ∀ s ∈ tx.body.requiredSigners.getD [], ∃ k ∈ keys, k.verificationKey.hash = s) := by
  have hne : keys.map (SigningKey.witness id) ≠ [] := mt List.map_eq_nil_iff.1 h.keys_ne_nil
  obtain ⟨verdict, hverify, hverdict⟩ :=
    Transaction.verify_eq (congrArg WitnessSet.vkeyWitnesses h.witnessSet_eq) hne h.id_eq
  have hmatch : ∀ w ∈ keys.map (SigningKey.witness id),
      w.key.verify id.bytes w.signature = true := by
    intro w hw
    obtain ⟨k, hk, rfl⟩ := List.mem_map.1 hw
    exact haccepted k hk
  have hsigners : ∀ s, (∃ w ∈ keys.map (SigningKey.witness id), w.key.hash = s) ↔
      ∃ k ∈ keys, k.verificationKey.hash = s := by
    intro s
    simp only [List.mem_map, exists_exists_and_eq_and]
    exact Iff.rfl
  refine ⟨verdict, hverify, hverdict.trans ((and_iff_right hmatch).trans ?_)⟩
  simp only [hsigners]

end Transaction

end Eutxo

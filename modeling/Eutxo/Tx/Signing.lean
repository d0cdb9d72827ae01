import Eutxo.Tx.Transaction

/-!
# Signing transactions

A witness signs the hash of a body.  A transaction verifies if it has key
witnesses, all of them match, and each required signer is among their keys.
-/

namespace Eutxo

/-- The witness of a key for a body. -/
def TxBody.sign (b : TxBody) (key : SigningKey) : Except Fault VkeyWitness := do
  let id ← b.hash
  return ⟨key.verificationKey, key.sign id.bytes⟩

/-- Whether a witness matches a body. -/
def TxBody.verify (b : TxBody) (w : VkeyWitness) : Except Fault Bool := do
  let id ← b.hash
  return w.key.verify id.bytes w.signature

/-- Whether the key witnesses of a transaction match its body and cover the required signers. -/
def Transaction.verify (tx : Transaction) : Except Fault Bool :=
  match tx.witnessSet.vkeyWitnesses.getD [] with
  | [] => .ok false
  | witnesses => do
    let id ← tx.id
    let signers := witnesses.map fun w => w.key.hash
    return witnesses.all (fun w => w.key.verify id.bytes w.signature)
      && (tx.body.requiredSigners.getD []).all fun s => signers.contains s

end Eutxo

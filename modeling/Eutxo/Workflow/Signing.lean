import Eutxo.Tx.Signing
import Eutxo.Workflow.Basic

/-!
# Signing workflow

A body is signed with each of some keys, in their order.  Auxiliary data can
go along only if the body commits to it.
-/

namespace Eutxo.Workflow

variable {σ : Type}

/-- Checks that a body commits to auxiliary data. -/
def requireCommitment (body : TxBody) (id : TransactionId) (a : AuxiliaryData) :
    Workflow σ Unit := do
  let hash ← expect a.hash
  if body.auxiliaryDataHash ≠ some hash then fail (.uncommitted id.bytes hash.bytes)

/-- Signs a body with each of the keys. -/
def signTransaction (body : TxBody) (keys : List SigningKey)
    (auxiliaryData : Option AuxiliaryData) : Workflow σ Transaction := do
  let id ← expect body.hash
  if keys.isEmpty then fail (.noKeys id.bytes)
  auxiliaryData.forM (requireCommitment body id)
  log .debug ("Signing " ++ id.toText ++ " with " ++ Text.ofNat keys.length ++ " key(s)")
  let witnesses ← expect (keys.mapM body.sign)
  log .info ("Signed transaction " ++ id.toText)
  return ⟨body, witnesses.foldl WitnessSet.addVkeyWitness .empty, true, auxiliaryData⟩

end Eutxo.Workflow

import Eutxo.Tx.Transaction
import Eutxo.Workflow.Chain

/-!
# Submission workflow

A transaction that names a network is submitted only if that is the configured
one.  The hash that the backend answers is the result, even if it is not the
hash of the transaction.
-/

namespace Eutxo.Workflow

variable {σ : Type}

/-- Checks that a transaction that names a network names the configured one. -/
def requireNetwork (config : Config) (id : TransactionId) (network : Int) : Workflow σ Unit :=
  if network ≠ config.network.id then
    fail (.networkMismatch id.bytes config.network (.ofInt network))
  else return ()

/-- Hands bytes to the backend, and notes in the log if it refuses them. -/
def send (chain : ChainBackend σ) (bytes : Bytes) : Workflow σ TransactionId :=
  tryCatch (query (chain.submit bytes)) fun h => do
    match h with
    | .failed f => if f.kind = .submit then log .error ("SubmitError: " ++ f.message)
    | .died _ => pure ()
    throw h

/-- Submits a transaction. -/
def submitTransaction (config : Config) (chain : ChainBackend σ) (tx : Transaction) :
    Workflow σ TransactionId := do
  let id ← expect tx.id
  tx.body.networkId.forM (requireNetwork config id)
  let bytes ← attempt .invalidOperation tx.submissionBytes
  log .info ("Submitting " ++ id.toText ++ " (" ++ Text.ofNat bytes.length ++ " bytes) to "
    ++ config.network.name)
  let submitted ← send chain bytes
  if submitted ≠ id then
    log .warning ("Backend reported id " ++ submitted.toText ++ " for " ++ id.toText)
  log .info ("Submitted transaction " ++ submitted.toText)
  return submitted

end Eutxo.Workflow

import Eutxo.Ledger.Identifier
import Eutxo.Workflow.Basic

/-!
# Chain backends

A chain backend answers queries for metadata and takes transactions.  Nothing
is assumed of it but that it has a state and answers from it.
-/

namespace Eutxo

/-- The metadata of a confirmed transaction under one label, as an indexer shows it. -/
structure MetadataEntry where
  label : Text
  json : Json

/-- A chain backend with states in `σ`. -/
structure ChainBackend (σ : Type) where
  /-- The metadata of a transaction; none if it has no metadata at all. -/
  fetchMetadata : TransactionId → σ → Except Halt (Option (List MetadataEntry)) × σ
  /-- Takes the bytes of a transaction and answers the hash it is known by. -/
  submit : Bytes → σ → Except Halt TransactionId × σ

end Eutxo

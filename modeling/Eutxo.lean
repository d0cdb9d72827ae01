import Eutxo.Cose.Envelope
import Eutxo.Key.File
import Eutxo.Metadata.NoSchema
import Eutxo.Proofs.Cbor.Canonicity
import Eutxo.Proofs.Tx.BodyBytes
import Eutxo.Record
import Eutxo.Text.Chunks
import Eutxo.Tx.Signing
import Eutxo.Workflow.Attestation
import Eutxo.Workflow.Signing
import Eutxo.Workflow.Submission
import Eutxo.Proofs.Ledger.Nodes
import Eutxo.Proofs.Ledger.Readback
import Eutxo.Proofs.Ledger.NormalForm
import Eutxo.Proofs.Ledger.Reachability
import Eutxo.Proofs.Tx.BodyContent
import Eutxo.Proofs.Cbor.Repair
import Eutxo.Proofs.Metadata.Auxiliary
import Eutxo.Proofs.Metadata.RoundTrip
import Eutxo.Proofs.Tx.BodyReadback
import Eutxo.Proofs.Tx.Stability
import Eutxo.Proofs.Workflow.Storage
import Eutxo.Proofs.Workflow.Signing
import Eutxo.Proofs.Record
import Eutxo.Proofs.Workflow.Submission
import Eutxo.Proofs.Workflow.Verdict
import Eutxo.Proofs.EntryOrder
import Eutxo.Proofs.Metadata.JsonCommitment
import Eutxo.Proofs.Metadata.JsonMembers
import Eutxo.Proofs.Metadata.JsonReadback
import Eutxo.Proofs.Tx.KeyOrder
import Eutxo.Proofs.Metadata.LabelStore
import Eutxo.Proofs.Metadata.JsonRepresentable
import Eutxo.Proofs.Key.File
import Eutxo.Proofs.Tx.Witnessing

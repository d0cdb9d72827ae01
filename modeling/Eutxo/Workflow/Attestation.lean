import Eutxo.Cose.Envelope
import Eutxo.Metadata.Auxiliary
import Eutxo.Text.Chunks
import Eutxo.Workflow.Chain

/-!
# Attested documents

A document is attested by putting the signed message of an envelope into
transaction metadata, under the configured label and the hash of the document.
The key is not put there: whoever verifies has to know it.
-/

namespace Eutxo

/-- The member of a document entry that holds the signed message. -/
def signatureMember : Text := "signature"

/-- The auxiliary data that attest a document: the hexadecimal text of the signed message, in chunks
that fit into metadata. -/
def attestation (label : Int) (document : Text) (envelope : Cose.Envelope) :
    Except Fault AuxiliaryData :=
  let chunks := (envelope.signature.chunks maxMetadatumSize).map Term.text
  AuxiliaryData.ofEntries
    [(label, .map [(.text document, .map [(.text signatureMember, .seq chunks)])])]

/-- What becomes of the verification of a document. -/
inductive Verdict where
  /-- The transaction has no metadata. -/
  | noMetadata
  /-- The transaction has no metadata under the label. -/
  | labelNotFound (label : Number)
  /-- The metadata do not name the document. -/
  | documentNotFound (document : Text)
  /-- The entry of the document has no signed message. -/
  | signatureMissing (document : Text)
  /-- The signed message verifies and has this text. -/
  | verified (payload : Text)
  /-- The signed message does not verify. -/
  | rejected (document : Text)
  deriving DecidableEq, Repr

namespace Attestation

/-- The entry of a document in the metadata under the label; null counts as none.  A member named
`__proto__` is never an entry. -/
def entryOf (document : Text) (json : Json) : Option Json :=
  if document = "__proto__" then none
  else
    match json.member? document with
    | some .null => none
    | entry => entry

/-- The text of a signed message: a string, or an array of strings to be joined. -/
def joinChunks : Json → Option Text
  | .string t => some t
  | .array items => Text.concat <$> items.mapM Json.string?
  | _ => none

/-- The signed message in the entry of a document. -/
def signatureOf (entry : Json) : Option Text := (entry.member? signatureMember).bind joinChunks

end Attestation

namespace Workflow

variable {σ : Type}

/-- Looks for the attestation of a document in the metadata of a transaction, and verifies it with a
given key. -/
def verifyDocument (config : Config) (chain : ChainBackend σ) (transaction : TransactionId)
    (document : Text) (key : VerificationKey) : Workflow σ Verdict := do
  let label := config.documentLabel.toText
  log .debug ("Fetching metadata of " ++ transaction.toText)
  match ← query (chain.fetchMetadata transaction) with
  | none =>
    log .info ("No metadata on " ++ transaction.toText)
    return .noMetadata
  | some metadata =>
    match metadata.find? fun e => e.label = label with
    | none =>
      log .info (transaction.toText ++ " has no " ++ label ++ " metadata label")
      return .labelNotFound config.documentLabel
    | some e =>
      match Attestation.entryOf document e.json with
      | none =>
        log .info ("Document " ++ document ++ " not found")
        return .documentNotFound document
      | some entry =>
        match Attestation.signatureOf entry with
        | none =>
          log .warning ("Document " ++ document ++ " has no signature attribute")
          return .signatureMissing document
        | some signature =>
          let keyText ← expect (Cose.Envelope.keyText key)
          let reading := Cose.Envelope.verify ⟨signature, some keyText⟩
          if reading.verified then
            log .info ("Document " ++ document ++ " verified")
            return .verified reading.message
          else
            log .warning ("Signature of document " ++ document ++ " does not verify")
            return .rejected document

end Workflow

end Eutxo

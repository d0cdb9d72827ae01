import Eutxo.Cose.Key
import Eutxo.Tx.Transaction

/-!
# Records

A record is a value of any of the ledger types.  Records of different types are
never equal, even where they are written as the same bytes.
-/

namespace Eutxo

/-- The ledger types. -/
inductive RecordKind where
  | identifier (kind : IdentifierKind)
  | assetName
  | asset
  | multiAsset
  | value
  | input
  | output
  | body
  | vkeyWitness
  | witnessSet
  | transaction
  | auxiliaryData
  | verificationKey
  | signingKey
  | signature
  | message
  | coseKey
  deriving DecidableEq, Repr

/-- A value of any of the ledger types. -/
inductive Record where
  | identifier (kind : IdentifierKind) (i : Identifier kind)
  | assetName (n : AssetName)
  | asset (a : Asset)
  | multiAsset (m : MultiAsset)
  | value (v : Value)
  | input (i : TxInput)
  | output (o : TxOutput)
  | body (b : TxBody)
  | vkeyWitness (w : VkeyWitness)
  | witnessSet (w : WitnessSet)
  | transaction (tx : Transaction)
  | auxiliaryData (a : AuxiliaryData)
  | verificationKey (k : VerificationKey)
  | signingKey (k : SigningKey)
  | signature (s : Signature)
  | message (m : Cose.Message)
  | coseKey (k : Cose.Key)

namespace RecordKind

/-- The name of a ledger type. -/
def name : RecordKind → Text
  | .identifier kind => kind.name
  | .assetName => "AssetName"
  | .asset => "Asset"
  | .multiAsset => "MultiAsset"
  | .value => "Value"
  | .input => "TransactionInput"
  | .output => "TransactionOutput"
  | .body => "TransactionBody"
  | .vkeyWitness => "VerificationKeyWitness"
  | .witnessSet => "TransactionWitnessSet"
  | .transaction => "Transaction"
  | .auxiliaryData => "AuxiliaryData"
  | .verificationKey => "VerificationKey"
  | .signingKey => "SigningKey"
  | .signature => "Signature"
  | .message => "CoseSign1"
  | .coseKey => "CoseKey"

/-- The kinds of hashes. -/
def identifierKinds : List IdentifierKind :=
  [.transaction, .script, .verificationKey, .datum, .auxiliaryData, .scriptData]

/-- The ledger types. -/
def all : List RecordKind :=
  identifierKinds.map .identifier ++
    [.assetName, .asset, .multiAsset, .value, .input, .output, .body, .vkeyWitness, .witnessSet,
      .transaction, .auxiliaryData, .verificationKey, .signingKey, .signature, .message, .coseKey]

/-- The ledger type of a name; a policy id is the hash of a script. -/
def ofName? (t : Text) : Option RecordKind :=
  if t = "PolicyId" then some (.identifier .script) else all.find? fun k => k.name = t

/-- The path under which a record is reported when the caller gives none. -/
def path : RecordKind → Path
  | .identifier kind => Codec.path (Identifier kind)
  | .assetName => Codec.path AssetName
  | .asset => Codec.path Asset
  | .multiAsset => Codec.path MultiAsset
  | .value => Codec.path Value
  | .input => Codec.path TxInput
  | .output => Codec.path TxOutput
  | .body => Codec.path TxBody
  | .vkeyWitness => Codec.path VkeyWitness
  | .witnessSet => Codec.path WitnessSet
  | .transaction => Codec.path Transaction
  | .auxiliaryData => Codec.path AuxiliaryData
  | .verificationKey => Codec.path VerificationKey
  | .signingKey => Codec.path SigningKey
  | .signature => Codec.path Signature
  | .message => Codec.path Cose.Message
  | .coseKey => Codec.path Cose.Key

end RecordKind

namespace Record

/-- The type of a record. -/
def kind : Record → RecordKind
  | .identifier kind _ => .identifier kind
  | .assetName _ => .assetName
  | .asset _ => .asset
  | .multiAsset _ => .multiAsset
  | .value _ => .value
  | .input _ => .input
  | .output _ => .output
  | .body _ => .body
  | .vkeyWitness _ => .vkeyWitness
  | .witnessSet _ => .witnessSet
  | .transaction _ => .transaction
  | .auxiliaryData _ => .auxiliaryData
  | .verificationKey _ => .verificationKey
  | .signingKey _ => .signingKey
  | .signature _ => .signature
  | .message _ => .message
  | .coseKey _ => .coseKey

/-- The term of a record. -/
def toTerm : Record → Term
  | .identifier _ i => Codec.toTerm i
  | .assetName n => Codec.toTerm n
  | .asset a => Codec.toTerm a
  | .multiAsset m => Codec.toTerm m
  | .value v => Codec.toTerm v
  | .input i => Codec.toTerm i
  | .output o => Codec.toTerm o
  | .body b => Codec.toTerm b
  | .vkeyWitness w => Codec.toTerm w
  | .witnessSet w => Codec.toTerm w
  | .transaction tx => Codec.toTerm tx
  | .auxiliaryData a => Codec.toTerm a
  | .verificationKey k => Codec.toTerm k
  | .signingKey k => Codec.toTerm k
  | .signature s => Codec.toTerm s
  | .message m => Codec.toTerm m
  | .coseKey k => Codec.toTerm k

/-- The record of a type that a term spells. -/
def ofTerm (path : Path) (t : Term) : RecordKind → Except Fault Record
  | .identifier kind => do return .identifier kind (← Codec.ofTerm path t)
  | .assetName => do return .assetName (← Codec.ofTerm path t)
  | .asset => do return .asset (← Codec.ofTerm path t)
  | .multiAsset => do return .multiAsset (← Codec.ofTerm path t)
  | .value => do return .value (← Codec.ofTerm path t)
  | .input => do return .input (← Codec.ofTerm path t)
  | .output => do return .output (← Codec.ofTerm path t)
  | .body => do return .body (← Codec.ofTerm path t)
  | .vkeyWitness => do return .vkeyWitness (← Codec.ofTerm path t)
  | .witnessSet => do return .witnessSet (← Codec.ofTerm path t)
  | .transaction => do return .transaction (← Codec.ofTerm path t)
  | .auxiliaryData => do return .auxiliaryData (← Codec.ofTerm path t)
  | .verificationKey => do return .verificationKey (← Codec.ofTerm path t)
  | .signingKey => do return .signingKey (← Codec.ofTerm path t)
  | .signature => do return .signature (← Codec.ofTerm path t)
  | .message => do return .message (← Codec.ofTerm path t)
  | .coseKey => do return .coseKey (← Codec.ofTerm path t)

/-- The canonical bytes of a record. -/
def toCbor (r : Record) : Except Fault Bytes := Cbor.encode r.toTerm

/-- The record of a type that canonical or other acceptable bytes spell. -/
def ofCbor (kind : RecordKind) (bs : Bytes) : Except Fault Record := do
  let term ← Cbor.decode .input bs
  ofTerm kind.path term kind

/-- The record of a type whose bytes a text spells in hexadecimal. -/
def ofCborHex (kind : RecordKind) (t : Text) : Except Fault Record := do
  ofCbor kind (← parseHex t)

/-- The record of a type that holds nothing but given bytes; other types have no such records. -/
def ofBytes? (bs : Bytes) : RecordKind → Option (Except Fault Record)
  | .identifier kind => some do return .identifier kind (← Identifier.ofBytes bs)
  | .assetName => some do return .assetName (← AssetName.ofBytes bs)
  | .verificationKey => some do return .verificationKey (← VerificationKey.ofBytes bs)
  | .signingKey => some do return .signingKey (← SigningKey.ofBytes bs)
  | .signature => some do return .signature (← Signature.ofBytes bs)
  | _ => none

/-- The bytes of a record that holds nothing else and may be shown. -/
def bytes? : Record → Option Bytes
  | .identifier _ i => some i.bytes
  | .assetName n => some n.bytes
  | .verificationKey k => some k.bytes
  | .signature s => some s.bytes
  | _ => none

/-- The written form of a record, if its type has one. -/
def toText? : Record → Option Text
  | .identifier _ i => some i.toText
  | .assetName n => some n.toText
  | .input i => some i.toText
  | .signingKey k => some k.toText
  | _ => none

/-- Whether two records have one type and the same canonical bytes.  Records of different types are
told apart without being written. -/
def equals (a b : Record) : Except Fault Bool :=
  if a.kind = b.kind then do
    let x ← a.toCbor
    let y ← b.toCbor
    return x = y
  else .ok false

/-- Whether two records, which both have to be written, are equal. -/
def equalsWritten (a b : Record) : Except Fault Bool := do
  let x ← a.toCbor
  let y ← b.toCbor
  return a.kind = b.kind ∧ x = y

/-- The number of different records in a list. -/
def countDistinct (rs : List Record) : Except Fault Nat := do
  let written ← rs.mapM fun r => do return (r.kind, ← r.toCbor)
  return (firstOccurrences written).length

/-- What a record is compared with: another record, or plain data. -/
inductive Operand where
  | record (r : Record)
  | plain (j : Json)

/-- The plain data that an operand is. -/
def Operand.plain? : Operand → Option Json
  | .record _ => none
  | .plain j => some j

/-- Whether a bundle is covered by another of its type.  Bundles are comparable with nothing else;
records that are no bundles are not compared at all. -/
def coveredBy? : Record → Operand → Option (Except Fault Bool)
  | .asset a, .record (.asset b) => some (.ok (a.coveredBy b))
  | .multiAsset a, .record (.multiAsset b) => some (.ok (a.coveredBy b))
  | .value a, .record (.value b) => some (.ok (a.coveredBy b))
  | .asset _, o => some (.error (.incomparable .asset o.plain?))
  | .multiAsset _, o => some (.error (.incomparable .multiAsset o.plain?))
  | .value _, o => some (.error (.incomparable .value o.plain?))
  | _, _ => none

end Record

end Eutxo

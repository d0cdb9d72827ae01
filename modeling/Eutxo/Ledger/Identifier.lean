import Eutxo.Hash.Blake2b
import Eutxo.Ledger.Codec

/-!
# Hashes and asset names

A hash has the size of its kind, and hashes of different kinds are different
types even where their sizes agree.  An asset name is any byte string of up to
thirty-two bytes.
-/

namespace Eutxo

/-- A hash of a kind. -/
structure Identifier (kind : IdentifierKind) where
  bytes : Bytes
  length_bytes : bytes.length = kind.size
  deriving DecidableEq, Repr

/-- The hash of a transaction body, by which the transaction is known. -/
abbrev TransactionId := Identifier .transaction

/-- The hash of a script. -/
abbrev ScriptHash := Identifier .script

/-- The hash of the script that governs a minting policy. -/
abbrev PolicyId := ScriptHash

/-- The hash of a verification key. -/
abbrev VerificationKeyHash := Identifier .verificationKey

/-- The hash of a datum. -/
abbrev DatumHash := Identifier .datum

/-- The hash of auxiliary data. -/
abbrev AuxiliaryDataHash := Identifier .auxiliaryData

/-- The hash of the script data of a transaction. -/
abbrev ScriptDataHash := Identifier .scriptData

/-- The name under which a hash of a kind is reported. -/
def IdentifierKind.path : IdentifierKind → Text
  | .transaction => "transaction_id"
  | .script => "script_hash"
  | .verificationKey => "verification_key_hash"
  | .datum => "datum_hash"
  | .auxiliaryData => "auxiliary_data_hash"
  | .scriptData => "script_data_hash"

namespace Identifier

variable {kind : IdentifierKind}

/-- The hash of given bytes. -/
def ofBytes (bs : Bytes) : Except Fault (Identifier kind) :=
  if h : bs.length = kind.size then .ok ⟨bs, h⟩ else .error (.identifierSize kind bs.length)

/-- The hash that a text spells in hexadecimal. -/
def ofHex (t : Text) : Except Fault (Identifier kind) := do ofBytes (← parseHex t)

/-- The BLAKE2b hash of some bytes. -/
def hash (bs : Bytes) : Identifier kind :=
  ⟨Blake2b.digest kind.size bs, Blake2b.length_digest (by cases kind <;> decide) bs⟩

/-- The hexadecimal text of a hash. -/
def toText (i : Identifier kind) : Text := i.bytes.toHex

instance : Codec (Identifier kind) where
  name := kind.path
  toTerm i := .bytes i.bytes
  ofTerm path t := do ofBytes (← t.asBytes path)

end Identifier

/-- The name of an asset within its policy. -/
structure AssetName where
  bytes : Bytes
  length_bytes_le : bytes.length ≤ maxAssetNameSize
  deriving DecidableEq, Repr

namespace AssetName

/-- The asset name of given bytes. -/
def ofBytes (bs : Bytes) : Except Fault AssetName :=
  if h : bs.length ≤ maxAssetNameSize then .ok ⟨bs, h⟩ else .error (.assetNameSize bs.length)

/-- The asset name that a text spells in hexadecimal. -/
def ofHex (t : Text) : Except Fault AssetName := do ofBytes (← parseHex t)

/-- The asset name that is a text in UTF-8. -/
def ofText (t : Text) : Except Fault AssetName := ofBytes t.toUtf8

/-- The hexadecimal text of an asset name. -/
def toText (n : AssetName) : Text := n.bytes.toHex

instance : Codec AssetName where
  name := "asset_name"
  toTerm n := .bytes n.bytes
  ofTerm path t := do ofBytes (← t.asBytes path)

end AssetName

end Eutxo

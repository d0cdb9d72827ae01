import Eutxo.Cbor.Term
import Eutxo.Network
import Eutxo.Number.Shortest
import Eutxo.Path

/-!
# Faults

Everything that can go wrong, by cause.  The kind of a fault, its message and
the detail reported with it are functions of the cause.
-/

namespace Eutxo

/-- The kinds of fixed-size hashes. -/
inductive IdentifierKind where
  | transaction
  | script
  | verificationKey
  | datum
  | auxiliaryData
  | scriptData
  deriving DecidableEq, Repr

namespace IdentifierKind

/-- The name of a kind of hash. -/
def name : IdentifierKind → Text
  | .transaction => "TransactionId"
  | .script => "ScriptHash"
  | .verificationKey => "VerificationKeyHash"
  | .datum => "DatumHash"
  | .auxiliaryData => "AuxiliaryDataHash"
  | .scriptData => "ScriptDataHash"

/-- The number of bytes of a hash of this kind. -/
def size : IdentifierKind → Nat
  | .transaction => 32
  | .script => 28
  | .verificationKey => 28
  | .datum => 32
  | .auxiliaryData => 32
  | .scriptData => 32

end IdentifierKind

/-- The longest asset name in bytes. -/
def maxAssetNameSize : Nat := 32

/-- The longest metadata text or byte string in bytes. -/
def maxMetadatumSize : Nat := 64

/-- The two halves of a key pair. -/
inductive KeyKind where
  | verification
  | signing
  deriving DecidableEq, Repr

/-- The name of a kind of key. -/
def KeyKind.name : KeyKind → Text
  | .verification => "VerificationKey"
  | .signing => "SigningKey"

/-- The types whose values are partially ordered by coverage. -/
inductive BundleKind where
  | asset
  | multiAsset
  | value
  deriving DecidableEq, Repr

/-- What a decoder expects of a term. -/
inductive Shape where
  | integer
  | unsigned
  | safeUnsigned
  | bytes
  | text
  | bool
  | sequence
  | map
  deriving DecidableEq, Repr

/-- A shape with its article. -/
def Shape.phrase : Shape → Text
  | .integer => "an integer"
  | .unsigned => "an unsigned integer"
  | .safeUnsigned => "a safe unsigned integer"
  | .bytes => "a byte string"
  | .text => "a text string"
  | .bool => "a boolean"
  | .sequence => "a sequence"
  | .map => "a map"

/-- Why a term is no metadatum. -/
inductive MetadatumProblem where
  | longBytes
  | longText
  | form (t : Term)
  deriving DecidableEq, Repr

/-- A metadatum problem in words. -/
def MetadatumProblem.phrase : MetadatumProblem → Text
  | .longBytes => "byte string longer than " ++ Text.ofNat maxMetadatumSize ++ " bytes"
  | .longText => "text longer than " ++ Text.ofNat maxMetadatumSize ++ " bytes"
  | .form t => t.formName ++ " is not a metadatum"

/-- Why data at some path cannot be decoded. -/
inductive DecodeProblem where
  /-- The bytes are no data item of the accepted form. -/
  | malformed
  /-- Bytes follow the data item. -/
  | trailing (count : Nat)
  /-- A floating point number stands at an offset. -/
  | float (offset : Nat)
  /-- A map has two keys of one encoding. -/
  | duplicateKey (key : Bytes)
  /-- A bignum tag wraps something other than a byte string. -/
  | bignumContent (tag : Nat)
  /-- A bignum has a needless zero or fits in sixty-four bits. -/
  | bignumRange (content : Bytes)
  /-- The input ends behind a tag. -/
  | missingContent
  /-- A term has another shape than expected. -/
  | shape (expected : Shape) (found : Term)
  /-- A sequence has none of the allowed lengths. -/
  | arity (allowed : List Number) (length : Nat)
  /-- A transaction body has a field of an unknown key. -/
  | bodyField (owner : Path) (key : Nat)
  /-- A witness set has a field of an unknown key. -/
  | witnessField (owner : Path) (key : Nat)
  /-- A transaction body lacks one of its three mandatory fields. -/
  | bodyIncomplete (present : List Text)
  /-- A term is no metadatum. -/
  | metadatum (problem : MetadatumProblem)
  /-- A key map lacks a label. -/
  | missingLabel (label : Int)
  /-- A parameter of a key map has another value than the supported one. -/
  | parameter (expected found : Int)
  /-- A signed message names another algorithm than EdDSA, or none. -/
  | algorithm
  /-- A signed message carries the hash of its payload. -/
  | hashedPayload
  /-- A signed message comes without a key. -/
  | noKey
  /-- A text is no signed message envelope. -/
  | envelope
  deriving DecidableEq, Repr

namespace DecodeProblem

/-- The message of a decoding problem at a path. -/
def message (path : Path) : DecodeProblem → Text
  | .malformed => "Failed to decode CBOR"
  | .trailing _ => "Trailing bytes after CBOR value"
  | .float _ => path.toText ++ ": floating point values are not supported"
  | .duplicateKey _ => path.toText ++ ": duplicate map key"
  | .bignumContent _ => path.toText ++ ": bignum tag must wrap a byte string"
  | .bignumRange _ => path.toText ++ ": bignum must be minimal and exceed the 64-bit range"
  | .missingContent => path.toText ++ ": unsupported CBOR value"
  | .shape expected _ => path.toText ++ " must be " ++ expected.phrase
  | .arity allowed _ =>
    path.toText ++ " must have " ++ Text.join " or " (allowed.map Number.toText) ++ " elements"
  | .bodyField owner _ => owner.toText ++ ": unsupported transaction body field"
  | .witnessField owner _ => owner.toText ++ ": unsupported witness set field"
  | .bodyIncomplete _ => path.toText ++ " must contain inputs, outputs and fee"
  | .metadatum _ => path.toText ++ " is not a valid metadatum"
  | .missingLabel label => path.toText ++ " is missing label " ++ Text.ofInt label
  | .parameter expected _ => path.toText ++ " must be " ++ Text.ofInt expected
  | .algorithm => "Only EdDSA signed messages are supported"
  | .hashedPayload => "Hashed payloads are not supported"
  | .noKey => "Envelope carries neither a COSE key nor a kid"
  | .envelope => "Malformed signed message envelope"

/-- The detail reported with a decoding problem. -/
def detail? : DecodeProblem → Option Text
  | .malformed => none
  | .trailing count => some ("remaining=" ++ Text.ofNat count)
  | .float offset => some ("offset=" ++ Text.ofNat offset)
  | .duplicateKey key => some key.toHex
  | .bignumContent tag => some (Text.ofNat tag)
  | .bignumRange content => some content.toHex
  | .missingContent => some "symbol"
  | .shape _ found => some ("found " ++ found.describe)
  | .arity _ length => some ("length=" ++ Text.ofNat length)
  | .bodyField _ key => some ("key=" ++ Text.ofNat key)
  | .witnessField _ key => some ("key=" ++ Text.ofNat key)
  | .bodyIncomplete present => some ("present keys: " ++ Text.join ", " present)
  | .metadatum problem => some problem.phrase
  | .missingLabel label => some (Text.ofInt label)
  | .parameter _ found => some ("found " ++ Text.ofInt found)
  | .algorithm => none
  | .hashedPayload => some "hashed"
  | .noKey => none
  | .envelope => none

end DecodeProblem

/-- The kinds of faults, as they are reported. -/
inductive FaultKind where
  | sizeMismatch
  | invalidHex
  | deserialize
  | serialize
  | invalidOperation
  | incomparableType
  | invalidKeyMaterial
  | invalidSignature
  | chainQuery
  | submit
  | networkMismatch
  deriving DecidableEq, Repr

/-- The reported name of a kind of fault. -/
def FaultKind.name : FaultKind → Text
  | .sizeMismatch => "SizeMismatchError"
  | .invalidHex => "InvalidHexError"
  | .deserialize => "DeserializeError"
  | .serialize => "SerializeError"
  | .invalidOperation => "InvalidOperationError"
  | .incomparableType => "IncomparableTypeError"
  | .invalidKeyMaterial => "InvalidKeyMaterialError"
  | .invalidSignature => "InvalidSignatureError"
  | .chainQuery => "ChainQueryError"
  | .submit => "SubmitError"
  | .networkMismatch => "NetworkMismatchError"

/-- Something that went wrong. -/
inductive Fault where
  /-- A hash has a wrong number of bytes. -/
  | identifierSize (kind : IdentifierKind) (actual : Nat)
  /-- An asset name has too many bytes. -/
  | assetNameSize (actual : Nat)
  /-- A text is not hexadecimal. -/
  | hex (t : Text)
  /-- Data cannot be decoded. -/
  | decode (path : Path) (problem : DecodeProblem)
  /-- A map to be written has two keys of one encoding. -/
  | repeatedKey (key : Bytes)
  /-- A term holds a number for which there is no CBOR head. -/
  | unwritable
  /-- An asset name occurs twice in a list of quantities. -/
  | duplicateName (name : Bytes)
  /-- A policy occurs twice in a list of bundles. -/
  | duplicatePolicy (policy : Bytes)
  /-- A bundle of one policy is not covered; both bundles are given encoded. -/
  | assetShortfall (minuend subtrahend : Bytes)
  /-- A bundle of several policies is not covered; both bundles are given encoded. -/
  | multiAssetShortfall (minuend subtrahend : Bytes)
  /-- An amount of coin is not covered. -/
  | coinShortfall (minuend subtrahend : Int)
  /-- An output index is no natural number that a binary64 number holds exactly. -/
  | outputIndex (index : Number)
  /-- A network id is no natural number below sixteen. -/
  | networkNibble (network : Number)
  /-- A metadata label is negative. -/
  | negativeLabel (label : Int)
  /-- A metadata label occurs twice. -/
  | duplicateLabel (label : Int)
  /-- The term under a metadata label is no metadatum. -/
  | metadatum (label : Int) (problem : MetadatumProblem)
  /-- A string is too long for metadata. -/
  | metadataString (length : Nat)
  /-- A number is no integer that metadata can hold. -/
  | metadataNumber (n : Number)
  /-- A term has no metadata JSON form. -/
  | notMetadatum (t : Term)
  /-- A transaction to be submitted has no witnesses. -/
  | noWitnesses (transaction : Bytes)
  /-- A transaction is to be signed with no keys. -/
  | noKeys (transaction : Bytes)
  /-- A transaction body does not commit to the auxiliary data of a given hash. -/
  | uncommitted (transaction auxiliaryData : Bytes)
  /-- A bundle is compared with something else; what it is, is given if it is plain data. -/
  | incomparable (kind : BundleKind) (other : Option Json)
  /-- A key has a wrong number of bytes. -/
  | keySize (kind : KeyKind) (actual : Nat)
  /-- The content of a key file is no CBOR byte string. -/
  | keyContent (kind : KeyKind) (cause : Fault)
  /-- A text is no key file. -/
  | keyFile
  /-- A signature has a wrong number of bytes. -/
  | signatureSize (actual : Nat)
  /-- The chain backend cannot answer a query. -/
  | chainQuery (message : Text)
  /-- The chain backend refuses a transaction. -/
  | submit (message : Text)
  /-- A transaction is meant for another network than the configured one. -/
  | networkMismatch (transaction : Bytes) (configured : Network) (actual : Number)
  deriving Repr

/-- The detail reported with a fault. -/
inductive Detail where
  | text (t : Text)
  | fault (f : Fault)
  | difference (minuend subtrahend : Text)

namespace Fault

/-- The kind of a fault. -/
def kind : Fault → FaultKind
  | .identifierSize .. => .sizeMismatch
  | .assetNameSize .. => .sizeMismatch
  | .hex .. => .invalidHex
  | .decode .. => .deserialize
  | .repeatedKey .. => .serialize
  | .unwritable => .serialize
  | .duplicateName .. => .invalidOperation
  | .duplicatePolicy .. => .invalidOperation
  | .assetShortfall .. => .invalidOperation
  | .multiAssetShortfall .. => .invalidOperation
  | .coinShortfall .. => .invalidOperation
  | .outputIndex .. => .invalidOperation
  | .networkNibble .. => .invalidOperation
  | .negativeLabel .. => .invalidOperation
  | .duplicateLabel .. => .invalidOperation
  | .metadatum .. => .invalidOperation
  | .metadataString .. => .invalidOperation
  | .metadataNumber .. => .invalidOperation
  | .notMetadatum .. => .invalidOperation
  | .noWitnesses .. => .invalidOperation
  | .noKeys .. => .invalidOperation
  | .uncommitted .. => .invalidOperation
  | .incomparable .. => .incomparableType
  | .keySize .. => .invalidKeyMaterial
  | .keyContent .. => .invalidKeyMaterial
  | .keyFile => .invalidKeyMaterial
  | .signatureSize .. => .invalidSignature
  | .chainQuery .. => .chainQuery
  | .submit .. => .submit
  | .networkMismatch .. => .networkMismatch

/-- The message of a fault. -/
def message : Fault → Text
  | .identifierSize kind _ => kind.name ++ " must be " ++ Text.ofNat kind.size ++ " bytes"
  | .assetNameSize _ => "AssetName must be at most " ++ Text.ofNat maxAssetNameSize ++ " bytes"
  | .hex _ => "Malformed hex string"
  | .decode path problem => problem.message path
  | .repeatedKey _ => "Duplicate map key"
  | .unwritable => "Failed to encode CBOR"
  | .duplicateName _ => "Duplicate asset name"
  | .duplicatePolicy _ => "Duplicate policy id"
  | .assetShortfall .. => "Invalid asset subtraction: subtrahend exceeds minuend"
  | .multiAssetShortfall .. => "Invalid multi-asset subtraction: subtrahend exceeds minuend"
  | .coinShortfall .. => "Invalid value subtraction: coin would become negative"
  | .outputIndex _ => "Output index must be a non-negative integer"
  | .networkNibble _ => "Network id must fit in four bits"
  | .negativeLabel _ => "Metadata labels must be unsigned"
  | .duplicateLabel label => "Duplicate metadata label " ++ Text.ofInt label
  | .metadatum label problem =>
    "Invalid metadatum under label " ++ Text.ofInt label ++ ": " ++ problem.phrase
  | .metadataString _ =>
    "Metadata strings are limited to " ++ Text.ofNat maxMetadatumSize ++ " bytes"
  | .metadataNumber _ => "Metadata numbers must be integers"
  | .notMetadatum t => t.formName ++ " is not a metadatum"
  | .noWitnesses transaction => "Transaction " ++ transaction.toHex ++ " carries no witnesses"
  | .noKeys transaction => "No signing keys given for transaction " ++ transaction.toHex
  | .uncommitted transaction _ =>
    "Body of " ++ transaction.toHex ++ " does not commit to the given auxiliary data"
  | .incomparable .asset _ => "An Asset can only be compared with another Asset"
  | .incomparable .multiAsset _ => "A MultiAsset can only be compared with another MultiAsset"
  | .incomparable .value _ => "A Value can only be compared with another Value"
  | .keySize kind _ => kind.name ++ " must be 32 bytes"
  | .keyContent kind _ => kind.name ++ " cborHex is not a CBOR byte string"
  | .keyFile => "Malformed key text envelope"
  | .signatureSize _ => "Signature must be 64 bytes"
  | .chainQuery message => message
  | .submit message => message
  | .networkMismatch transaction configured actual =>
    "Transaction " ++ transaction.toHex ++ " targets network " ++ actual.toText
      ++ ", configured for " ++ configured.name

/-- A text as it is shown in a report: whole up to eighty code units, else cut and marked. -/
def excerpt (t : Text) : Text := if 80 < t.length then t.take 80 ++ "…" else t

/-- The detail reported with a fault. -/
def detail? : Fault → Option Detail
  | .identifierSize _ actual => some (.text ("length=" ++ Text.ofNat actual))
  | .assetNameSize actual => some (.text ("length=" ++ Text.ofNat actual))
  | .hex t => some (.text (excerpt t))
  | .decode _ problem => problem.detail?.map .text
  | .repeatedKey key => some (.text key.toHex)
  | .unwritable => none
  | .duplicateName name => some (.text name.toHex)
  | .duplicatePolicy policy => some (.text policy.toHex)
  | .assetShortfall minuend subtrahend => some (.difference minuend.toHex subtrahend.toHex)
  | .multiAssetShortfall minuend subtrahend => some (.difference minuend.toHex subtrahend.toHex)
  | .coinShortfall minuend subtrahend =>
    some (.difference (Text.ofInt minuend) (Text.ofInt subtrahend))
  | .outputIndex index => some (.text index.toText)
  | .networkNibble network => some (.text network.toText)
  | .negativeLabel label => some (.text (Text.ofInt label))
  | .duplicateLabel label => some (.text (Text.ofInt label))
  | .metadatum .. => none
  | .metadataString length => some (.text ("length=" ++ Text.ofNat length))
  | .metadataNumber n => some (.text n.toText)
  | .notMetadatum _ => none
  | .noWitnesses _ => none
  | .noKeys _ => none
  | .uncommitted _ auxiliaryData => some (.text auxiliaryData.toHex)
  | .incomparable _ (some (.string t)) => some (.text t)
  | .incomparable _ (some (.number n)) => some (.text n.toText)
  | .incomparable _ _ => none
  | .keySize _ actual => some (.text ("length=" ++ Text.ofNat actual))
  | .keyContent _ cause => some (.fault cause)
  | .keyFile => none
  | .signatureSize actual => some (.text ("length=" ++ Text.ofNat actual))
  | .chainQuery _ => none
  | .submit _ => none
  | .networkMismatch _ _ actual => some (.text actual.toText)

/-- The path at which data could not be decoded. -/
def path? : Fault → Option Path
  | .decode path _ => some path
  | _ => none

/-- The number that was expected and the number that was found instead. -/
def mismatch? : Fault → Option (Nat × Number)
  | .identifierSize kind actual => some (kind.size, .ofNat actual)
  | .assetNameSize actual => some (maxAssetNameSize, .ofNat actual)
  | .networkMismatch _ configured actual => some (configured.id, actual)
  | _ => none

end Fault

end Eutxo

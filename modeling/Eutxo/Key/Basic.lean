import Eutxo.Ed25519.Signature
import Eutxo.Ledger.Identifier

/-!
# Keys and signatures

Keys and signatures are byte strings of their sizes.  Nothing is asked of the
bytes: whether they are points of the curve shows when they are used.
-/

namespace Eutxo

/-- The number of bytes of a key. -/
def keySize : Nat := 32

/-- The number of bytes of a signature. -/
def signatureSize : Nat := 64

/-- A public key. -/
structure VerificationKey where
  bytes : Bytes
  length_bytes : bytes.length = keySize
  deriving DecidableEq, Repr

/-- The seed of a key pair. -/
structure SigningKey where
  bytes : Bytes
  length_bytes : bytes.length = keySize
  deriving DecidableEq

/-- A signature. -/
structure Signature where
  bytes : Bytes
  length_bytes : bytes.length = signatureSize
  deriving DecidableEq, Repr

namespace VerificationKey

/-- The public key of given bytes. -/
def ofBytes (bs : Bytes) : Except Fault VerificationKey :=
  if h : bs.length = keySize then .ok ⟨bs, h⟩ else .error (.keySize .verification bs.length)

/-- The public key that a text spells in hexadecimal. -/
def ofHex (t : Text) : Except Fault VerificationKey := do ofBytes (← parseHex t)

/-- The hash of a public key, as addresses and lists of signers carry it. -/
def hash (k : VerificationKey) : VerificationKeyHash := Identifier.hash k.bytes

instance : Codec VerificationKey where
  name := "verification_key"
  toTerm k := .bytes k.bytes
  ofTerm path t := do ofBytes (← t.asBytes path)

end VerificationKey

namespace SigningKey

/-- The seed of given bytes. -/
def ofBytes (bs : Bytes) : Except Fault SigningKey :=
  if h : bs.length = keySize then .ok ⟨bs, h⟩ else .error (.keySize .signing bs.length)

/-- The seed that a text spells in hexadecimal. -/
def ofHex (t : Text) : Except Fault SigningKey := do ofBytes (← parseHex t)

/-- The public key of a seed. -/
def verificationKey (k : SigningKey) : VerificationKey :=
  ⟨Ed25519.publicKey k.bytes, Ed25519.length_publicKey k.bytes⟩

/-- A seed is never shown. -/
def toText (_ : SigningKey) : Text := "SigningKey(<redacted>)"

instance : Codec SigningKey where
  name := "signing_key"
  toTerm k := .bytes k.bytes
  ofTerm path t := do ofBytes (← t.asBytes path)

/-- The signature of a message. -/
def sign (k : SigningKey) (message : Bytes) : Signature :=
  ⟨Ed25519.sign k.bytes message, Ed25519.length_sign k.bytes message⟩

end SigningKey

namespace Signature

/-- The signature of given bytes. -/
def ofBytes (bs : Bytes) : Except Fault Signature :=
  if h : bs.length = signatureSize then .ok ⟨bs, h⟩ else .error (.signatureSize bs.length)

/-- The signature that a text spells in hexadecimal. -/
def ofHex (t : Text) : Except Fault Signature := do ofBytes (← parseHex t)

instance : Codec Signature where
  name := "signature"
  toTerm s := .bytes s.bytes
  ofTerm path t := do ofBytes (← t.asBytes path)

end Signature

/-- Whether a signature is one of the message under the key; bytes that are no point of the curve
make it none. -/
def VerificationKey.verify (k : VerificationKey) (message : Bytes) (s : Signature) : Bool :=
  Ed25519.verify k.bytes message s.bytes

/-- Verification of bytes.  A key or signature of a wrong size is a fault, so that it is never
confused with a signature that does not match. -/
def verifyBytes (key message signature : Bytes) : Except Fault Bool := do
  let key ← VerificationKey.ofBytes key
  let signature ← Signature.ofBytes signature
  return key.verify message signature

end Eutxo

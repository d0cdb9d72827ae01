import Eutxo.Key.Basic

/-!
# Signed messages

Wallets sign messages in the form of COSE: a protected header whose bytes are
signed, an unprotected header, a payload and a signature.  The protected bytes
are kept exactly as they were signed, whether or not they are a header.
-/

namespace Eutxo.Cose

/-- A label of a header. -/
inductive Label where
  | int (n : Int)
  | text (t : Text)
  deriving DecidableEq, Repr

/-- The term of a label. -/
def Label.toTerm : Label → Term
  | .int n => .int n
  | .text t => .text t

/-- The entries of a header or of a key map. -/
abbrev Header := List (Term × Term)

namespace Header

/-- The value of the first entry with a label. -/
def get? (h : Header) (label : Label) : Option Term :=
  (h.find? fun e => e.1 = label.toTerm).map Prod.snd

/-- An entry of a header. -/
def entry (label : Label) (value : Term) : Term × Term := (label.toTerm, value)

/-- The bytes of a protected header. -/
def encode (h : Header) : Except Fault Bytes := Cbor.encode (.map h)

end Header

/-- The label of the algorithm. -/
def algorithmLabel : Label := .int 1

/-- The label of the key a message is signed by. -/
def keyIdLabel : Label := .int 4

/-- The label of the address a message is signed for. -/
def addressLabel : Label := .text "address"

/-- The label of the flag that says that the payload is a hash. -/
def hashedLabel : Label := .text "hashed"

/-- The algorithm EdDSA. -/
def edDSA : Int := -8

/-- The bytes that the signature of a message covers. -/
def signedData (protectedBytes payload : Bytes) : Except Fault Bytes :=
  Cbor.encode (.seq [.text "Signature1", .bytes protectedBytes, .bytes [], .bytes payload])

/-- A signed message. -/
structure Message where
  protectedBytes : Bytes
  unprotectedHeader : Header
  payload : Bytes
  signature : Bytes
  deriving DecidableEq, Repr

namespace Message

/-- The term of a message. -/
def toTerm (m : Message) : Term :=
  .seq [.bytes m.protectedBytes, .map m.unprotectedHeader, .bytes m.payload, .bytes m.signature]

/-- The message that a term spells. -/
def ofTerm (path : Path) (t : Term) : Except Fault Message := do
  match ← t.asFixedSequence path [.integer 4] with
  | [protectedBytes, unprotectedHeader, payload, signature] =>
    let protectedBytes ← protectedBytes.asBytes (.item path 0)
    let unprotectedHeader ← unprotectedHeader.asMap (.item path 1)
    let payload ← payload.asBytes (.item path 2)
    let signature ← signature.asBytes (.item path 3)
    return ⟨protectedBytes, unprotectedHeader, payload, signature⟩
  | items => throw (.decode path (.arity [.integer 4] items.length))

instance : Codec Message where
  name := "cose_sign1"
  toTerm := toTerm
  ofTerm := ofTerm

/-- The path of the protected header. -/
def protectedPath : Path := .root "cose_sign1.protected"

/-- The path of the unprotected header. -/
def unprotectedPath : Path := .root "cose_sign1.unprotected"

/-- The protected header; no bytes stand for a header without entries. -/
def protectedHeader (m : Message) : Except Fault Header :=
  if m.protectedBytes.isEmpty then .ok []
  else do (← Cbor.decode protectedPath m.protectedBytes).asMap protectedPath

/-- The bytes that the signature of a message covers. -/
def signedData (m : Message) : Except Fault Bytes := Cose.signedData m.protectedBytes m.payload

end Message

end Eutxo.Cose

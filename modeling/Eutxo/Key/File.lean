import Eutxo.Json.Printer
import Eutxo.Json.Reader
import Eutxo.Key.Basic

/-!
# Key files

A key file is a JSON object with a type, a description and the key as the
hexadecimal text of a CBOR byte string.
-/

namespace Eutxo

/-- The content of a key file. -/
structure KeyFile where
  type : Text
  description : Text
  cborHex : Text
  deriving DecidableEq, Repr

namespace KeyFile

/-- The type of a file that holds the signing key of a payment address. -/
def paymentType : Text := "PaymentSigningKeyShelley_ed25519"

/-- The description of a file that holds the signing key of a payment address. -/
def paymentDescription : Text := "Payment Signing Key"

/-- The JSON form of a key file. -/
def toJson (f : KeyFile) : Json :=
  .object [("type", .string f.type), ("description", .string f.description),
    ("cborHex", .string f.cborHex)]

/-- The content of a key file, further members being ignored. -/
def ofJson? (j : Json) : Option KeyFile := do
  let type ← (← j.member? "type").string?
  let description ← (← j.member? "description").string?
  let cborHex ← (← j.member? "cborHex").string?
  return ⟨type, description, cborHex⟩

/-- The content of a key file from its text. -/
def ofText? (t : Text) : Option KeyFile := do ofJson? (← Json.read? t)

/-- The byte string that a key file spells under `cborHex`. -/
def content (kind : KeyKind) (f : KeyFile) : Except Fault Bytes := do
  (← Cbor.decode .input (← parseHex f.cborHex)).asBytes (.root kind.name)

/-- The bytes of the key in a key file.  Faults of decoding and of hexadecimal text are reported as
those of the key; any other is passed on as it is. -/
def keyBytes (kind : KeyKind) (f : KeyFile) : Except Fault Bytes :=
  match f.content kind with
  | .ok bs => .ok bs
  | .error cause =>
    if cause.kind = .deserialize ∨ cause.kind = .invalidHex then .error (.keyContent kind cause)
    else .error cause

end KeyFile

namespace SigningKey

/-- The signing key in the text of a key file. -/
def ofFile (t : Text) : Except Fault SigningKey :=
  match KeyFile.ofText? t with
  | some f => do ofBytes (← f.keyBytes .signing)
  | none => .error .keyFile

/-- The key file of a signing key. -/
def toFile (k : SigningKey) (type description : Text) : Except Fault KeyFile := do
  return ⟨type, description, (← Codec.toCbor k).toHex⟩

end SigningKey

end Eutxo

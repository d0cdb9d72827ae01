import Eutxo.Cose.Key
import Eutxo.Json.Printer
import Eutxo.Json.Reader
import Eutxo.Ledger.Address

/-!
# Envelopes of signed messages

An envelope carries a signed message as hexadecimal text.  The key stands in
the protected header of the message, or travels beside it as a key map.  If the
protected header names an address, it has to pay to the key.
-/

namespace Eutxo.Cose

/-- A signed message in hexadecimal, with the key map if the key travels beside the message. -/
structure Envelope where
  signature : Text
  key : Option Text := none
  deriving DecidableEq, Repr

/-- What the holder of an envelope learns from it. -/
structure Reading where
  verified : Bool
  payload : Bytes
  /-- The payload as UTF-8, malformed parts replaced. -/
  message : Text
  signingAddress : Option Bytes
  deriving DecidableEq, Repr

/-- The content of an envelope. -/
structure Contents where
  message : Message
  key : VerificationKey
  address : Option Bytes
  deriving DecidableEq, Repr

namespace Envelope

/-- The JSON form of an envelope. -/
def toJson (e : Envelope) : Json :=
  .object (("signature", .string e.signature) :: e.key.toList.map fun k => ("key", .string k))

/-- The envelope that a JSON value is, further members being ignored. -/
def ofJson? (j : Json) : Option Envelope := do
  let signature ← (← j.member? "signature").string?
  match j.member? "key" with
  | none => return ⟨signature, none⟩
  | some k => return ⟨signature, some (← k.string?)⟩

/-- The text of an envelope. -/
def toText (e : Envelope) : Text := e.toJson.render

/-- The envelope that a text spells. -/
def ofText (t : Text) : Except Fault Envelope :=
  match (Json.read? t).bind ofJson? with
  | some e => .ok e
  | none => .error (.decode (.root "envelope") .envelope)

/-- The text of a key map. -/
def keyText (k : VerificationKey) : Except Fault Text := do
  return (← Codec.toCbor (Key.mk k)).toHex

/-- The protected header of a new message: the algorithm, the key unless it travels beside the
message, and the address if there is one. -/
def header (key : VerificationKey) (address : Option Bytes) (attachKey : Bool) : Header :=
  Header.entry algorithmLabel (.int edDSA)
    :: (if attachKey then [] else [Header.entry keyIdLabel (Codec.toTerm key)])
    ++ address.toList.map fun a => Header.entry addressLabel (.bytes a)

/-- Signs a payload. -/
def build (payload : Bytes) (key : SigningKey) (address : Option Bytes) (attachKey : Bool) :
    Except Fault Envelope := do
  let protectedBytes ← (header key.verificationKey address attachKey).encode
  let signature := key.sign (← signedData protectedBytes payload)
  let message : Message :=
    ⟨protectedBytes, [Header.entry hashedLabel (.bool false)], payload, signature.bytes⟩
  let text := (← Codec.toCbor message).toHex
  if attachKey then return ⟨text, some (← keyText key.verificationKey)⟩
  else return ⟨text, none⟩

/-- Checks that the protected header names EdDSA. -/
def requireEdDSA (h : Header) : Except Fault Unit :=
  match h.get? algorithmLabel with
  | some (.int n) =>
    if n = edDSA then .ok () else .error (.decode (.entry Message.protectedPath "1") .algorithm)
  | _ => .error (.decode (.entry Message.protectedPath "1") .algorithm)

/-- Checks that the payload is not marked as a hash. -/
def requirePlain (h : Header) : Except Fault Unit :=
  match h.get? hashedLabel with
  | none => .ok ()
  | some t => do
    if ← t.asBool (.entry Message.unprotectedPath "hashed") then
      throw (.decode (.entry Message.unprotectedPath "hashed") .hashedPayload)

/-- The key of a message: the one beside it, else the one in its protected header. -/
def keyOf (beside : Option Text) (h : Header) : Except Fault VerificationKey :=
  match beside with
  | some text => do
    let key : Key ← Codec.ofCborHex text
    return key.verificationKey
  | none =>
    match h.get? keyIdLabel with
    | some t => Codec.ofTerm (.entry Message.protectedPath "4") t
    | none => .error (.decode (.entry Message.protectedPath "4") .noKey)

/-- The address in a protected header. -/
def addressOf (h : Header) : Except Fault (Option Bytes) :=
  match h.get? addressLabel with
  | some t => do return some (← t.asBytes (.entry Message.protectedPath "address"))
  | none => .ok none

/-- Takes an envelope apart. -/
def contents (e : Envelope) : Except Fault Contents := do
  let message : Message ← Codec.ofCborHex e.signature
  let header ← message.protectedHeader
  requireEdDSA header
  requirePlain message.unprotectedHeader
  let key ← keyOf e.key header
  let address ← addressOf header
  return ⟨message, key, address⟩

/-- What an envelope that cannot be taken apart says. -/
def rejected : Reading := ⟨false, [], .empty, none⟩

/-- Whether a message has a signature that matches the key. -/
def signatureMatches (m : Message) (key : VerificationKey) : Bool :=
  match m.signedData, Signature.ofBytes m.signature with
  | .ok data, .ok signature => key.verify data signature
  | _, _ => false

/-- Whether an address pays to a key; no address does no harm. -/
def addressMatches (address : Option Bytes) (key : VerificationKey) : Bool :=
  match address with
  | none => true
  | some a => Address.paymentKeyHash? a = some key.hash

/-- Checks the signature of an envelope, and that the address it names pays to the key.  Whatever is
wrong with an envelope, it is not verified. -/
def verify (e : Envelope) : Reading :=
  match e.contents with
  | .error _ => rejected
  | .ok ⟨message, key, address⟩ =>
    ⟨signatureMatches message key && addressMatches address key, message.payload,
      Text.ofUtf8 message.payload, address⟩

end Envelope

end Eutxo.Cose

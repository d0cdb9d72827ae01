import Eutxo.Proofs.Cose.Parsing

/-!
# Verified envelopes

An envelope is verified exactly if its texts spell a signed message, the
signature is one of the transported bytes under the key, and the address pays
to the key.  Whatever the two texts are, the envelope is read.
-/

namespace Eutxo.Cose

/-- The address is of a type that pays to a key, and names the hash of the key behind its first
byte. -/
def PaysTo (address : Bytes) (key : VerificationKey) : Prop :=
  ∃ b rest, address = b :: rest ∧ b.toNat / 16 ∈ [0, 2, 4, 6] ∧
    rest.take 28 = Blake2b.digest 28 key.bytes

/-- The key signed the protected bytes and the payload as they were transported, and the address
pays to it. -/
structure Authentic (c : Contents) : Prop where
  signature_length : c.message.signature.length = 64
  address : ∀ a, c.address = some a → PaysTo a c.key
  signed : ∃ data, Cbor.encode (.seq [.text "Signature1", .bytes c.message.protectedBytes,
      .bytes [], .bytes c.message.payload]) = .ok data ∧
    Ed25519.verify c.key.bytes data c.message.signature = true

theorem paymentKeyHash?_eq_some_hash_iff {address : Bytes} {key : VerificationKey} :
    Address.paymentKeyHash? address = some key.hash ↔ PaysTo address key := by
  cases address with
  | nil => simp [Address.paymentKeyHash?, PaysTo]
  | cons b rest =>
    have htype : b.toNat / 16 < 8 ∧ b.toNat / 16 % 2 = 0 ↔ b.toNat / 16 ∈ [0, 2, 4, 6] := by
      simp only [List.mem_cons, List.not_mem_nil, or_false]
      omega
    have hhash : ∀ bs : Bytes, (Identifier.ofBytes bs).toOption = some key.hash ↔
        bs = Blake2b.digest 28 key.bytes := by
      intro bs
      rw [Identifier.ofBytes]
      split_ifs with hsize
      · simp [Except.toOption, VerificationKey.hash, Identifier.hash, IdentifierKind.size]
      · simp only [Except.toOption, reduceCtorEq, false_iff]
        rintro rfl
        exact hsize key.hash.length_bytes
    rw [Address.paymentKeyHash?]
    simp only [htype, PaysTo, List.cons.injEq]
    split_ifs with hmem
    · rw [hhash]
      simp [hmem]
    · simp [hmem]

/-- The address that pays to a key and delegates nothing pays to the key. -/
theorem paysTo_of_enterprise {key : VerificationKey} {network : Number} {address : Bytes}
    (h : Address.enterprise key.hash network = .ok address) :
    address.length = 29 ∧ PaysTo address key := by
  rw [Address.enterprise] at h
  split at h
  · next n _ =>
    split_ifs at h with hnetwork
    cases h
    have hbyte : (UInt8.ofNat (96 + n.toNat)).toNat = 96 + n.toNat :=
      UInt8.toNat_ofNat_of_lt' (show 96 + n.toNat < 256 by omega)
    have hlength : key.hash.bytes.length = 28 := key.hash.length_bytes
    refine ⟨congrArg (· + 1) hlength, _, _, rfl, ?_, List.take_of_length_le hlength.le⟩
    rw [show 16 * Address.enterpriseType = 96 from rfl, hbyte,
      show (96 + n.toNat) / 16 = 6 by omega]
    decide
  · cases h

namespace Envelope

theorem addressMatches_iff {address : Option Bytes} {key : VerificationKey} :
    addressMatches address key = true ↔ ∀ a, address = some a → PaysTo a key := by
  cases address with
  | none => simp [addressMatches]
  | some a => simp [addressMatches, paymentKeyHash?_eq_some_hash_iff]

theorem signatureMatches_iff {m : Message} {key : VerificationKey} :
    signatureMatches m key = true ↔ m.signature.length = 64 ∧
      ∃ data, m.signedData = .ok data ∧ Ed25519.verify key.bytes data m.signature = true := by
  rw [signatureMatches, Signature.ofBytes]
  cases m.signedData with
  | error fault => simp
  | ok data =>
    split_ifs with hsize
    · simp [VerificationKey.verify, show m.signature.length = 64 from hsize]
    · simp [show ¬ m.signature.length = 64 from hsize]

theorem authentic_iff {c : Contents} :
    (signatureMatches c.message c.key && addressMatches c.address c.key) = true ↔
      Authentic c := by
  rw [Bool.and_eq_true, signatureMatches_iff, addressMatches_iff]
  constructor
  · rintro ⟨⟨hlength, hsigned⟩, haddress⟩
    exact ⟨hlength, haddress, hsigned⟩
  · rintro ⟨hlength, haddress, hsigned⟩
    exact ⟨⟨hlength, hsigned⟩, haddress⟩

/-- What is read from an envelope whose texts spell a content. -/
theorem verify_of_parses {e : Envelope} {c : Contents} (h : e.Parses c) :
    e.verify = ⟨signatureMatches c.message c.key && addressMatches c.address c.key,
      c.message.payload, Text.ofUtf8 c.message.payload, c.address⟩ := by
  rw [verify, contents_eq_ok_iff.2 h]

theorem verify_of_not_parses {e : Envelope} (h : ∀ c, ¬ e.Parses c) : e.verify = rejected := by
  rw [verify]
  cases hcontents : e.contents with
  | error fault => rfl
  | ok c => exact absurd (contents_eq_ok_iff.1 hcontents) (h c)

/-- Every pair of texts is read.  The envelope is verified exactly if the texts spell an authentic
content; what is read is that content if they spell one, and otherwise that nothing is verified. -/
theorem verify_sound_complete (e : Envelope) :
    (e.verify.verified = true ↔ ∃ c, e.Parses c ∧ Authentic c) ∧
      (∀ c, e.Parses c → e.verify.payload = c.message.payload ∧
        e.verify.message = Text.ofUtf8 c.message.payload ∧ e.verify.signingAddress = c.address) ∧
      ((∀ c, ¬ e.Parses c) → e.verify = rejected) := by
  refine ⟨⟨?_, ?_⟩, ?_, verify_of_not_parses⟩
  · intro hverified
    by_cases hparses : ∃ c, e.Parses c
    · obtain ⟨c, hc⟩ := hparses
      rw [verify_of_parses hc] at hverified
      exact ⟨c, hc, authentic_iff.1 hverified⟩
    · rw [verify_of_not_parses (not_exists.1 hparses)] at hverified
      cases hverified
  · rintro ⟨c, hc, hauthentic⟩
    rw [verify_of_parses hc]
    exact authentic_iff.2 hauthentic
  · intro c hc
    rw [verify_of_parses hc]
    exact ⟨rfl, rfl, rfl⟩

end Envelope

end Eutxo.Cose

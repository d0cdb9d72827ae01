import Eutxo.Proofs.Cbor.ValueOrder
import Eutxo.Proofs.Cose.Parsing
import Eutxo.Proofs.Ledger.Readback

/-!
# Signed bytes in transport

The bytes that a signature covers tell the protected header from the payload,
whatever the two are.  A message that is written and read keeps both as they
are, and with them the bytes that were signed; only the entries of the
unprotected header may come back in another order.
-/

namespace Eutxo.Cose

open Traversal Term Cbor

/-! ## Signed bytes -/

section SignedData

variable {p b q c data : Bytes}

theorem everywhere_decodedAt_signed (p b : Bytes) :
    Everywhere DecodedAt (.seq [.text "Signature1", .bytes p, .bytes [], .bytes b]) := by
  refine everywhere_seq_iff.2 ⟨trivial, ?_⟩
  simp only [List.forall_mem_cons]
  exact ⟨.leaf (by decide) rfl, .leaf trivial rfl, .leaf trivial rfl, .leaf trivial rfl, nofun⟩

/-- No byte can be moved between the protected header and the payload under one signature. -/
theorem signedData_injective (h : signedData p b = .ok data) (h' : signedData q c = .ok data) :
    p = q ∧ b = c := by
  have hsame := (encode_eq_iff (everywhere_decodedAt_signed p b) (everywhere_decodedAt_signed q c)
    h h').1 rfl
  obtain ⟨_, q', _, c', hitems, -, hq, -, hc⟩ := Reordered.quadruple_left_iff.1 hsame
  cases hitems
  exact ⟨(Term.bytes.inj (Reordered.bytes_left_iff.1 hq)).symm,
    (Term.bytes.inj (Reordered.bytes_left_iff.1 hc)).symm⟩

theorem exists_signedData_iff : (∃ data, signedData p b = .ok data) ↔
    p.length ≤ maxArgument ∧ b.length ≤ maxArgument := by
  have htext : ∃ bs, encode (.text "Signature1") = .ok bs := ⟨_, rfl⟩
  rw [signedData, exists_encode_seq_iff]
  simp only [List.forall_mem_cons, exists_encode_bytes_iff]
  constructor
  · rintro ⟨-, -, hp, -, hb, -⟩
    exact ⟨hp, hb⟩
  · rintro ⟨hp, hb⟩
    exact ⟨show 4 ≤ maxArgument by decide, htext, hp, Nat.zero_le _, hb, nofun⟩

end SignedData

/-! ## Messages -/

namespace Message

variable {m m' : Message} {t : Term}

theorem toTerm_injective : Function.Injective toTerm := by
  rintro ⟨p, h, b, s⟩ ⟨p', h', b', s'⟩ heq
  simpa [toTerm] using heq

/-- A message in another order of entries is the message with another unprotected header. -/
theorem reordered_toTerm_iff : Reordered m.toTerm t ↔
    ∃ h, t = toTerm { m with unprotectedHeader := h } ∧
      Reordered (.map m.unprotectedHeader) (.map h) := by
  simp only [toTerm, Reordered.quadruple_left_iff, Reordered.bytes_left_iff]
  constructor
  · rintro ⟨_, u, _, _, rfl, rfl, hu, rfl, rfl⟩
    obtain ⟨h, rfl, -⟩ := Reordered.exists_entries hu
    exact ⟨h, rfl, hu⟩
  · rintro ⟨h, rfl, hh⟩
    exact ⟨_, _, _, _, rfl, rfl, hh, rfl, rfl⟩

instance : Codec.Readable Message where
  exists_ofTerm path {m t} h := by
    obtain ⟨h, rfl, -⟩ := reordered_toTerm_iff.1 h
    exact ⟨_, ofTerm_eq_ok_iff.2 rfl, rfl⟩

theorem everywhere_toTerm {P : Term → Prop} (hbytes : ∀ bs, P (.bytes bs)) (hseq : P m.toTerm)
    (hheader : Everywhere P (.map m.unprotectedHeader)) : Everywhere P m.toTerm := by
  refine everywhere_seq_iff.2 ⟨hseq, ?_⟩
  simp only [List.forall_mem_cons]
  exact ⟨.leaf (hbytes _) rfl, hheader, .leaf (hbytes _) rfl, .leaf (hbytes _) rfl, nofun⟩

theorem exists_toCbor_iff : (∃ bs, Codec.toCbor m = .ok bs) ↔
    (∃ bs, m.unprotectedHeader.encode = .ok bs) ∧ m.protectedBytes.length ≤ maxArgument ∧
      m.payload.length ≤ maxArgument ∧ m.signature.length ≤ maxArgument := by
  have hencode : (∃ bs, Codec.toCbor m = .ok bs) ↔ ∃ bs, encode m.toTerm = .ok bs := Iff.rfl
  rw [hencode, toTerm, exists_encode_seq_iff]
  simp only [List.forall_mem_cons, exists_encode_bytes_iff]
  constructor
  · rintro ⟨-, hp, hheader, hpayload, hsignature, -⟩
    exact ⟨hheader, hp, hpayload, hsignature⟩
  · rintro ⟨hheader, hp, hpayload, hsignature⟩
    exact ⟨show 4 ≤ maxArgument by decide, hp, hheader, hpayload, hsignature, nofun⟩

/-- A message whose unprotected header is given back by decoding is read back from its bytes as it
is, up to the order of entries in that header. -/
theorem exists_ofCbor {bs : Bytes} (hfaithful : Everywhere FaithfulAt (.map m.unprotectedHeader))
    (hbytes : Codec.toCbor m = .ok bs) (hlength : bs.length ≤ maxLength) :
    ∃ h, Codec.ofCbor bs = .ok { m with unprotectedHeader := h } ∧
      Codec.toCbor { m with unprotectedHeader := h } = .ok bs ∧
      Reordered (.map m.unprotectedHeader) (.map h) := by
  have hterm : Everywhere FaithfulAt m.toTerm :=
    everywhere_toTerm (fun _ => trivial) trivial hfaithful
  obtain ⟨m', hread, hwrite, hreordered⟩ :=
    Codec.exists_ofCbor (a := m) (.refl _) hterm hbytes hlength fun u hu => by
      obtain ⟨m', hm', rfl⟩ := Codec.Readable.exists_ofTerm (Codec.path Message) hu
      exact ⟨m', hm', .refl _⟩
  obtain ⟨h, hm', hh⟩ := reordered_toTerm_iff.1 hreordered
  obtain rfl := toTerm_injective hm'
  exact ⟨h, hread, hwrite, hh⟩

end Message

/-- The bytes that a signature covers determine the protected header and the payload, and there are
such bytes unless one of the two is too long for a head.  A message is written if its unprotected
header can be, and what is read back has the same protected bytes, payload and signature, covers the
same bytes, and has the same unprotected header up to the order of entries. -/
theorem signedData_transported :
    (∀ p b q c data, signedData p b = .ok data → signedData q c = .ok data → p = q ∧ b = c) ∧
    (∀ p b, (∃ data, signedData p b = .ok data) ↔
      p.length ≤ maxArgument ∧ b.length ≤ maxArgument) ∧
    ∀ m : Message, Everywhere FaithfulAt (.map m.unprotectedHeader) →
      (∃ bs, m.unprotectedHeader.encode = .ok bs) → m.protectedBytes.length ≤ maxArgument →
      m.payload.length ≤ maxArgument → m.signature.length ≤ maxArgument →
        ∃ bs data, Codec.toCbor m = .ok bs ∧ m.signedData = .ok data ∧
          (bs.length ≤ maxLength → ∃ m' : Message, Codec.ofCbor bs = .ok m' ∧
            Codec.toCbor m' = .ok bs ∧ m'.protectedBytes = m.protectedBytes ∧
            m'.payload = m.payload ∧ m'.signature = m.signature ∧ m'.signedData = .ok data ∧
            Reordered (.map m.unprotectedHeader) (.map m'.unprotectedHeader)) := by
  refine ⟨fun p b q c data => signedData_injective, fun p b => exists_signedData_iff, ?_⟩
  intro m hfaithful hheader hp hpayload hsignature
  obtain ⟨bs, hbs⟩ := Message.exists_toCbor_iff.2 ⟨hheader, hp, hpayload, hsignature⟩
  obtain ⟨data, hdata⟩ := exists_signedData_iff.2 ⟨hp, hpayload⟩
  refine ⟨bs, data, hbs, hdata, fun hlength => ?_⟩
  obtain ⟨h, hread, hwrite, hh⟩ := Message.exists_ofCbor hfaithful hbs hlength
  exact ⟨_, hread, hwrite, rfl, rfl, rfl, hdata, hh⟩

/-- A message whose protected bytes are no header, and whose unprotected header lists a longer label
first. -/
def unreadable : Message where
  protectedBytes := [0xFF]
  unprotectedHeader := [(.text "hashed", .bool false), (.int 4, .bytes [7])]
  payload := [1, 2]
  signature := [3]

/-- The bytes of that message, its labels in order. -/
def unreadableBytes : Bytes :=
  [0x84, 0x41, 0xFF, 0xA2, 4, 0x41, 7, 0x66, 0x68, 0x61, 0x73, 0x68, 0x65, 0x64, 0xF4, 0x42, 1, 2,
    0x41, 3]

theorem signedData_transported_unreadable :
    Everywhere FaithfulAt (.map unreadable.unprotectedHeader) ∧
    (∃ bs, unreadable.unprotectedHeader.encode = .ok bs) ∧
    unreadable.protectedBytes.length ≤ maxArgument ∧ unreadable.payload.length ≤ maxArgument ∧
    unreadable.signature.length ≤ maxArgument ∧ unreadableBytes.length ≤ maxLength ∧
    ∃ data, Codec.toCbor unreadable = .ok unreadableBytes ∧ unreadable.signedData = .ok data ∧
      (∀ q c, signedData q c = .ok data → [0xFF] = q ∧ [1, 2] = c) ∧
      ∃ m' : Message, Codec.ofCbor unreadableBytes = .ok m' ∧
        Codec.toCbor m' = .ok unreadableBytes ∧ m'.protectedBytes = unreadable.protectedBytes ∧
        m'.payload = unreadable.payload ∧ m'.signature = unreadable.signature ∧
        m'.signedData = .ok data ∧
        Reordered (.map unreadable.unprotectedHeader) (.map m'.unprotectedHeader) := by
  have hfaithful : Everywhere FaithfulAt (.map unreadable.unprotectedHeader) := by decide
  have hheader : ∃ bs, unreadable.unprotectedHeader.encode = .ok bs := ⟨_, rfl⟩
  have hp : unreadable.protectedBytes.length ≤ maxArgument := by decide
  have hpayload : unreadable.payload.length ≤ maxArgument := by decide
  have hsignature : unreadable.signature.length ≤ maxArgument := by decide
  have hlength : unreadableBytes.length ≤ maxLength := by decide
  have hbytes : Codec.toCbor unreadable = .ok unreadableBytes := rfl
  obtain ⟨bs, data, hbs, hdata, hread⟩ :=
    signedData_transported.2.2 unreadable hfaithful hheader hp hpayload hsignature
  obtain rfl := Except.ok.inj (hbytes.symm.trans hbs)
  exact ⟨hfaithful, hheader, hp, hpayload, hsignature, hlength, data, hbytes, hdata,
    fun q c => signedData_transported.1 [0xFF] [1, 2] q c data hdata, hread hlength⟩

end Eutxo.Cose

import Eutxo.Proofs.Cose.Transport
import Eutxo.Proofs.Cose.Verification
import Eutxo.Proofs.Text.Hex

/-!
# Signed envelopes

What a new envelope says is read back from it, whether the key stands in the
protected header or travels beside the message.  It is verified exactly if no
address was given or the address pays to the key.
-/

namespace Eutxo

open Traversal Term Cbor

/-! ## Sizes -/

namespace Cbor

theorem Head.length_write?_le {major : Major} {n : Nat} {head : Bytes}
    (h : Head.write? major n = some head) : head.length ≤ 9 := by
  obtain ⟨width, hwidth, hhead⟩ := Option.bind_eq_some_iff.1 h
  have hle : width ≤ 8 := by
    rw [minimalWidth?] at hwidth
    split_ifs at hwidth <;> cases hwidth <;> decide
  split_ifs at hhead with hzero
  · cases hhead
    exact Nat.le_add_left 1 8
  · cases hhead
    rw [List.length_cons, Bytes.length_ofNatBE]
    omega

namespace Item

/-- A data item without others below it takes a head at most beside its content. -/
theorem length_write?_le {x : Item} (hx : PlainAt x) (hleaf : Tree.children x = []) {bs : Bytes}
    (h : x.write? = some bs) : bs.length ≤ 9 + x.contentOf.length := by
  obtain ⟨a, below, ha, hbelow, rfl⟩ := write?_eq_some_iff.1 h
  obtain ⟨head, hhead, rfl⟩ := (opening?_eq_some_iff hx).1 ha
  rw [hleaf] at hbelow
  cases hbelow
  rw [List.append_nil, List.length_append]
  exact Nat.add_le_add_right (Head.length_write?_le hhead) _

theorem length_writeItems?_le {f : Item → Nat} {xs : List Item}
    (hf : ∀ x ∈ xs, ∀ bs, x.write? = some bs → bs.length ≤ f x) {bs : Bytes}
    (h : writeItems? xs = some bs) : bs.length ≤ (xs.map f).sum := by
  induction xs generalizing bs with
  | nil =>
    cases h
    exact Nat.le_refl 0
  | cons x xs ih =>
    obtain ⟨hx, hxs⟩ := List.forall_mem_cons.1 hf
    obtain ⟨a, ha, h⟩ := Option.bind_eq_some_iff.1 h
    obtain ⟨below, hbelow, h⟩ := Option.bind_eq_some_iff.1 h
    cases h
    rw [List.length_append, List.map_cons, List.sum_cons]
    exact Nat.add_le_add (hx a ha) (ih hxs hbelow)

end Item

/-- Decoding gives the node back as it is. -/
def TransportedAt (t : Term) : Prop := FaithfulAt t ∧ FitsAt maxLength t

/-- A term whose maps stand in the order of their encoded keys is written, and read back as it
is. -/
theorem exists_decode_encode {t : Term} (hself : canonical t = .ok t)
    (h : Everywhere TransportedAt t) :
    ∃ bs, encode t = .ok bs ∧ ∀ path, decode path bs = .ok t := by
  have hfaithful : Everywhere FaithfulAt t := h.imp fun _ => And.left
  have hfits : Everywhere (FitsAt maxLength) t := h.imp fun _ => And.right
  have hdistinct : Everywhere DistinctAt t :=
    (reordered_of_canonical hself).2.imp fun _ => AscendingAt.distinctAt
  obtain ⟨bs, hbs⟩ := exists_writeTerm (hfits.imp fun _ => FitsAt.mono (by decide))
  refine ⟨bs, encode_eq_ok_iff.2 ⟨t, hself, hbs⟩, fun path => ?_⟩
  exact decode_eq_ok_iff.2 ⟨Item.ofTerm t, writeTerm_eq_ok_iff.1 hbs,
    Item.strict_ofTerm hfaithful hdistinct hfits, Item.term_ofTerm hfaithful⟩

theorem transported_int {n : Int} (h : FitsAt maxLength (.int n)) :
    Everywhere TransportedAt (.int n) :=
  .leaf ⟨trivial, h⟩ rfl

theorem transported_bytes {bs : Bytes} (h : bs.length ≤ maxLength) :
    Everywhere TransportedAt (.bytes bs) :=
  .leaf ⟨trivial, h⟩ rfl

end Cbor

namespace Cose.Envelope

/-! ## Headers -/

section Header

variable {key : VerificationKey} {attachKey : Bool} {address : Option Bytes}

theorem mem_header_iff {e : Term × Term} : e ∈ header key address attachKey ↔
    e = (.int 1, .int (-8)) ∨ attachKey = false ∧ e = (.int 4, .bytes key.bytes) ∨
      ∃ a, address = some a ∧ e = (.text "address", .bytes a) := by
  cases attachKey <;> cases address <;>
    simp [header, Header.entry, Label.toTerm, algorithmLabel, keyIdLabel, addressLabel, edDSA,
      Codec.toTerm]

/-- The entries of a new header stand in the order of their encoded labels. -/
theorem canonical_header : canonical (.map (header key address attachKey)) =
    .ok (.map (header key address attachKey)) := by
  cases attachKey <;> cases address <;> rfl

theorem exists_decode_header (key : VerificationKey) (attachKey : Bool)
    (haddress : ∀ a ∈ address, a.length ≤ maxLength) :
    ∃ p, (header key address attachKey).encode = .ok p ∧
      ∀ path, decode path p = .ok (.map (header key address attachKey)) := by
  have hlength : (header key address attachKey).length ≤ 3 := by
    cases attachKey <;> cases address <;> simp [header]
  have hkey : key.bytes.length ≤ maxLength := key.length_bytes.trans_le (by decide)
  have hlabel : Everywhere TransportedAt (.text "address") := .leaf ⟨by decide, by decide⟩ rfl
  apply exists_decode_encode canonical_header
  refine everywhere_map_iff.2 ⟨⟨trivial, hlength.trans (by decide)⟩, fun e he => ?_⟩
  rcases mem_header_iff.1 he with rfl | ⟨-, rfl⟩ | ⟨a, ha, rfl⟩
  · exact ⟨transported_int (n := 1) (by decide), transported_int (n := -8) (by decide)⟩
  · exact ⟨transported_int (n := 4) (by decide), transported_bytes hkey⟩
  · exact ⟨hlabel, transported_bytes (haddress a ha)⟩

/-- What the labels and values of a new header take at most. -/
theorem sum_contents_header_le (key : VerificationKey) (attachKey : Bool)
    (address : Option Bytes) :
    (((entryNodes (header key address attachKey)).map Item.ofTerm).map
      fun x => 9 + x.contentOf.length).sum ≤ address.elim 0 List.length + 93 := by
  have hone : (Item.ofTerm (.int 1)).contentOf = [] := rfl
  have hedDSA : (Item.ofTerm (.int (-8))).contentOf = [] := rfl
  have hfour : (Item.ofTerm (.int 4)).contentOf = [] := rfl
  have hbytes : ∀ bs, (Item.ofTerm (.bytes bs)).contentOf = bs := fun _ => rfl
  have hlabel : (Item.ofTerm (.text "address")).contentOf.length = 7 := rfl
  have hkey : key.bytes.length = 32 := key.length_bytes
  cases attachKey <;> cases address <;>
    simp [header, Header.entry, Label.toTerm, algorithmLabel, keyIdLabel, addressLabel, edDSA,
      Codec.toTerm, entryNodes, hone, hedDSA, hfour, hbytes, hlabel, hkey] <;> omega

/-- A new header is hardly longer than the address in it. -/
theorem length_encode_header_le {p : Bytes} (h : (header key address attachKey).encode = .ok p) :
    p.length ≤ address.elim 0 List.length + 128 := by
  obtain ⟨u, hu, hwrite⟩ := encode_eq_ok_iff.1 h
  cases canonical_header.symm.trans hu
  obtain ⟨head, below, hhead, hbelow, rfl⟩ :=
    Item.write?_eq_some_iff.1 (writeTerm_eq_ok_iff.1 hwrite)
  have hhead : head.length ≤ 9 := Head.length_write?_le hhead
  -- Below the head there are three entries at most, and nothing below their keys and values.
  have hnodes : Tree.children (Item.ofTerm (.map (header key address attachKey))) =
      (entryNodes (header key address attachKey)).map Item.ofTerm := Item.entryNodes_ofEntries _
  have hleaves : ∀ x ∈ (entryNodes (header key address attachKey)).map Item.ofTerm,
      Item.PlainAt x ∧ Tree.children x = [] := by
    intro x hx
    obtain ⟨t, ht, rfl⟩ := List.mem_map.1 hx
    obtain ⟨e, he, ht⟩ := mem_entryNodes.1 ht
    rcases mem_header_iff.1 he with rfl | ⟨-, rfl⟩ | ⟨a, -, rfl⟩ <;>
      rcases ht with rfl | rfl <;> exact ⟨trivial, rfl⟩
  rw [hnodes] at hbelow
  have hbelow := Item.length_writeItems?_le (f := fun x => 9 + x.contentOf.length)
    (fun x hx _ => Item.length_write?_le (hleaves x hx).1 (hleaves x hx).2) hbelow
  have hroom := sum_contents_header_le key attachKey address
  rw [List.length_append]
  omega

theorem length_encode_header_le_maxLength {p : Bytes}
    (h : (header key address attachKey).encode = .ok p)
    (haddress : ∀ a ∈ address, a.length + 128 ≤ maxLength) : p.length ≤ maxLength := by
  have hle := length_encode_header_le h
  cases address with
  | none => exact hle.trans (by decide)
  | some a => exact hle.trans (haddress a rfl)

end Header

/-! ## Key maps -/

/-- A key map is written, and it spells its key. -/
theorem exists_keyText (key : VerificationKey) :
    ∃ text, keyText key = .ok text ∧ KeyMapSpells text key := by
  have hints : ∀ n ∈ [1, 3, -8, -1, 6, -2], Everywhere TransportedAt (.int n) := by
    have hfits : ∀ n ∈ [1, 3, -8, -1, 6, -2], FitsAt maxLength (.int n) := by decide
    exact fun n hn => transported_int (hfits n hn)
  have hkey : key.bytes.length ≤ maxLength := key.length_bytes.trans_le (by decide)
  have htransported : Everywhere TransportedAt (Key.mk key).toTerm := by
    refine everywhere_map_iff.2 ⟨⟨trivial, show 4 ≤ maxLength by decide⟩, ?_⟩
    simp only [List.forall_mem_cons] at hints ⊢
    obtain ⟨hone, hthree, hedDSA, hcurve, hsix, hpublic, -⟩ := hints
    exact ⟨⟨hone, hone⟩, ⟨hthree, hedDSA⟩, ⟨hcurve, hsix⟩, ⟨hpublic, transported_bytes hkey⟩, nofun⟩
  obtain ⟨bs, hbs, hdecode⟩ := exists_decode_encode rfl htransported
  refine ⟨bs.toHex, bind_eq_ok.2 ⟨bs, hbs, rfl⟩, ?_⟩
  refine ⟨_, ⟨bs, Bytes.ofHex?_toHex bs, hdecode .input⟩, ?_, ?_, ?_, ?_⟩
  · exact .head _
  · exact .tail _ (.head _)
  · exact .tail _ (.tail _ (.head _))
  · exact .tail _ (.tail _ (.tail _ (.head _)))

/-! ## Messages -/

/-- The message that a payload becomes when it is signed. -/
structure Signed (payload : Bytes) (key : SigningKey) (address : Option Bytes) (attachKey : Bool)
    (m : Message) : Prop where
  header : (header key.verificationKey address attachKey).encode = .ok m.protectedBytes
  unprotectedHeader : m.unprotectedHeader = [Header.entry hashedLabel (.bool false)]
  payload : m.payload = payload
  signature : ∃ data, m.signedData = .ok data ∧ m.signature = (key.sign data).bytes

section Signed

variable {payload : Bytes} {key : SigningKey} {address : Option Bytes} {attachKey : Bool}
  {m : Message}

theorem exists_signed (key : SigningKey) (attachKey : Bool)
    (hpayload : payload.length ≤ maxLength)
    (haddress : ∀ a ∈ address, a.length + 128 ≤ maxLength) :
    ∃ m, Signed payload key address attachKey m := by
  obtain ⟨p, hp, -⟩ := exists_decode_header key.verificationKey attachKey
    fun a ha => Nat.le_of_add_right_le (haddress a ha)
  have hwritable : maxLength ≤ maxArgument := by decide
  obtain ⟨data, hdata⟩ := exists_signedData_iff.2
    ⟨(length_encode_header_le_maxLength hp haddress).trans hwritable, hpayload.trans hwritable⟩
  exact ⟨⟨p, [Header.entry hashedLabel (.bool false)], payload, (key.sign data).bytes⟩,
    ⟨hp, rfl, rfl, data, hdata, rfl⟩⟩

namespace Signed

variable (h : Signed payload key address attachKey m)

include h

/-- A signed message is written, and its text spells it. -/
theorem exists_toCbor (hpayload : payload.length ≤ maxLength)
    (haddress : ∀ a ∈ address, a.length + 128 ≤ maxLength) :
    ∃ bs, Codec.toCbor m = .ok bs ∧ HexSpells bs.toHex m.toTerm := by
  obtain ⟨data, -, hsignature⟩ := h.signature
  have hsize : m.signature.length ≤ maxLength := by
    rw [hsignature, (key.sign data).length_bytes]
    decide
  have hflag : Everywhere TransportedAt (.map m.unprotectedHeader) := by
    rw [h.unprotectedHeader]
    refine everywhere_map_iff.2 ⟨⟨trivial, show 1 ≤ maxLength by decide⟩, ?_⟩
    exact List.forall_mem_singleton.2
      ⟨.leaf ⟨by decide, by decide⟩ rfl, .leaf ⟨trivial, trivial⟩ rfl⟩
  have hself : canonical m.toTerm = .ok m.toTerm := by
    rw [Message.toTerm, h.unprotectedHeader]
    rfl
  have htransported : Everywhere TransportedAt m.toTerm := by
    refine everywhere_seq_iff.2 ⟨⟨trivial, show 4 ≤ maxLength by decide⟩, ?_⟩
    simp only [List.forall_mem_cons]
    exact ⟨transported_bytes (length_encode_header_le_maxLength h.header haddress), hflag,
      transported_bytes (h.payload ▸ hpayload), transported_bytes hsize, List.forall_mem_nil _⟩
  obtain ⟨bs, hbs, hdecode⟩ := exists_decode_encode hself htransported
  exact ⟨bs, hbs, bs, Bytes.ofHex?_toHex bs, hdecode .input⟩

/-- A signed message is taken apart into what was signed, if the key stands in it or beside it. -/
theorem parses (haddress : ∀ a ∈ address, a.length ≤ maxLength) {text : Text}
    (htext : HexSpells text m.toTerm) {beside : Option Text}
    (hbeside : match beside with
      | some beside => KeyMapSpells beside key.verificationKey
      | none => attachKey = false) :
    Parses ⟨text, beside⟩ ⟨m, key.verificationKey, address⟩ := by
  obtain ⟨p, hp, hdecode⟩ := exists_decode_header key.verificationKey attachKey haddress
  cases h.header.symm.trans hp
  refine ⟨htext, ?_, _, hdecode _, mem_header_iff.2 (.inl rfl), ?_, fun t => ?_⟩
  · intro t ht
    rw [h.unprotectedHeader, List.mem_singleton] at ht
    exact congrArg Prod.snd ht
  · cases beside with
    | some beside => exact hbeside
    | none => exact mem_header_iff.2 (.inr (.inl ⟨hbeside, rfl⟩))
  · rw [mem_header_iff, Option.map_eq_some_iff]
    simp [eq_comm]

theorem signatureMatches_iff : signatureMatches m key.verificationKey = true ↔
    ∀ data, m.signedData = .ok data → key.Accepted data := by
  obtain ⟨data, hdata, hsignature⟩ := h.signature
  have hread : Signature.ofBytes m.signature = .ok (key.sign data) := by
    rw [hsignature]
    exact dif_pos (key.sign data).length_bytes
  rw [signatureMatches, hdata, hread]
  simp [SigningKey.Accepted]

/-- What was signed is read from the message, and the verdict is that on the address alone. -/
theorem verify_eq (haddress : ∀ a ∈ address, a.length ≤ maxLength)
    (haccepted : ∀ data, signedData m.protectedBytes payload = .ok data → key.Accepted data)
    {text : Text} (htext : HexSpells text m.toTerm) {beside : Option Text}
    (hbeside : match beside with
      | some beside => KeyMapSpells beside key.verificationKey
      | none => attachKey = false) :
    verify ⟨text, beside⟩ =
      ⟨addressMatches address key.verificationKey, payload, Text.ofUtf8 payload, address⟩ := by
  have hmatches : signatureMatches m key.verificationKey = true :=
    h.signatureMatches_iff.2 fun data hdata => haccepted data (h.payload ▸ hdata)
  rw [verify_of_parses (h.parses haddress htext hbeside), hmatches, Bool.true_and, h.payload]

end Signed

/-- A payload of any kind is signed, and the envelope holds the texts of the message and of the key
map. -/
theorem exists_build (key : SigningKey) (attachKey : Bool) (hpayload : payload.length ≤ maxLength)
    (haddress : ∀ a ∈ address, a.length + 128 ≤ maxLength) :
    ∃ m bs text, Signed payload key address attachKey m ∧ HexSpells (Bytes.toHex bs) m.toTerm ∧
      keyText key.verificationKey = .ok text ∧ KeyMapSpells text key.verificationKey ∧
        build payload key address attachKey =
          .ok ⟨bs.toHex, if attachKey then some text else none⟩ := by
  obtain ⟨m, hm⟩ := exists_signed key attachKey hpayload haddress
  obtain ⟨bs, hbs, hspells⟩ := hm.exists_toCbor hpayload haddress
  obtain ⟨text, htext, hkeyMap⟩ := exists_keyText key.verificationKey
  refine ⟨m, bs, text, hm, hspells, htext, hkeyMap, ?_⟩
  obtain ⟨p, unprotectedHeader, payload, signature⟩ := m
  obtain ⟨hp, rfl, rfl, data, hdata, rfl⟩ := hm
  refine bind_eq_ok.2 ⟨p, hp, bind_eq_ok.2 ⟨data, hdata, bind_eq_ok.2 ⟨bs, hbs, ?_⟩⟩⟩
  cases attachKey with
  | true => exact bind_eq_ok.2 ⟨text, htext, rfl⟩
  | false => rfl

/-- What is signed is read back unaltered, and it is verified exactly if no address was given or the
address pays to the key. -/
theorem verify_build (payload : Bytes) (key : SigningKey) (address : Option Bytes)
    (attachKey : Bool) (hpayload : payload.length ≤ maxLength)
    (haddress : ∀ a ∈ address, a.length + 128 ≤ maxLength)
    (haccepted : ∀ p data, (header key.verificationKey address attachKey).encode = .ok p →
      signedData p payload = .ok data → key.Accepted data) :
    ∃ e, build payload key address attachKey = .ok e ∧
      (e.verify.verified = true ↔ address = none ∨ ∃ a, address = some a ∧
        Address.paymentKeyHash? a = some key.verificationKey.hash) ∧
      e.verify.payload = payload ∧ e.verify.signingAddress = address ∧
      e.verify.message = Text.ofUtf8 payload ∧
      ∀ t : Text, t.WellFormed → payload = t.toUtf8 → e.verify.message = t := by
  obtain ⟨m, bs, text, hm, hspells, -, hkeyMap, hbuild⟩ :=
    exists_build key attachKey hpayload haddress
  have hbeside : match (if attachKey then some text else none) with
      | some beside => KeyMapSpells beside key.verificationKey
      | none => attachKey = false := by
    cases attachKey with
    | true => exact hkeyMap
    | false => rfl
  have hverify := hm.verify_eq (fun a ha => Nat.le_of_add_right_le (haddress a ha))
    (fun data hdata => haccepted _ data hm.header hdata) hspells hbeside
  refine ⟨_, hbuild, ?_⟩
  rw [hverify]
  refine ⟨?_, rfl, rfl, rfl, fun t ht hpayload => ?_⟩
  · cases address with
    | none => simp [addressMatches]
    | some a => simp [addressMatches]
  · rw [hpayload, Text.ofUtf8_toUtf8 ht]

/-- A short payload. -/
def greeting : Bytes := [0x68, 0x69]

/-- The address that pays to the key and delegates nothing, on a test network. -/
def home : Bytes := 0x60 :: SigningKey.nines.verificationKey.hash.bytes

theorem enterprise_home :
    Address.enterprise SigningKey.nines.verificationKey.hash (.integer 0) = .ok home := rfl

theorem home_fits : ∀ a ∈ some home, a.length + 128 ≤ maxLength := by
  intro a ha
  cases ha
  rw [(paysTo_of_enterprise enterprise_home).1]
  decide

theorem paymentKeyHash?_home :
    Address.paymentKeyHash? home = some SigningKey.nines.verificationKey.hash :=
  paymentKeyHash?_eq_some_hash_iff.2 (paysTo_of_enterprise enterprise_home).2

theorem accepted_greeting {p data : Bytes}
    (hp : (header SigningKey.nines.verificationKey (some home) true).encode = .ok p)
    (hdata : signedData p greeting = .ok data) : SigningKey.nines.Accepted data := by
  have hrun : (do
      let p ← (header SigningKey.nines.verificationKey (some home) true).encode
      let data ← signedData p greeting
      return decide (SigningKey.nines.Accepted data)).toOption = some true := by decide +kernel
  rw [hp, ok_bind, hdata, ok_bind] at hrun
  simpa [pure, Except.pure, Except.toOption] using hrun

theorem verify_build_greeting : greeting.length ≤ maxLength ∧
    (∀ a ∈ some home, a.length + 128 ≤ maxLength) ∧
    (∀ p data, (header SigningKey.nines.verificationKey (some home) true).encode = .ok p →
      signedData p greeting = .ok data → SigningKey.nines.Accepted data) ∧
    ∃ e, build greeting SigningKey.nines (some home) true = .ok e ∧ e.verify.verified = true ∧
      e.verify.signingAddress = some home ∧ e.verify.message = "hi" := by
  have hlength : greeting.length ≤ maxLength := by decide
  obtain ⟨e, he, hverified, -, haddress, -, hmessage⟩ :=
    verify_build greeting SigningKey.nines (some home) true hlength home_fits
      fun _ _ => accepted_greeting
  exact ⟨hlength, home_fits, fun _ _ => accepted_greeting, e, he,
    hverified.2 (.inr ⟨home, rfl, paymentKeyHash?_home⟩), haddress, hmessage "hi" (by decide) rfl⟩

end Signed

end Cose.Envelope

end Eutxo

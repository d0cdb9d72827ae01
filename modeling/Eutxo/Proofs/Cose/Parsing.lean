import Eutxo.Cose.Envelope
import Eutxo.Proofs.Cbor.Stability
import Eutxo.Proofs.Key

/-!
# Taking signed messages apart

An envelope is taken apart with success exactly if its texts spell terms of the
expected forms.  Decoding refuses repeated keys, so that what is found first
under a label is all that stands there.
-/

namespace Eutxo

open Traversal Term Cbor

namespace Cose

/-! ## Headers -/

namespace Header

variable {h : Header} {label : Label}

/-- In a map without repeated keys, what is found under a label is what stands there. -/
theorem get?_eq_some_iff (hdistinct : DistinctAt (.map h)) (label : Label) {t : Term} :
    h.get? label = some t ↔ (label.toTerm, t) ∈ h :=
  Table.get?_eq_some_iff (t := ⟨h, hdistinct.nodup_keys⟩)

theorem get?_eq_none_iff : h.get? label = none ↔ ∀ t, (label.toTerm, t) ∉ h := by
  rw [get?, Option.map_eq_none_iff, List.find?_eq_none, Prod.forall]
  constructor
  · intro hnone t hmem
    exact hnone label.toTerm t hmem (decide_eq_true rfl)
  · intro hnone k t hmem hkey
    have hkey : k = label.toTerm := of_decide_eq_true hkey
    exact hnone t (hkey ▸ hmem)

end Header

/-! ## Messages -/

theorem Message.ofTerm_eq_ok_iff {path : Path} {t : Term} {m : Message} :
    Message.ofTerm path t = .ok m ↔ t = m.toTerm := by
  constructor
  · intro h
    obtain ⟨items, hitems, hrest⟩ := bind_eq_ok.1 h
    rw [eq_seq_of_asFixedSequence hitems]
    match items, hrest with
    | [protectedBytes, unprotectedHeader, payload, signature], hrest =>
      obtain ⟨p, hp, hrest⟩ := bind_eq_ok.1 hrest
      obtain ⟨u, hu, hrest⟩ := bind_eq_ok.1 hrest
      obtain ⟨bs, hbs, hrest⟩ := bind_eq_ok.1 hrest
      obtain ⟨s, hs, hpure⟩ := bind_eq_ok.1 hrest
      cases hpure
      rw [asBytes_eq_ok_iff.1 hp, asMap_eq_ok_iff.1 hu, asBytes_eq_ok_iff.1 hbs,
        asBytes_eq_ok_iff.1 hs]
      rfl
    | [], hrest => cases hrest
    | [_], hrest => cases hrest
    | [_, _], hrest => cases hrest
    | [_, _, _], hrest => cases hrest
    | _ :: _ :: _ :: _ :: _ :: _, hrest => cases hrest
  · rintro rfl
    rfl

instance : Codec.Exact Message where
  toTerm_eq h := (Message.ofTerm_eq_ok_iff.1 h).symm

/-- No bytes stand for a header without entries, all others for the map that they spell. -/
theorem Message.protectedHeader_eq_ok_iff {m : Message} {h : Header} :
    m.protectedHeader = .ok h ↔
      m.protectedBytes = [] ∧ h = [] ∨ decode protectedPath m.protectedBytes = .ok (.map h) := by
  have hempty : ∀ t, decode protectedPath [] ≠ .ok t := nofun
  rw [protectedHeader]
  cases hbytes : m.protectedBytes with
  | nil =>
    simp only [List.isEmpty_nil, if_true, Except.ok.injEq, true_and, hempty, or_false]
    exact eq_comm
  | cons b bs =>
    simp only [List.isEmpty_cons, Bool.false_eq_true, if_false, reduceCtorEq, false_and, false_or]
    rw [bind_eq_ok]
    constructor
    · rintro ⟨t, ht, hmap⟩
      rw [ht, asMap_eq_ok_iff.1 hmap]
    · intro ht
      exact ⟨.map h, ht, rfl⟩

/-! ## Key maps -/

namespace Key

variable {path : Path}

theorem field_eq_ok_iff {entries : Header} {label : Int} {t : Term} :
    field path entries label = .ok t ↔ entries.get? (.int label) = some t := by
  rw [field]
  cases entries.get? (.int label) with
  | none => simp
  | some u => simp

theorem require_eq_ok_iff {entries : Header} {label expected : Int} :
    require path entries label expected = .ok () ↔
      entries.get? (.int label) = some (.int expected) := by
  rw [require, bind_eq_ok]
  constructor
  · rintro ⟨t, ht, hrest⟩
    obtain ⟨found, hint, hrest⟩ := bind_eq_ok.1 hrest
    split_ifs at hrest with heq
    rw [field_eq_ok_iff.1 ht, asInt_eq_ok_iff.1 hint, heq]
  · intro hget
    exact ⟨.int expected, field_eq_ok_iff.2 hget, if_pos rfl⟩

theorem ofTerm_eq_ok_iff {t : Term} {k : Key} :
    Key.ofTerm path t = .ok k ↔ ∃ entries : Header, t = .map entries ∧
      entries.get? (.int 1) = some (.int 1) ∧ entries.get? (.int 3) = some (.int (-8)) ∧
      entries.get? (.int (-1)) = some (.int 6) ∧
      entries.get? (.int (-2)) = some (.bytes k.verificationKey.bytes) := by
  constructor
  · intro h
    obtain ⟨entries, hentries, hrest⟩ := bind_eq_ok.1 h
    obtain ⟨⟨⟩, htype, hrest⟩ := bind_eq_ok.1 hrest
    obtain ⟨⟨⟩, halgorithm, hrest⟩ := bind_eq_ok.1 hrest
    obtain ⟨⟨⟩, hcurve, hrest⟩ := bind_eq_ok.1 hrest
    obtain ⟨u, hu, hrest⟩ := bind_eq_ok.1 hrest
    obtain ⟨key, hkey, hpure⟩ := bind_eq_ok.1 hrest
    cases hpure
    have hbytes : u = .bytes key.bytes := Codec.ofTerm_eq_ok_iff.1 hkey
    exact ⟨entries, asMap_eq_ok_iff.1 hentries, require_eq_ok_iff.1 htype,
      require_eq_ok_iff.1 halgorithm, require_eq_ok_iff.1 hcurve, hbytes ▸ field_eq_ok_iff.1 hu⟩
  · rintro ⟨entries, rfl, htype, halgorithm, hcurve, hpublic⟩
    refine bind_eq_ok.2 ⟨entries, rfl, bind_eq_ok.2 ⟨(), require_eq_ok_iff.2 htype, ?_⟩⟩
    refine bind_eq_ok.2 ⟨(), require_eq_ok_iff.2 halgorithm, ?_⟩
    refine bind_eq_ok.2 ⟨(), require_eq_ok_iff.2 hcurve, ?_⟩
    refine bind_eq_ok.2 ⟨_, field_eq_ok_iff.2 hpublic, ?_⟩
    exact bind_eq_ok.2 ⟨k.verificationKey, Codec.Rigid.ofTerm_toTerm _ k.verificationKey, rfl⟩

end Key

/-! ## Envelopes -/

/-- The text is hexadecimal for bytes that decode to the term. -/
def HexSpells (text : Text) (t : Term) : Prop :=
  ∃ bs, Bytes.ofHex? text = some bs ∧ decode .input bs = .ok t

theorem HexSpells.distinctAt {text : Text} {t : Term} (h : HexSpells text t) :
    Everywhere DistinctAt t := by
  obtain ⟨bs, -, hdecode⟩ := h
  exact (encodable_of_decode hdecode).imp fun _ hu => hu.2

theorem ofCborHex_eq_ok_iff {α : Type} [Codec α] {text : Text} {a : α} :
    Codec.ofCborHex text = .ok a ↔
      ∃ t, HexSpells text t ∧ Codec.ofTerm (Codec.path α) t = .ok a := by
  constructor
  · intro h
    obtain ⟨bs, hbs, hread⟩ := bind_eq_ok.1 h
    obtain ⟨t, ht, hterm⟩ := bind_eq_ok.1 hread
    rw [parseHex] at hbs
    split at hbs
    · next hhex =>
      cases hbs
      exact ⟨t, ⟨bs, hhex, ht⟩, hterm⟩
    · cases hbs
  · rintro ⟨t, ⟨bs, hhex, ht⟩, hterm⟩
    rw [Codec.ofCborHex, parseHex, hhex, ok_bind, Codec.ofCbor, ht, ok_bind, hterm]

/-- The text spells a key map of an Ed25519 key for EdDSA. -/
def KeyMapSpells (text : Text) (key : VerificationKey) : Prop :=
  ∃ entries, HexSpells text (.map entries) ∧ (.int 1, .int 1) ∈ entries ∧
    (.int 3, .int (-8)) ∈ entries ∧ (.int (-1), .int 6) ∈ entries ∧
    (.int (-2), .bytes key.bytes) ∈ entries

theorem ofCborHex_message_iff {text : Text} {m : Message} :
    Codec.ofCborHex text = .ok m ↔ HexSpells text m.toTerm := by
  rw [ofCborHex_eq_ok_iff]
  constructor
  · rintro ⟨t, ht, hterm⟩
    exact Message.ofTerm_eq_ok_iff.1 hterm ▸ ht
  · intro h
    exact ⟨m.toTerm, h, Message.ofTerm_eq_ok_iff.2 rfl⟩

theorem ofCborHex_key_iff {text : Text} {k : Key} :
    Codec.ofCborHex text = .ok k ↔ KeyMapSpells text k.verificationKey := by
  have hlookup : ∀ {entries : Header}, HexSpells text (.map entries) →
      ∀ (n : Int) (t : Term), entries.get? (.int n) = some t ↔ (.int n, t) ∈ entries :=
    fun h n t => Header.get?_eq_some_iff h.distinctAt.here _
  rw [ofCborHex_eq_ok_iff]
  constructor
  · rintro ⟨t, ht, hterm⟩
    obtain ⟨entries, rfl, hentries⟩ := Key.ofTerm_eq_ok_iff.1 hterm
    simp only [hlookup ht] at hentries
    exact ⟨entries, ht, hentries⟩
  · rintro ⟨entries, ht, hentries⟩
    simp only [← hlookup ht] at hentries
    exact ⟨.map entries, ht, Key.ofTerm_eq_ok_iff.2 ⟨entries, rfl, hentries⟩⟩

namespace Envelope

/-- The texts of an envelope spell its content. -/
structure Parses (e : Envelope) (c : Contents) : Prop where
  /-- The message is a sequence of its four parts. -/
  message : HexSpells e.signature (.seq [.bytes c.message.protectedBytes,
    .map c.message.unprotectedHeader, .bytes c.message.payload, .bytes c.message.signature])
  /-- If the payload is flagged at all, it is as no hash. -/
  plain : ∀ t, (.text "hashed", t) ∈ c.message.unprotectedHeader → t = .bool false
  /-- The protected header names EdDSA, the key unless one stands beside the message, and the
  address if there is one. -/
  header : ∃ h : Header, decode Message.protectedPath c.message.protectedBytes = .ok (.map h) ∧
    (.int 1, .int (-8)) ∈ h ∧
    (match e.key with
      | some beside => KeyMapSpells beside c.key
      | none => (.int 4, .bytes c.key.bytes) ∈ h) ∧
    ∀ t, (.text "address", t) ∈ h ↔ c.address.map .bytes = some t

theorem requireEdDSA_eq_ok_iff {h : Header} :
    requireEdDSA h = .ok () ↔ h.get? algorithmLabel = some (.int (-8)) := by
  rw [requireEdDSA]
  split
  · next n hget =>
    rw [hget]
    split_ifs with heq
    · simp [heq, edDSA]
    · simpa [edDSA] using heq
  · next hother =>
    simp only [reduceCtorEq, false_iff]
    exact hother _

theorem requirePlain_eq_ok_iff {h : Header} (hdistinct : DistinctAt (.map h)) :
    requirePlain h = .ok () ↔ ∀ t, (.text "hashed", t) ∈ h → t = .bool false := by
  rw [requirePlain]
  split
  · next hget =>
    have hnone := Header.get?_eq_none_iff.1 hget
    simp only [true_iff]
    exact fun t hmem => absurd hmem (hnone t)
  · next u hget =>
    have hmem : ∀ t, (.text "hashed", t) ∈ h ↔ t = u := fun t => by
      refine (Header.get?_eq_some_iff hdistinct hashedLabel).symm.trans ?_
      rw [hget, Option.some.injEq]
      exact eq_comm
    simp only [hmem, forall_eq]
    cases u with
    | bool b => cases b <;> simp [asBool, bind, Except.bind]
    | _ => simp [asBool, mismatch, bind, Except.bind]

theorem keyOf_eq_ok_iff {beside : Option Text} {h : Header} (hdistinct : DistinctAt (.map h))
    {key : VerificationKey} :
    keyOf beside h = .ok key ↔ match beside with
      | some beside => KeyMapSpells beside key
      | none => (.int 4, .bytes key.bytes) ∈ h := by
  cases beside with
  | some beside =>
    rw [keyOf, bind_eq_ok]
    constructor
    · rintro ⟨k, hk, hpure⟩
      cases hpure
      exact ofCborHex_key_iff.1 hk
    · intro hspells
      exact ⟨⟨key⟩, ofCborHex_key_iff.2 hspells, rfl⟩
  | none =>
    have hlookup : (.int 4, .bytes key.bytes) ∈ h ↔ h.get? keyIdLabel = some (.bytes key.bytes) :=
      (Header.get?_eq_some_iff hdistinct keyIdLabel).symm
    rw [keyOf, hlookup]
    cases h.get? keyIdLabel with
    | none => simp
    | some t =>
      simp only [Option.some.injEq]
      exact Codec.ofTerm_eq_ok_iff

theorem addressOf_eq_ok_iff {h : Header} (hdistinct : DistinctAt (.map h))
    {address : Option Bytes} :
    addressOf h = .ok address ↔
      ∀ t, (.text "address", t) ∈ h ↔ address.map .bytes = some t := by
  have hlookup : ∀ t, (.text "address", t) ∈ h ↔ h.get? addressLabel = some t :=
    fun t => (Header.get?_eq_some_iff hdistinct addressLabel).symm
  simp only [hlookup, ← Option.ext_iff]
  rw [addressOf]
  cases h.get? addressLabel with
  | none => cases address <;> simp
  | some t =>
    rw [bind_eq_ok]
    constructor
    · rintro ⟨a, ha, hpure⟩
      cases hpure
      rw [asBytes_eq_ok_iff.1 ha]
      rfl
    · intro hsome
      obtain ⟨a, rfl, rfl⟩ := Option.map_eq_some_iff.1 hsome.symm
      exact ⟨a, rfl, rfl⟩

/-- An envelope is taken apart into a content exactly if its texts spell the content. -/
theorem contents_eq_ok_iff {e : Envelope} {c : Contents} : e.contents = .ok c ↔ e.Parses c := by
  constructor
  · intro h
    obtain ⟨m, hm, hrest⟩ := bind_eq_ok.1 h
    obtain ⟨header, hheader, hrest⟩ := bind_eq_ok.1 hrest
    obtain ⟨⟨⟩, halgorithm, hrest⟩ := bind_eq_ok.1 hrest
    obtain ⟨⟨⟩, hplain, hrest⟩ := bind_eq_ok.1 hrest
    obtain ⟨key, hkey, hrest⟩ := bind_eq_ok.1 hrest
    obtain ⟨address, haddress, hpure⟩ := bind_eq_ok.1 hrest
    cases hpure
    have hspells := ofCborHex_message_iff.1 hm
    have halgorithm := requireEdDSA_eq_ok_iff.1 halgorithm
    rcases Message.protectedHeader_eq_ok_iff.1 hheader with ⟨-, rfl⟩ | hdecode
    · -- An empty header names no algorithm.
      cases halgorithm
    · -- Decoded maps have no key twice, so what is found under a label is all that stands there.
      have hdistinct : DistinctAt (.map header) := (encodable_of_decode hdecode).here.2
      have hunprotected : DistinctAt (.map m.unprotectedHeader) :=
        (everywhere_seq_iff.1 hspells.distinctAt).2 _ (by simp) |>.here
      exact ⟨hspells, (requirePlain_eq_ok_iff hunprotected).1 hplain, header, hdecode,
        (Header.get?_eq_some_iff hdistinct _).1 halgorithm, (keyOf_eq_ok_iff hdistinct).1 hkey,
        (addressOf_eq_ok_iff hdistinct).1 haddress⟩
  · rintro ⟨hspells, hplain, header, hdecode, halgorithm, hkey, haddress⟩
    have hdistinct : DistinctAt (.map header) := (encodable_of_decode hdecode).here.2
    have hunprotected : DistinctAt (.map c.message.unprotectedHeader) :=
      (everywhere_seq_iff.1 hspells.distinctAt).2 _ (by simp) |>.here
    have hmessage : Codec.ofCborHex e.signature = .ok c.message := ofCborHex_message_iff.2 hspells
    have hheader : c.message.protectedHeader = .ok header :=
      Message.protectedHeader_eq_ok_iff.2 (.inr hdecode)
    have halgorithm : requireEdDSA header = .ok () :=
      requireEdDSA_eq_ok_iff.2 ((Header.get?_eq_some_iff hdistinct _).2 halgorithm)
    rw [contents, hmessage, ok_bind, hheader, ok_bind, halgorithm, ok_bind,
      (requirePlain_eq_ok_iff hunprotected).2 hplain, ok_bind, (keyOf_eq_ok_iff hdistinct).2 hkey,
      ok_bind, (addressOf_eq_ok_iff hdistinct).2 haddress, ok_bind]
    rfl

end Envelope

end Cose

end Eutxo

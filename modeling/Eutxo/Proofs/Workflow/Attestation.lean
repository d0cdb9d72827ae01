import Eutxo.Proofs.Cose.Signing
import Eutxo.Proofs.Metadata.Auxiliary
import Eutxo.Proofs.Metadata.NoSchema
import Eutxo.Proofs.Text.Chunks
import Eutxo.Proofs.Workflow.Basic
import Eutxo.Workflow.Attestation

/-!
# Attested documents verify

The signed message of a document goes into metadata in chunks, is shown as JSON
by an indexer and put together again by whoever verifies it.  Nothing is lost
on the way, and the key that is known beforehand does what one that travels
along would do.
-/

namespace Eutxo

open Traversal Term Cbor

/-! ## Metadata -/

namespace Attestation

variable {document signature : Text}

/-- The metadatum that attests a document by a signed message. -/
def attested (document signature : Text) : Term :=
  .map [(.text document,
    .map [(.text signatureMember, .seq ((signature.chunks maxMetadatumSize).map .text))])]

/-- Such a metadatum in the form of JSON without a schema. -/
def shown (document signature : Text) : NoSchema :=
  .object [(document,
    .object [(signatureMember, .list ((signature.chunks maxMetadatumSize).map .text))])]

theorem problem?_attested (hdocument : document.toUtf8.length ≤ maxMetadatumSize)
    (hsignature : ∀ u ∈ signature.units, u.toNat < 0x80) :
    Metadatum.problem? (attested document signature) = none := by
  have hshort : ∀ t : Text, t.toUtf8.length ≤ maxMetadatumSize →
      Everywhere Metadatum.NodeAt (.text t) := fun t ht => .leaf ht rfl
  have hchunks : ∀ t ∈ (signature.chunks maxMetadatumSize).map Term.text,
      Everywhere Metadatum.NodeAt t := by
    intro t ht
    obtain ⟨c, hc, rfl⟩ := List.mem_map.1 ht
    exact hshort c (Text.length_toUtf8_le_of_mem_chunks hsignature hc)
  have hmember : Everywhere Metadatum.NodeAt (.text signatureMember) := hshort _ (by decide)
  rw [Metadatum.problem?_eq_none_iff, attested]
  simp only [everywhere_map_iff, everywhere_seq_iff, List.forall_mem_singleton]
  exact ⟨trivial, hshort document hdocument, trivial, hmember, trivial, hchunks⟩

/-- An attestation in ASCII fits into metadata, and is found under its label. -/
theorem exists_attestation (label : Nat) (e : Cose.Envelope)
    (hdocument : document.toUtf8.length ≤ maxMetadatumSize)
    (hsignature : ∀ u ∈ e.signature.units, u.toNat < 0x80) :
    ∃ a, attestation label document e = .ok a ∧
      a.get? label = some (attested document e.signature) := by
  have hproblem := problem?_attested hdocument hsignature
  refine ⟨⟨⟨[(label, attested document e.signature)], List.nodup_singleton label⟩,
    List.forall_mem_singleton.2 hproblem⟩, AuxiliaryData.ofEntries_eq_ok_iff.2 rfl, ?_⟩
  exact Table.get?_eq_some_iff.2 (List.mem_singleton_self _)

theorem ofTerm_attested : NoSchema.ofTerm (attested document signature) =
    .ok (shown document signature) :=
  NoSchema.ofTerm_named (NoSchema.ofTerm_named (NoSchema.ofTerm_texts _))

theorem joinChunks_strings (ts : List Text) :
    joinChunks (.array (ts.map .string)) = some (Text.concat ts) := by
  have hstrings : (ts.map Json.string).mapM Json.string? = some ts := by
    induction ts with
    | nil => rfl
    | cons t ts ih => rw [List.map_cons, List.mapM_cons, ih]; rfl
  rw [joinChunks, hstrings]
  rfl

/-- The verifier finds the signed message in one piece where the indexer shows the chunks. -/
theorem exists_entryOf_shown (signature : Text) (hdocument : document ≠ "__proto__") :
    ∃ entry, entryOf document (shown document signature).toJson = some entry ∧
      signatureOf entry = some signature := by
  refine ⟨.object [(signatureMember, .array ((signature.chunks maxMetadatumSize).map .string))],
    ?_, ?_⟩
  · rw [entryOf, if_neg hdocument, shown, NoSchema.toJson_named, NoSchema.toJson_named,
      NoSchema.toJson_texts, Json.member?_singleton]
  · rw [signatureOf, Json.member?_singleton, Option.bind_some, joinChunks_strings,
      Text.concat_chunks (by decide)]

end Attestation

/-! ## Verdicts -/

/-- A label in the range in which numbers are exact is looked for by its decimal digits. -/
theorem Number.toText_of_integer? {x : Number} {n : Nat} (h : x.integer? = some (n : Int))
    (hsafe : n ≤ Number.maxSafe) : x.toText = Text.ofNat n := by
  cases x with
  | negativeZero =>
    obtain rfl : n = 0 := Int.ofNat.inj (Option.some.inj h).symm
    rfl
  | integer i =>
    obtain rfl : i = n := Option.some.inj h
    exact if_pos hsafe
  | nan => cases h
  | infinite negative => cases h
  | fraction q => cases h

namespace Workflow

open Attestation Cose Cose.Envelope

variable {σ : Type} {world : World σ} {config : Config} {chain : ChainBackend σ}
  {transaction : TransactionId} {document : Text} {key : VerificationKey}

/-- The verdict on the metadata of a transaction, by the label, the document and the text of the
key. -/
def verdictOn (label : Number) (document keyText : Text) : Option (List MetadataEntry) → Verdict
  | none => .noMetadata
  | some metadata =>
    match metadata.find? fun e => e.label = label.toText with
    | none => .labelNotFound label
    | some e =>
      match entryOf document e.json with
      | none => .documentNotFound document
      | some entry =>
        match signatureOf entry with
        | none => .signatureMissing document
        | some signature =>
          let reading := Envelope.verify ⟨signature, some keyText⟩
          if reading.verified then .verified reading.message else .rejected document

/-- Verification comes to its verdict exactly if the backend answers. -/
theorem returns_verifyDocument_iff {text : Text} (htext : keyText key = .ok text)
    {verdict : Verdict} :
    Returns (verifyDocument config chain transaction document key) world verdict ↔
      ∃ answer, (chain.fetchMetadata transaction world.backend).1 = .ok answer ∧
        verdictOn config.documentLabel document text answer = verdict := by
  rw [verifyDocument]
  simp only [returns_log_bind_iff, returns_query_bind_iff]
  refine exists_congr fun answer => and_congr_right fun _ => ?_
  cases answer with
  | none => simp only [verdictOn, returns_log_bind_iff, returns_pure_iff]
  | some metadata =>
    cases hfind : metadata.find? fun e => e.label = config.documentLabel.toText with
    | none => simp only [verdictOn, hfind, returns_log_bind_iff, returns_pure_iff]
    | some e =>
      cases hentry : entryOf document e.json with
      | none => simp only [verdictOn, hfind, hentry, returns_log_bind_iff, returns_pure_iff]
      | some entry =>
        cases hsignature : signatureOf entry with
        | none =>
          simp only [verdictOn, hfind, hentry, hsignature, returns_log_bind_iff, returns_pure_iff]
        | some signature =>
          simp only [verdictOn, hfind, hentry, hsignature, returns_expect_bind_iff, htext,
            Except.ok.injEq, exists_eq_left']
          split_ifs <;> simp only [returns_log_bind_iff, returns_pure_iff]

/-- A signed document can be attested.  Whoever fetches the attestation, in whatever metadata it is
the first under its label, verifies it with the key of the signer. -/
theorem verifyDocument_build (payload : Bytes) (key : SigningKey) (address : Option Bytes)
    (attachKey : Bool) (label : Nat) (document : Text) (hpayload : payload.length ≤ maxLength)
    (haddress : ∀ a ∈ address, a.length + 128 ≤ maxLength ∧
      Address.paymentKeyHash? a = some key.verificationKey.hash)
    (haccepted : ∀ p data,
      (header key.verificationKey address attachKey).encode = .ok p →
        signedData p payload = .ok data → key.Accepted data)
    (hlabel : label ≤ Number.maxSafe) (hdocument : document.toUtf8.length ≤ maxMetadatumSize)
    (hproto : document ≠ "__proto__") :
    ∃ e a t j, build payload key address attachKey = .ok e ∧
      attestation label document e = .ok a ∧ a.get? label = some t ∧ NoSchema.ofTerm t = .ok j ∧
        ∀ {σ : Type} (config : Config) (chain : ChainBackend σ) (transaction : TransactionId)
          (world : World σ) (metadata : List MetadataEntry) (entry : MetadataEntry),
          config.documentLabel.integer? = some (label : Int) →
          (chain.fetchMetadata transaction world.backend).1 = .ok (some metadata) →
          metadata.find? (fun e => e.label = Text.ofNat label) = some entry →
          entry.json = j.toJson →
            Returns (verifyDocument config chain transaction document key.verificationKey) world
              (.verified (Text.ofUtf8 payload)) := by
  obtain ⟨m, bs, text, hm, hspells, htext, hkeyMap, hbuild⟩ :=
    exists_build key attachKey hpayload fun a ha => (haddress a ha).1
  -- The verifier puts the key beside the message, wherever it stood when the message was signed.
  have hverify : Envelope.verify ⟨bs.toHex, some text⟩ =
      ⟨true, payload, Text.ofUtf8 payload, address⟩ := by
    rw [hm.verify_eq (fun a ha => Nat.le_of_add_right_le (haddress a ha).1)
      (fun data hdata => haccepted _ data hm.header hdata) hspells hkeyMap]
    cases address with
    | none => rfl
    | some a => simp [addressMatches, (haddress a rfl).2]
  obtain ⟨a, hattestation, hget⟩ := exists_attestation label
    ⟨bs.toHex, if attachKey then some text else none⟩ hdocument Bytes.lt_of_mem_toHex
  obtain ⟨shownEntry, hentry, hsignature⟩ := exists_entryOf_shown bs.toHex hproto
  refine ⟨_, a, _, _, hbuild, hattestation, hget, ofTerm_attested, ?_⟩
  intro σ config chain transaction world metadata entry hconfig hanswer hfind hjson
  have hlabelText := Number.toText_of_integer? hconfig hlabel
  refine (returns_verifyDocument_iff htext).2 ⟨some metadata, hanswer, ?_⟩
  simp only [verdictOn, hlabelText, hfind, hjson, hentry, hsignature, hverify, if_true]

/-- A backend that knows the metadata of one label. -/
def indexer (label : Text) (json : Json) : ChainBackend Unit where
  fetchMetadata _ s := (.ok (some [⟨label, json⟩]), s)
  submit _ s := (.error (.died (.backend "read only")), s)

theorem verifyDocument_build_greeting : greeting.length ≤ maxLength ∧
    (∀ a ∈ some home, a.length + 128 ≤ maxLength ∧
      Address.paymentKeyHash? a = some SigningKey.nines.verificationKey.hash) ∧
    (∀ p data, (header SigningKey.nines.verificationKey (some home) true).encode = .ok p →
      signedData p greeting = .ok data → SigningKey.nines.Accepted data) ∧
    1787 ≤ Number.maxSafe ∧ (Text.ofString "report").toUtf8.length ≤ maxMetadatumSize ∧
    ("report" : Text) ≠ "__proto__" ∧
    ∃ e a t j, build greeting SigningKey.nines (some home) true = .ok e ∧
      attestation 1787 "report" e = .ok a ∧ a.get? 1787 = some t ∧ NoSchema.ofTerm t = .ok j ∧
        ∀ transaction, Returns (verifyDocument ⟨.preprod, .integer 1787⟩ (indexer "1787" j.toJson)
          transaction "report" SigningKey.nines.verificationKey) ⟨(), []⟩ (.verified "hi") := by
  have hlength : greeting.length ≤ maxLength := by decide
  have haddress : ∀ a ∈ some home, a.length + 128 ≤ maxLength ∧
      Address.paymentKeyHash? a = some SigningKey.nines.verificationKey.hash := by
    intro a ha
    refine ⟨home_fits a ha, ?_⟩
    cases ha
    exact paymentKeyHash?_home
  have hlabel : 1787 ≤ Number.maxSafe := by decide
  have hdocument : (Text.ofString "report").toUtf8.length ≤ maxMetadatumSize := by decide
  have hproto : ("report" : Text) ≠ "__proto__" := by decide
  obtain ⟨e, a, t, j, he, ha, ht, hj, hverified⟩ :=
    verifyDocument_build greeting SigningKey.nines (some home) true 1787 "report" hlength haddress
      (fun _ _ => accepted_greeting) hlabel hdocument hproto
  refine ⟨hlength, haddress, fun _ _ => accepted_greeting, hlabel, hdocument, hproto, e, a, t, j,
    he, ha, ht, hj, ?_⟩
  intro transaction
  exact hverified ⟨.preprod, .integer 1787⟩ (indexer "1787" j.toJson) transaction ⟨(), []⟩
    [⟨"1787", j.toJson⟩] ⟨"1787", j.toJson⟩ rfl rfl rfl rfl

end Workflow

end Eutxo

import Eutxo.Proofs.Workflow.Attestation

/-!
# Verdicts on documents

The verdict on a document follows from what the metadata of a transaction say
and from the key that is known beforehand.  The first step that fails gives the
verdict its name, and nothing is vouched for that the key did not sign.
-/

namespace Eutxo

open Traversal Term Cbor

/-! ## What a key vouches for -/

namespace Cose

/-- The text spells a message that the key vouches for: it names EdDSA, does not flag its payload
as a hash, names no address but one that pays to the key, and has the signature of the key over the
protected bytes and the payload as they were transported.  A key that is named in the message plays
no part. -/
structure Vouches (text : Text) (key : VerificationKey) (m : Message) : Prop where
  message : HexSpells text (.seq [.bytes m.protectedBytes, .map m.unprotectedHeader,
    .bytes m.payload, .bytes m.signature])
  plain : ∀ t, (.text "hashed", t) ∈ m.unprotectedHeader → t = .bool false
  header : ∃ h : Header, decode Message.protectedPath m.protectedBytes = .ok (.map h) ∧
    (.int 1, .int (-8)) ∈ h ∧ ∀ t, (.text "address", t) ∈ h → ∃ a, t = .bytes a ∧ PaysTo a key
  signature_length : m.signature.length = 64
  signed : ∃ data, Cbor.encode (.seq [.text "Signature1", .bytes m.protectedBytes, .bytes [],
      .bytes m.payload]) = .ok data ∧ Ed25519.verify key.bytes data m.signature = true

theorem KeyMapSpells.unique {text : Text} {k k' : VerificationKey} (h : KeyMapSpells text k)
    (h' : KeyMapSpells text k') : k = k' := by
  have hread := (ofCborHex_key_iff (k := ⟨k⟩)).2 h
  rw [(ofCborHex_key_iff (k := ⟨k'⟩)).2 h'] at hread
  cases hread
  rfl

namespace Envelope

/-- What the entries of a header say of an address, told by an optional address. -/
theorem exists_address {h : Header} (hdistinct : DistinctAt (.map h))
    (hbytes : ∀ t, (.text "address", t) ∈ h → ∃ a, t = .bytes a) :
    ∃ address : Option Bytes, ∀ t, (.text "address", t) ∈ h ↔ address.map .bytes = some t := by
  have hlookup : ∀ t, (.text "address", t) ∈ h ↔ h.get? addressLabel = some t :=
    fun t => (Header.get?_eq_some_iff hdistinct addressLabel).symm
  cases hget : h.get? addressLabel with
  | none => exact ⟨none, fun t => by rw [hlookup, hget]; simp⟩
  | some u =>
    obtain ⟨a, rfl⟩ := hbytes u ((hlookup u).2 hget)
    exact ⟨some a, fun t => by rw [hlookup, hget]; rfl⟩

/-- A message beside which the key map of a key stands is taken apart into an authentic content
exactly if the key vouches for the message. -/
theorem vouches_iff {text beside : Text} {key : VerificationKey}
    (hbeside : keyText key = .ok beside) {m : Message} : Vouches text key m ↔
      ∃ c, Parses ⟨text, some beside⟩ c ∧ Authentic c ∧ c.message = m := by
  have hkeyMap : KeyMapSpells beside key := by
    obtain ⟨text', htext', hspells⟩ := exists_keyText key
    cases hbeside.symm.trans htext'
    exact hspells
  constructor
  · rintro ⟨hmessage, hplain, ⟨h, hdecode, halgorithm, haddress⟩, hlength, hsigned⟩
    have hdistinct : DistinctAt (.map h) := (encodable_of_decode hdecode).here.2
    obtain ⟨address, haddresses⟩ := exists_address hdistinct fun t ht => by
      obtain ⟨a, rfl, -⟩ := haddress t ht
      exact ⟨a, rfl⟩
    refine ⟨⟨m, key, address⟩, ⟨hmessage, hplain, h, hdecode, halgorithm, hkeyMap, haddresses⟩,
      ⟨hlength, fun a ha => ?_, hsigned⟩, rfl⟩
    obtain ⟨a', hsame, hpays⟩ := haddress (.bytes a) ((haddresses _).2 (congrArg _ ha))
    cases hsame
    exact hpays
  · rintro ⟨⟨m, key', address⟩, ⟨hmessage, hplain, h, hdecode, halgorithm, hkey, haddresses⟩,
      ⟨hlength, hpays, hsigned⟩, rfl⟩
    obtain rfl : key' = key := KeyMapSpells.unique hkey hkeyMap
    refine ⟨hmessage, hplain, ⟨h, hdecode, halgorithm, fun t ht => ?_⟩, hlength, hsigned⟩
    obtain ⟨a, ha, rfl⟩ := Option.map_eq_some_iff.1 ((haddresses t).1 ht)
    exact ⟨a, rfl, hpays a ha⟩

end Envelope

end Cose

/-! ## What metadata say -/

/-- The entry is the first one under the label. -/
def FirstUnder (label : Number) (metadata : List MetadataEntry) (e : MetadataEntry) : Prop :=
  ∃ before after, metadata = before ++ e :: after ∧ e.label = label.toText ∧
    ∀ d ∈ before, d.label ≠ label.toText

namespace Attestation

variable {document text : Text} {json entry j : Json}

/-- An object names the document by a member of its own that is not null. -/
def Names (document : Text) (json entry : Json) : Prop :=
  ∃ members, json = .object members ∧ members.lookup document = some entry ∧ entry ≠ .null

/-- The text as one string, or cut into the strings of an array. -/
def Shows (text : Text) : Json → Prop
  | .string t => t = text
  | .array items => ∃ chunks : List Text, items = chunks.map .string ∧ Text.concat chunks = text
  | _ => False

/-- The entry of a document is an object whose signature shows the text. -/
def Carries (entry : Json) (text : Text) : Prop :=
  ∃ members j, entry = .object members ∧ members.lookup signatureMember = some j ∧ Shows text j

theorem find?_eq_some_iff {label : Number} {metadata : List MetadataEntry} {e : MetadataEntry} :
    (metadata.find? fun e => e.label = label.toText) = some e ↔ FirstUnder label metadata e := by
  rw [List.find?_eq_some_iff_append, FirstUnder]
  simp only [decide_eq_true_iff, Bool.not_eq_true', decide_eq_false_iff_not]
  constructor
  · rintro ⟨hlabel, before, after, rfl, hbefore⟩
    exact ⟨before, after, rfl, hlabel, hbefore⟩
  · rintro ⟨before, after, rfl, hlabel, hbefore⟩
    exact ⟨hlabel, before, after, rfl, hbefore⟩

theorem member?_eq_some_iff {name : Text} : json.member? name = some j ↔
    ∃ members, json = .object members ∧ members.lookup name = some j := by
  cases json <;> simp [Json.member?]

theorem entryOf_eq_some_iff (hproto : document ≠ "__proto__") :
    entryOf document json = some entry ↔ Names document json entry := by
  have hnull : entryOf document json = some entry ↔
      json.member? document = some entry ∧ entry ≠ .null := by
    rw [entryOf, if_neg hproto]
    cases json.member? document with
    | none => simp
    | some j => cases j <;> simp <;> rintro rfl <;> simp
  rw [hnull, member?_eq_some_iff, Names]
  constructor
  · rintro ⟨⟨members, hjson, hlookup⟩, hne⟩
    exact ⟨members, hjson, hlookup, hne⟩
  · rintro ⟨members, hjson, hlookup, hne⟩
    exact ⟨⟨members, hjson, hlookup⟩, hne⟩

theorem strings_of_mapM {items : List Json} {chunks : List Text}
    (h : items.mapM Json.string? = some chunks) : items = chunks.map .string := by
  induction items generalizing chunks with
  | nil =>
    cases h
    rfl
  | cons j items ih =>
    rw [List.mapM_cons] at h
    obtain ⟨t, ht, hrest⟩ := Option.bind_eq_some_iff.1 h
    obtain ⟨ts, hts, hpure⟩ := Option.bind_eq_some_iff.1 hrest
    cases hpure
    cases j with
    | string s =>
      cases ht
      rw [ih hts, List.map_cons]
    | _ => cases ht

theorem joinChunks_eq_some_iff : joinChunks j = some text ↔ Shows text j := by
  cases j with
  | array items =>
    constructor
    · intro h
      obtain ⟨chunks, hchunks, htext⟩ := Option.map_eq_some_iff.1 h
      exact ⟨chunks, strings_of_mapM hchunks, htext⟩
    · rintro ⟨chunks, rfl, rfl⟩
      exact joinChunks_strings chunks
  | _ => simp [joinChunks, Shows]

theorem signatureOf_eq_some_iff : signatureOf entry = some text ↔ Carries entry text := by
  rw [signatureOf, Option.bind_eq_some_iff]
  simp only [member?_eq_some_iff, joinChunks_eq_some_iff, Carries]
  constructor
  · rintro ⟨j, ⟨members, hentry, hlookup⟩, hshows⟩
    exact ⟨members, j, hentry, hlookup, hshows⟩
  · rintro ⟨members, j, hentry, hlookup, hshows⟩
    exact ⟨j, ⟨members, hentry, hlookup⟩, hshows⟩

end Attestation

/-! ## Verdicts -/

namespace Workflow

open Attestation Cose Cose.Envelope

variable {σ : Type} {world : World σ} {config : Config} {chain : ChainBackend σ}
  {transaction : TransactionId} {label : Number} {document text : Text} {key : VerificationKey}

/-- The metadata attest the document by the text of a signed message. -/
def Attests (label : Number) (document : Text) (metadata : List MetadataEntry) (text : Text) :
    Prop :=
  ∃ e entry, FirstUnder label metadata e ∧ Names document e.json entry ∧ Carries entry text

/-- The verdict that the metadata of a transaction call for: the first step that fails decides. -/
inductive Judged (label : Number) (document : Text) (key : VerificationKey) :
    Option (List MetadataEntry) → Verdict → Prop where
  | noMetadata : Judged label document key none .noMetadata
  | labelNotFound {metadata : List MetadataEntry} :
    (∀ e ∈ metadata, e.label ≠ label.toText) →
      Judged label document key (some metadata) (.labelNotFound label)
  | documentNotFound {metadata : List MetadataEntry} {e : MetadataEntry} :
    FirstUnder label metadata e → (∀ entry, ¬ Names document e.json entry) →
      Judged label document key (some metadata) (.documentNotFound document)
  | signatureMissing {metadata : List MetadataEntry} {e : MetadataEntry} {entry : Json} :
    FirstUnder label metadata e → Names document e.json entry → (∀ text, ¬ Carries entry text) →
      Judged label document key (some metadata) (.signatureMissing document)
  | rejected {metadata : List MetadataEntry} {text : Text} :
    Attests label document metadata text → (∀ m, ¬ Vouches text key m) →
      Judged label document key (some metadata) (.rejected document)
  | verified {metadata : List MetadataEntry} {text : Text} {m : Message} :
    Attests label document metadata text → Vouches text key m →
      Judged label document key (some metadata) (.verified (Text.ofUtf8 m.payload))

theorem verify_of_vouches {beside : Text} (hbeside : keyText key = .ok beside) {m : Message}
    (h : Vouches text key m) : (Envelope.verify ⟨text, some beside⟩).verified = true ∧
      (Envelope.verify ⟨text, some beside⟩).message = Text.ofUtf8 m.payload := by
  obtain ⟨c, hparses, hauthentic, rfl⟩ := (vouches_iff hbeside).1 h
  rw [verify_of_parses hparses]
  exact ⟨authentic_iff.2 hauthentic, rfl⟩

theorem exists_vouches_of_verified {beside : Text} (hbeside : keyText key = .ok beside)
    (h : (Envelope.verify ⟨text, some beside⟩).verified = true) : ∃ m, Vouches text key m := by
  by_cases hparses : ∃ c, Parses ⟨text, some beside⟩ c
  · obtain ⟨c, hc⟩ := hparses
    rw [verify_of_parses hc] at h
    exact ⟨c.message, (vouches_iff hbeside).2 ⟨c, hc, authentic_iff.1 h, rfl⟩⟩
  · rw [verify_of_not_parses (not_exists.1 hparses)] at h
    cases h

theorem verdictOn_of_attests {beside : Text} {metadata : List MetadataEntry}
    (hproto : document ≠ "__proto__") (h : Attests label document metadata text) :
    verdictOn label document beside (some metadata) =
      if (Envelope.verify ⟨text, some beside⟩).verified then
        .verified (Envelope.verify ⟨text, some beside⟩).message else .rejected document := by
  obtain ⟨e, entry, hfirst, hnames, hcarries⟩ := h
  simp only [verdictOn, find?_eq_some_iff.2 hfirst, (entryOf_eq_some_iff hproto).2 hnames,
    signatureOf_eq_some_iff.2 hcarries]

theorem verdictOn_of_judged {beside : Text} (hbeside : keyText key = .ok beside)
    (hproto : document ≠ "__proto__") {answer : Option (List MetadataEntry)} {verdict : Verdict}
    (h : Judged label document key answer verdict) :
    verdictOn label document beside answer = verdict := by
  cases h with
  | noMetadata => rfl
  | @labelNotFound metadata hnone =>
    have hfind : (metadata.find? fun e => e.label = label.toText) = none := by
      simpa using hnone
    simp only [verdictOn, hfind]
  | @documentNotFound metadata e hfirst hnone =>
    have hentry : entryOf document e.json = none :=
      Option.eq_none_iff_forall_ne_some.2 fun entry hentry =>
        hnone entry ((entryOf_eq_some_iff hproto).1 hentry)
    simp only [verdictOn, find?_eq_some_iff.2 hfirst, hentry]
  | @signatureMissing metadata e entry hfirst hnames hnone =>
    have hsignature : signatureOf entry = none :=
      Option.eq_none_iff_forall_ne_some.2 fun text htext =>
        hnone text (signatureOf_eq_some_iff.1 htext)
    simp only [verdictOn, find?_eq_some_iff.2 hfirst, (entryOf_eq_some_iff hproto).2 hnames,
      hsignature]
  | rejected hattests hnone =>
    rw [verdictOn_of_attests hproto hattests, if_neg]
    intro hverified
    obtain ⟨m, hm⟩ := exists_vouches_of_verified hbeside hverified
    exact hnone m hm
  | verified hattests hvouches =>
    obtain ⟨hverified, hmessage⟩ := verify_of_vouches hbeside hvouches
    rw [verdictOn_of_attests hproto hattests, if_pos hverified, hmessage]

/-- One of the steps is the first that fails, or none does. -/
theorem exists_judged (label : Number) (document : Text) (key : VerificationKey)
    (answer : Option (List MetadataEntry)) :
    ∃ verdict, Judged label document key answer verdict := by
  cases answer with
  | none => exact ⟨_, .noMetadata⟩
  | some metadata =>
    by_cases hfirst : ∃ e, FirstUnder label metadata e
    · obtain ⟨e, he⟩ := hfirst
      by_cases hnames : ∃ entry, Names document e.json entry
      · obtain ⟨entry, hentry⟩ := hnames
        by_cases hcarries : ∃ text, Carries entry text
        · obtain ⟨text, htext⟩ := hcarries
          have hattests : Attests label document metadata text := ⟨e, entry, he, hentry, htext⟩
          by_cases hvouches : ∃ m, Vouches text key m
          · obtain ⟨m, hm⟩ := hvouches
            exact ⟨_, .verified hattests hm⟩
          · exact ⟨_, .rejected hattests (not_exists.1 hvouches)⟩
        · exact ⟨_, .signatureMissing he hentry (not_exists.1 hcarries)⟩
      · exact ⟨_, .documentNotFound he (not_exists.1 hnames)⟩
    · refine ⟨_, .labelNotFound fun e he hlabel => hfirst ?_⟩
      have hfound : (metadata.find? fun e => e.label = label.toText).isSome :=
        List.find?_isSome.2 ⟨e, he, decide_eq_true hlabel⟩
      obtain ⟨d, hd⟩ := Option.isSome_iff_exists.1 hfound
      exact ⟨d, find?_eq_some_iff.1 hd⟩

theorem judged_iff {beside : Text} (hbeside : keyText key = .ok beside)
    (hproto : document ≠ "__proto__") {answer : Option (List MetadataEntry)} {verdict : Verdict} :
    Judged label document key answer verdict ↔
      verdict = verdictOn label document beside answer := by
  obtain ⟨called, hcalled⟩ := exists_judged label document key answer
  have hsame := verdictOn_of_judged hbeside hproto hcalled
  constructor
  · intro h
    exact (verdictOn_of_judged hbeside hproto h).symm
  · rintro rfl
    exact hsame ▸ hcalled

/-- The result is the verdict on what the backend answers; its refusal comes through. -/
theorem run_verifyDocument {beside : Text} (hbeside : keyText key = .ok beside)
    (world : World σ) :
    ((verifyDocument config chain transaction document key).run world).1 =
      (chain.fetchMetadata transaction world.backend).1.map
        (verdictOn config.documentLabel document beside) := by
  cases hanswer : (chain.fetchMetadata transaction world.backend).1 with
  | error h =>
    rw [verifyDocument]
    simp only [run_bind, run_log, run_query, hanswer]
    rfl
  | ok answer =>
    have hreturns : Returns (verifyDocument config chain transaction document key) world
        (verdictOn config.documentLabel document beside answer) :=
      (returns_verifyDocument_iff hbeside).2 ⟨answer, hanswer, rfl⟩
    obtain ⟨after, hrun⟩ := hreturns
    rw [hrun]
    rfl

/-- Only the query can fail, and its answer calls for exactly one verdict.  How the text of a signed
message is cut makes no difference, nor does anything else that metadata which attest the document
by that text may say. -/
theorem verifyDocument_judges (config : Config) (chain : ChainBackend σ)
    (transaction : TransactionId) (document : Text) (key : VerificationKey) (world : World σ)
    (hproto : document ≠ "__proto__") :
    (∀ h, ((verifyDocument config chain transaction document key).run world).1 = .error h ↔
      (chain.fetchMetadata transaction world.backend).1 = .error h) ∧
    (∀ answer, (chain.fetchMetadata transaction world.backend).1 = .ok answer →
      ∃ verdict,
        ((verifyDocument config chain transaction document key).run world).1 = .ok verdict ∧
        ∀ v, Judged config.documentLabel document key answer v ↔ v = verdict) ∧
    ∀ {τ : Type} (other : ChainBackend τ) (again : TransactionId) (elsewhere : World τ)
      (metadata recut : List MetadataEntry) (text : Text),
      (chain.fetchMetadata transaction world.backend).1 = .ok (some metadata) →
      (other.fetchMetadata again elsewhere.backend).1 = .ok (some recut) →
      Attests config.documentLabel document metadata text →
      Attests config.documentLabel document recut text →
        ((verifyDocument config other again document key).run elsewhere).1 =
          ((verifyDocument config chain transaction document key).run world).1 := by
  obtain ⟨beside, hbeside, -⟩ := exists_keyText key
  refine ⟨fun h => ?_, fun answer hanswer => ?_, ?_⟩
  · rw [run_verifyDocument hbeside]
    cases (chain.fetchMetadata transaction world.backend).1 <;> simp [Except.map]
  · refine ⟨verdictOn config.documentLabel document beside answer, ?_, fun v => ?_⟩
    · rw [run_verifyDocument hbeside, hanswer]
      rfl
    · exact judged_iff hbeside hproto
  · intro τ other again elsewhere metadata recut text hmetadata hrecut hattests hagain
    rw [run_verifyDocument hbeside, run_verifyDocument hbeside, hmetadata, hrecut]
    simp only [Except.map, verdictOn_of_attests hproto hattests,
      verdictOn_of_attests hproto hagain]

/-- The greeting is signed. -/
theorem exists_vouches_greeting : ∃ text m, m.payload = greeting ∧
    Vouches text SigningKey.nines.verificationKey m := by
  obtain ⟨m, bs, beside, hm, hspells, hbeside, hkeyMap, -⟩ :=
    exists_build SigningKey.nines true (show greeting.length ≤ maxLength by decide) home_fits
  have hparses : Parses ⟨bs.toHex, some beside⟩ ⟨m, SigningKey.nines.verificationKey, some home⟩ :=
    hm.parses (fun a ha => Nat.le_of_add_right_le (home_fits a ha)) hspells hkeyMap
  have hmatches : signatureMatches m SigningKey.nines.verificationKey = true :=
    hm.signatureMatches_iff.2 fun data hdata => accepted_greeting hm.header (hm.payload ▸ hdata)
  refine ⟨bs.toHex, m, hm.payload, (vouches_iff hbeside).2 ⟨_, hparses, authentic_iff.1 ?_, rfl⟩⟩
  simp [hmatches, addressMatches, paymentKeyHash?_home]

/-- Metadata that attest a document by a text in chunks. -/
def chunked (document text : Text) (size : Nat) : Json :=
  .object [(document, .object [(signatureMember, .array ((text.chunks size).map .string))])]

theorem attests_chunked {label : Number} {size : Nat} (hsize : 0 < size) (document text : Text) :
    Attests label document [⟨label.toText, chunked document text size⟩] text := by
  exact ⟨_, _, ⟨[], [], rfl, rfl, nofun⟩, ⟨_, rfl, List.lookup_cons_self, nofun⟩, _, _, rfl,
    List.lookup_cons_self, _, rfl, Text.concat_chunks hsize text⟩

theorem verifyDocument_judges_greeting : ("report" : Text) ≠ "__proto__" ∧
    ∃ text, ∀ transaction,
      ((verifyDocument ⟨.preprod, .integer 1787⟩ (indexer "1787" (chunked "report" text 64))
        transaction "report" SigningKey.nines.verificationKey).run ⟨(), []⟩).1 =
          .ok (.verified "hi") := by
  have hproto : ("report" : Text) ≠ "__proto__" := by decide
  obtain ⟨text, m, hpayload, hvouches⟩ := exists_vouches_greeting
  refine ⟨hproto, text, fun transaction => ?_⟩
  obtain ⟨-, hjudges, -⟩ := verifyDocument_judges ⟨.preprod, .integer 1787⟩
    (indexer "1787" (chunked "report" text 64)) transaction "report"
    SigningKey.nines.verificationKey ⟨(), []⟩ hproto
  obtain ⟨verdict, hrun, hverdict⟩ := hjudges _ rfl
  have hverified : Text.ofUtf8 m.payload = "hi" := by rw [hpayload]; decide
  rw [hrun, ← (hverdict _).1 (.verified (attests_chunked (by decide) "report" text) hvouches),
    hverified]

end Workflow

end Eutxo

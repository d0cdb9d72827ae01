import Eutxo.Proofs.Cose.Signing
import Eutxo.Proofs.Tx.Grammar
import Eutxo.Record

/-!
# Records that are read

Bytes either spell a record of a type, and then the record can be written, or are
refused with a fault of one of four kinds.  What constructors ask for has been
asked by the decoders before, so that no constructor refuses what was read.
-/

namespace Eutxo

open Traversal Term Cbor

/-! ## Grammars of transactions and messages -/

namespace Term

/-- Metadata by label. -/
def IsMetadata : Term → Prop := IsMap IsUnsigned (Everywhere Metadatum.NodeAt)

/-- Metadata, or null in the place of none. -/
def IsAuxiliary (t : Term) : Prop := t = .null ∨ IsMetadata t

/-- A body, a witness set and auxiliary data, which a flag may precede. -/
def AreTransactionItems : List Term → Prop
  | [body, witnessSet, auxiliary] => IsBody body ∧ IsWitnessSet witnessSet ∧ IsAuxiliary auxiliary
  | [body, witnessSet, valid, auxiliary] =>
    IsBody body ∧ IsWitnessSet witnessSet ∧ (∃ b, valid = .bool b) ∧ IsAuxiliary auxiliary
  | _ => False

/-- A sequence of such items. -/
def IsTransaction (t : Term) : Prop := ∃ items, t = .seq items ∧ AreTransactionItems items

/-- The protected bytes, the unprotected header, the payload and the signature of a message. -/
def AreMessageItems : List Term → Prop
  | [protectedBytes, unprotectedHeader, payload, signature] =>
    IsBytes protectedBytes ∧ (∃ entries, unprotectedHeader = .map entries) ∧ IsBytes payload ∧
      IsBytes signature
  | _ => False

/-- A sequence of such items. -/
def IsMessage (t : Term) : Prop := ∃ items, t = .seq items ∧ AreMessageItems items

/-- A map that names an Ed25519 key for EdDSA. -/
def IsKeyMap (t : Term) : Prop :=
  ∃ entries : Cose.Header, t = .map entries ∧ entries.get? (.int 1) = some (.int 1) ∧
    entries.get? (.int 3) = some (.int (-8)) ∧ entries.get? (.int (-1)) = some (.int 6) ∧
    ∃ u, entries.get? (.int (-2)) = some u ∧ IsBytesOf 32 u

end Term

namespace AuxiliaryData

theorem accepts_readEntry (path : Path) (e : Term × Term) (i : Nat) :
    Accepts [] (readEntry path (e, i)) (IsUnsigned e.1 ∧ Everywhere Metadatum.NodeAt e.2) := by
  refine accepts_asUnsigned.andThen fun label _ => ?_
  rw [← Metadatum.problem?_eq_none_iff]
  cases hproblem : Metadatum.problem? e.2 with
  | some problem => exact .error List.mem_cons_self nofun
  | none => exact .ok _ rfl

/-- The constructor refuses nothing that the decoder has read from a map without repeated keys. -/
theorem accepts (path : Path) {t : Term} (ht : UniqueKeysAt t) :
    Accepts [] (ofTerm path t) (IsMetadata t) := by
  refine accepts_entries fun es hes => ?_
  have hread : Accepts [] (es.zipIdx.mapM (readEntry path))
      (∀ e ∈ es, IsUnsigned e.1 ∧ Everywhere Metadatum.NodeAt e.2) :=
    .mapM_zipIdx fun e _ i => accepts_readEntry path e i
  refine hread.thenOk fun entries hentries => ?_
  have hmetadata := hread.succeeds_iff.1 ⟨entries, hentries⟩
  simp only [← Metadatum.problem?_eq_none_iff] at hmetadata
  rw [hes] at ht
  obtain ⟨a, ha⟩ := exists_toTerm_eq_map ht hmetadata
  have hof : ofTerm path (.map es) = .ok a := ofTerm_eq_ok_iff.2 ha.symm
  rw [ofTerm_map, hentries, ok_bind] at hof
  exact ⟨a, hof⟩

end AuxiliaryData

namespace Transaction

theorem accepts_auxiliaryOfTerm (path : Path) {t : Term} (ht : UniqueKeysAt t) :
    Accepts [] (auxiliaryOfTerm path t) (IsAuxiliary t) := by
  cases t with
  | null => exact .ok none (.inl rfl)
  | _ => exact ((AuxiliaryData.accepts path ht).map some).congr (or_iff_right nofun).symm

theorem accepts (path : Path) {t : Term} (ht : Everywhere UniqueKeysAt t) :
    Accepts [.sizeMismatch, .invalidKeyMaterial, .invalidSignature] (ofTerm path t)
      (IsTransaction t) := by
  refine accepts_items [3, 4] (fun items h => ?_) fun items hitems hlength => ?_
  · unfold AreTransactionItems at h
    split at h <;> simp_all
  · have hunique : ∀ u ∈ items, Everywhere UniqueKeysAt u := (everywhere_seq_iff.1 (hitems ▸ ht)).2
    match items, hlength, hunique with
    | [body, witnessSet, auxiliary], _, hunique =>
      refine ((TxBody.accepts _ (hunique body (by simp))).mono (by simp)).andThen fun _ _ => ?_
      refine ((WitnessSet.accepts _ (hunique witnessSet (by simp))).mono (by simp)).andThen
        fun _ _ => ?_
      exact ((accepts_auxiliaryOfTerm _ (hunique auxiliary (by simp)).here).mono (by simp)).map _
    | [body, witnessSet, valid, auxiliary], _, hunique =>
      refine ((TxBody.accepts _ (hunique body (by simp))).mono (by simp)).andThen fun _ _ => ?_
      refine ((WitnessSet.accepts _ (hunique witnessSet (by simp))).mono (by simp)).andThen
        fun _ _ => accepts_asBool.andThen fun _ _ => ?_
      exact ((accepts_auxiliaryOfTerm _ (hunique auxiliary (by simp)).here).mono (by simp)).map _

end Transaction

namespace Cose

theorem Message.accepts (path : Path) (t : Term) :
    Accepts [] (Message.ofTerm path t) (IsMessage t) := by
  refine accepts_items [4] (fun items h => ?_) fun items _ hlength => ?_
  · unfold AreMessageItems at h
    split at h <;> simp_all
  · match items, hlength with
    | [protectedBytes, unprotectedHeader, payload, signature], _ =>
      refine accepts_asBytes.andThen fun _ _ => accepts_asMap.andThen fun _ _ => ?_
      exact accepts_asBytes.andThen fun _ _ => accepts_asBytes.map _

namespace Key

variable {path : Path} {entries : Header} {label : Int} {others : List FaultKind}

theorem accepts_field :
    Accepts others (field path entries label) (∃ t, entries.get? (.int label) = some t) := by
  refine ⟨exists_congr fun t => field_eq_ok_iff, fun fault h => ?_⟩
  rw [field] at h
  split at h
  · cases h
  · cases h
    exact List.mem_cons_self

theorem accepts_require {expected : Int} :
    Accepts others (require path entries label expected)
      (entries.get? (.int label) = some (.int expected)) := by
  refine ⟨?_, fun fault h => ?_⟩
  · constructor
    · rintro ⟨⟨⟩, h⟩
      exact require_eq_ok_iff.1 h
    · intro h
      exact ⟨(), require_eq_ok_iff.2 h⟩
  · rcases bind_eq_error.1 h with hfield | ⟨t, -, hrest⟩
    · exact accepts_field.kind_mem fault hfield
    · rcases bind_eq_error.1 hrest with hint | ⟨found, -, hcheck⟩
      · exact accepts_asInt.kind_mem fault hint
      · split_ifs at hcheck
        · cases hcheck
        · cases hcheck
          exact List.mem_cons_self

theorem accepts (path : Path) (t : Term) :
    Accepts [.invalidKeyMaterial] (ofTerm path t) (IsKeyMap t) := by
  refine accepts_entries fun entries _ => accepts_require.andThen fun _ _ =>
    accepts_require.andThen fun _ _ => accepts_require.andThen fun _ _ => ?_
  refine (accepts_field.bind (IsBytesOf 32) fun u _ => (VerificationKey.accepts _ u).map _).congr ?_
  simp only [field_eq_ok_iff]
  rfl

end Key

end Cose

/-- The terms that records of a type are read from. -/
def RecordKind.Grammar : RecordKind → Term → Prop
  | .identifier kind => IsBytesOf kind.size
  | .assetName => IsBytesWithin 32
  | .asset => IsQuantities
  | .multiAsset => IsBundles
  | .value => IsValue
  | .input => IsInput
  | .output => IsOutput
  | .body => IsBody
  | .vkeyWitness => IsPair (IsBytesOf 32) (IsBytesOf 64)
  | .witnessSet => IsWitnessSet
  | .transaction => IsTransaction
  | .auxiliaryData => IsMetadata
  | .verificationKey | .signingKey => IsBytesOf 32
  | .signature => IsBytesOf 64
  | .message => IsMessage
  | .coseKey => IsKeyMap

/-- A record is read from the terms of the grammar of its type. -/
theorem Record.accepts (kind : RecordKind) (path : Path) {t : Term}
    (ht : Everywhere UniqueKeysAt t) :
    Accepts [.sizeMismatch, .invalidKeyMaterial, .invalidSignature] (ofTerm path t kind)
      (kind.Grammar t) := by
  cases kind
  case identifier kind => exact ((Identifier.accepts path t).mono (by simp)).map _
  case assetName => exact ((AssetName.accepts path t).mono (by simp)).map _
  case asset => exact ((Asset.accepts path ht).mono (by simp)).map _
  case multiAsset => exact ((MultiAsset.accepts path ht).mono (by simp)).map _
  case value => exact ((Value.accepts path ht).mono (by simp)).map _
  case input => exact ((TxInput.accepts path t).mono (by simp)).map _
  case output => exact ((TxOutput.accepts path ht).mono (by simp)).map _
  case body => exact ((TxBody.accepts path ht).mono (by simp)).map _
  case vkeyWitness => exact ((VkeyWitness.accepts path t).mono (by simp)).map _
  case witnessSet => exact ((WitnessSet.accepts path ht).mono (by simp)).map _
  case transaction => exact (Transaction.accepts path ht).map _
  case auxiliaryData => exact ((AuxiliaryData.accepts path ht.here).mono (by simp)).map _
  case verificationKey => exact ((VerificationKey.accepts path t).mono (by simp)).map _
  case signingKey => exact ((SigningKey.accepts path t).mono (by simp)).map _
  case signature => exact ((Signature.accepts path t).mono (by simp)).map _
  case message => exact ((Cose.Message.accepts path t).mono (by simp)).map _
  case coseKey => exact ((Cose.Key.accepts path t).mono (by simp)).map _

/-! ## Writing what was read -/

namespace Codec

/-- A node of a term that has an encoding. -/
def EncodableAt (t : Term) : Prop := FitsAt maxArgument t ∧ DistinctAt t

theorem uniqueKeysAt_of_encodable {t : Term} (h : EncodableAt t) : UniqueKeysAt t := by
  cases t with
  | map entries => exact h.2.nodup_keys
  | _ => exact trivial

theorem encodable_of_shortened {t u : Term} (h : Shortened t u) (ht : Everywhere EncodableAt t) :
    Everywhere EncodableAt u :=
  (h.fits (ht.imp fun _ => And.left)).and (h.distinct (ht.imp fun _ => And.right))

/-- A type whose values can be written if they were read. -/
class Rewritable (α : Type) [Codec α] : Prop where
  exists_toCbor {path : Path} {t : Term} {a : α} : Everywhere EncodableAt t →
    ofTerm path t = .ok a → ∃ bs, toCbor a = .ok bs

theorem exists_toCbor_of_reordered {α : Type} [Codec α] {t : Term} {a : α}
    (ht : Everywhere EncodableAt t) (h : Reordered t (toTerm a)) : ∃ bs, toCbor a = .ok bs := by
  obtain ⟨bs, hbs⟩ := exists_encode ht
  exact ⟨bs, encode_of_reordered h hbs⟩

instance (priority := low) {α : Type} [Codec α] [Exact α] : Rewritable α where
  exists_toCbor ht h := exists_toCbor_of_reordered ht (Exact.toTerm_eq h ▸ .refl _)

instance : Rewritable TxOutput where
  exists_toCbor {_ t _} ht h := by
    have hshort := encodable_of_shortened (TxOutput.shortened_shortOutput t) ht
    exact exists_toCbor_of_reordered hshort (TxOutput.toTerm_eq h ▸ .refl _)

instance : Rewritable TxBody where
  exists_toCbor {_ t _} ht h := by
    have hshort := encodable_of_shortened (TxBody.shortened_shortBody t) ht
    exact exists_toCbor_of_reordered hshort (TxBody.reordered_of_ofTerm ht.here.2 h)

instance : Rewritable WitnessSet where
  exists_toCbor ht h := exists_toCbor_of_reordered ht (WitnessSet.reordered_of_ofTerm ht.here.2 h)

instance : Rewritable Transaction where
  exists_toCbor ht h := by
    have hshort := Transaction.everywhere_shortTransaction (P := EncodableAt)
      (fun _ _ _ _ => ⟨(by decide : 4 ≤ maxArgument), trivial⟩) ⟨trivial, trivial⟩
      encodable_of_shortened ht
    exact exists_toCbor_of_reordered hshort
      (Transaction.reordered_of_ofTerm (ht.imp fun _ => And.right) h)

instance : Rewritable Cose.Key where
  exists_toCbor {_ _ k} _ _ := by
    obtain ⟨text, htext, -⟩ := Cose.Envelope.exists_keyText k.verificationKey
    obtain ⟨bs, hbs, -⟩ := bind_eq_ok.1 htext
    exact ⟨bs, hbs⟩

end Codec

/-! ## Records -/

/-- Bytes fail to decode in one way only. -/
theorem Cbor.accepts_decode {others : List FaultKind} (path : Path) (bs : Bytes) :
    Accepts others (decode path bs) (∃ t, decode path bs = .ok t) :=
  ⟨Iff.rfl, fun _ hfault => kind_of_decode hfault ▸ List.mem_cons_self⟩

namespace Record

theorem exists_toCbor {kind : RecordKind} {path : Path} {t : Term} {r : Record}
    (ht : Everywhere Codec.EncodableAt t) (h : ofTerm path t kind = .ok r) :
    r.kind = kind ∧ ∃ bs, r.toCbor = .ok bs := by
  cases kind
  all_goals
    obtain ⟨a, ha, hpure⟩ := bind_eq_ok.1 h
    cases hpure
    exact ⟨rfl, Codec.Rewritable.exists_toCbor ht ha⟩

/-- A record is read from the bytes that spell a term of the grammar of its type, and can be
written.  All other bytes are refused with a fault of one of four kinds, so that no constructor
refuses what a decoder has read. -/
theorem ofCbor_total (kind : RecordKind) (bs : Bytes) :
    ((∃ r, ofCbor kind bs = .ok r) ↔ ∃ t, decode .input bs = .ok t ∧ kind.Grammar t) ∧
      (∀ r, ofCbor kind bs = .ok r → r.kind = kind ∧ ∃ out, r.toCbor = .ok out) ∧
      ∀ fault, ofCbor kind bs = .error fault → fault.kind ∈
        [FaultKind.deserialize, .sizeMismatch, .invalidKeyMaterial, .invalidSignature] := by
  have hencodable : ∀ {t}, decode .input bs = .ok t → Everywhere Codec.EncodableAt t :=
    encodable_of_decode
  have haccepts : Accepts [.sizeMismatch, .invalidKeyMaterial, .invalidSignature]
      (ofCbor kind bs) (∃ t, decode .input bs = .ok t ∧ kind.Grammar t) := by
    refine (accepts_decode .input bs).bind kind.Grammar fun t ht => ?_
    exact accepts kind _ ((hencodable ht).imp fun _ => Codec.uniqueKeysAt_of_encodable)
  refine ⟨haccepts.succeeds_iff, fun r hr => ?_, haccepts.kind_mem⟩
  obtain ⟨t, ht, hread⟩ := bind_eq_ok.1 hr
  exact exists_toCbor (hencodable ht) hread

end Record

end Eutxo

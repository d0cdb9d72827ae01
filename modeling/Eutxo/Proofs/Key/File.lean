import Eutxo.Key.File
import Eutxo.Proofs.Cbor.Expect
import Eutxo.Proofs.Cbor.Strictness
import Eutxo.Proofs.Cbor.ValueOrder
import Eutxo.Proofs.Json.RoundTrip
import Eutxo.Proofs.Text.Hex

/-!
# Key files

A key file that was written is loaded as the key that it was written for.  Of
any other text it is said what it has to spell for a key to be loaded from it;
all other texts are refused as key material, whatever is wrong with them.
-/

namespace Eutxo

open Traversal Term Cbor

variable {kind : KeyKind} {f : KeyFile} {k : SigningKey} {t : Text} {bs : Bytes} {fault : Fault}

namespace KeyFile

/-- The text is a JSON object that names a type and a description and has, under `cborHex`, the
hexadecimal text of one CBOR byte string that holds a key, with nothing after it. -/
def Spells (t : Text) (k : SigningKey) : Prop :=
  ∃ j type description hex, Json.read t = .ok j ∧ j.member? "type" = some (.string type) ∧
    j.member? "description" = some (.string description) ∧
    j.member? "cborHex" = some (.string hex) ∧ Bytes.ofHex? hex = some (0x58 :: 0x20 :: k.bytes)

/-! ## The key in a file -/

theorem parseHex_eq_ok_iff : parseHex t = .ok bs ↔ Bytes.ofHex? t = some bs := by
  rw [parseHex]
  cases Bytes.ofHex? t <;> simp

theorem kind_of_parseHex (h : parseHex t = .error fault) : fault.kind = .invalidHex := by
  rw [parseHex] at h
  split at h <;> cases h
  rfl

theorem write?_key (k : SigningKey) :
    (Item.bytes k.bytes).write? = some (0x58 :: 0x20 :: k.bytes) := by
  refine write?_bytes_eq_some_iff.2 ⟨[0x58, 0x20], ?_, rfl⟩
  rw [k.length_bytes]
  rfl

/-- A byte string of the size of a key is spelled in one way alone. -/
theorem content_eq_ok_iff :
    f.content kind = .ok k.bytes ↔ Bytes.ofHex? f.cborHex = some (0x58 :: 0x20 :: k.bytes) := by
  have hlength : k.bytes.length ≤ maxLength := by
    rw [k.length_bytes]
    decide
  have hdecode : ∀ bs, decode .input bs = .ok (.bytes k.bytes) ↔ bs = 0x58 :: 0x20 :: k.bytes := by
    intro bs
    rw [decode_eq_ok_bytes_iff, and_iff_right hlength, write?_key, Option.some.injEq, eq_comm]
  simp only [content, bind_eq_ok, parseHex_eq_ok_iff, asBytes_eq_ok_iff]
  constructor
  · rintro ⟨spelled, hhex, t, ht, rfl⟩
    exact (hdecode spelled).1 ht ▸ hhex
  · intro hhex
    exact ⟨_, hhex, _, (hdecode _).2 rfl, rfl⟩

/-- The text of the key is not hexadecimal, or its bytes are not those of a byte string. -/
theorem kind_of_content (h : f.content kind = .error fault) :
    fault.kind = .deserialize ∨ fault.kind = .invalidHex := by
  rcases bind_eq_error.1 h with hhex | ⟨bs, -, hdecode⟩
  · exact .inr (kind_of_parseHex hhex)
  · rcases bind_eq_error.1 hdecode with hterm | ⟨t, -, hbytes⟩
    · exact .inl (kind_of_decode hterm)
    · cases t <;> cases hbytes <;> exact .inl rfl

theorem keyBytes_eq_ok_iff : f.keyBytes kind = .ok bs ↔ f.content kind = .ok bs := by
  rw [keyBytes]
  split
  · next h => rw [h]
  · next h =>
    rw [h]
    split_ifs <;> simp

/-- No fault is passed on as it is: what the content fails with is always reported as a fault of the
key. -/
theorem kind_of_keyBytes (h : f.keyBytes kind = .error fault) :
    fault.kind = .invalidKeyMaterial := by
  rw [keyBytes] at h
  split at h
  · cases h
  · next hcontent =>
    rw [if_pos (kind_of_content hcontent)] at h
    cases h
    rfl

/-! ## The text of a file -/

theorem ofText?_eq_some_iff : ofText? t = some f ↔ ∃ j, Json.read t = .ok j ∧
    j.member? "type" = some (.string f.type) ∧
    j.member? "description" = some (.string f.description) ∧
    j.member? "cborHex" = some (.string f.cborHex) := by
  have hread : ∀ j, Json.read? t = some j ↔ Json.read t = .ok j := by
    intro j
    rw [Json.read?]
    cases Json.read t <;> simp [Except.toOption]
  have hstring : ∀ (j : Json) (s : Text), j.string? = some s ↔ j = .string s := by
    intro j s
    cases j <;> simp [Json.string?]
  simp only [ofText?, ofJson?, Option.bind_eq_bind, Option.bind_eq_some_iff, hread, hstring]
  constructor
  · rintro ⟨j, hj, _, htype, type, rfl, _, hdescription, description, rfl, _, hhex, hex, rfl, hf⟩
    cases hf
    exact ⟨j, hj, htype, hdescription, hhex⟩
  · rintro ⟨j, hj, htype, hdescription, hhex⟩
    exact ⟨j, hj, _, htype, _, rfl, _, hdescription, _, rfl, _, hhex, _, rfl, rfl⟩

/-- The names of the members of a key file. -/
def memberNames : List Text := ["type", "description", "cborHex"]

/-- The text of a key file is read as the file. -/
theorem ofText?_render (f : KeyFile) : ofText? f.toJson.render = some f := by
  have hlisted : Json.Listed [("type", Json.string f.type), ("description", .string f.description),
      ("cborHex", .string f.cborHex)] := by
    have hnodup : memberNames.Nodup := by decide
    have hnone : ∀ name ∈ memberNames, Json.index? name = none := by decide
    exact ⟨hnodup, List.pairwise_of_forall_mem_list fun m _ n hn =>
      .of_index_none (hnone n.1 (List.mem_map_of_mem hn))⟩
  have hexact : Everywhere Json.ExactAt f.toJson := by
    refine Json.everywhere_object_iff.2 ⟨hlisted, ?_⟩
    simp only [List.forall_mem_cons]
    exact ⟨.leaf trivial rfl, .leaf trivial rfl, .leaf trivial rfl, nofun⟩
  exact ofText?_eq_some_iff.2 ⟨f.toJson, Json.read_render hexact, rfl, rfl, rfl⟩

end KeyFile

namespace SigningKey

theorem ofBytes_eq_ok_iff : ofBytes bs = .ok k ↔ bs = k.bytes := by
  rw [ofBytes]
  split_ifs with h
  · rw [Except.ok.injEq]
    constructor
    · rintro rfl
      rfl
    · intro hbytes
      cases k
      cases hbytes
      rfl
  · refine iff_of_false nofun ?_
    rintro rfl
    exact h k.length_bytes

theorem kind_of_ofBytes (h : ofBytes bs = .error fault) : fault.kind = .invalidKeyMaterial := by
  rw [ofBytes] at h
  split_ifs at h
  cases h
  rfl

/-- A key is loaded exactly from the texts that spell it. -/
theorem ofFile_eq_ok_iff : ofFile t = .ok k ↔ KeyFile.Spells t k := by
  have hfile : ofFile t = .ok k ↔
      ∃ f, KeyFile.ofText? t = some f ∧ f.content .signing = .ok k.bytes := by
    rw [ofFile]
    cases KeyFile.ofText? t with
    | none => simp
    | some f => simp [bind_eq_ok, KeyFile.keyBytes_eq_ok_iff, ofBytes_eq_ok_iff]
  simp only [hfile, KeyFile.content_eq_ok_iff, KeyFile.ofText?_eq_some_iff]
  constructor
  · rintro ⟨f, ⟨j, hj, htype, hdescription, hhex⟩, hspelled⟩
    exact ⟨j, _, _, _, hj, htype, hdescription, hhex, hspelled⟩
  · rintro ⟨j, type, description, hex, hj, htype, hdescription, hhex, hspelled⟩
    exact ⟨⟨type, description, hex⟩, ⟨j, hj, htype, hdescription, hhex⟩, hspelled⟩

theorem kind_of_ofFile (h : ofFile t = .error fault) : fault.kind = .invalidKeyMaterial := by
  rw [ofFile] at h
  split at h
  · rcases bind_eq_error.1 h with hbytes | ⟨bs, -, hkey⟩
    · exact KeyFile.kind_of_keyBytes hbytes
    · exact kind_of_ofBytes hkey
  · cases h
    rfl

theorem toFile_eq (k : SigningKey) (type description : Text) : k.toFile type description =
    .ok ⟨type, description, Bytes.toHex (0x58 :: 0x20 :: k.bytes)⟩ := by
  have hbytes : Codec.toCbor k = .ok (0x58 :: 0x20 :: k.bytes) :=
    writeTerm_eq_ok_iff.2 (KeyFile.write?_key k)
  rw [toFile, hbytes]
  rfl

/-- The file of a key, written as JSON, is loaded as the key.  From any text either the key that it
spells is loaded, or loading fails with a fault of key material and the text spells no key. -/
theorem loads_key_files :
    (∀ (k : SigningKey) (type description : Text), ∃ f, k.toFile type description = .ok f ∧
      f.type = type ∧ f.description = description ∧ ofFile f.toJson.render = .ok k) ∧
    ∀ t, (∃ k, ofFile t = .ok k ∧ KeyFile.Spells t k) ∨
      ∃ fault, ofFile t = .error fault ∧ fault.kind = .invalidKeyMaterial ∧
        ∀ k, ¬ KeyFile.Spells t k := by
  constructor
  · intro k type description
    refine ⟨_, toFile_eq k type description, rfl, rfl, ?_⟩
    rw [ofFile, KeyFile.ofText?_render]
    have hcontent : KeyFile.content .signing
        ⟨type, description, Bytes.toHex (0x58 :: 0x20 :: k.bytes)⟩ = .ok k.bytes :=
      KeyFile.content_eq_ok_iff.2 (Bytes.ofHex?_toHex _)
    exact bind_eq_ok.2 ⟨k.bytes, KeyFile.keyBytes_eq_ok_iff.2 hcontent, ofBytes_eq_ok_iff.2 rfl⟩
  · intro t
    cases h : ofFile t with
    | ok k => exact .inl ⟨k, rfl, ofFile_eq_ok_iff.1 h⟩
    | error fault =>
      refine .inr ⟨fault, rfl, kind_of_ofFile h, fun k hk => ?_⟩
      rw [ofFile_eq_ok_iff.2 hk] at h
      cases h

end SigningKey

end Eutxo

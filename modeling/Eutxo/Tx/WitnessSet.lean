import Eutxo.Key.Basic
import Eutxo.Tx.FieldSet

/-!
# Witness sets

The witness set holds what justifies a transaction: signatures, scripts and
their data.  Everything but the signatures is kept as it was read, scripts as
bytes and the rest as terms.
-/

namespace Eutxo

/-- A signature with the key it was made by. -/
structure VkeyWitness where
  key : VerificationKey
  signature : Signature
  deriving DecidableEq, Repr

namespace VkeyWitness

/-- The term of a witness: key and signature. -/
def toTerm (w : VkeyWitness) : Term := .seq [Codec.toTerm w.key, Codec.toTerm w.signature]

/-- The witness that a term spells. -/
def ofTerm (path : Path) (t : Term) : Except Fault VkeyWitness := do
  match ← t.asFixedSequence path [.integer 2] with
  | [key, signature] =>
    return ⟨← Codec.ofTerm (.item path 0) key, ← Codec.ofTerm (.item path 1) signature⟩
  | items => throw (.decode path (.arity [.integer 2] items.length))

instance : Codec VkeyWitness where
  name := "vkey_witness"
  toTerm := toTerm
  ofTerm := ofTerm

end VkeyWitness

/-- The fields of a witness set. -/
inductive WitnessField where
  | vkeyWitnesses
  | nativeScripts
  | bootstrapWitnesses
  | plutusV1Scripts
  | plutusData
  | redeemers
  | plutusV2Scripts
  | plutusV3Scripts
  deriving DecidableEq, Repr

namespace WitnessField

/-- The key of a field. -/
def key : WitnessField → Nat
  | .vkeyWitnesses => 0
  | .nativeScripts => 1
  | .bootstrapWitnesses => 2
  | .plutusV1Scripts => 3
  | .plutusData => 4
  | .redeemers => 5
  | .plutusV2Scripts => 6
  | .plutusV3Scripts => 7

/-- The field of a key. -/
def ofKey? : Nat → Option WitnessField
  | 0 => some .vkeyWitnesses
  | 1 => some .nativeScripts
  | 2 => some .bootstrapWitnesses
  | 3 => some .plutusV1Scripts
  | 4 => some .plutusData
  | 5 => some .redeemers
  | 6 => some .plutusV2Scripts
  | 7 => some .plutusV3Scripts
  | _ => none

end WitnessField

/-- A field of a witness set with its content. -/
inductive WitnessEntry where
  | vkeyWitnesses (s : Term.SetLike VkeyWitness)
  | nativeScripts (s : Term.SetLike Term)
  | bootstrapWitnesses (s : Term.SetLike Term)
  | plutusV1Scripts (s : Term.SetLike Bytes)
  | plutusData (s : Term.SetLike Term)
  | redeemers (t : Term)
  | plutusV2Scripts (s : Term.SetLike Bytes)
  | plutusV3Scripts (s : Term.SetLike Bytes)

namespace WitnessEntry

/-- The field of an entry. -/
def field : WitnessEntry → WitnessField
  | .vkeyWitnesses _ => .vkeyWitnesses
  | .nativeScripts _ => .nativeScripts
  | .bootstrapWitnesses _ => .bootstrapWitnesses
  | .plutusV1Scripts _ => .plutusV1Scripts
  | .plutusData _ => .plutusData
  | .redeemers _ => .redeemers
  | .plutusV2Scripts _ => .plutusV2Scripts
  | .plutusV3Scripts _ => .plutusV3Scripts

/-- Whether an entry is a list that is marked as a set. -/
def isTagged : WitnessEntry → Bool
  | .vkeyWitnesses s => s.tagged
  | .nativeScripts s => s.tagged
  | .bootstrapWitnesses s => s.tagged
  | .plutusV1Scripts s => s.tagged
  | .plutusData s => s.tagged
  | .redeemers _ => false
  | .plutusV2Scripts s => s.tagged
  | .plutusV3Scripts s => s.tagged

/-- The term of a list of scripts, marked as a set or not. -/
def scriptTerm (s : Term.SetLike Bytes) : Term := Term.setLike (s.items.map .bytes) s.tagged

/-- The scripts that a term spells, with or without the mark of a set. -/
def decodeScripts (path : Path) (t : Term) : Except Fault (Term.SetLike Bytes) := do
  let s ← t.asSetLike path
  return ⟨← Term.decodeItems path Term.asBytes s.items, s.tagged⟩

/-- The term of the content of an entry. -/
def content : WitnessEntry → Term
  | .vkeyWitnesses s => Codec.setToTerm s
  | .nativeScripts s => Term.setLike s.items s.tagged
  | .bootstrapWitnesses s => Term.setLike s.items s.tagged
  | .plutusV1Scripts s => scriptTerm s
  | .plutusData s => Term.setLike s.items s.tagged
  | .redeemers t => t
  | .plutusV2Scripts s => scriptTerm s
  | .plutusV3Scripts s => scriptTerm s

/-- The key and the content of an entry as terms. -/
def toTerms (e : WitnessEntry) : Term × Term := (.int e.field.key, e.content)

/-- The entry of a field whose content a term spells. -/
def ofContent (path : Path) (t : Term) : WitnessField → Except Fault WitnessEntry
  | .vkeyWitnesses => do return .vkeyWitnesses (← Codec.setOfTerm path t)
  | .nativeScripts => do return .nativeScripts (← t.asSetLike path)
  | .bootstrapWitnesses => do return .bootstrapWitnesses (← t.asSetLike path)
  | .plutusV1Scripts => do return .plutusV1Scripts (← decodeScripts path t)
  | .plutusData => do return .plutusData (← t.asSetLike path)
  | .redeemers => .ok (.redeemers t)
  | .plutusV2Scripts => do return .plutusV2Scripts (← decodeScripts path t)
  | .plutusV3Scripts => do return .plutusV3Scripts (← decodeScripts path t)

/-- The entry that a key and a content spell. -/
def ofTerms (path : Path) (e : Term × Term) : Except Fault WitnessEntry := do
  let key ← e.1.asSafeUnsigned (.key path)
  let fieldPath := Path.entry path (Text.ofNat key)
  match WitnessField.ofKey? key with
  | some f => ofContent fieldPath e.2 f
  | none => throw (.decode fieldPath (.witnessField path key))

end WitnessEntry

/-- What justifies a transaction. -/
structure WitnessSet where
  vkeyWitnesses : Option (List VkeyWitness) := none
  nativeScripts : Option (List Term) := none
  bootstrapWitnesses : Option (List Term) := none
  plutusV1Scripts : Option (List Bytes) := none
  plutusData : Option (List Term) := none
  redeemers : Option Term := none
  plutusV2Scripts : Option (List Bytes) := none
  plutusV3Scripts : Option (List Bytes) := none
  /-- The keys of the list fields that are marked as sets. -/
  taggedSets : FieldSet := .empty
  deriving DecidableEq, Repr

namespace WitnessSet

/-- The witness set without fields. -/
def empty : WitnessSet := {}

/-- The content of a list field with its mark. -/
def withMark {α : Type} (w : WitnessSet) (f : WitnessField) (items : List α) : Term.SetLike α :=
  ⟨items, w.taggedSets.contains f.key⟩

/-- The fields that are present, by increasing key. -/
def entries (w : WitnessSet) : List WitnessEntry :=
  w.vkeyWitnesses.toList.map (fun s => .vkeyWitnesses (w.withMark .vkeyWitnesses s))
    ++ w.nativeScripts.toList.map (fun s => .nativeScripts (w.withMark .nativeScripts s))
    ++ w.bootstrapWitnesses.toList.map
      (fun s => .bootstrapWitnesses (w.withMark .bootstrapWitnesses s))
    ++ w.plutusV1Scripts.toList.map (fun s => .plutusV1Scripts (w.withMark .plutusV1Scripts s))
    ++ w.plutusData.toList.map (fun s => .plutusData (w.withMark .plutusData s))
    ++ w.redeemers.toList.map .redeemers
    ++ w.plutusV2Scripts.toList.map (fun s => .plutusV2Scripts (w.withMark .plutusV2Scripts s))
    ++ w.plutusV3Scripts.toList.map (fun s => .plutusV3Scripts (w.withMark .plutusV3Scripts s))

/-- The witness set of a list of entries.  Of two entries of one field the later one counts, but a
mark stays recorded. -/
def ofEntries (entries : List WitnessEntry) : WitnessSet where
  vkeyWitnesses := lastOf (fun | .vkeyWitnesses s => some s.items | _ => none) entries
  nativeScripts := lastOf (fun | .nativeScripts s => some s.items | _ => none) entries
  bootstrapWitnesses := lastOf (fun | .bootstrapWitnesses s => some s.items | _ => none) entries
  plutusV1Scripts := lastOf (fun | .plutusV1Scripts s => some s.items | _ => none) entries
  plutusData := lastOf (fun | .plutusData s => some s.items | _ => none) entries
  redeemers := lastOf (fun | .redeemers t => some t | _ => none) entries
  plutusV2Scripts := lastOf (fun | .plutusV2Scripts s => some s.items | _ => none) entries
  plutusV3Scripts := lastOf (fun | .plutusV3Scripts s => some s.items | _ => none) entries
  taggedSets := .ofList ((entries.filter WitnessEntry.isTagged).map fun e => .integer e.field.key)

/-- The term of a witness set. -/
def toTerm (w : WitnessSet) : Term := .map (w.entries.map WitnessEntry.toTerms)

/-- The witness set that a term spells. -/
def ofTerm (path : Path) (t : Term) : Except Fault WitnessSet := do
  return ofEntries (← (← t.asMap path).mapM (WitnessEntry.ofTerms path))

instance : Codec WitnessSet where
  name := "transaction_witness_set"
  toTerm := toTerm
  ofTerm := ofTerm

/-- Whether no field is present. -/
def isEmpty (w : WitnessSet) : Bool :=
  w.vkeyWitnesses.isNone && w.nativeScripts.isNone && w.bootstrapWitnesses.isNone
    && w.plutusV1Scripts.isNone && w.plutusData.isNone && w.redeemers.isNone
    && w.plutusV2Scripts.isNone && w.plutusV3Scripts.isNone

/-- The length of a list field, zero if it is absent. -/
def countOf {α : Type} (field : Option (List α)) : Nat := (field.map List.length).getD 0

/-- The number of key witnesses, bootstrap witnesses and scripts. -/
def count (w : WitnessSet) : Nat :=
  countOf w.vkeyWitnesses + countOf w.nativeScripts + countOf w.bootstrapWitnesses
    + countOf w.plutusV1Scripts + countOf w.plutusV2Scripts + countOf w.plutusV3Scripts

/-- The witness set with a further key witness, put together anew from its fields. -/
def addVkeyWitness (w : WitnessSet) (witness : VkeyWitness) : WitnessSet where
  vkeyWitnesses := some (w.vkeyWitnesses.getD [] ++ [witness])
  nativeScripts := w.nativeScripts
  bootstrapWitnesses := w.bootstrapWitnesses
  plutusV1Scripts := w.plutusV1Scripts
  plutusData := w.plutusData
  redeemers := w.redeemers
  plutusV2Scripts := w.plutusV2Scripts
  plutusV3Scripts := w.plutusV3Scripts
  taggedSets := .ofList w.taggedSets.keys

end WitnessSet

end Eutxo

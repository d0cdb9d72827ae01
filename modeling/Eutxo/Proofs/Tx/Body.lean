import Eutxo.Tx.Body
import Eutxo.Proofs.Tx.Entries

/-!
# Entries of a body

A body lists its fields by increasing key.  A body that was made of entries
without a repeated field lists the same entries.
-/

namespace Eutxo

open FieldEntry (Unrepeated Listed map_lastOf_eq_some_iff map_lastOf_marked_iff)

namespace BodyField

theorem key_of_ofKey? {k : Nat} {f : BodyField} (h : ofKey? k = some f) : f.key = k := by
  unfold ofKey? at h
  split at h <;> cases h <;> rfl

theorem ofKey?_key (f : BodyField) : ofKey? f.key = some f := by
  cases f <;> rfl

theorem key_injective {f g : BodyField} (h : f.key = g.key) : f = g := by
  have hf := ofKey?_key f
  rw [h, ofKey?_key] at hf
  exact (Option.some.inj hf).symm

end BodyField

instance : FieldKey BodyField where
  key := BodyField.key
  key_injective _ _ := BodyField.key_injective

instance : FieldEntry BodyEntry BodyField where
  field := BodyEntry.field
  content := BodyEntry.content
  isTagged := BodyEntry.isTagged

namespace TxBody

/-- The fields that a body may have, by increasing key. -/
def allFields : List BodyField :=
  [.inputs, .outputs, .fee, .ttl, .certificates, .withdrawals, .update, .auxiliaryDataHash,
    .validityStart, .mint, .scriptDataHash, .collateral, .requiredSigners, .networkId,
    .collateralReturn, .totalCollateral, .referenceInputs]

theorem unrepeated_entries (b : TxBody) : Unrepeated b.entries := by
  have hsublist : ((b.entries ++ []).map FieldEntry.field).Sublist allFields := by
    simp only [entries, List.append_assoc, List.cons_append, List.nil_append]
    refine .cons_cons _ (.cons_cons _ (.cons_cons _ ?_))
    -- Each optional field is there or skipped.
    iterate 14
      apply FieldEntry.sublist_of_option
      · exact fun _ => rfl
    exact List.Sublist.refl _
  rw [List.append_nil] at hsublist
  exact hsublist.nodup (by decide)

/-- The entry of a field. -/
def entryOf? (b : TxBody) : BodyField → Option BodyEntry
  | .inputs => some (.inputs (b.withMark .inputs b.inputs))
  | .outputs => some (.outputs b.outputs)
  | .fee => some (.fee b.fee)
  | .ttl => b.ttl.map .ttl
  | .certificates => b.certificates.map .certificates
  | .withdrawals => b.withdrawals.map .withdrawals
  | .update => b.update.map .update
  | .auxiliaryDataHash => b.auxiliaryDataHash.map .auxiliaryDataHash
  | .validityStart => b.validityStart.map .validityStart
  | .mint => b.mint.map .mint
  | .scriptDataHash => b.scriptDataHash.map .scriptDataHash
  | .collateral => b.collateral.map fun s => .collateral (b.withMark .collateral s)
  | .requiredSigners =>
    b.requiredSigners.map fun s => .requiredSigners (b.withMark .requiredSigners s)
  | .networkId => b.networkId.map .networkId
  | .collateralReturn => b.collateralReturn.map .collateralReturn
  | .totalCollateral => b.totalCollateral.map .totalCollateral
  | .referenceInputs =>
    b.referenceInputs.map fun s => .referenceInputs (b.withMark .referenceInputs s)

theorem mem_entries_iff_entryOf? {b : TxBody} {e : BodyEntry} :
    e ∈ b.entries ↔ b.entryOf? e.field = some e := by
  cases e <;> simp [entries, entryOf?, BodyEntry.field, eq_comm]

theorem field_of_entryOf? {b : TxBody} {f : BodyField} {e : BodyEntry}
    (h : b.entryOf? f = some e) : e.field = f := by
  cases f
  case inputs | outputs | fee =>
    cases h
    rfl
  all_goals
    obtain ⟨a, -, rfl⟩ := Option.map_eq_some_iff.1 h
    rfl

/-- A body lists one entry for each field that it has. -/
theorem listed (b : TxBody) : Listed b.entryOf? b.entries where
  unrepeated := b.unrepeated_entries
  mem_iff _ := mem_entries_iff_entryOf?
  field_eq _ _ := field_of_entryOf?

/-! ## Bodies made of entries -/

variable {entries : List BodyEntry}

/-- A body lists the entries that it was made of. -/
theorem mem_entries_iff (h : Unrepeated entries) {b : TxBody} (hb : ofEntries? entries = some b)
    (e : BodyEntry) : e ∈ b.entries ↔ e ∈ entries := by
  simp only [ofEntries?, Option.bind_eq_bind, Option.bind_eq_some_iff, Option.pure_def,
    Option.some.injEq] at hb
  obtain ⟨inputs, hinputs, outputs, houtputs, fee, hfee, rfl⟩ := hb
  rw [mem_entries_iff_entryOf?]
  cases e
  case' inputs =>
    refine map_lastOf_marked_iff h hinputs .inputs (fun _ => rfl) (fun _ => rfl) ?_
  case' outputs => refine map_lastOf_eq_some_iff h houtputs .outputs (fun _ => rfl) ?_
  case' fee => refine map_lastOf_eq_some_iff h hfee .fee (fun _ => rfl) ?_
  case' ttl => refine map_lastOf_eq_some_iff h rfl .ttl (fun _ => rfl) ?_
  case' certificates => refine map_lastOf_eq_some_iff h rfl .certificates (fun _ => rfl) ?_
  case' withdrawals => refine map_lastOf_eq_some_iff h rfl .withdrawals (fun _ => rfl) ?_
  case' update => refine map_lastOf_eq_some_iff h rfl .update (fun _ => rfl) ?_
  case' auxiliaryDataHash =>
    refine map_lastOf_eq_some_iff h rfl .auxiliaryDataHash (fun _ => rfl) ?_
  case' validityStart => refine map_lastOf_eq_some_iff h rfl .validityStart (fun _ => rfl) ?_
  case' mint => refine map_lastOf_eq_some_iff h rfl .mint (fun _ => rfl) ?_
  case' scriptDataHash => refine map_lastOf_eq_some_iff h rfl .scriptDataHash (fun _ => rfl) ?_
  case' collateral =>
    refine map_lastOf_marked_iff h rfl .collateral (fun _ => rfl) (fun _ => rfl) ?_
  case' requiredSigners =>
    refine map_lastOf_marked_iff h rfl .requiredSigners (fun _ => rfl) (fun _ => rfl) ?_
  case' networkId => refine map_lastOf_eq_some_iff h rfl .networkId (fun _ => rfl) ?_
  case' collateralReturn => refine map_lastOf_eq_some_iff h rfl .collateralReturn (fun _ => rfl) ?_
  case' totalCollateral => refine map_lastOf_eq_some_iff h rfl .totalCollateral (fun _ => rfl) ?_
  case' referenceInputs =>
    refine map_lastOf_marked_iff h rfl .referenceInputs (fun _ => rfl) (fun _ => rfl) ?_
  -- What remains is that each pattern picks the content of its own constructor.
  all_goals
    intro e a
    cases e <;> simp

theorem entries_perm (h : Unrepeated entries) {b : TxBody} (hb : ofEntries? entries = some b) :
    entries.Perm b.entries :=
  h.perm b.unrepeated_entries (mem_entries_iff h hb)

end TxBody

end Eutxo

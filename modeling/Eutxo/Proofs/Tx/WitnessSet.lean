import Eutxo.Tx.WitnessSet
import Eutxo.Proofs.Key
import Eutxo.Proofs.Ledger.Readback
import Eutxo.Proofs.Tx.Entries

/-!
# Witness sets

A witness set lists its fields by increasing key, is told by what is written up
to the order of map entries in the terms that it keeps, and is read back.
-/

namespace Eutxo

open Traversal Term
open FieldEntry (Unrepeated Listed map_lastOf_eq_some_iff map_lastOf_marked_iff)

/-! ## Keys and signatures -/

instance : Codec.Rigid VkeyWitness where
  eq_toTerm := Term.eq_pair_of_reordered Codec.Rigid.eq_toTerm Codec.Rigid.eq_toTerm
  ofTerm_toTerm path w := by
    show (do
      return (⟨← Codec.ofTerm (.item path 0) (Codec.toTerm w.key),
        ← Codec.ofTerm (.item path 1) (Codec.toTerm w.signature)⟩ : VkeyWitness)) = .ok w
    rw [Codec.Rigid.ofTerm_toTerm, Codec.Rigid.ofTerm_toTerm]
    rfl

instance : Codec.Regular VkeyWitness where
  everywhere_toTerm hP w :=
    hP.everywhere_pair (hP.everywhere_bytes w.key.bytes) (hP.everywhere_bytes w.signature.bytes)

/-! ## Entries -/

namespace WitnessField

theorem key_of_ofKey? {k : Nat} {f : WitnessField} (h : ofKey? k = some f) : f.key = k := by
  unfold ofKey? at h
  split at h <;> cases h <;> rfl

theorem ofKey?_key (f : WitnessField) : ofKey? f.key = some f := by
  cases f <;> rfl

theorem key_injective {f g : WitnessField} (h : f.key = g.key) : f = g := by
  have hf := ofKey?_key f
  rw [h, ofKey?_key] at hf
  exact (Option.some.inj hf).symm

end WitnessField

instance : FieldKey WitnessField where
  key := WitnessField.key
  key_injective _ _ := WitnessField.key_injective

instance : FieldEntry WitnessEntry WitnessField where
  field := WitnessEntry.field
  content := WitnessEntry.content
  isTagged := WitnessEntry.isTagged

namespace WitnessSet

/-- The fields that a witness set may have, by increasing key. -/
def allFields : List WitnessField :=
  [.vkeyWitnesses, .nativeScripts, .bootstrapWitnesses, .plutusV1Scripts, .plutusData, .redeemers,
    .plutusV2Scripts, .plutusV3Scripts]

theorem sublist_entries (w : WitnessSet) :
    (w.entries.map WitnessEntry.field).Sublist allFields := by
  have hsublist : ((w.entries ++ []).map FieldEntry.field).Sublist allFields := by
    simp only [entries, List.append_assoc]
    -- Each field is there or skipped.
    iterate 8
      apply FieldEntry.sublist_of_option
      · exact fun _ => rfl
    exact List.Sublist.refl _
  rwa [List.append_nil] at hsublist

theorem unrepeated_entries (w : WitnessSet) : Unrepeated w.entries :=
  w.sublist_entries.nodup (by decide)

/-- The entry of a field. -/
def entryOf? (w : WitnessSet) : WitnessField → Option WitnessEntry
  | .vkeyWitnesses => w.vkeyWitnesses.map fun s => .vkeyWitnesses (w.withMark .vkeyWitnesses s)
  | .nativeScripts => w.nativeScripts.map fun s => .nativeScripts (w.withMark .nativeScripts s)
  | .bootstrapWitnesses =>
    w.bootstrapWitnesses.map fun s => .bootstrapWitnesses (w.withMark .bootstrapWitnesses s)
  | .plutusV1Scripts =>
    w.plutusV1Scripts.map fun s => .plutusV1Scripts (w.withMark .plutusV1Scripts s)
  | .plutusData => w.plutusData.map fun s => .plutusData (w.withMark .plutusData s)
  | .redeemers => w.redeemers.map .redeemers
  | .plutusV2Scripts =>
    w.plutusV2Scripts.map fun s => .plutusV2Scripts (w.withMark .plutusV2Scripts s)
  | .plutusV3Scripts =>
    w.plutusV3Scripts.map fun s => .plutusV3Scripts (w.withMark .plutusV3Scripts s)

theorem mem_entries_iff_entryOf? {w : WitnessSet} {e : WitnessEntry} :
    e ∈ w.entries ↔ w.entryOf? e.field = some e := by
  cases e <;> simp [entries, entryOf?, WitnessEntry.field]

theorem field_of_entryOf? {w : WitnessSet} {f : WitnessField} {e : WitnessEntry}
    (h : w.entryOf? f = some e) : e.field = f := by
  cases f
  all_goals
    obtain ⟨a, -, rfl⟩ := Option.map_eq_some_iff.1 h
    rfl

/-- A witness set lists one entry for each field that it has. -/
theorem listed (w : WitnessSet) : Listed w.entryOf? w.entries where
  unrepeated := w.unrepeated_entries
  mem_iff _ := mem_entries_iff_entryOf?
  field_eq _ _ := field_of_entryOf?

/-- A witness set lists the entries that it was made of. -/
theorem mem_entries_iff {entries : List WitnessEntry} (h : Unrepeated entries) (e : WitnessEntry) :
    e ∈ (ofEntries entries).entries ↔ e ∈ entries := by
  rw [mem_entries_iff_entryOf?]
  cases e
  case' vkeyWitnesses =>
    refine map_lastOf_marked_iff h rfl .vkeyWitnesses (fun _ => rfl) (fun _ => rfl) ?_
  case' nativeScripts =>
    refine map_lastOf_marked_iff h rfl .nativeScripts (fun _ => rfl) (fun _ => rfl) ?_
  case' bootstrapWitnesses =>
    refine map_lastOf_marked_iff h rfl .bootstrapWitnesses (fun _ => rfl) (fun _ => rfl) ?_
  case' plutusV1Scripts =>
    refine map_lastOf_marked_iff h rfl .plutusV1Scripts (fun _ => rfl) (fun _ => rfl) ?_
  case' plutusData =>
    refine map_lastOf_marked_iff h rfl .plutusData (fun _ => rfl) (fun _ => rfl) ?_
  case' redeemers => refine map_lastOf_eq_some_iff h rfl .redeemers (fun _ => rfl) ?_
  case' plutusV2Scripts =>
    refine map_lastOf_marked_iff h rfl .plutusV2Scripts (fun _ => rfl) (fun _ => rfl) ?_
  case' plutusV3Scripts =>
    refine map_lastOf_marked_iff h rfl .plutusV3Scripts (fun _ => rfl) (fun _ => rfl) ?_
  -- What remains is that each pattern picks the content of its own constructor.
  all_goals
    intro e a
    cases e <;> simp

theorem entries_perm {entries : List WitnessEntry} (h : Unrepeated entries) :
    entries.Perm (ofEntries entries).entries :=
  h.perm (ofEntries entries).unrepeated_entries (mem_entries_iff h)

/-! ## Agreement -/

/-- Two witness sets agree on whether a list field is marked as a set. -/
def SameMark (w v : WitnessSet) (f : WitnessField) : Prop :=
  w.taggedSets.contains f.key = v.taggedSets.contains f.key

/-- Two witness sets agree on a field.  Only of lists that are present are the marks compared. -/
def AgreesOn (w v : WitnessSet) : WitnessField → Prop
  | .vkeyWitnesses =>
    w.vkeyWitnesses = v.vkeyWitnesses ∧ (w.vkeyWitnesses.isSome → w.SameMark v .vkeyWitnesses)
  | .nativeScripts =>
    Option.Rel (List.Forall₂ Reordered) w.nativeScripts v.nativeScripts ∧
      (w.nativeScripts.isSome → w.SameMark v .nativeScripts)
  | .bootstrapWitnesses =>
    Option.Rel (List.Forall₂ Reordered) w.bootstrapWitnesses v.bootstrapWitnesses ∧
      (w.bootstrapWitnesses.isSome → w.SameMark v .bootstrapWitnesses)
  | .plutusV1Scripts =>
    w.plutusV1Scripts = v.plutusV1Scripts ∧
      (w.plutusV1Scripts.isSome → w.SameMark v .plutusV1Scripts)
  | .plutusData =>
    Option.Rel (List.Forall₂ Reordered) w.plutusData v.plutusData ∧
      (w.plutusData.isSome → w.SameMark v .plutusData)
  | .redeemers => Option.Rel Reordered w.redeemers v.redeemers
  | .plutusV2Scripts =>
    w.plutusV2Scripts = v.plutusV2Scripts ∧
      (w.plutusV2Scripts.isSome → w.SameMark v .plutusV2Scripts)
  | .plutusV3Scripts =>
    w.plutusV3Scripts = v.plutusV3Scripts ∧
      (w.plutusV3Scripts.isSome → w.SameMark v .plutusV3Scripts)

theorem reordered_scriptTerm_iff {s t : Term.SetLike Bytes} :
    Reordered (WitnessEntry.scriptTerm s) (WitnessEntry.scriptTerm t) ↔
      s.tagged = t.tagged ∧ s.items = t.items := by
  have hbytes (a b : Bytes) : Reordered (.bytes a) (.bytes b) ↔ a = b := by
    rw [Reordered.bytes_left_iff, Term.bytes.injEq, eq_comm]
  rw [WitnessEntry.scriptTerm, WitnessEntry.scriptTerm, Term.reordered_setLike_iff,
    List.forall₂_map_left_iff, List.forall₂_map_right_iff]
  simp only [hbytes]
  rw [List.forall₂_eq_eq_eq]

theorem optionRel_entryOf?_iff {w v : WitnessSet} (f : WitnessField) :
    Option.Rel (fun d e : WitnessEntry => Reordered d.content e.content) (w.entryOf? f)
      (v.entryOf? f) ↔ w.AgreesOn v f := by
  cases f
  case vkeyWitnesses =>
    simp only [entryOf?, optionRel_map_iff, WitnessEntry.content, Codec.reordered_setToTerm_iff,
      AgreesOn, withMark, optionRel_and_iff, optionRel_eq_iff]
    exact Iff.rfl
  case nativeScripts | bootstrapWitnesses | plutusData =>
    simp only [entryOf?, optionRel_map_iff, WitnessEntry.content, Term.reordered_setLike_iff,
      AgreesOn, withMark, optionRel_and_iff]
    exact Iff.rfl
  case plutusV1Scripts | plutusV2Scripts | plutusV3Scripts =>
    simp only [entryOf?, optionRel_map_iff, WitnessEntry.content, reordered_scriptTerm_iff,
      AgreesOn, withMark, optionRel_and_iff, optionRel_eq_iff]
    exact Iff.rfl
  case redeemers => exact optionRel_map_iff

/-- Witness sets are written as the same term up to the order of entries exactly if they agree on
every field. -/
theorem reordered_iff_agreesOn {w v : WitnessSet} :
    Reordered w.toTerm v.toTerm ↔ ∀ f, w.AgreesOn v f :=
  (w.listed.reordered_iff v.listed).trans (forall_congr' optionRel_entryOf?_iff)

/-! ## Nodes -/

/-- The terms that a witness set keeps as they are. -/
def keptTerms (w : WitnessSet) : List Term :=
  w.nativeScripts.getD [] ++ w.bootstrapWitnesses.getD [] ++ w.plutusData.getD []
    ++ w.redeemers.toList

/-- What is asked of nodes holds of a witness set if it holds of the terms that are kept. -/
theorem everywhere_toTerm {P : Term → Prop} (hP : LedgerNodes P) {w : WitnessSet}
    (hkept : ∀ t ∈ w.keptTerms, Everywhere P t) : Everywhere P w.toTerm := by
  refine FieldEntry.everywhere_termOf hP w.unrepeated_entries fun e he => ?_
  have hentry := mem_entries_iff_entryOf?.1 he
  cases e
  case vkeyWitnesses s => exact hP.everywhere_setToTerm s
  case nativeScripts s | bootstrapWitnesses s | plutusData s =>
    obtain ⟨items, hitems, hsame⟩ := Option.map_eq_some_iff.1 hentry
    cases hsame
    exact hP.everywhere_setLike (fun t ht => hkept t (by simp_all [keptTerms, withMark])) _
  case plutusV1Scripts s | plutusV2Scripts s | plutusV3Scripts s =>
    refine hP.everywhere_setLike (fun t ht => ?_) _
    obtain ⟨bs, -, rfl⟩ := List.mem_map.1 ht
    exact hP.everywhere_bytes bs
  case redeemers t =>
    obtain ⟨u, hu, hsame⟩ := Option.map_eq_some_iff.1 hentry
    cases hsame
    exact hkept t (by simp [keptTerms, hu])

/-! ## Reading -/

/-- Scripts are read back with their mark. -/
theorem exists_decodeScripts (path : Path) {s : Term.SetLike Bytes} {t : Term}
    (h : Reordered (WitnessEntry.scriptTerm s) t) :
    ∃ r, WitnessEntry.decodeScripts path t = .ok r ∧ WitnessEntry.scriptTerm r = t := by
  obtain ⟨items, rfl, hitems⟩ := Term.eq_setLike_of_reordered h
  obtain ⟨bs, hbs, hmatch⟩ := Term.exists_decodeItems path (f := Term.asBytes)
    (R := fun t bs => .bytes bs = t)
    (fun p bs _ t ht => ⟨bs, asBytes_eq_ok_iff.2 (Reordered.bytes_left_iff.1 ht),
      (Reordered.bytes_left_iff.1 ht).symm⟩) hitems
  have hmap : bs.map .bytes = items :=
    (map_eq_of_forall₂ (f := id) hmatch).trans (List.map_id items)
  refine ⟨⟨bs, s.tagged⟩, ?_, congrArg (Term.setLike · s.tagged) hmap⟩
  rw [WitnessEntry.decodeScripts, Term.asSetLike_setLike, ok_bind, hbs]
  rfl

/-- The content of a field is read back. -/
theorem exists_ofContent (path : Path) (e : WitnessEntry) {t : Term}
    (h : Reordered e.content t) :
    ∃ d, WitnessEntry.ofContent path t e.field = .ok d ∧ d.field = e.field ∧ d.content = t := by
  cases e
  case vkeyWitnesses s =>
    obtain ⟨r, hr, hterm⟩ := Codec.exists_setOfTerm path h
    exact ⟨_, bind_eq_ok.2 ⟨r, hr, rfl⟩, rfl, hterm⟩
  case nativeScripts s | bootstrapWitnesses s | plutusData s =>
    obtain ⟨items, rfl, -⟩ := Term.eq_setLike_of_reordered h
    have hread := Term.asSetLike_setLike path items s.tagged
    exact ⟨_, bind_eq_ok.2 ⟨_, hread, rfl⟩, rfl, rfl⟩
  case plutusV1Scripts s | plutusV2Scripts s | plutusV3Scripts s =>
    obtain ⟨r, hr, hterm⟩ := exists_decodeScripts path h
    exact ⟨_, bind_eq_ok.2 ⟨r, hr, rfl⟩, rfl, hterm⟩
  case redeemers u => exact ⟨.redeemers t, rfl, rfl, rfl⟩

theorem ofTerms_key (path : Path) (f : WitnessField) (t : Term) :
    WitnessEntry.ofTerms path (.int f.key, t) =
      WitnessEntry.ofContent (.entry path (Text.ofNat f.key)) t f := by
  have hkey : (Term.int f.key).asSafeUnsigned (.key path) = .ok f.key :=
    asSafeUnsigned_eq_ok_iff.2 ⟨rfl, by cases f <;> decide⟩
  rw [WitnessEntry.ofTerms, hkey, ok_bind, WitnessField.ofKey?_key]

/-- The field is a list, which may be marked as a set, and it is present. -/
def HasList (w : WitnessSet) (f : WitnessField) : Prop :=
  f ≠ .redeemers ∧ (w.entryOf? f).isSome = true

theorem sameMark_of_agreesOn {w v : WitnessSet} {f : WitnessField} (hlist : w.HasList f)
    (h : w.AgreesOn v f) : w.SameMark v f := by
  obtain ⟨hne, hsome⟩ := hlist
  cases f
  case redeemers => exact absurd rfl hne
  all_goals
    rw [entryOf?, Option.isSome_map] at hsome
    exact h.2 hsome

theorem hasList_of_mem_taggedSets {entries : List WitnessEntry} (h : Unrepeated entries)
    {n : Number} (hn : n ∈ (ofEntries entries).taggedSets.keys) :
    ∃ f, (ofEntries entries).HasList f ∧ n = .integer f.key := by
  have hmarks : n ∈ (FieldEntry.marksOf entries).keys := hn
  obtain ⟨e, he, htagged, rfl⟩ := FieldEntry.mem_marksOf.1 hmarks
  have hentry := mem_entries_iff_entryOf?.1 ((mem_entries_iff h e).2 he)
  refine ⟨e.field, ⟨?_, by rw [hentry]; rfl⟩, rfl⟩
  intro hredeemers
  cases e <;> cases hredeemers
  cases htagged

/-- A witness set is read back, with the marks of the lists that are present. -/
theorem exists_ofTerm (path : Path) {w : WitnessSet} {t : Term} (h : Reordered w.toTerm t) :
    ∃ v, ofTerm path t = .ok v ∧ Reordered t v.toTerm ∧
      FieldEntry.RestrictsTo w.taggedSets v.taggedSets w.HasList := by
  obtain ⟨fs, ds, rfl, hds, hunrepeated, hterm, -⟩ :=
    FieldEntry.exists_entries (WitnessEntry.ofTerms path) w.unrepeated_entries
      (fun e _ t ht => by
        obtain ⟨d, hd, hfield, hcontent⟩ := exists_ofContent _ e ht
        exact ⟨d, (ofTerms_key path e.field t).trans hd, hfield, hcontent⟩) h
  have hback : Reordered (.map fs) (ofEntries ds).toTerm := by
    rw [← hterm]
    exact .permute ((entries_perm hunrepeated).map _)
  have hagree := reordered_iff_agreesOn.1 (h.trans hback)
  have hhas (f : WitnessField) : w.HasList f ↔ (ofEntries ds).HasList f := by
    rw [HasList, HasList, isSome_eq_of_optionRel ((optionRel_entryOf?_iff f).2 (hagree f))]
  refine ⟨ofEntries ds, ?_, hback, FieldEntry.restrictsTo_of_contains ?_ ?_⟩
  · show ofEntries <$> fs.mapM (WitnessEntry.ofTerms path) = _
    rw [hds]
    rfl
  · intro n hn
    obtain ⟨f, hf, hkey⟩ := hasList_of_mem_taggedSets hunrepeated hn
    exact ⟨f, (hhas f).2 hf, hkey⟩
  · exact fun f hf => sameMark_of_agreesOn hf (hagree f)

end WitnessSet

end Eutxo

import Eutxo.Proofs.Ledger.Readback
import Eutxo.Proofs.Tx.BodyContent

/-!
# Bodies are read back

A body can hold numbers that no body that was read holds, negative ones among
them.  One that holds none of these is read back from what it is written as,
with the marks of the lists that are present.
-/

namespace Eutxo

open Traversal Term Cbor
open FieldEntry (Unrepeated)

/-! ## Entries -/

namespace BodyEntry

/-- The numbers of an entry are such as can be read. -/
def Decodable : BodyEntry → Prop
  | .fee n | .ttl n | .validityStart n | .totalCollateral n => 0 ≤ n
  | .networkId n => 0 ≤ n ∧ n ≤ Number.maxSafe
  | .withdrawals ws => ∀ w ∈ ws, 0 ≤ w.amount
  | _ => True

theorem exists_decodeWithdrawals (path : Path) {ws : List Withdrawal}
    (hamounts : ∀ w ∈ ws, 0 ≤ w.amount) {t : Term}
    (h : Reordered (BodyEntry.withdrawals ws).content t) :
    ∃ vs, decodeWithdrawals path t = .ok vs ∧ (BodyEntry.withdrawals vs).content = t := by
  obtain ⟨fs, rfl, hfs⟩ := Reordered.exists_entries h
  have hstep : ∀ x ∈ fs.zipIdx, ∃ v : Withdrawal, (do
      let rewardAddress ← x.1.1.asBytes (.keyAt path x.2)
      let amount ← x.1.2.asUnsigned (.item path x.2)
      return (⟨rewardAddress, amount⟩ : Withdrawal)) = .ok v ∧ TxBody.withdrawalTerms v = x.1 := by
    rintro ⟨⟨k, v⟩, i⟩ hx
    obtain ⟨g, hg, hkey, hvalue⟩ := hfs _ (List.fst_mem_of_mem_zipIdx hx)
    obtain ⟨w, hw, rfl⟩ := List.mem_map.1 hg
    obtain ⟨amount, hamount⟩ := Int.eq_ofNat_of_zero_le (hamounts w hw)
    have hk : k = .bytes w.rewardAddress := Reordered.bytes_left_iff.1 hkey
    have hv : v = .int amount := hamount ▸ Reordered.int_left_iff.1 hvalue
    exact ⟨⟨w.rewardAddress, amount⟩, by rw [hk, hv]; rfl, by rw [hk, hv]; rfl⟩
  obtain ⟨vs, hvs, hmatch⟩ := exists_mapM hstep
  have hmap := map_eq_of_forall₂ hmatch
  rw [List.zipIdx_map_fst] at hmap
  exact ⟨vs, hvs, congrArg Term.map hmap⟩

/-- The content of a field is read back. -/
theorem exists_ofContent (path : Path) {e : BodyEntry} (he : e.Decodable) {t : Term}
    (h : Reordered e.content t) :
    ∃ d, ofContent path t e.field = .ok d ∧ d.field = e.field ∧ d.content = t := by
  cases e
  case inputs s | collateral s | requiredSigners s | referenceInputs s =>
    obtain ⟨r, hr, hterm⟩ := Codec.exists_setOfTerm path h
    exact ⟨_, bind_eq_ok.2 ⟨r, hr, rfl⟩, rfl, hterm⟩
  case outputs os =>
    obtain ⟨items, rfl, hitems⟩ := Reordered.seq_left_iff.1 h
    obtain ⟨ps, hps, hmap⟩ := Codec.exists_decodeItems path hitems
    exact ⟨_, bind_eq_ok.2 ⟨items, rfl, bind_eq_ok.2 ⟨ps, hps, rfl⟩⟩, rfl, congrArg Term.seq hmap⟩
  case fee n | ttl n | validityStart n | totalCollateral n =>
    obtain ⟨m, rfl⟩ := Int.eq_ofNat_of_zero_le he
    rw [Reordered.int_left_iff.1 h]
    exact ⟨_, bind_eq_ok.2 ⟨m, rfl, rfl⟩, rfl, rfl⟩
  case networkId n =>
    obtain ⟨hzero, hsafe⟩ := he
    obtain ⟨m, rfl⟩ := Int.eq_ofNat_of_zero_le hzero
    have hread : (Term.int m).asSafeUnsigned path = .ok m :=
      asSafeUnsigned_eq_ok_iff.2 ⟨rfl, Int.ofNat_le.1 hsafe⟩
    rw [Reordered.int_left_iff.1 h]
    exact ⟨_, bind_eq_ok.2 ⟨m, hread, rfl⟩, rfl, rfl⟩
  case certificates u | update u => exact ⟨_, rfl, rfl, rfl⟩
  case withdrawals ws =>
    obtain ⟨vs, hvs, hterm⟩ := exists_decodeWithdrawals path he h
    exact ⟨_, bind_eq_ok.2 ⟨vs, hvs, rfl⟩, rfl, hterm⟩
  case auxiliaryDataHash a | scriptDataHash a | mint a | collateralReturn a =>
    obtain ⟨b, hb, hterm⟩ := Codec.Readable.exists_ofTerm path h
    exact ⟨_, bind_eq_ok.2 ⟨b, hb, rfl⟩, rfl, hterm⟩

theorem ofTerms_key (path : Path) (f : BodyField) (t : Term) :
    ofTerms path (.int f.key, t) = ofContent (.entry path (Text.ofNat f.key)) t f := by
  have hkey : (Term.int f.key).asSafeUnsigned (.key path) = .ok f.key :=
    asSafeUnsigned_eq_ok_iff.2 ⟨rfl, by cases f <;> decide⟩
  rw [ofTerms, hkey, ok_bind, BodyField.ofKey?_key]

end BodyEntry

/-! ## Bodies -/

/-- The fields that are lists, which may be marked as sets. -/
def BodyField.isList : BodyField → Bool
  | .inputs | .collateral | .requiredSigners | .referenceInputs => true
  | _ => false

namespace TxBody

/-- The numbers of a body are such as can be read, and no address is withdrawn from twice. -/
structure Decodable (b : TxBody) : Prop where
  fee : 0 ≤ b.fee
  ttl : ∀ n ∈ b.ttl, 0 ≤ n
  validityStart : ∀ n ∈ b.validityStart, 0 ≤ n
  totalCollateral : ∀ n ∈ b.totalCollateral, 0 ≤ n
  networkId : ∀ n ∈ b.networkId, 0 ≤ n ∧ n ≤ Number.maxSafe
  amounts : ∀ ws ∈ b.withdrawals, ∀ w ∈ ws, 0 ≤ w.amount
  addresses : ∀ ws ∈ b.withdrawals, (ws.map Withdrawal.rewardAddress).Nodup

theorem Decodable.entry {b : TxBody} (h : b.Decodable) {e : BodyEntry} (he : e ∈ b.entries) :
    e.Decodable := by
  have hentry := mem_entries_iff_entryOf?.1 he
  cases e
  case fee n =>
    cases hentry
    exact h.fee
  case ttl n => exact h.ttl n ((Option.mem_map_of_injective fun _ _ => BodyEntry.ttl.inj).1 hentry)
  case validityStart n =>
    exact h.validityStart n
      ((Option.mem_map_of_injective fun _ _ => BodyEntry.validityStart.inj).1 hentry)
  case totalCollateral n =>
    exact h.totalCollateral n
      ((Option.mem_map_of_injective fun _ _ => BodyEntry.totalCollateral.inj).1 hentry)
  case networkId n =>
    exact h.networkId n ((Option.mem_map_of_injective fun _ _ => BodyEntry.networkId.inj).1 hentry)
  case withdrawals ws =>
    exact h.amounts ws
      ((Option.mem_map_of_injective fun _ _ => BodyEntry.withdrawals.inj).1 hentry)
  all_goals exact trivial

theorem Decodable.keysApart {b : TxBody} (h : b.Decodable) :
    ∀ ws ∈ b.withdrawals, KeysApartAt (BodyEntry.withdrawals ws).content := by
  intro ws hws
  apply List.pairwise_map.2
  apply (List.pairwise_map.1 (h.addresses ws hws)).imp
  intro w v hne hsame
  exact hne (Term.bytes.inj (Reordered.bytes_left_iff.1 hsame)).symm

/-- The field is a list, which may be marked as a set, and it is present. -/
def HasList (b : TxBody) (f : BodyField) : Prop := f.isList = true ∧ (b.entryOf? f).isSome = true

theorem sameMark_of_agreesOn {b c : TxBody} {f : BodyField} (hlist : b.HasList f)
    (h : b.AgreesOn c f) : b.SameMark c f := by
  obtain ⟨hlist, hsome⟩ := hlist
  cases f
  case inputs => exact h.2
  case collateral | requiredSigners | referenceInputs =>
    rw [entryOf?, Option.isSome_map] at hsome
    exact h.2 hsome
  all_goals cases hlist

variable {entries : List BodyEntry}

theorem taggedSets_of_ofEntries? {b : TxBody} (hb : ofEntries? entries = some b) :
    b.taggedSets = FieldEntry.marksOf entries := by
  simp only [ofEntries?, Option.bind_eq_bind, Option.bind_eq_some_iff, Option.pure_def,
    Option.some.injEq] at hb
  obtain ⟨_, _, _, _, _, _, rfl⟩ := hb
  rfl

theorem hasList_of_mem_taggedSets (h : Unrepeated entries) {b : TxBody}
    (hb : ofEntries? entries = some b) {n : Number} (hn : n ∈ b.taggedSets.keys) :
    ∃ f, b.HasList f ∧ n = .integer f.key := by
  rw [taggedSets_of_ofEntries? hb] at hn
  obtain ⟨e, he, htagged, rfl⟩ := FieldEntry.mem_marksOf.1 hn
  have hentry := mem_entries_iff_entryOf?.1 ((mem_entries_iff h hb e).2 he)
  refine ⟨e.field, ⟨?_, by rw [hentry]; rfl⟩, rfl⟩
  cases e with
  | inputs s | collateral s | requiredSigners s | referenceInputs s => rfl
  | _ => cases htagged

/-- Entries of the mandatory fields make up a body. -/
theorem exists_ofEntries? (hinputs : ∃ e ∈ entries, e.field = .inputs)
    (houtputs : ∃ e ∈ entries, e.field = .outputs) (hfee : ∃ e ∈ entries, e.field = .fee) :
    ∃ b, ofEntries? entries = some b := by
  obtain ⟨d, hd, hdfield⟩ := hinputs
  obtain ⟨e, he, hefield⟩ := houtputs
  obtain ⟨f, hf, hffield⟩ := hfee
  refine exists_bind_eq_some (FieldEntry.exists_lastOf _ hd ?_) fun inputs =>
    exists_bind_eq_some (FieldEntry.exists_lastOf _ he ?_) fun outputs =>
      exists_bind_eq_some (FieldEntry.exists_lastOf _ hf ?_) fun fee => ⟨_, rfl⟩
  · cases d with
    | inputs s => rfl
    | _ => cases hdfield
  · cases e with
    | outputs os => rfl
    | _ => cases hefield
  · cases f with
    | fee n => rfl
    | _ => cases hffield

/-- A body is read back, with the marks of the lists that are present. -/
theorem exists_ofTerm (path : Path) {b : TxBody} (hb : b.Decodable) {t : Term}
    (h : Reordered b.toTerm t) :
    ∃ c, ofTerm path t = .ok c ∧ Reordered t c.toTerm ∧
      FieldEntry.RestrictsTo b.taggedSets c.taggedSets b.HasList := by
  obtain ⟨fs, ds, rfl, hds, hunrepeated, hterm, hfields⟩ :=
    FieldEntry.exists_entries (BodyEntry.ofTerms path) b.unrepeated_entries
      (fun e he t ht => by
        obtain ⟨d, hd, hfield, hcontent⟩ := BodyEntry.exists_ofContent _ (hb.entry he) ht
        exact ⟨d, (BodyEntry.ofTerms_key path e.field t).trans hd, hfield, hcontent⟩) h
  obtain ⟨c, hc⟩ := exists_ofEntries?
    (hfields (.inputs _) (mem_entries_iff_entryOf?.2 rfl))
    (hfields (.outputs _) (mem_entries_iff_entryOf?.2 rfl))
    (hfields (.fee _) (mem_entries_iff_entryOf?.2 rfl))
  have hback : Reordered (.map fs) c.toTerm := by
    rw [← hterm]
    exact .permute ((entries_perm hunrepeated hc).map _)
  have hagree := reordered_iff_agreesOn.1 (h.trans hback)
  have hhas (f : BodyField) : b.HasList f ↔ c.HasList f := by
    rw [HasList, HasList, isSome_eq_of_optionRel ((optionRel_entryOf?_iff f).2 (hagree f))]
  refine ⟨c, ?_, hback, FieldEntry.restrictsTo_of_contains ?_ ?_⟩
  · show (fs.mapM (BodyEntry.ofTerms path) >>= fun entries => _) = _
    rw [hds, ok_bind, hc]
    rfl
  · intro n hn
    obtain ⟨f, hf, hkey⟩ := hasList_of_mem_taggedSets hunrepeated hc hn
    exact ⟨f, (hhas f).2 hf, hkey⟩
  · exact fun f hf => sameMark_of_agreesOn hf (hagree f)

end TxBody

end Eutxo

import Eutxo.Proofs.Ledger.Grammar
import Eutxo.Proofs.Tx.Stability

/-!
# Grammars of bodies and witness sets

The terms that the decoders of bodies and witness sets accept, field by field.
Which fields are recorded as marked can be seen from the term.
-/

namespace Eutxo

open Traversal Term

/-! ## Grammars -/

namespace Term

/-- What may stand under a key of a body. -/
def BodyContent : Nat → Term → Prop
  | 0 | 13 | 18 => IsSet IsInput
  | 1 => IsList IsOutput
  | 2 | 3 | 8 | 17 => IsUnsigned
  | 4 | 6 => fun _ => True
  | 5 => IsMap IsBytes IsUnsigned
  | 7 | 11 => IsBytesOf 32
  | 9 => IsBundles
  | 14 => IsSet (IsBytesOf 28)
  | 15 => IsSafeUnsigned
  | 16 => IsOutput
  | _ => fun _ => False

/-- A map with such contents, in which the inputs, the outputs and the fee are present. -/
def IsBody (t : Term) : Prop :=
  ∃ entries, t = .map entries ∧ (∀ e ∈ entries, ∃ key : Nat, e.1 = .int key ∧ BodyContent key e.2) ∧
    ∀ key ∈ ([0, 1, 2] : List Nat), ∃ e ∈ entries, e.1 = .int key

/-- What may stand under a key of a witness set. -/
def WitnessContent : Nat → Term → Prop
  | 0 => IsSet (IsPair (IsBytesOf 32) (IsBytesOf 64))
  | 1 | 2 | 4 => IsSet fun _ => True
  | 3 | 6 | 7 => IsSet IsBytes
  | 5 => fun _ => True
  | _ => fun _ => False

/-- A map with such contents. -/
def IsWitnessSet (t : Term) : Prop :=
  ∃ entries, t = .map entries ∧
    ∀ e ∈ entries, ∃ key : Nat, e.1 = .int key ∧ WitnessContent key e.2

end Term

/-! ## Bodies -/

namespace BodyEntry

theorem accepts_decodeWithdrawals (path : Path) (t : Term) :
    Accepts [.sizeMismatch] (decodeWithdrawals path t) (IsMap IsBytes IsUnsigned t) := by
  refine accepts_entries fun es _ => .mapM_zipIdx fun e _ i => ?_
  exact accepts_asBytes.andThen fun rewardAddress _ => accepts_asUnsigned.map _

theorem accepts_ofContent (path : Path) {t : Term} (ht : Everywhere UniqueKeysAt t)
    (f : BodyField) : Accepts [.sizeMismatch] (ofContent path t f) (BodyContent f.key t) := by
  cases f
  case inputs | collateral | referenceInputs =>
    exact (Codec.accepts_setOfTerm path ht fun path u _ => TxInput.accepts path u).map _
  case requiredSigners =>
    exact (Codec.accepts_setOfTerm path ht fun path u _ => Identifier.accepts path u).map _
  case outputs =>
    have houtputs : Accepts [.sizeMismatch]
        (t.asSequence path >>= decodeItems path TxOutput.ofTerm) (IsList IsOutput t) :=
      accepts_list ht fun path _ => TxOutput.accepts path
    have hentry := houtputs.map BodyEntry.outputs
    rw [bind_assoc] at hentry
    exact hentry
  case fee | ttl | validityStart | totalCollateral => exact accepts_asUnsigned.map _
  case networkId => exact accepts_asSafeUnsigned.map _
  case certificates | update => exact .ok _ trivial
  case withdrawals => exact (accepts_decodeWithdrawals path t).map _
  case auxiliaryDataHash | scriptDataHash => exact (Identifier.accepts path t).map _
  case mint => exact (MultiAsset.accepts path ht).map _
  case collateralReturn => exact (TxOutput.accepts path ht).map _

/-- Nothing stands under a key that is the key of no field. -/
theorem exists_ofKey?_of_content {key : Nat} {t : Term} (h : BodyContent key t) :
    ∃ f, BodyField.ofKey? key = some f := by
  unfold BodyContent at h
  split at h
  case h_18 => exact h.elim
  all_goals exact ⟨_, rfl⟩

theorem accepts_ofTerms (path : Path) {e : Term × Term} (he : Everywhere UniqueKeysAt e.2) :
    Accepts [.sizeMismatch] (ofTerms path e)
      (∃ key : Nat, e.1 = .int key ∧ BodyContent key e.2) := by
  refine accepts_keyed BodyField.key_of_ofKey? (fun f => ?_) exists_ofKey?_of_content
    (fun hf => ?_) fun hnone => ?_
  · cases f <;> decide
  · simp only [hf]
    exact accepts_ofContent _ he _
  · simp only [hnone]
    exact ⟨_, rfl, rfl⟩

end BodyEntry

namespace TxBody

open BodyEntry

variable {entries : List BodyEntry}

theorem exists_mem_of_lastOf {α : Type} {content? : BodyEntry → Option α} {f : BodyField} {a : α}
    (hcontent : ∀ e a, content? e = some a → e.field = f) (h : lastOf content? entries = some a) :
    ∃ e ∈ entries, e.field = f := by
  obtain ⟨e, he, hea⟩ := List.exists_of_findSome?_eq_some h
  exact ⟨e, List.mem_reverse.1 he, hcontent e a hea⟩

/-- Entries make up a body exactly if the mandatory fields are among them. -/
theorem exists_ofEntries?_iff : (∃ b, ofEntries? entries = some b) ↔
    ∀ f ∈ [BodyField.inputs, .outputs, .fee], ∃ e ∈ entries, e.field = f := by
  constructor
  · rintro ⟨b, hb⟩
    simp only [ofEntries?, Option.bind_eq_bind, Option.bind_eq_some_iff] at hb
    obtain ⟨inputs, hinputs, outputs, houtputs, fee, hfee, -⟩ := hb
    refine List.forall_mem_cons.2 ⟨exists_mem_of_lastOf ?_ hinputs, List.forall_mem_cons.2
      ⟨exists_mem_of_lastOf ?_ houtputs, List.forall_mem_singleton.2
        (exists_mem_of_lastOf ?_ hfee)⟩⟩
    all_goals
      intro e a hea
      cases e <;> first | rfl | cases hea
  · intro h
    exact exists_ofEntries? (h .inputs (by simp)) (h .outputs (by simp)) (h .fee (by simp))

/-- A field is among the entries that were read exactly if its key is in the map. -/
theorem exists_field_iff {path : Path} {es : List (Term × Term)}
    (h : es.mapM (BodyEntry.ofTerms path) = .ok entries) (f : BodyField) :
    (∃ entry ∈ entries, entry.field = f) ↔ ∃ e ∈ es, e.1 = .int f.key := by
  have hpairs := mapM_eq_ok.1 h
  constructor
  · rintro ⟨entry, hentry, rfl⟩
    obtain ⟨e, he, hread⟩ := exists_mem_of_forall₂ hpairs entry hentry
    exact ⟨e, he, (toTerms_of_ofTerms hread).1⟩
  · rintro ⟨e, he, hkey⟩
    obtain ⟨entry, hentry, hread⟩ := exists_mem_of_forall₂ hpairs.flip e he
    refine ⟨entry, hentry, BodyField.key_injective ?_⟩
    exact Int.ofNat.inj (Term.int.inj ((toTerms_of_ofTerms hread).1.symm.trans hkey))

theorem accepts (path : Path) {t : Term} (ht : Everywhere UniqueKeysAt t) :
    Accepts [.sizeMismatch] (ofTerm path t) (IsBody t) := by
  refine accepts_entries fun es hes => ?_
  have hunique := (everywhere_map_iff.1 (hes ▸ ht)).2
  refine (Accepts.mapM fun e he => accepts_ofTerms path (hunique e he).2).andThen
    fun entries hentries => ?_
  have hmandatory : (∃ b, ofEntries? entries = some b) ↔
      ∀ key ∈ [BodyField.inputs, .outputs, .fee].map BodyField.key, ∃ e ∈ es, e.1 = .int key := by
    rw [exists_ofEntries?_iff, List.forall_mem_map]
    simp only [exists_field_iff hentries]
  cases hb : ofEntries? entries with
  | some b => exact .ok b (hmandatory.1 ⟨b, hb⟩)
  | none =>
    refine .error List.mem_cons_self fun hkeys => ?_
    obtain ⟨b, hb'⟩ := hmandatory.2 hkeys
    cases hb.symm.trans hb'

end TxBody

/-! ## Witness sets -/

theorem VkeyWitness.accepts (path : Path) (t : Term) :
    Accepts [.invalidKeyMaterial, .invalidSignature] (VkeyWitness.ofTerm path t)
      (IsPair (IsBytesOf 32) (IsBytesOf 64) t) := by
  refine accepts_pair fun key signature _ => ?_
  refine ((VerificationKey.accepts _ key).mono ?_).andThen fun k _ =>
    ((Signature.accepts _ signature).mono ?_).map _
  · simp
  · simp

namespace WitnessEntry

theorem accepts_ofContent (path : Path) {t : Term} (ht : Everywhere UniqueKeysAt t)
    (f : WitnessField) :
    Accepts [.invalidKeyMaterial, .invalidSignature] (ofContent path t f)
      (WitnessContent f.key t) := by
  cases f
  case vkeyWitnesses =>
    exact (Codec.accepts_setOfTerm path ht fun path u _ => VkeyWitness.accepts path u).map _
  case nativeScripts | bootstrapWitnesses | plutusData => exact accepts_asSetLike.map _
  case plutusV1Scripts | plutusV2Scripts | plutusV3Scripts =>
    have hscript : ∀ path u, Everywhere UniqueKeysAt u →
        Accepts [.invalidKeyMaterial, .invalidSignature] (u.asBytes path) u.IsBytes :=
      fun _ _ _ => accepts_asBytes
    have hscripts : Accepts _ (decodeScripts path t) _ := accepts_set ht hscript _
    exact hscripts.map _
  case redeemers => exact .ok _ trivial

theorem exists_ofKey?_of_content {key : Nat} {t : Term} (h : WitnessContent key t) :
    ∃ f, WitnessField.ofKey? key = some f := by
  unfold WitnessContent at h
  split at h
  case h_9 => exact h.elim
  all_goals exact ⟨_, rfl⟩

theorem accepts_ofTerms (path : Path) {e : Term × Term} (he : Everywhere UniqueKeysAt e.2) :
    Accepts [.invalidKeyMaterial, .invalidSignature] (ofTerms path e)
      (∃ key : Nat, e.1 = .int key ∧ WitnessContent key e.2) := by
  refine accepts_keyed WitnessField.key_of_ofKey? (fun f => ?_) exists_ofKey?_of_content
    (fun hf => ?_) fun hnone => ?_
  · cases f <;> decide
  · simp only [hf]
    exact accepts_ofContent _ he _
  · simp only [hnone]
    exact ⟨_, rfl, rfl⟩

end WitnessEntry

namespace WitnessSet

theorem accepts (path : Path) {t : Term} (ht : Everywhere UniqueKeysAt t) :
    Accepts [.invalidKeyMaterial, .invalidSignature] (ofTerm path t)
      (IsWitnessSet t) := by
  refine accepts_entries fun es hes => ?_
  have hunique := (everywhere_map_iff.1 (hes ▸ ht)).2
  exact (Accepts.mapM fun e he => WitnessEntry.accepts_ofTerms path (hunique e he).2).map _

end WitnessSet

/-! ## Marks -/

theorem tagged_iff_of_asSetLike {path : Path} {t : Term} {s : SetLike Term}
    (h : t.asSetLike path = .ok s) : s.tagged = true ↔ ∃ content, t = .tag 258 content := by
  rw [eq_setLike_of_asSetLike h, setLike]
  cases s.tagged with
  | true => exact iff_of_true rfl ⟨_, rfl⟩
  | false =>
    refine iff_of_false Bool.false_ne_true ?_
    rintro ⟨content, htag⟩
    cases htag

theorem tagged_iff_of_decodeSet {α : Type} {path : Path} {t : Term} {s : SetLike α}
    {f : Path → Term → Except Fault α}
    (h : (do
      let s ← t.asSetLike path
      return (⟨← decodeItems path f s.items, s.tagged⟩ : SetLike α)) = .ok s) :
    s.tagged = true ↔ ∃ content, t = .tag 258 content := by
  obtain ⟨r, hr, hitems⟩ := bind_eq_ok.1 h
  obtain ⟨xs, -, hpure⟩ := bind_eq_ok.1 hitems
  cases hpure
  exact tagged_iff_of_asSetLike hr

/-- A key is recorded as marked exactly if it is that of a list and what stands under it in the map
is tagged. -/
theorem FieldEntry.mem_marksOf_of_read {ε φ : Type} [FieldKey φ] [FieldEntry ε φ]
    {read : Term × Term → Except Fault ε} {es : List (Term × Term)} {entries : List ε}
    {lists : List Nat} (hread : es.mapM read = .ok entries)
    (hkey : ∀ {t e}, read t = .ok e → t.1 = .int (FieldKey.key (field e)))
    (htagged : ∀ {t e}, read t = .ok e →
      (isTagged e = true ↔ FieldKey.key (field e) ∈ lists ∧ ∃ content, t.2 = .tag 258 content))
    {n : Number} : n ∈ (marksOf entries).keys ↔
      ∃ key ∈ lists, n = .integer key ∧ ∃ content, (.int key, .tag 258 content) ∈ es := by
  have hpairs := mapM_eq_ok.1 hread
  rw [mem_marksOf]
  constructor
  · rintro ⟨e, he, hmark, rfl⟩
    obtain ⟨t, ht, hte⟩ := exists_mem_of_forall₂ hpairs e he
    obtain ⟨hlist, content, hcontent⟩ := (htagged hte).1 hmark
    exact ⟨_, hlist, rfl, content, hkey hte ▸ hcontent ▸ ht⟩
  · rintro ⟨key, hlist, rfl, content, ht⟩
    obtain ⟨e, he, hte⟩ := exists_mem_of_forall₂ hpairs.flip _ ht
    obtain rfl : key = FieldKey.key (field e) := Int.ofNat.inj (Term.int.inj (hkey hte))
    exact ⟨e, he, (htagged hte).2 ⟨hlist, content, rfl⟩, rfl⟩

/-- What is never marked is no list that may be. -/
theorem untagged_iff {key : Nat} {lists : List Nat} {p : Prop} (h : key ∉ lists) :
    false = true ↔ key ∈ lists ∧ p :=
  iff_of_false nofun fun hlist => h hlist.1

namespace BodyEntry

theorem isTagged_iff_of_ofContent {path : Path} {t : Term} {f : BodyField} {e : BodyEntry}
    (h : ofContent path t f = .ok e) :
    e.isTagged = true ↔ f.key ∈ [0, 13, 14, 18] ∧ ∃ content, t = .tag 258 content := by
  cases f
  case inputs | collateral | requiredSigners | referenceInputs =>
    obtain ⟨s, hs, hpure⟩ := bind_eq_ok.1 h
    cases hpure
    exact (tagged_iff_of_decodeSet hs).trans (and_iff_right (by decide)).symm
  case outputs =>
    obtain ⟨items, -, hrest⟩ := bind_eq_ok.1 h
    obtain ⟨os, -, hpure⟩ := bind_eq_ok.1 hrest
    cases hpure
    exact untagged_iff (by decide)
  case certificates | update =>
    cases h
    exact untagged_iff (by decide)
  all_goals
    obtain ⟨a, -, hpure⟩ := bind_eq_ok.1 h
    cases hpure
    exact untagged_iff (by decide)

theorem isTagged_iff_of_ofTerms {path : Path} {t : Term × Term} {e : BodyEntry}
    (h : ofTerms path t = .ok e) :
    e.isTagged = true ↔ e.field.key ∈ [0, 13, 14, 18] ∧ ∃ content, t.2 = .tag 258 content := by
  have hkey := (toTerms_of_ofTerms h).1
  obtain ⟨key, hread, hmatch⟩ := bind_eq_ok.1 h
  obtain rfl : key = e.field.key :=
    Int.ofNat.inj (Term.int.inj ((asSafeUnsigned_eq_ok_iff.1 hread).1.symm.trans hkey))
  rw [BodyField.ofKey?_key] at hmatch
  exact isTagged_iff_of_ofContent hmatch

end BodyEntry

theorem TxBody.mem_taggedSets_iff {path : Path} {t : Term} {b : TxBody}
    (h : ofTerm path t = .ok b) {n : Number} : n ∈ b.taggedSets.keys ↔
      ∃ key ∈ [0, 13, 14, 18], n = .integer (key : Nat) ∧
        ∃ entries content, t = .map entries ∧ (.int key, .tag 258 content) ∈ entries := by
  obtain ⟨es, hes, hrest⟩ := bind_eq_ok.1 h
  obtain ⟨entries, hentries, hmatch⟩ := bind_eq_ok.1 hrest
  obtain rfl := asMap_eq_ok_iff.1 hes
  split at hmatch
  · next c hc =>
    cases hmatch
    rw [taggedSets_of_ofEntries? hc, FieldEntry.mem_marksOf_of_read hentries
      (fun h => (BodyEntry.toTerms_of_ofTerms h).1) BodyEntry.isTagged_iff_of_ofTerms]
    simp only [Term.map.injEq, exists_and_left, exists_eq_left']
  · cases hmatch

namespace WitnessEntry

theorem isTagged_iff_of_ofContent {path : Path} {t : Term} {f : WitnessField} {e : WitnessEntry}
    (h : ofContent path t f = .ok e) :
    e.isTagged = true ↔ f.key ∈ [0, 1, 2, 3, 4, 6, 7] ∧ ∃ content, t = .tag 258 content := by
  cases f
  case redeemers =>
    cases h
    exact untagged_iff (by decide)
  case nativeScripts | bootstrapWitnesses | plutusData =>
    obtain ⟨s, hs, hpure⟩ := bind_eq_ok.1 h
    cases hpure
    exact (tagged_iff_of_asSetLike hs).trans (and_iff_right (by decide)).symm
  all_goals
    obtain ⟨s, hs, hpure⟩ := bind_eq_ok.1 h
    cases hpure
    exact (tagged_iff_of_decodeSet hs).trans (and_iff_right (by decide)).symm

theorem key_of_ofTerms {path : Path} {t : Term × Term} {e : WitnessEntry}
    (h : ofTerms path t = .ok e) : t.1 = .int e.field.key :=
  (congrArg Prod.fst (toTerms_of_ofTerms h)).symm

theorem isTagged_iff_of_ofTerms {path : Path} {t : Term × Term} {e : WitnessEntry}
    (h : ofTerms path t = .ok e) : e.isTagged = true ↔
      e.field.key ∈ [0, 1, 2, 3, 4, 6, 7] ∧ ∃ content, t.2 = .tag 258 content := by
  have hkey := key_of_ofTerms h
  obtain ⟨key, hread, hmatch⟩ := bind_eq_ok.1 h
  obtain rfl : key = e.field.key :=
    Int.ofNat.inj (Term.int.inj ((asSafeUnsigned_eq_ok_iff.1 hread).1.symm.trans hkey))
  rw [WitnessField.ofKey?_key] at hmatch
  exact isTagged_iff_of_ofContent hmatch

end WitnessEntry

theorem WitnessSet.mem_taggedSets_iff {path : Path} {t : Term} {w : WitnessSet}
    (h : ofTerm path t = .ok w) {n : Number} : n ∈ w.taggedSets.keys ↔
      ∃ key ∈ [0, 1, 2, 3, 4, 6, 7], n = .integer (key : Nat) ∧
        ∃ entries content, t = .map entries ∧ (.int key, .tag 258 content) ∈ entries := by
  obtain ⟨es, hes, hrest⟩ := bind_eq_ok.1 h
  obtain ⟨entries, hentries, hpure⟩ := bind_eq_ok.1 hrest
  obtain rfl := asMap_eq_ok_iff.1 hes
  cases hpure
  have hmarks : (ofEntries entries).taggedSets = FieldEntry.marksOf entries := rfl
  rw [hmarks, FieldEntry.mem_marksOf_of_read hentries WitnessEntry.key_of_ofTerms
    WitnessEntry.isTagged_iff_of_ofTerms]
  simp only [Term.map.injEq, exists_and_left, exists_eq_left']

/-! ## Both -/

/-- A body is read from the terms of its grammar and from no others, and so is a witness set.  What
is recorded of marks are the keys of the lists that are tagged, and what is refused is refused as
malformed or for the size of a byte string. -/
theorem decoders_accept_grammars (path : Path) (p : Term) (hkeys : Everywhere UniqueKeysAt p) :
    ((∃ b, TxBody.ofTerm path p = .ok b) ↔ IsBody p) ∧
      (∀ b, TxBody.ofTerm path p = .ok b → ∀ n, n ∈ b.taggedSets.keys ↔
        ∃ key ∈ [0, 13, 14, 18], n = .integer (key : Nat) ∧
          ∃ entries content, p = .map entries ∧ (.int key, .tag 258 content) ∈ entries) ∧
      (∀ fault, TxBody.ofTerm path p = .error fault →
        fault.kind ∈ [.deserialize, .sizeMismatch]) ∧
      ((∃ w, WitnessSet.ofTerm path p = .ok w) ↔ IsWitnessSet p) ∧
      (∀ w, WitnessSet.ofTerm path p = .ok w → ∀ n, n ∈ w.taggedSets.keys ↔
        ∃ key ∈ [0, 1, 2, 3, 4, 6, 7], n = .integer (key : Nat) ∧
          ∃ entries content, p = .map entries ∧ (.int key, .tag 258 content) ∈ entries) ∧
      ∀ fault, WitnessSet.ofTerm path p = .error fault →
        fault.kind ∈ [.deserialize, .invalidKeyMaterial, .invalidSignature] := by
  have hbody := TxBody.accepts path hkeys
  have hwitnessSet := WitnessSet.accepts path hkeys
  exact ⟨hbody.succeeds_iff, fun b hb n => TxBody.mem_taggedSets_iff hb, hbody.kind_mem,
    hwitnessSet.succeeds_iff, fun w hw n => WitnessSet.mem_taggedSets_iff hw,
    hwitnessSet.kind_mem⟩

/-- A body of three fields, the fee first, with its inputs marked as a set. -/
def marked : Term := .map [(.int 2, .int 0), (.int 0, .tag 258 (.seq [])), (.int 1, .seq [])]

theorem decoders_accept_grammars_marked : Everywhere UniqueKeysAt marked ∧
    (∃ b, TxBody.ofTerm (Codec.path TxBody) marked = .ok b ∧ .integer 0 ∈ b.taggedSets.keys) ∧
    ¬ ∃ w, WitnessSet.ofTerm (Codec.path TxBody) marked = .ok w := by
  have hkeys : Everywhere UniqueKeysAt marked := by decide
  obtain ⟨hbody, hmarks, -, hwitnessSet, -⟩ :=
    decoders_accept_grammars (Codec.path TxBody) marked hkeys
  refine ⟨hkeys, ?_, ?_⟩
  · obtain ⟨b, hb⟩ : ∃ b, TxBody.ofTerm (Codec.path TxBody) marked = .ok b := by
      refine hbody.2 ⟨_, rfl, ?_, by simp⟩
      simp only [List.forall_mem_cons]
      exact ⟨⟨2, rfl, 0, rfl⟩, ⟨0, rfl, .inr ⟨_, rfl, [], rfl, nofun⟩⟩,
        ⟨1, rfl, [], rfl, nofun⟩, nofun⟩
    exact ⟨b, hb, (hmarks b hb _).2 ⟨0, by simp, rfl, _, _, rfl, .tail _ (.head _)⟩⟩
  · rw [hwitnessSet]
    rintro ⟨entries, hentries, hcontents⟩
    cases hentries
    obtain ⟨key, hkey, hcontent⟩ := hcontents (.int 2, .int 0) (by simp)
    cases hkey
    rcases hcontent with ⟨items, hitems, -⟩ | ⟨content, htag, -⟩
    · cases hitems
    · cases htag

end Eutxo

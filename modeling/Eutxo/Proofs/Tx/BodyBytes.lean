import Eutxo.Proofs.Cbor.CanonicalInput
import Eutxo.Proofs.Cbor.Shortening
import Eutxo.Proofs.Ledger.Exact
import Eutxo.Proofs.Tx.Body

/-!
# The bytes of a body

A body is written as the term that it was read from, save that its entries are
sorted and that amounts of coin with an empty bundle become bare coin.  Canonical
bytes without such amounts are therefore those that it is written as, and those
whose hash it is known by.
-/

namespace Eutxo

open Traversal Term
open FieldEntry (Unrepeated)

/-! ## Amounts -/

theorem Value.shortened_shortAmount (t : Term) : Shortened t (shortAmount t) := by
  unfold shortAmount
  split
  · exact .amount _
  · exact .refl _

theorem Value.shortAmount_eq_self_iff {t : Term} :
    shortAmount t = t ↔ ∀ coin, t ≠ .seq [.int coin, .map []] := by
  unfold shortAmount
  split
  · next coin => exact ⟨nofun, fun h => absurd rfl (h coin)⟩
  · next hlong => exact ⟨fun _ coin heq => hlong coin heq, fun _ => rfl⟩

/-- The terms of the amounts of an output. -/
def TxOutput.amounts : Term → List Term
  | .seq (_ :: amount :: _) => [amount]
  | _ => []

theorem TxOutput.shortened_shortOutput (t : Term) : Shortened t (shortOutput t) := by
  unfold shortOutput
  split
  · next address amount rest =>
    exact .item [address] rest (Value.shortened_shortAmount amount)
  · exact .refl _

theorem TxOutput.shortOutput_eq_self_iff {t : Term} :
    shortOutput t = t ↔ ∀ coin, .seq [.int coin, .map []] ∉ amounts t := by
  unfold shortOutput
  split
  · next address amount rest =>
    have hsame : Term.seq (address :: Value.shortAmount amount :: rest) =
        .seq (address :: amount :: rest) ↔ Value.shortAmount amount = amount := by simp
    rw [hsame, Value.shortAmount_eq_self_iff, amounts]
    simp only [List.mem_singleton, ne_comm, ne_eq]
  · next hother => simp [amounts]

/-! ## Entries -/

namespace BodyEntry

/-- The content of a field as it is written. -/
def shortContent : BodyField → Term → Term
  | .outputs, .seq items => .seq (items.map TxOutput.shortOutput)
  | .collateralReturn, item => TxOutput.shortOutput item
  | _, t => t

theorem map_of_decodeWithdrawals {path : Path} {t : Term} {ws : List Withdrawal}
    (h : decodeWithdrawals path t = .ok ws) :
    t = .map (ws.map fun w => (.bytes w.rewardAddress, .int w.amount)) := by
  obtain ⟨es, hes, hpairs⟩ := bind_eq_ok.1 h
  rw [asMap_eq_ok_iff.1 hes]
  have hmap : ws.map (fun w => (Term.bytes w.rewardAddress, Term.int w.amount)) =
      es.zipIdx.map Prod.fst := by
    refine map_eq_of_forall₂ ((mapM_eq_ok.1 hpairs).imp ?_)
    rintro ⟨⟨k, v⟩, i⟩ w hw
    obtain ⟨rewardAddress, hkey, hamount⟩ := bind_eq_ok.1 hw
    obtain ⟨amount, hvalue, hpure⟩ := bind_eq_ok.1 hamount
    cases hpure
    exact Prod.ext (asBytes_eq_ok_iff.1 hkey).symm (asUnsigned_eq_ok_iff.1 hvalue).symm
  rw [hmap, List.zipIdx_map_fst]

/-- An entry is written as it was read, save for the amounts of outputs. -/
theorem toTerms_of_ofContent {path : Path} {t : Term} {f : BodyField} {e : BodyEntry}
    (h : ofContent path t f = .ok e) : e.toTerms = (.int f.key, shortContent f t) := by
  cases f
  case certificates | update =>
    cases h
    rfl
  case inputs | collateral | requiredSigners | referenceInputs =>
    obtain ⟨s, hs, hpure⟩ := bind_eq_ok.1 h
    cases hpure
    exact Prod.ext rfl (Codec.setToTerm_eq hs)
  case fee | ttl | validityStart | totalCollateral =>
    obtain ⟨n, hn, hpure⟩ := bind_eq_ok.1 h
    cases hpure
    exact Prod.ext rfl (asUnsigned_eq_ok_iff.1 hn).symm
  case networkId =>
    obtain ⟨n, hn, hpure⟩ := bind_eq_ok.1 h
    cases hpure
    exact Prod.ext rfl (asSafeUnsigned_eq_ok_iff.1 hn).1.symm
  case auxiliaryDataHash | scriptDataHash | mint =>
    obtain ⟨a, ha, hpure⟩ := bind_eq_ok.1 h
    cases hpure
    exact Prod.ext rfl (Codec.Exact.toTerm_eq ha)
  case collateralReturn =>
    obtain ⟨o, ho, hpure⟩ := bind_eq_ok.1 h
    cases hpure
    exact Prod.ext rfl (TxOutput.toTerm_eq ho)
  case withdrawals =>
    obtain ⟨ws, hws, hpure⟩ := bind_eq_ok.1 h
    cases hpure
    exact Prod.ext rfl (map_of_decodeWithdrawals hws).symm
  case outputs =>
    obtain ⟨items, hitems, hrest⟩ := bind_eq_ok.1 h
    obtain ⟨os, hos, hpure⟩ := bind_eq_ok.1 hrest
    cases hpure
    rw [asSequence_eq_ok_iff.1 hitems]
    have hmap : os.map Codec.toTerm = items.map TxOutput.shortOutput :=
      map_of_decodeItems (fun h => TxOutput.toTerm_eq h) hos
    exact Prod.ext rfl (congrArg Term.seq hmap)

/-- An entry as it is written. -/
def shortEntry : Term × Term → Term × Term
  | (.int 1, content) => (.int 1, shortContent .outputs content)
  | (.int 16, content) => (.int 16, shortContent .collateralReturn content)
  | e => e

theorem shortEntry_key (f : BodyField) (t : Term) :
    shortEntry (.int f.key, t) = (.int f.key, shortContent f t) := by
  cases f <;> rfl

theorem toTerms_of_ofTerms {path : Path} {t : Term × Term} {e : BodyEntry}
    (h : ofTerms path t = .ok e) : t.1 = .int e.field.key ∧ e.toTerms = shortEntry t := by
  obtain ⟨key, hkey, hmatch⟩ := bind_eq_ok.1 h
  obtain ⟨hnumber, -⟩ := asSafeUnsigned_eq_ok_iff.1 hkey
  split at hmatch
  · next f hf =>
    have hterms := toTerms_of_ofContent hmatch
    rw [← BodyField.key_of_ofKey? hf] at hnumber
    have hfield : Term.int e.field.key = .int f.key := congrArg Prod.fst hterms
    refine ⟨hnumber.trans hfield.symm, ?_⟩
    rw [hterms, ← shortEntry_key, ← hnumber]
  · cases hmatch

theorem shortEntry_fst (e : Term × Term) : (shortEntry e).1 = e.1 := by
  unfold shortEntry
  split <;> rfl

theorem shortened_shortContent (f : BodyField) (t : Term) : Shortened t (shortContent f t) := by
  unfold shortContent
  split
  · next items =>
    refine .seq (List.forall₂_map_right_iff.2 (List.forall₂_same.2 fun t _ => ?_))
    exact TxOutput.shortened_shortOutput t
  · exact TxOutput.shortened_shortOutput t
  · exact .refl t

theorem shortened_shortEntry (e : Term × Term) : Shortened e.2 (shortEntry e).2 := by
  unfold shortEntry
  split
  · next content => exact shortened_shortContent .outputs content
  · next content => exact shortened_shortContent .collateralReturn content
  · exact .refl _

/-- The terms of the amounts in the content of a field. -/
def amountsOf : BodyField → Term → List Term
  | .outputs, .seq items => items.flatMap TxOutput.amounts
  | .collateralReturn, item => TxOutput.amounts item
  | _, _ => []

theorem shortContent_eq_self_iff {f : BodyField} {t : Term} :
    shortContent f t = t ↔ ∀ coin, .seq [.int coin, .map []] ∉ amountsOf f t := by
  unfold shortContent
  split
  · next items =>
    rw [Term.seq.injEq, map_eq_self_iff, amountsOf]
    simp only [TxOutput.shortOutput_eq_self_iff, List.mem_flatMap, not_exists, not_and]
    exact ⟨fun h coin t ht => h t ht coin, fun h t ht coin => h coin t ht⟩
  · rw [TxOutput.shortOutput_eq_self_iff, amountsOf]
  · next hreturn houtputs =>
    have hnone : amountsOf f t = [] := by
      unfold amountsOf
      split
      · next items => exact (houtputs items rfl rfl).elim
      · exact (hreturn rfl).elim
      · rfl
    simp [hnone]

/-- The terms of the amounts of an entry. -/
def amounts : Term × Term → List Term
  | (.int 1, content) => amountsOf .outputs content
  | (.int 16, content) => amountsOf .collateralReturn content
  | _ => []

theorem shortEntry_eq_self_iff {e : Term × Term} :
    shortEntry e = e ↔ ∀ coin, .seq [.int coin, .map []] ∉ amounts e := by
  unfold shortEntry
  split
  · rw [Prod.mk_right_inj, shortContent_eq_self_iff, amounts]
  · rw [Prod.mk_right_inj, shortContent_eq_self_iff, amounts]
  · next hone hsixteen =>
    have hnone : amounts e = [] := by
      unfold amounts
      split
      · next content => exact absurd rfl (hone content)
      · next content => exact absurd rfl (hsixteen content)
      · rfl
    simp [hnone]

end BodyEntry

/-! ## Bodies -/

namespace TxBody

open BodyEntry Cbor

/-- The term of a body with its amounts as they are written. -/
def shortBody : Term → Term
  | .map es => .map (es.map shortEntry)
  | t => t

/-- The terms of the amounts of the outputs in the term of a body, what is returned of the
collateral among them. -/
def amounts : Term → List Term
  | .map es => es.flatMap BodyEntry.amounts
  | _ => []

theorem shortened_shortBody (t : Term) : Shortened t (shortBody t) := by
  unfold shortBody
  split
  · next es =>
    refine .map (List.forall₂_map_right_iff.2 (List.forall₂_same.2 fun e _ => ?_))
    exact ⟨(shortEntry_fst e).symm, shortened_shortEntry e⟩
  · exact .refl t

theorem shortBody_eq_self_iff {t : Term} :
    shortBody t = t ↔ ∀ coin, .seq [.int coin, .map []] ∉ amounts t := by
  unfold shortBody
  split
  · next es =>
    rw [Term.map.injEq, map_eq_self_iff, amounts]
    simp only [shortEntry_eq_self_iff, List.mem_flatMap, not_exists, not_and]
    exact ⟨fun h coin e he => h e he coin, fun h e he coin => h coin e he⟩
  · next hmap =>
    have hnone : amounts t = [] := by
      unfold amounts
      split
      · next es => exact (hmap es rfl).elim
      · rfl
    simp [hnone]

/-- A body is made of the entries that it was read from, which are of different fields. -/
theorem exists_entries_of_ofTerm {path : Path} {t : Term} {b : TxBody} (hdistinct : DistinctAt t)
    (h : ofTerm path t = .ok b) :
    ∃ es entries, t = .map es ∧
      List.Forall₂ (fun e entry => BodyEntry.ofTerms path e = .ok entry) es entries ∧
      Unrepeated entries ∧ ofEntries? entries = some b := by
  obtain ⟨es, hes, hrest⟩ := bind_eq_ok.1 h
  obtain ⟨entries, hentries, hmatch⟩ := bind_eq_ok.1 hrest
  rw [asMap_eq_ok_iff.1 hes] at hdistinct
  have hunrepeated : Unrepeated entries :=
    FieldEntry.unrepeated_of_read hentries (fun h => (toTerms_of_ofTerms h).1) hdistinct
  split at hmatch
  · next c hc =>
    cases hmatch
    exact ⟨es, entries, asMap_eq_ok_iff.1 hes, mapM_eq_ok.1 hentries, hunrepeated, hc⟩
  · cases hmatch

/-- A body is written as it was read, with its amounts in short and its entries in their own
order. -/
theorem reordered_of_ofTerm {path : Path} {t : Term} {b : TxBody} (hdistinct : DistinctAt t)
    (h : ofTerm path t = .ok b) : Reordered (shortBody t) b.toTerm := by
  obtain ⟨es, entries, rfl, hentries, hunrepeated, hb⟩ := exists_entries_of_ofTerm hdistinct h
  have hterms : entries.map toTerms = es.map shortEntry :=
    map_eq_of_forall₂ (hentries.imp fun _ _ he => (toTerms_of_ofTerms he).2)
  show Reordered (.map (es.map shortEntry)) (.map (b.entries.map toTerms))
  rw [← hterms]
  exact .permute ((entries_perm hunrepeated hb).map toTerms)

/-- A body that was decoded is written as bytes whose hash is its own.  They are the bytes that it
was decoded from exactly if those have ascending keys, texts in UTF-8 without a mark in front, and
no amount of coin with an empty bundle. -/
theorem toCbor_eq_iff_canonical {bs : Bytes} {b : TxBody} (h : Codec.ofCbor bs = .ok b) :
    ∃ item out, item.write? = some bs ∧ Item.Strict item ∧ Codec.toCbor b = .ok out ∧
      b.hash = .ok (.hash out) ∧
      (out = bs ↔ Everywhere CanonicalTextAt item ∧ Everywhere CanonicalKeysAt item ∧
        ∀ coin, .seq [.int coin, .map []] ∉ amounts item.term) := by
  obtain ⟨t, ht, hb⟩ := bind_eq_ok.1 h
  obtain ⟨item, hwrite, hstrict, rfl⟩ := decode_eq_ok_iff.1 ht
  have hencodable := Item.encodable_term hstrict
  have hdistinct : Everywhere DistinctAt item.term := hencodable.imp fun _ => And.right
  have hfits : Everywhere (FitsAt maxArgument) item.term := hencodable.imp fun _ => And.left
  have hshort := shortened_shortBody item.term
  have hreordered : Reordered (shortBody item.term) b.toTerm :=
    reordered_of_ofTerm hdistinct.here hb
  obtain ⟨out, hout⟩ := exists_encode ((hshort.fits hfits).and (hshort.distinct hdistinct))
  have hbody : Codec.toCbor b = .ok out := encode_of_reordered hreordered hout
  have hhash : b.hash = .ok (.hash out) := by
    rw [TxBody.hash, hbody]
    rfl
  refine ⟨item, out, hwrite, hstrict, hbody, hhash, ?_, ?_⟩
  · rintro rfl
    have hdecoded := hshort.decoded (Item.decoded_term hstrict)
    obtain ⟨hweight, htexts, hkeys⟩ :=
      Item.canonical_of_encode hstrict hwrite hdecoded hshort.weight_le hout
    exact ⟨htexts, hkeys, shortBody_eq_self_iff.1 (hshort.eq_of_weight_eq hweight)⟩
  · rintro ⟨htexts, hkeys, hamounts⟩
    have hsame := Item.encode_term hstrict htexts hkeys hwrite
    rw [← shortBody_eq_self_iff.2 hamounts, hout] at hsame
    exact Except.ok.inj hsame

/-- The bytes of a body whose fee is listed before its inputs and outputs. -/
def feeFirst : Bytes := [0xA3, 2, 0, 0, 0x80, 1, 0x80]

theorem toCbor_eq_iff_canonical_feeFirst :
    ∃ b : TxBody, Codec.ofCbor feeFirst = .ok b ∧
      ∃ item out, item.write? = some feeFirst ∧ Item.Strict item ∧ Codec.toCbor b = .ok out ∧
        b.hash = .ok (.hash out) ∧
        (out = feeFirst ↔ Everywhere CanonicalTextAt item ∧ Everywhere CanonicalKeysAt item ∧
          ∀ coin, .seq [.int coin, .map []] ∉ amounts item.term) :=
  ⟨_, rfl, toCbor_eq_iff_canonical rfl⟩

/-- A body that was decoded is not always written as the bytes that it was decoded from. -/
theorem not_toCbor_ofCbor :
    ¬ ∀ (bs : Bytes) (b : TxBody), Codec.ofCbor bs = .ok b → Codec.toCbor b = .ok bs := by
  intro hall
  have hsorted : Codec.toCbor { inputs := [], outputs := [], fee := 0 : TxBody } =
      .ok [0xA3, 0, 0x80, 1, 0x80, 2, 0] := rfl
  have hsame := hall feeFirst { inputs := [], outputs := [], fee := 0 } rfl
  rw [hsorted] at hsame
  cases hsame

end TxBody

end Eutxo

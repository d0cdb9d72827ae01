import Eutxo.Proofs.Ledger.Nodes
import Eutxo.Proofs.Tx.Body

/-!
# Content of bodies

Two bodies have the same content if they agree on every field, up to what has no
meaning in it: the order of withdrawals, of policies and of asset names, and of
map entries in terms that are kept.  They are then written as the same bytes, and
only then, so that what is signed tells the body.
-/

namespace Eutxo

open Traversal Term Cbor

namespace TxBody

/-! ## Agreement -/

/-- Two bodies agree on whether a list field is marked as a set. -/
def SameMark (b c : TxBody) (f : BodyField) : Prop :=
  b.taggedSets.contains f.key = c.taggedSets.contains f.key

/-- Two bodies agree on a field.  Only of lists that are present are the marks compared. -/
def AgreesOn (b c : TxBody) : BodyField → Prop
  | .inputs => b.inputs = c.inputs ∧ b.SameMark c .inputs
  | .outputs => List.Forall₂ TxOutput.Same b.outputs c.outputs
  | .fee => b.fee = c.fee
  | .ttl => b.ttl = c.ttl
  | .certificates => Option.Rel Reordered b.certificates c.certificates
  | .withdrawals => Option.Rel List.Perm b.withdrawals c.withdrawals
  | .update => Option.Rel Reordered b.update c.update
  | .auxiliaryDataHash => b.auxiliaryDataHash = c.auxiliaryDataHash
  | .validityStart => b.validityStart = c.validityStart
  | .mint => Option.Rel MultiAsset.Same b.mint c.mint
  | .scriptDataHash => b.scriptDataHash = c.scriptDataHash
  | .collateral =>
    b.collateral = c.collateral ∧ (b.collateral.isSome → b.SameMark c .collateral)
  | .requiredSigners =>
    b.requiredSigners = c.requiredSigners ∧
      (b.requiredSigners.isSome → b.SameMark c .requiredSigners)
  | .networkId => b.networkId = c.networkId
  | .collateralReturn => Option.Rel TxOutput.Same b.collateralReturn c.collateralReturn
  | .totalCollateral => b.totalCollateral = c.totalCollateral
  | .referenceInputs =>
    b.referenceInputs = c.referenceInputs ∧
      (b.referenceInputs.isSome → b.SameMark c .referenceInputs)

/-- The entry of a withdrawal. -/
def withdrawalTerms (w : Withdrawal) : Term × Term := (.bytes w.rewardAddress, .int w.amount)

theorem withdrawalTerms_injective : Function.Injective withdrawalTerms := by
  intro w v h
  injection h with haddress hamount
  cases w
  cases v
  cases haddress
  cases hamount
  rfl

theorem reordered_withdrawals_iff {ws vs : List Withdrawal} :
    Reordered (BodyEntry.withdrawals ws).content (BodyEntry.withdrawals vs).content ↔
      ws.Perm vs := by
  constructor
  · intro h
    obtain ⟨fs, gs, hmap, hperm, hmatch⟩ := Reordered.map_left_iff.1 h
    injection hmap with hfs
    rw [← hfs, List.forall₂_map_right_iff] at hmatch
    have hgs : vs.map withdrawalTerms = gs.map id := by
      refine map_eq_of_forall₂ (hmatch.imp fun g v hgv => ?_)
      exact Prod.ext (Reordered.bytes_left_iff.1 hgv.symm.1).symm
        (Reordered.int_left_iff.1 hgv.symm.2).symm
    rw [List.map_id] at hgs
    exact (List.map_perm_map_iff withdrawalTerms_injective).1 (hgs ▸ hperm)
  · intro h
    exact .permute (h.map withdrawalTerms)

theorem optionRel_entryOf?_iff {b c : TxBody} (f : BodyField) :
    Option.Rel (fun d e : BodyEntry => Reordered d.content e.content) (b.entryOf? f)
      (c.entryOf? f) ↔ b.AgreesOn c f := by
  cases f
  case inputs =>
    show Option.Rel _ (some _) (some _) ↔ _
    rw [Option.rel_some_some]
    exact Codec.reordered_setToTerm_iff.trans and_comm
  case outputs =>
    show Option.Rel _ (some _) (some _) ↔ _
    rw [Option.rel_some_some]
    refine Codec.reordered_seq_iff.trans ?_
    simp only [TxOutput.reordered_iff_same, AgreesOn]
  case fee =>
    show Option.Rel _ (some _) (some _) ↔ _
    rw [Option.rel_some_some]
    exact Reordered.int_int_iff
  case certificates | update => exact optionRel_map_iff
  case withdrawals =>
    simp only [entryOf?, optionRel_map_iff, reordered_withdrawals_iff, AgreesOn]
  case mint =>
    simp only [entryOf?, optionRel_map_iff, BodyEntry.content, MultiAsset.reordered_iff_same,
      AgreesOn]
  case collateralReturn =>
    simp only [entryOf?, optionRel_map_iff, BodyEntry.content, TxOutput.reordered_iff_same,
      AgreesOn]
  case auxiliaryDataHash | scriptDataHash =>
    simp only [entryOf?, optionRel_map_iff, BodyEntry.content, Codec.reordered_iff_eq, AgreesOn,
      optionRel_eq_iff]
  case ttl | validityStart | networkId | totalCollateral =>
    simp only [entryOf?, optionRel_map_iff, BodyEntry.content, Reordered.int_int_iff, AgreesOn,
      optionRel_eq_iff]
  case collateral | requiredSigners | referenceInputs =>
    simp only [entryOf?, optionRel_map_iff, BodyEntry.content, Codec.reordered_setToTerm_iff,
      AgreesOn, withMark, optionRel_and_iff, optionRel_eq_iff]
    exact Iff.rfl

/-- Bodies are written as the same term up to the order of entries exactly if they agree on every
field. -/
theorem reordered_iff_agreesOn {b c : TxBody} :
    Reordered b.toTerm c.toTerm ↔ ∀ f, b.AgreesOn c f :=
  (b.listed.reordered_iff c.listed).trans (forall_congr' optionRel_entryOf?_iff)

/-! ## What is signed -/

/-- The terms that a body keeps as they are. -/
def keptTerms (b : TxBody) : List Term := b.certificates.toList ++ b.update.toList

/-- What is asked of nodes holds of a body if it holds of the withdrawals and of the terms that
are kept. -/
theorem everywhere_toTerm {P : Term → Prop} (hP : LedgerNodes P) {b : TxBody}
    (hwithdrawals : ∀ ws ∈ b.withdrawals, P (BodyEntry.withdrawals ws).content)
    (hkept : ∀ t ∈ b.keptTerms, Everywhere P t) : Everywhere P b.toTerm := by
  refine FieldEntry.everywhere_termOf hP b.unrepeated_entries fun e he => ?_
  have hentry := mem_entries_iff_entryOf?.1 he
  cases e
  case inputs s | collateral s | requiredSigners s | referenceInputs s =>
    exact hP.everywhere_setToTerm s
  case outputs os => exact hP.everywhere_seq (hP.everywhere_items os)
  case fee n | ttl n | validityStart n | networkId n | totalCollateral n =>
    exact hP.everywhere_int n
  case auxiliaryDataHash a | scriptDataHash a | mint a | collateralReturn a =>
    exact Codec.Regular.everywhere_toTerm hP a
  case certificates t | update t =>
    obtain ⟨u, hu, hsame⟩ := Option.map_eq_some_iff.1 hentry
    cases hsame
    exact hkept t (by simp [keptTerms, hu])
  case withdrawals ws =>
    obtain ⟨vs, hvs, hsame⟩ := Option.map_eq_some_iff.1 hentry
    cases hsame
    refine Term.everywhere_map_iff.2 ⟨hwithdrawals ws hvs, fun e he => ?_⟩
    obtain ⟨w, -, rfl⟩ := List.mem_map.1 he
    exact ⟨hP.everywhere_bytes w.rewardAddress, hP.everywhere_int w.amount⟩

/-- Bodies are signed as the same bytes exactly if they agree on every field, and that is what
comparing them by bytes finds out. -/
theorem toCbor_eq_iff_agreesOn {b c : TxBody} {x y : Bytes} (hb : Codec.toCbor b = .ok x)
    (hc : Codec.toCbor c = .ok y) (hbkept : ∀ t ∈ b.keptTerms, Everywhere DecodedAt t)
    (hckept : ∀ t ∈ c.keptTerms, Everywhere DecodedAt t) :
    (x = y ↔ ∀ f, b.AgreesOn c f) ∧
      (Codec.sameBytes b c = .ok true ↔ ∀ f, b.AgreesOn c f) := by
  have hbdecoded := everywhere_toTerm ledgerNodes_decodedAt (fun _ _ => trivial) hbkept
  have hcdecoded := everywhere_toTerm ledgerNodes_decodedAt (fun _ _ => trivial) hckept
  have hbytes : x = y ↔ ∀ f, b.AgreesOn c f :=
    (encode_eq_iff hbdecoded hcdecoded hb hc).trans reordered_iff_agreesOn
  refine ⟨hbytes, ?_⟩
  rw [Codec.sameBytes, hb, hc, ok_bind, ok_bind, pure_eq_ok, decide_eq_true_iff]
  exact hbytes

/-- A body that lists withdrawals and certificates in descending order, and has signers marked as a
set but no signers. -/
def withdrawing : TxBody where
  inputs := []
  outputs := [⟨[0x61], .ofCoin 1, none⟩]
  fee := 0
  certificates := some (.map [(.int 1, .tag 24 (.bytes [])), (.int 0, .text "a")])
  withdrawals := some [⟨[0xE1], 1⟩, ⟨[0xE0], 2⟩]
  taggedSets := ⟨[.integer 14], by decide⟩

/-- The same body in ascending order, with the mark on collateral that it does not have. -/
def withdrawingReordered : TxBody where
  inputs := []
  outputs := [⟨[0x61], .ofCoin 1, none⟩]
  fee := 0
  certificates := some (.map [(.int 0, .text "a"), (.int 1, .tag 24 (.bytes []))])
  withdrawals := some [⟨[0xE0], 2⟩, ⟨[0xE1], 1⟩]
  taggedSets := ⟨[.integer 13], by decide⟩

theorem toCbor_eq_iff_agreesOn_withdrawing : ∃ x y, Codec.toCbor withdrawing = .ok x ∧
    Codec.toCbor withdrawingReordered = .ok y ∧
    (∀ t ∈ withdrawing.keptTerms, Everywhere DecodedAt t) ∧
    (∀ t ∈ withdrawingReordered.keptTerms, Everywhere DecodedAt t) ∧
    (x = y ↔ ∀ f, withdrawing.AgreesOn withdrawingReordered f) ∧
    (Codec.sameBytes withdrawing withdrawingReordered = .ok true ↔
      ∀ f, withdrawing.AgreesOn withdrawingReordered f) := by
  have hkept : ∀ t ∈ withdrawing.keptTerms, Everywhere DecodedAt t := by decide
  have hreordered : ∀ t ∈ withdrawingReordered.keptTerms, Everywhere DecodedAt t := by decide
  exact ⟨_, _, rfl, rfl, hkept, hreordered, toCbor_eq_iff_agreesOn rfl rfl hkept hreordered⟩

end TxBody

end Eutxo

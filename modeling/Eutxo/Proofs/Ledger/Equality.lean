import Eutxo.Record
import Eutxo.Proofs.Ledger.Nodes

/-!
# Equality by bytes

Bundles and values are equal if they are written as the same bytes.  Writing one
fails for its sizes alone, so two that fit are equal exactly if they have the
same content.
-/

namespace Eutxo

open Traversal Term Cbor

namespace Codec

variable {α : Type} [Codec α]

/-- The sizes of what is written fit in heads; nothing that is held in memory is larger. -/
def Fits (a : α) : Prop := Everywhere (FitsAt maxArgument) (toTerm a)

instance (a : α) : Decidable (Fits a) :=
  inferInstanceAs (Decidable (Everywhere (FitsAt maxArgument) (toTerm a)))

/-- Values that are written as the same bytes are equal. -/
theorem sameBytes_of_toCbor {a b : α} {bs : Bytes} (ha : toCbor a = .ok bs)
    (hb : toCbor b = .ok bs) : sameBytes a b = .ok true := by
  rw [sameBytes, ha, hb, ok_bind, ok_bind, decide_eq_true rfl]
  rfl

variable [Regular α]

theorem exists_toCbor_iff {a : α} : (∃ bs, toCbor a = .ok bs) ↔ Fits a :=
  (exists_encode_iff (Regular.everywhere_toTerm ledgerNodes_decodedAt a)).trans
    (and_iff_left (Regular.everywhere_toTerm ledgerNodes_keysApartAt a))

/-- Values that can be written are compared. -/
theorem exists_sameBytes {a b : α} (ha : Fits a) (hb : Fits b) : ∃ e, sameBytes a b = .ok e := by
  obtain ⟨x, hx⟩ := exists_toCbor_iff.2 ha
  obtain ⟨y, hy⟩ := exists_toCbor_iff.2 hb
  rw [sameBytes, hx, hy]
  exact ⟨_, rfl⟩

/-- Values are equal exactly if they can be written and differ at most in the order of map
entries. -/
theorem sameBytes_eq_true_iff {a b : α} :
    sameBytes a b = .ok true ↔ Fits b ∧ Reordered (toTerm a) (toTerm b) := by
  have hdecoded (c : α) : Everywhere DecodedAt (toTerm c) :=
    Regular.everywhere_toTerm ledgerNodes_decodedAt c
  constructor
  · intro h
    obtain ⟨x, hx, h⟩ := bind_eq_ok.1 h
    obtain ⟨y, hy, hsame⟩ := bind_eq_ok.1 h
    rw [pure_eq_ok, decide_eq_true_iff] at hsame
    exact ⟨exists_toCbor_iff.1 ⟨y, hy⟩,
      (encode_eq_iff (hdecoded a) (hdecoded b) hx hy).1 hsame⟩
  · rintro ⟨hfits, h⟩
    obtain ⟨y, hy⟩ := exists_toCbor_iff.2 hfits
    have hx : toCbor a = .ok y := encode_of_reordered h.symm hy
    exact sameBytes_of_toCbor hx hy

end Codec

theorem Asset.equals_iff {a b : Asset} :
    Record.equals (.asset a) (.asset b) = .ok true ↔ Codec.Fits b ∧ a.Same b :=
  Codec.sameBytes_eq_true_iff.trans (and_congr_right fun _ => Asset.reordered_iff_same)

theorem MultiAsset.equals_iff {m n : MultiAsset} :
    Record.equals (.multiAsset m) (.multiAsset n) = .ok true ↔ Codec.Fits n ∧ m.Same n :=
  Codec.sameBytes_eq_true_iff.trans (and_congr_right fun _ => MultiAsset.reordered_iff_same)

theorem Value.equals_iff {v w : Value} :
    Record.equals (.value v) (.value w) = .ok true ↔ Codec.Fits w ∧ v.Same w :=
  Codec.sameBytes_eq_true_iff.trans (and_congr_right fun _ => Value.reordered_iff_same)

end Eutxo

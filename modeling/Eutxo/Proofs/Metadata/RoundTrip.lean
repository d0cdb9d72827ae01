import Eutxo.Proofs.Cbor.Canonicity
import Eutxo.Proofs.Cbor.Repair
import Eutxo.Proofs.Metadata.Auxiliary

/-!
# Auxiliary data after a round trip

What is read back from the bytes of auxiliary data has the same bytes and the
same hash exactly if no text in the metadata begins with a byte order mark: the
mark is written, and dropped when it is read.
-/

namespace Eutxo

open Traversal Term Cbor

theorem Metadatum.nodeAt_repaired (t : Term) (h : NodeAt t) : NodeAt t.repaired := by
  cases t with
  | text t =>
    show t.repaired.toUtf8.length ≤ maxMetadatumSize
    rw [Text.toUtf8_repaired]
    exact h
  | _ => exact h

theorem Cbor.fitsAt_repaired {limit : Nat} (t : Term) (h : FitsAt limit t) :
    FitsAt limit t.repaired := by
  cases t with
  | text t =>
    show t.repaired.toUtf8.length ≤ limit
    rw [Text.toUtf8_repaired]
    exact h
  | seq ts =>
    rw [Term.repaired, repairedItems_eq_map]
    exact (List.length_map _).trans_le h
  | map es =>
    rw [Term.repaired, repairedEntries_eq_map]
    exact (List.length_map _).trans_le h
  | _ => exact h

namespace AuxiliaryData

/-- The auxiliary data with the stray surrogates of its texts replaced. -/
def repaired (a : AuxiliaryData) : AuxiliaryData where
  table := ⟨a.entries.map fun e => (e.1, e.2.repaired), by
    rw [List.map_map]
    exact a.nodup_labels⟩
  problem?_eq_none e he := by
    obtain ⟨f, hf, rfl⟩ := List.mem_map.1 he
    have hnodes := Metadatum.problem?_eq_none_iff.1 (a.problem?_eq_none f hf)
    exact Metadatum.problem?_eq_none_iff.2
      (everywhere_repaired Metadatum.nodeAt_repaired hnodes)

theorem toTerm_repaired (a : AuxiliaryData) : a.repaired.toTerm = a.toTerm.repaired := by
  rw [toTerm, toTerm, Term.repaired, repairedEntries_eq_map, List.map_map]
  exact congrArg Term.map (List.map_map ..)

/-- Unmarked metadata is read back, its texts repaired. -/
theorem exists_ofCbor {a : AuxiliaryData} {bs : Bytes} (h : Codec.toCbor a = .ok bs)
    (hfits : Everywhere (FitsAt maxLength) a.toTerm)
    (hunmarked : ∀ e ∈ a.entries, Everywhere UnmarkedAt e.2) :
    ∃ b : AuxiliaryData, Codec.ofCbor bs = .ok b ∧ Codec.toCbor b = .ok bs := by
  have hencode : Codec.toCbor a.repaired = .ok bs := by
    show encode a.repaired.toTerm = .ok bs
    rw [toTerm_repaired]
    exact encode_repaired h
  have hnodes : ∀ e ∈ a.entries,
      Everywhere (fun u => UnmarkedAt u ∧ Metadatum.NodeAt u) e.2 := fun e he =>
    (hunmarked e he).and (Metadatum.problem?_eq_none_iff.1 (a.problem?_eq_none e he))
  have hfaithful : Everywhere FaithfulAt a.repaired.toTerm := by
    rw [toTerm_repaired]
    refine everywhere_repaired ?_
      ((everywhere_toTerm_iff fun _ => ⟨trivial, trivial⟩).2 ⟨⟨trivial, trivial⟩, hnodes⟩)
    rintro u ⟨hmark, hnode⟩
    cases u with
    | text t => exact ⟨t.wellFormed_repaired, mt Text.head?_repaired_iff.1 hmark⟩
    | tag number content => exact hnode.elim
    | _ => exact trivial
  have hfits : Everywhere (FitsAt maxLength) a.repaired.toTerm := by
    rw [toTerm_repaired]
    exact everywhere_repaired fitsAt_repaired hfits
  obtain ⟨t, ht, hreordered⟩ := exists_decode .input hfaithful hfits hencode
  obtain ⟨b, rfl⟩ := exists_toTerm_eq hreordered
  refine ⟨b, ?_, encode_of_reordered hreordered hencode⟩
  rw [Codec.ofCbor, ht, ok_bind]
  exact ofTerm_eq_ok_iff.2 rfl

/-- Auxiliary data that is written as the bytes that it was read from has no marked text. -/
theorem unmarked_of_ofCbor {a b : AuxiliaryData} {bs : Bytes} (ha : Codec.toCbor a = .ok bs)
    (hb : Codec.ofCbor bs = .ok b) (hbytes : Codec.toCbor b = .ok bs) :
    ∀ e ∈ a.entries, Everywhere UnmarkedAt e.2 := by
  obtain ⟨t, ht, hread⟩ := bind_eq_ok.1 hb
  have hterm : t = b.toTerm := ofTerm_eq_ok_iff.1 hread
  obtain ⟨item, out, hwrite, hstrict, hout, hcanonical, -⟩ := encode_decode ht
  have hsame : out = bs := by
    rw [hterm] at hout
    exact Except.ok.inj (hout.symm.trans hbytes)
  -- The bytes have one spelling, so the item that was read is the one that was written.
  obtain ⟨u, hu, hwritten⟩ := encode_eq_ok_iff.1 ha
  have hitem : Item.ofTerm u = item :=
    Item.eq_of_write?_eq (Item.plain_ofTerm u) hstrict.plain (writeTerm_eq_ok_iff.1 hwritten) hwrite
  have hunmarked : Everywhere UnmarkedAt u := by
    rw [← Item.canonicalText_ofTerm_iff, hitem]
    exact (hcanonical.1 hsame).1
  have hbefore := (reordered_of_canonical hu).1.symm.everywhere UnmarkedAt.of_alike hunmarked
  exact ((everywhere_toTerm_iff fun _ => trivial).1 hbefore).2

/-- Auxiliary data survives being written and read exactly if no text in it begins with a byte order
mark. -/
theorem survives_iff_unmarked {a : AuxiliaryData} {bs : Bytes} (h : Codec.toCbor a = .ok bs)
    (hfits : Everywhere (FitsAt maxLength) a.toTerm) :
    (∃ b : AuxiliaryData, Codec.ofCbor bs = .ok b ∧ Codec.sameBytes b a = .ok true ∧
        b.hash = a.hash) ↔
      ∀ e ∈ a.entries, Everywhere UnmarkedAt e.2 := by
  constructor
  · rintro ⟨b, hb, hsame, -⟩
    obtain ⟨x, hx, hrest⟩ := bind_eq_ok.1 hsame
    rw [h, ok_bind, pure_eq_ok, decide_eq_true_iff] at hrest
    exact unmarked_of_ofCbor h hb (hrest ▸ hx)
  · intro hunmarked
    obtain ⟨b, hb, hbytes⟩ := exists_ofCbor h hfits hunmarked
    refine ⟨b, hb, ?_, ?_⟩
    · rw [Codec.sameBytes, hbytes, h, ok_bind, ok_bind, decide_eq_true rfl]
      rfl
    · rw [AuxiliaryData.hash, AuxiliaryData.hash, hbytes, h]

/-- A message with a stray surrogate, in a map that lists its keys in descending order. -/
def message : AuxiliaryData where
  table := ⟨[(674, .map [(.text "to", .int 7), (.text "msg", .seq [.text ⟨[0xD800]⟩])])], by decide⟩
  problem?_eq_none := by decide

theorem survives_iff_unmarked_message : ∃ bs, Codec.toCbor message = .ok bs ∧
    Everywhere (FitsAt maxLength) message.toTerm ∧
      ((∃ b : AuxiliaryData, Codec.ofCbor bs = .ok b ∧ Codec.sameBytes b message = .ok true ∧
          b.hash = message.hash) ↔
        ∀ e ∈ message.entries, Everywhere UnmarkedAt e.2) := by
  have hfits : Everywhere (FitsAt maxLength) message.toTerm := by decide
  exact ⟨_, rfl, hfits, survives_iff_unmarked rfl hfits⟩

/-- A text that begins with a byte order mark. -/
def marked : AuxiliaryData where
  table := ⟨[(1, .text ⟨[0xFEFF, 0x61]⟩)], by decide⟩
  problem?_eq_none := by decide

theorem not_survives : ¬ ∀ (a : AuxiliaryData) (bs : Bytes), Codec.toCbor a = .ok bs →
    ∃ b : AuxiliaryData, Codec.ofCbor bs = .ok b ∧ Codec.sameBytes b a = .ok true ∧
      b.hash = a.hash := by
  intro hall
  have hread : Codec.ofCbor [0xA1, 1, 0x64, 0xEF, 0xBB, 0xBF, 0x61] =
      .ok (⟨⟨[(1, .text ⟨[0x61]⟩)], by decide⟩, by decide⟩ : AuxiliaryData) := rfl
  obtain ⟨b, hb, hsame, -⟩ := hall marked [0xA1, 1, 0x64, 0xEF, 0xBB, 0xBF, 0x61] rfl
  cases hread.symm.trans hb
  cases hsame

end AuxiliaryData

end Eutxo

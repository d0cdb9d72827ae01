import Eutxo.Proofs.Text.Hex
import Eutxo.Proofs.Workflow.Attestation

/-!
# Signed messages in metadata

Chunks count code units, the limit on metadata counts bytes.  The two agree on
text in ASCII, to which hexadecimal belongs, so that a signed message of any
size can be stored and is found again whole.
-/

namespace Eutxo.Attestation

open Text

variable {t c : Text}

/-- A chunk of a text in ASCII can be put under any label by itself. -/
theorem exists_ofEntries_chunk (ht : ∀ u ∈ t.units, u.toNat < 0x80)
    (hc : c ∈ t.chunks maxMetadatumSize) (label : Nat) :
    ∃ a, AuxiliaryData.ofEntries [((label : Int), .text c)] = .ok a ∧
      a.get? label = some (.text c) := by
  have hproblem : Metadatum.problem? (.text c) = none :=
    Metadatum.problem?_eq_none_iff.2 (.leaf (length_toUtf8_le_of_mem_chunks ht hc) rfl)
  refine ⟨⟨⟨[(label, .text c)], List.nodup_singleton label⟩, List.forall_mem_singleton.2 hproblem⟩,
    AuxiliaryData.ofEntries_eq_ok_iff.2 rfl, ?_⟩
  exact Table.get?_eq_some_iff.2 (List.mem_singleton_self _)

/-- Cutting a text comes to an end and loses nothing, and what is cut from a signed message in
hexadecimal fits into metadata.  A document whose name fits as well is refused only under a label
below zero. -/
theorem stores_in_chunks :
    (∀ (size : Nat) (t : Text), 1 ≤ size →
      (∀ cs, Cuts size t 0 cs ↔ cs = t.chunksBy (.integer size)) ∧
        Chunking size t (t.chunksBy (.integer size))) ∧
    (∀ (t c : Text) (label : Nat), (∀ u ∈ t.units, u.toNat < 0x80) →
      c ∈ t.chunks maxMetadatumSize →
        ∃ a, AuxiliaryData.ofEntries [((label : Int), .text c)] = .ok a ∧
          a.get? label = some (.text c)) ∧
    ∀ (label : Int) (document : Text) (e : Cose.Envelope), e.signature.isHex = true →
      document.toUtf8.length ≤ maxMetadatumSize →
        (0 ≤ label → ∃ a cs, attestation label document e = .ok a ∧
          a.get? label = some (.map [(.text document,
            .map [(.text signatureMember, .seq (cs.map .text))])]) ∧
          Chunking maxMetadatumSize e.signature cs) ∧
        (label < 0 → attestation label document e = .error (.negativeLabel label)) := by
  refine ⟨fun size t hsize => ⟨fun cs => cuts_iff hsize, chunking_chunks hsize t⟩,
    fun t c label ht hc => exists_ofEntries_chunk ht hc label, ?_⟩
  intro label document e hhex hdocument
  constructor
  · intro hlabel
    obtain ⟨n, rfl⟩ := Int.eq_ofNat_of_zero_le hlabel
    obtain ⟨a, ha, hget⟩ := exists_attestation n e hdocument (ascii_of_isHex hhex)
    exact ⟨a, _, ha, hget, chunking_chunks (by decide) e.signature⟩
  · intro hlabel
    obtain ⟨n, rfl⟩ := Int.eq_negSucc_of_lt_zero hlabel
    rfl

/-- A signed message of two digits more than one chunk holds. -/
def overlong : Text := ⟨List.replicate 66 0x61⟩

theorem stores_in_chunks_overlong :
    1 ≤ maxMetadatumSize ∧ (∀ u ∈ overlong.units, u.toNat < 0x80) ∧
    ⟨List.replicate 2 0x61⟩ ∈ overlong.chunks maxMetadatumSize ∧ overlong.isHex = true ∧
    (Text.ofString "report").toUtf8.length ≤ maxMetadatumSize ∧ (0 : Int) ≤ 1787 ∧ (-1 : Int) < 0 ∧
    Chunking maxMetadatumSize overlong (overlong.chunksBy (.integer maxMetadatumSize)) ∧
    (∃ a, AuxiliaryData.ofEntries [((1787 : Nat), .text ⟨List.replicate 2 0x61⟩)] = .ok a ∧
      a.get? (1787 : Nat) = some (.text ⟨List.replicate 2 0x61⟩)) ∧
    (∃ a cs, attestation 1787 "report" ⟨overlong, none⟩ = .ok a ∧
      a.get? 1787 = some (.map [(.text "report",
        .map [(.text signatureMember, .seq (cs.map .text))])]) ∧
      Chunking maxMetadatumSize overlong cs) ∧
    attestation (-1) "report" ⟨overlong, none⟩ = .error (.negativeLabel (-1)) := by
  have hsize : 1 ≤ maxMetadatumSize := by decide
  have hhex : overlong.isHex = true := by decide
  have hascii : ∀ u ∈ overlong.units, u.toNat < 0x80 := Text.ascii_of_isHex hhex
  have hlast : ⟨List.replicate 2 0x61⟩ ∈ overlong.chunks maxMetadatumSize := by decide
  have hdocument : (Text.ofString "report").toUtf8.length ≤ maxMetadatumSize := by decide
  have hlabel : (0 : Int) ≤ 1787 := by decide
  have hnegative : (-1 : Int) < 0 := by decide
  refine ⟨hsize, hascii, hlast, hhex, hdocument, hlabel, hnegative, ?_, ?_, ?_, ?_⟩
  · exact (stores_in_chunks.1 maxMetadatumSize overlong hsize).2
  · exact stores_in_chunks.2.1 overlong _ 1787 hascii hlast
  · exact (stores_in_chunks.2.2 1787 "report" ⟨overlong, none⟩ hhex hdocument).1 hlabel
  · exact (stores_in_chunks.2.2 (-1) "report" ⟨overlong, none⟩ hhex hdocument).2 hnegative

end Eutxo.Attestation

import Eutxo.Proofs.Cbor.CanonicalInput

/-!
# What is read back

Whatever a term is, its bytes decode to one term if they decode at all: marks in
front of texts are gone, stray surrogates are replaced, and tags of bignums have
become integers.  Where no text begins with a mark the bytes of that term are
the same.
-/

namespace Eutxo

open Traversal Term

namespace Cbor

/-- The term that is read back when the bytes of a term are. -/
def reread (t : Term) : Term := (Item.ofTerm t).term

theorem reread_seq (ts : List Term) : reread (.seq ts) = .seq (ts.map reread) := by
  rw [reread, Item.ofTerm, Item.term, Item.terms_eq_map, Item.ofItems_eq_map, List.map_map]
  rfl

theorem reread_map (es : List (Term × Term)) :
    reread (.map es) = .map (es.map fun e => (reread e.1, reread e.2)) := by
  rw [reread, Item.ofTerm, Item.term, Item.termEntries_eq_map, Item.ofEntries_eq_map, List.map_map]
  rfl

theorem reread_int (n : Int) : reread (.int n) = .int n := Item.term_ofInt n

theorem reread_of_faithful {t : Term} (h : Everywhere FaithfulAt t) : reread t = t :=
  Item.term_ofTerm h

end Cbor

theorem Term.Reordered.digits_eq {t u : Term} (h : Reordered t u) :
    (Cbor.Item.ofTerm t).digits = (Cbor.Item.ofTerm u).digits := by
  cases t with
  | int n => rw [int_left_iff.1 h]
  | bytes bs => rw [bytes_left_iff.1 h]
  | text t => rw [text_left_iff.1 h]
  | bool b => rw [bool_left_iff.1 h]
  | null => rw [null_left_iff.1 h]
  | seq ts =>
    obtain ⟨us, rfl, -⟩ := seq_left_iff.1 h
    rfl
  | map es =>
    obtain ⟨fs, -, rfl, -⟩ := map_left_iff.1 h
    rfl
  | tag number t =>
    obtain ⟨u, rfl, -⟩ := tag_left_iff.1 h
    rfl

/-- What is read back does not depend on the order of map entries, save for their order in it. -/
theorem Term.Reordered.reread {t u : Term} (h : Reordered t u) :
    Reordered (Cbor.reread t) (Cbor.reread u) := by
  induction h with
  | refl t => exact .refl _
  | trans _ _ ihtu ihuv => exact .trans ihtu ihuv
  | permute hperm =>
    rw [Cbor.reread_map, Cbor.reread_map]
    exact .permute (hperm.map _)
  | item before after _ ih =>
    simp only [Cbor.reread_seq, List.map_append, List.map_cons]
    exact .item _ _ ih
  | entry before after _ _ ihkey ihvalue =>
    simp only [Cbor.reread_map, List.map_append, List.map_cons]
    exact .entry _ _ ihkey ihvalue
  | @tag number t u htu ih =>
    rw [Cbor.reread, Cbor.reread, Cbor.Item.ofTerm, Cbor.Item.ofTerm, Cbor.Item.term,
      Cbor.Item.term, htu.digits_eq]
    -- The tags of bignums leave an integer behind, the others a tag.
    split_ifs
    · exact .refl _
    · exact .refl _
    · exact .tag number ih

namespace Cbor

/-- What the bytes of a term decode to is read back from its canonical form. -/
theorem exists_canonical_of_decode {path : Path} {t v : Term} {bs : Bytes} (h : encode t = .ok bs)
    (hdecode : decode path bs = .ok v) :
    ∃ u, canonical t = .ok u ∧ Item.Strict (Item.ofTerm u) ∧ v = reread u := by
  obtain ⟨u, hu, hwritten⟩ := encode_eq_ok_iff.1 h
  obtain ⟨item, hwrite, hstrict, rfl⟩ := decode_eq_ok_iff.1 hdecode
  have hitem : Item.ofTerm u = item := Item.eq_of_write?_eq (Item.plain_ofTerm u) hstrict.plain
    (writeTerm_eq_ok_iff.1 hwritten) hwrite
  exact ⟨u, hu, hitem ▸ hstrict, congrArg Item.term hitem.symm⟩

/-- Without marks in front of texts, what is read back has the same bytes. -/
theorem encode_reread {t u : Term} {bs : Bytes} (h : encode t = .ok bs)
    (hcanonical : canonical t = .ok u) (hstrict : Item.Strict (Item.ofTerm u))
    (hunmarked : Everywhere UnmarkedAt t) : encode (reread t) = .ok bs := by
  obtain ⟨hreordered, hascending⟩ := reordered_of_canonical hcanonical
  obtain ⟨v, hv, hwritten⟩ := encode_eq_ok_iff.1 h
  cases hcanonical.symm.trans hv
  have htext :=
    Item.canonicalText_ofTerm_iff.2 (hreordered.everywhere UnmarkedAt.of_alike hunmarked)
  have hsame : encode (reread u) = .ok bs := Item.encode_term hstrict htext
    (Item.canonicalKeys_ofTerm hascending) (writeTerm_eq_ok_iff.1 hwritten)
  exact encode_of_reordered hreordered.reread.symm hsame

end Cbor

end Eutxo

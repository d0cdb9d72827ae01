import Eutxo.Proofs.Cbor.CanonicalInput

/-!
# Texts with stray surrogates

Writing replaces stray surrogates.  A term with such texts is therefore encoded
like the term in which they are replaced, and it is that term which decoding
gives back.
-/

namespace Eutxo

open Traversal

namespace Term

mutual

/-- The term with the stray surrogates of its texts replaced. -/
def repaired : Term → Term
  | .text t => .text t.repaired
  | .seq items => .seq (repairedItems items)
  | .map entries => .map (repairedEntries entries)
  | .tag number content => .tag number (repaired content)
  | t => t

/-- The terms of a list with the stray surrogates of their texts replaced. -/
def repairedItems : List Term → List Term
  | [] => []
  | t :: ts => repaired t :: repairedItems ts

/-- The entries of a map with the stray surrogates of their texts replaced. -/
def repairedEntries : List (Term × Term) → List (Term × Term)
  | [] => []
  | (k, v) :: es => (repaired k, repaired v) :: repairedEntries es

end

/-- An entry with the stray surrogates of its texts replaced. -/
def repairedEntry (e : Term × Term) : Term × Term := (e.1.repaired, e.2.repaired)

theorem repairedItems_eq_map (ts : List Term) : repairedItems ts = ts.map repaired := by
  induction ts with
  | nil => rfl
  | cons t ts ih => rw [repairedItems, ih, List.map_cons]

theorem repairedEntries_eq_map (es : List (Term × Term)) :
    repairedEntries es = es.map repairedEntry := by
  induction es with
  | nil => rfl
  | cons e es ih => rw [repairedEntries, ih, List.map_cons, repairedEntry]

/-- What holds of repaired nodes holds everywhere in a repaired term. -/
theorem everywhere_repaired {P Q : Term → Prop} (hnode : ∀ u, P u → Q u.repaired) {t : Term}
    (h : Everywhere P t) : Everywhere Q t.repaired := by
  induction t with
  | seq ts ih =>
    obtain ⟨hhere, hts⟩ := everywhere_seq_iff.1 h
    have hroot := hnode _ hhere
    rw [repaired, repairedItems_eq_map] at hroot ⊢
    refine everywhere_seq_iff.2 ⟨hroot, fun u hu => ?_⟩
    obtain ⟨t, ht, rfl⟩ := List.mem_map.1 hu
    exact ih t ht (hts t ht)
  | map es ih =>
    obtain ⟨hhere, hes⟩ := everywhere_map_iff.1 h
    have hroot := hnode _ hhere
    rw [repaired, repairedEntries_eq_map] at hroot ⊢
    refine everywhere_map_iff.2 ⟨hroot, fun f hf => ?_⟩
    obtain ⟨e, he, rfl⟩ := List.mem_map.1 hf
    exact ⟨(ih e he).1 (hes e he).1, (ih e he).2 (hes e he).2⟩
  | tag number content ih =>
    obtain ⟨hhere, hcontent⟩ := everywhere_tag_iff.1 h
    exact everywhere_tag_iff.2 ⟨hnode _ hhere, ih hcontent⟩
  | int n => exact .leaf (hnode _ h.here) rfl
  | bytes bs => exact .leaf (hnode _ h.here) rfl
  | text t => exact .leaf (hnode _ h.here) rfl
  | bool b => exact .leaf (hnode _ h.here) rfl
  | null => exact .leaf (hnode _ h.here) rfl

theorem Reordered.repaired {t u : Term} (h : Reordered t u) :
    Reordered t.repaired u.repaired := by
  induction h with
  | refl t => exact .refl _
  | trans _ _ ihtu ihuv => exact .trans ihtu ihuv
  | permute hperm =>
    rw [Term.repaired, Term.repaired, repairedEntries_eq_map, repairedEntries_eq_map]
    exact .permute (hperm.map _)
  | item before after _ ih =>
    simp only [Term.repaired, repairedItems_eq_map, List.map_append, List.map_cons]
    exact .item _ _ ih
  | entry before after _ _ ihkey ihvalue =>
    simp only [Term.repaired, repairedEntries_eq_map, List.map_append, List.map_cons]
    exact .entry _ _ ihkey ihvalue
  | tag number _ ih => exact .tag number ih

end Term

namespace Cbor

theorem Item.ofTerm_repaired (t : Term) : ofTerm t.repaired = ofTerm t := by
  induction t with
  | text t => exact congrArg Item.text t.toUtf8_repaired
  | seq ts ih =>
    rw [Term.repaired, Term.repairedItems_eq_map, ofTerm, ofTerm, ofItems_eq_map, ofItems_eq_map,
      List.map_map]
    exact congrArg Item.array (List.map_congr_left ih)
  | map es ih =>
    rw [Term.repaired, Term.repairedEntries_eq_map, ofTerm, ofTerm, ofEntries_eq_map,
      ofEntries_eq_map, List.map_map]
    apply congrArg Item.map
    exact List.map_congr_left fun e he => Prod.ext (ih e he).1 (ih e he).2
  | tag number content ih => exact congrArg (Item.tag number) ih
  | _ => rfl

theorem writeTerm_repaired (t : Term) : writeTerm t.repaired = writeTerm t := by
  rw [writeTerm, writeTerm, Item.ofTerm_repaired]

/-- Repairing texts leaves the order of keys as it is. -/
theorem ascending_repaired {t : Term} (h : Ascending t) : Ascending t.repaired := by
  induction t with
  | seq ts ih =>
    obtain ⟨-, hts⟩ := Term.everywhere_seq_iff.1 h
    rw [Term.repaired, Term.repairedItems_eq_map]
    refine Term.everywhere_seq_iff.2 ⟨trivial, fun u hu => ?_⟩
    obtain ⟨t, ht, rfl⟩ := List.mem_map.1 hu
    exact ih t ht (hts t ht)
  | map es ih =>
    obtain ⟨⟨hencodes, hpairs⟩, hes⟩ := Term.everywhere_map_iff.1 h
    have hkey : ∀ e ∈ es, encode e.1.repaired = encode e.1 := by
      intro e he
      rw [encode_of_ascending (hes e he).1, encode_of_ascending ((ih e he).1 (hes e he).1),
        writeTerm_repaired]
    rw [Term.repaired, Term.repairedEntries_eq_map]
    refine Term.everywhere_map_iff.2 ⟨⟨fun f hf => ?_, ?_⟩, fun f hf => ?_⟩
    · obtain ⟨e, he, rfl⟩ := List.mem_map.1 hf
      rw [Term.repairedEntry, hkey e he]
      exact hencodes e he
    · refine List.pairwise_map.2 (hpairs.imp_of_mem fun {e f} he hf hef => ?_)
      rw [Term.repairedEntry, Term.repairedEntry, hkey e he, hkey f hf]
      exact hef
    · obtain ⟨e, he, rfl⟩ := List.mem_map.1 hf
      exact ⟨(ih e he).1 (hes e he).1, (ih e he).2 (hes e he).2⟩
  | tag number content ih =>
    exact Term.everywhere_tag_iff.2 ⟨trivial, ih (Term.everywhere_tag_iff.1 h).2⟩
  | _ => exact .leaf trivial rfl

/-- A term is encoded like the one with its texts repaired. -/
theorem encode_repaired {t : Term} {bs : Bytes} (h : encode t = .ok bs) :
    encode t.repaired = .ok bs := by
  obtain ⟨u, hu, hbs⟩ := encode_eq_ok_iff.1 h
  obtain ⟨hreordered, hascending⟩ := canonical_eq_ok_iff.1 hu
  refine encode_eq_ok_iff.2 ⟨u.repaired, ?_, ?_⟩
  · exact canonical_eq_ok_iff.2 ⟨hreordered.repaired, ascending_repaired hascending⟩
  · rw [writeTerm_repaired, hbs]

end Cbor

end Eutxo

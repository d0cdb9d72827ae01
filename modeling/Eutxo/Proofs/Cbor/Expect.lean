import Eutxo.Cbor.Expect
import Eutxo.Proofs.Traversal

/-!
# Terms of an expected shape

A term that was taken apart with success is the one that its parts make up.
-/

namespace Eutxo.Term

open Traversal

theorem asInt_eq_ok_iff {path : Path} {t : Term} {n : Int} :
    t.asInt path = .ok n ↔ t = .int n := by
  cases t <;> simp [asInt, mismatch]

theorem asBytes_eq_ok_iff {path : Path} {t : Term} {bs : Bytes} :
    t.asBytes path = .ok bs ↔ t = .bytes bs := by
  cases t <;> simp [asBytes, mismatch]

theorem asBool_eq_ok_iff {path : Path} {t : Term} {b : Bool} :
    t.asBool path = .ok b ↔ t = .bool b := by
  cases t <;> simp [asBool, mismatch]

theorem asSequence_eq_ok_iff {path : Path} {t : Term} {items : List Term} :
    t.asSequence path = .ok items ↔ t = .seq items := by
  cases t <;> simp [asSequence, mismatch]

theorem asMap_eq_ok_iff {path : Path} {t : Term} {entries : List (Term × Term)} :
    t.asMap path = .ok entries ↔ t = .map entries := by
  cases t <;> simp [asMap, mismatch]

theorem asUnsigned_eq_ok_iff {path : Path} {t : Term} {n : Nat} :
    t.asUnsigned path = .ok n ↔ t = .int n := by
  constructor
  · intro h
    obtain ⟨m, hm, hmatch⟩ := bind_eq_ok.1 h
    cases m with
    | ofNat m =>
      cases hmatch
      exact asInt_eq_ok_iff.1 hm
    | negSucc m => cases hmatch
  · rintro rfl
    rfl

theorem asSafeUnsigned_eq_ok_iff {path : Path} {t : Term} {n : Nat} :
    t.asSafeUnsigned path = .ok n ↔ t = .int n ∧ n ≤ Number.maxSafe := by
  constructor
  · intro h
    obtain ⟨m, hm, hbound⟩ := bind_eq_ok.1 h
    split_ifs at hbound with hsafe
    · cases hbound
      exact ⟨asUnsigned_eq_ok_iff.1 hm, hsafe⟩
    · cases t <;> cases hbound
  · rintro ⟨rfl, hsafe⟩
    exact if_pos hsafe

theorem eq_seq_of_asFixedSequence {path : Path} {allowed : List Number} {t : Term}
    {items : List Term} (h : t.asFixedSequence path allowed = .ok items) : t = .seq items := by
  obtain ⟨items', hitems, hbound⟩ := bind_eq_ok.1 h
  split_ifs at hbound with hlength
  cases hbound
  exact asSequence_eq_ok_iff.1 hitems

/-- A list is written with the mark that it was read with. -/
theorem eq_setLike_of_asSetLike {path : Path} {t : Term} {s : SetLike Term}
    (h : t.asSetLike path = .ok s) : t = setLike s.items s.tagged := by
  cases t with
  | tag number content =>
    rw [asSetLike] at h
    split_ifs at h with hnumber
    · obtain ⟨items, hitems, hpure⟩ := bind_eq_ok.1 h
      cases hpure
      rw [hnumber, asSequence_eq_ok_iff.1 hitems]
      rfl
    · cases h
  | seq items =>
    cases h
    rfl
  | _ => cases h

/-- Items decoded one by one are written as the items that they were read from. -/
theorem map_of_decodeItems {α : Type} {path : Path} {f : Path → Term → Except Fault α}
    {g : α → Term} {r : Term → Term} (hf : ∀ {p t a}, f p t = .ok a → g a = r t)
    {items : List Term} {xs : List α} (h : decodeItems path f items = .ok xs) :
    xs.map g = items.map r := by
  have hpairs := mapM_eq_ok.1 h
  have hmap : xs.map g = items.zipIdx.map (r ∘ Prod.fst) :=
    map_eq_of_forall₂ (hpairs.imp fun p x hx => hf hx)
  rw [hmap, ← List.map_map, List.zipIdx_map_fst]

end Eutxo.Term

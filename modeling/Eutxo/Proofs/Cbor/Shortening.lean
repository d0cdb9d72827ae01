import Eutxo.Proofs.Cbor.CanonicalInput
import Eutxo.Proofs.Cbor.Reordering
import Eutxo.Proofs.Traversal

/-!
# Terms with amounts written in short

An amount of coin can be spelled as a number, or as a pair of the number and an
empty map.  Writing the number for the pair makes a term lighter, so a term that
keeps its weight is left as it was.
-/

namespace Eutxo.Term

open Cbor Traversal

/-- Some pairs of a number and an empty map became the number, in items or in values of maps. -/
inductive Shortened : Term → Term → Prop
  | refl (t : Term) : Shortened t t
  | trans {t u v : Term} : Shortened t u → Shortened u v → Shortened t v
  | amount (coin : Int) : Shortened (.seq [.int coin, .map []]) (.int coin)
  | item (before after : List Term) {t u : Term} :
    Shortened t u → Shortened (.seq (before ++ t :: after)) (.seq (before ++ u :: after))
  | value (before after : List (Term × Term)) (k : Term) {v w : Term} :
    Shortened v w → Shortened (.map (before ++ (k, v) :: after)) (.map (before ++ (k, w) :: after))

namespace Shortened

theorem seq {xs ys : List Term} (h : List.Forall₂ Shortened xs ys) :
    Shortened (.seq xs) (.seq ys) := by
  refine rel_of_forall₂ (R := fun xs ys => Shortened (.seq xs) (.seq ys))
    (fun xs => .refl _) ?_ ?_ h
  · intro xs ys zs
    exact .trans
  · intro before after t u htu
    exact .item before after htu

theorem map {es fs : List (Term × Term)}
    (h : List.Forall₂ (fun e f => e.1 = f.1 ∧ Shortened e.2 f.2) es fs) :
    Shortened (.map es) (.map fs) := by
  refine rel_of_forall₂ (R := fun es fs => Shortened (.map es) (.map fs))
    (fun es => .refl _) ?_ ?_ h
  · intro es fs gs
    exact .trans
  · rintro before after ⟨k, v⟩ ⟨l, w⟩ ⟨rfl, hvalue⟩
    exact .value before after k hvalue

/-- A term that was shortened at all is lighter. -/
theorem eq_or_weight_lt {t u : Term} (h : Shortened t u) : u = t ∨ u.weight < t.weight := by
  induction h with
  | refl t => exact .inl rfl
  | trans _ _ ihtu ihuv =>
    rcases ihtu with rfl | htu
    · exact ihuv
    · rcases ihuv with rfl | huv
      · exact .inr htu
      · exact .inr (huv.trans htu)
  | amount coin => exact .inr (by simp [weight, weightOfItems])
  | item before after _ ih =>
    rcases ih with rfl | hlt
    · exact .inl rfl
    · refine .inr ?_
      simp only [weight_seq, List.map_append, List.map_cons, List.sum_append, List.sum_cons]
      omega
  | value before after k _ ih =>
    rcases ih with rfl | hlt
    · exact .inl rfl
    · refine .inr ?_
      simp only [weight_map, List.map_append, List.map_cons, List.sum_append, List.sum_cons]
      omega

theorem eq_of_weight_eq {t u : Term} (h : Shortened t u) (hweight : u.weight = t.weight) : u = t :=
  h.eq_or_weight_lt.resolve_right fun hlt => hlt.ne hweight

theorem weight_le {t u : Term} (h : Shortened t u) : u.weight ≤ t.weight := by
  rcases h.eq_or_weight_lt with rfl | hlt
  · exact Nat.le_refl _
  · exact hlt.le

/-- A condition that looks at nodes one by one, and at the keys of maps, is kept. -/
theorem everywhere {P : Term → Prop}
    (hseq : ∀ xs ys : List Term, xs.length = ys.length → P (.seq xs) → P (.seq ys))
    (hmap : ∀ es fs : List (Term × Term), es.map Prod.fst = fs.map Prod.fst → P (.map es) →
      P (.map fs)) {t u : Term} (h : Shortened t u) : Everywhere P t → Everywhere P u := by
  induction h with
  | refl t => exact id
  | trans _ _ ihtu ihuv => exact ihuv ∘ ihtu
  | amount coin =>
    intro hP
    exact (everywhere_seq_iff.1 hP).2 _ List.mem_cons_self
  | item before after _ ih =>
    intro hP
    obtain ⟨hhere, hitems⟩ := everywhere_seq_iff.1 hP
    obtain ⟨hbefore, hmid⟩ := List.forall_mem_append.1 hitems
    obtain ⟨ht, hafter⟩ := List.forall_mem_cons.1 hmid
    refine everywhere_seq_iff.2 ⟨hseq _ _ (by simp) hhere, ?_⟩
    exact List.forall_mem_append.2 ⟨hbefore, List.forall_mem_cons.2 ⟨ih ht, hafter⟩⟩
  | value before after k _ ih =>
    intro hP
    obtain ⟨hhere, hentries⟩ := everywhere_map_iff.1 hP
    obtain ⟨hbefore, hmid⟩ := List.forall_mem_append.1 hentries
    obtain ⟨hentry, hafter⟩ := List.forall_mem_cons.1 hmid
    refine everywhere_map_iff.2 ⟨hmap _ _ (by simp) hhere, ?_⟩
    exact List.forall_mem_append.2
      ⟨hbefore, List.forall_mem_cons.2 ⟨⟨hentry.1, ih hentry.2⟩, hafter⟩⟩

theorem fits {limit : Nat} {t u : Term} (h : Shortened t u) :
    Everywhere (FitsAt limit) t → Everywhere (FitsAt limit) u := by
  apply h.everywhere
  · intro xs ys hlength hfits
    exact FitsAt.of_alike (.seq xs) (.seq ys) hlength hfits
  · intro es fs hkeys hfits
    have hlength : es.length = fs.length := by
      simpa using congrArg List.length hkeys
    exact FitsAt.of_alike (.map es) (.map fs) hlength hfits

theorem decoded {t u : Term} (h : Shortened t u) :
    Everywhere DecodedAt t → Everywhere DecodedAt u := by
  apply h.everywhere
  · intro xs ys _ _
    exact trivial
  · intro es fs _ _
    exact trivial

theorem distinct {t u : Term} (h : Shortened t u) :
    Everywhere DistinctAt t → Everywhere DistinctAt u := by
  apply h.everywhere
  · intro xs ys _ _
    exact trivial
  · intro es fs hkeys hdistinct
    have hpairs (gs : List (Term × Term)) : DistinctAt (.map gs) ↔
        (gs.map Prod.fst).Pairwise fun k l => encode k ≠ encode l := by
      rw [List.pairwise_map]
      rfl
    rw [hpairs, ← hkeys, ← hpairs]
    exact hdistinct

end Shortened

end Eutxo.Term

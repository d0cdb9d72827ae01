import Mathlib.Data.Option.Basic
import Eutxo.Proofs.Cbor.Reordering

/-!
# Maps with one content for each key

Ledger types are written as maps in which each key occurs once.  Such a map says
what stands under each key, and two of them are reorderings of each other
exactly if the same stands under each key, up to the order of entries.
-/

namespace Eutxo.Term

open Traversal

/-! ## Optional contents -/

theorem optionRel_iff {α β : Type} {R : α → β → Prop} {a : Option α} {b : Option β} :
    Option.Rel R a b ↔
      (∀ x, a = some x → ∃ y, b = some y ∧ R x y) ∧
        ∀ y, b = some y → ∃ x, a = some x ∧ R x y := by
  cases a <;> cases b <;> simp

theorem optionRel_map_iff {α β γ δ : Type} {R : γ → δ → Prop} {f : α → γ} {g : β → δ}
    {a : Option α} {b : Option β} :
    Option.Rel R (a.map f) (b.map g) ↔ Option.Rel (fun x y => R (f x) (g y)) a b := by
  cases a <;> cases b <;> simp

theorem optionRel_eq_iff {α : Type} {a b : Option α} : Option.Rel Eq a b ↔ a = b := by
  cases a <;> cases b <;> simp

theorem isSome_eq_of_optionRel {α β : Type} {R : α → β → Prop} {a : Option α} {b : Option β}
    (h : Option.Rel R a b) : a.isSome = b.isSome := by
  cases h <;> rfl

/-- A condition on contents that does not depend on them is one on their presence. -/
theorem optionRel_and_iff {α β : Type} {p : Prop} {R : α → β → Prop} {a : Option α}
    {b : Option β} :
    Option.Rel (fun x y => p ∧ R x y) a b ↔ Option.Rel R a b ∧ (a.isSome → p) := by
  cases a <;> cases b <;> simp [and_comm]

/-! ## What a map says -/

variable {κ : Type} {key : κ → Term} {c d : κ → Option Term} {es fs : List (Term × Term)}

/-- The entries of a map have under each key what is given for it, and nothing else. -/
structure Lists (key : κ → Term) (content? : κ → Option Term) (es : List (Term × Term)) : Prop where
  apart : KeysApart es
  mem_iff : ∀ k t, (key k, t) ∈ es ↔ content? k = some t
  exists_key : ∀ e ∈ es, ∃ k, e.1 = key k

namespace Lists

theorem content?_of_mem (h : Lists key c es) {e : Term × Term} (he : e ∈ es) :
    ∃ k, e.1 = key k ∧ c k = some e.2 := by
  obtain ⟨k, hk⟩ := h.exists_key e he
  exact ⟨k, hk, (h.mem_iff k e.2).1 (hk ▸ he)⟩

theorem forall_exists_entry_iff (hkey : ∀ j k, Reordered (key j) (key k) → j = k)
    (hes : Lists key c es) (hfs : Lists key d fs) :
    (∀ e ∈ es, ∃ f ∈ fs, Reordered.Entry e f) ↔
      ∀ k t, c k = some t → ∃ u, d k = some u ∧ Reordered t u := by
  constructor
  · intro h k t ht
    obtain ⟨f, hf, hkeys, hvalues⟩ := h (key k, t) ((hes.mem_iff k t).2 ht)
    obtain ⟨j, hj, hcontent⟩ := hfs.content?_of_mem hf
    have hsame : k = j := hkey k j (hj ▸ hkeys)
    exact ⟨f.2, hsame ▸ hcontent, hvalues⟩
  · intro h e he
    obtain ⟨k, hk, hcontent⟩ := hes.content?_of_mem he
    obtain ⟨u, hu, hvalues⟩ := h k e.2 hcontent
    exact ⟨(key k, u), (hfs.mem_iff k u).2 hu, hk ▸ .refl _, hvalues⟩

/-- Maps are reorderings of each other exactly if they have the same under each key. -/
theorem reordered_iff (hkey : ∀ j k, Reordered (key j) (key k) → j = k)
    (hes : Lists key c es) (hfs : Lists key d fs) :
    Reordered (.map es) (.map fs) ↔ ∀ k, Option.Rel Reordered (c k) (d k) := by
  have hback : (∀ f ∈ fs, ∃ e ∈ es, Reordered.Entry e f) ↔
      ∀ f ∈ fs, ∃ e ∈ es, Reordered.Entry f e :=
    forall₂_congr fun f _ => exists_congr fun e =>
      and_congr_right fun _ => ⟨.symm, .symm⟩
  rw [Reordered.map_map_iff hes.apart hfs.apart, hback, forall_exists_entry_iff hkey hes hfs,
    forall_exists_entry_iff hkey hfs hes, ← forall_and]
  refine forall_congr' fun k => ?_
  rw [optionRel_iff]
  refine and_congr_right fun _ => forall₂_congr fun u _ => exists_congr fun t => ?_
  exact and_congr_right fun _ => ⟨.symm, .symm⟩

end Lists

/-- Reordering a map keeps its keys apart. -/
theorem Reordered.keysApart (h : Reordered (.map es) (.map fs)) (hes : KeysApart es) :
    KeysApart fs := by
  obtain ⟨_, gs, heq, hperm, hmatch⟩ := map_left_iff.1 h
  cases heq
  have hgs : KeysApart gs := (hperm.pairwise_iff fun hef hfe => hef hfe.symm).1 hes
  refine pairwise_of_forall₂ ?_ hmatch hgs
  rintro g g' f f' ⟨hkey, -⟩ ⟨hkey', -⟩ hapart hsame
  exact hapart (.trans hkey (.trans hsame hkey'.symm))

/-- Entries whose keys are apart come from different keys. -/
theorem KeysApart.nodup_keys {α : Type} (key : κ → Term) (term : α → Term) {as : List (κ × α)}
    (h : KeysApart (as.map fun a => (key a.1, term a.2))) : (as.map Prod.fst).Nodup := by
  apply List.pairwise_map.2
  apply (List.pairwise_map.1 h).imp
  intro a b hapart hsame
  exact hapart (hsame ▸ .refl _)

/-- What a map becomes when its entries are listed in another order: a map that has no other
entries. -/
theorem Reordered.exists_entries {t : Term} (h : Reordered (.map es) t) :
    ∃ fs, t = .map fs ∧ ∀ f ∈ fs, ∃ e ∈ es, Reordered.Entry e f := by
  obtain ⟨fs, _, rfl, -⟩ := map_left_iff.1 h
  exact ⟨fs, rfl, exists_entry h⟩

end Eutxo.Term

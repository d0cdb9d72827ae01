import Eutxo.Proofs.Cbor.Acceptance
import Eutxo.Proofs.Cbor.KeyedMap

/-!
# Shapes that ignore the order of map entries

A decoder looks at the nodes of a term, and at what stands under the keys of its
maps.  The shapes that decoders ask for are put together from conditions that a
term keeps when its map entries are listed in another order, at any depth, and
what is changed before it is written is changed alike in any order.
-/

namespace Eutxo.Term

open Traversal

/-- The condition is kept when map entries are listed in another order. -/
def IgnoresOrder (P : Term → Prop) : Prop := ∀ t u, Reordered t u → P t → P u

namespace IgnoresOrder

variable {P Q K V : Term → Prop}

theorem or (hP : IgnoresOrder P) (hQ : IgnoresOrder Q) : IgnoresOrder fun t => P t ∨ Q t := by
  intro t u h
  exact Or.imp (hP t u h) (hQ t u h)

/-- A condition that holds only of terms without entries to reorder. -/
theorem of_rigid (hP : ∀ t u, P t → Reordered t u → u = t) : IgnoresOrder P := by
  intro t u h ht
  rw [hP t u ht h]
  exact ht

theorem everywhere (hP : ∀ t u, Alike t u → P t → P u) : IgnoresOrder (Everywhere P) :=
  fun _ _ h => h.everywhere hP

/-! ## Leaves -/

theorem anything : IgnoresOrder fun _ => True := fun _ _ _ _ => trivial

theorem isInt : IgnoresOrder IsInt := by
  apply of_rigid
  rintro _ u ⟨n, rfl⟩ h
  exact Reordered.int_left_iff.1 h

theorem isUnsigned : IgnoresOrder IsUnsigned := by
  apply of_rigid
  rintro _ u ⟨n, rfl⟩ h
  exact Reordered.int_left_iff.1 h

theorem isSafeUnsigned : IgnoresOrder IsSafeUnsigned := by
  apply of_rigid
  rintro _ u ⟨n, rfl, -⟩ h
  exact Reordered.int_left_iff.1 h

/-- Byte strings of some lengths. -/
theorem bytes (p : Bytes → Prop) : IgnoresOrder fun t => ∃ bs, t = .bytes bs ∧ p bs := by
  apply of_rigid
  rintro _ u ⟨bs, rfl, -⟩ h
  exact Reordered.bytes_left_iff.1 h

theorem isBytes : IgnoresOrder IsBytes := by
  apply of_rigid
  rintro _ u ⟨bs, rfl⟩ h
  exact Reordered.bytes_left_iff.1 h

theorem isBytesOf (size : Nat) : IgnoresOrder (IsBytesOf size) := bytes fun bs => bs.length = size

theorem isBytesWithin (size : Nat) : IgnoresOrder (IsBytesWithin size) :=
  bytes fun bs => bs.length ≤ size

/-! ## Sequences -/

/-- A sequence whose items are asked for what reordered items have too. -/
theorem items {G : List Term → Prop}
    (hG : ∀ xs ys, List.Forall₂ Reordered xs ys → G xs → G ys) :
    IgnoresOrder fun t => ∃ items, t = .seq items ∧ G items := by
  rintro _ u h ⟨xs, rfl, hxs⟩
  obtain ⟨ys, rfl, hxy⟩ := Reordered.seq_left_iff.1 h
  exact ⟨ys, rfl, hG xs ys hxy hxs⟩

theorem isList (hP : IgnoresOrder P) : IgnoresOrder (IsList P) := by
  apply items
  intro xs ys hxy hxs y hy
  obtain ⟨x, hx, hreordered⟩ := exists_mem_of_forall₂ hxy y hy
  exact hP x y hreordered (hxs x hx)

theorem isPair (hP : IgnoresOrder P) (hQ : IgnoresOrder Q) : IgnoresOrder (IsPair P Q) := by
  rintro _ w h ⟨u, v, rfl, hu, hv⟩
  obtain ⟨u', v', rfl, huu', hvv'⟩ := Reordered.pair_left_iff.1 h
  exact ⟨u', v', rfl, hP u u' huu' hu, hQ v v' hvv' hv⟩

theorem tagged (hP : IgnoresOrder P) (number : Nat) :
    IgnoresOrder fun t => ∃ content, t = .tag number content ∧ P content := by
  rintro _ u h ⟨content, rfl, hcontent⟩
  obtain ⟨v, rfl, hv⟩ := Reordered.tag_left_iff.1 h
  exact ⟨v, rfl, hP content v hv hcontent⟩

theorem isSet (hP : IgnoresOrder P) : IgnoresOrder (IsSet P) := hP.isList.or (hP.isList.tagged 258)

/-! ## Maps -/

/-- A map whose entries are asked for what entries that say the same have too. -/
theorem entries {G : List (Term × Term) → Prop}
    (hG : ∀ es fs, (∀ f ∈ fs, ∃ e ∈ es, Reordered.Entry e f) →
      (∀ e ∈ es, ∃ f ∈ fs, Reordered.Entry e f) → G es → G fs) :
    IgnoresOrder fun t => ∃ entries, t = .map entries ∧ G entries := by
  rintro _ u h ⟨es, rfl, hes⟩
  obtain ⟨fs, rfl, hfs⟩ := h.exists_entries
  refine ⟨fs, rfl, hG es fs hfs ?_ hes⟩
  intro e he
  obtain ⟨f, hf, hfe⟩ := Reordered.exists_entry h.symm e he
  exact ⟨f, hf, hfe.symm⟩

theorem isMap (hK : IgnoresOrder K) (hV : IgnoresOrder V) : IgnoresOrder (IsMap K V) := by
  apply entries
  intro es fs hfs _ hes f hf
  obtain ⟨e, he, hkey, hvalue⟩ := hfs f hf
  exact ⟨hK e.1 f.1 hkey (hes e he).1, hV e.2 f.2 hvalue (hes e he).2⟩

/-- A map from the keys of fields to contents, in which some fields have to be present. -/
theorem keyed {C : Nat → Term → Prop} (hC : ∀ key, IgnoresOrder (C key)) (mandatory : List Nat) :
    IgnoresOrder fun t => ∃ entries, t = .map entries ∧
      (∀ e ∈ entries, ∃ key : Nat, e.1 = .int key ∧ C key e.2) ∧
        ∀ key ∈ mandatory, ∃ e ∈ entries, e.1 = .int key := by
  apply entries
  rintro es fs hfs hes ⟨hcontents, hpresent⟩
  constructor
  · intro f hf
    obtain ⟨e, he, hkeys, hvalues⟩ := hfs f hf
    obtain ⟨key, hkey, hcontent⟩ := hcontents e he
    exact ⟨key, Reordered.int_left_iff.1 (hkey ▸ hkeys), hC key e.2 f.2 hvalues hcontent⟩
  · intro key hmandatory
    obtain ⟨e, he, hkey⟩ := hpresent key hmandatory
    obtain ⟨f, hf, hkeys, -⟩ := hes e he
    exact ⟨f, hf, Reordered.int_left_iff.1 (hkey ▸ hkeys)⟩

end IgnoresOrder

/-! ## Changes -/

namespace Reordered

variable {f : Term → Term} {t u : Term}

/-- What changes sequences alone keeps terms alike if it keeps sequences so. -/
theorem of_seq (hother : ∀ t, (∀ items, t ≠ .seq items) → f t = t)
    (hseq : ∀ xs ys, List.Forall₂ Reordered xs ys → Reordered (f (.seq xs)) (f (.seq ys)))
    (h : Reordered t u) : Reordered (f t) (f u) := by
  by_cases ht : ∀ items, t ≠ .seq items
  · have hu : ∀ items, u ≠ .seq items := by
      rintro items rfl
      obtain ⟨xs, rfl, -⟩ := seq_left_iff.1 h.symm
      exact ht xs rfl
    rwa [hother t ht, hother u hu]
  · push Not at ht
    obtain ⟨xs, rfl⟩ := ht
    obtain ⟨ys, rfl, hitems⟩ := seq_left_iff.1 h
    exact hseq xs ys hitems

/-- What changes maps alone, entry by entry, keeps terms alike if it keeps entries so. -/
theorem of_map {g : Term × Term → Term × Term} (hother : ∀ t, (∀ es, t ≠ .map es) → f t = t)
    (hmap : ∀ es, f (.map es) = .map (es.map g)) (hentry : ∀ d e, Entry d e → Entry (g d) (g e))
    (h : Reordered t u) : Reordered (f t) (f u) := by
  by_cases ht : ∀ es, t ≠ .map es
  · have hu : ∀ es, u ≠ .map es := by
      rintro es rfl
      obtain ⟨fs, rfl, -⟩ := h.symm.exists_entries
      exact ht fs rfl
    rwa [hother t ht, hother u hu]
  · push Not at ht
    obtain ⟨es, rfl⟩ := ht
    obtain ⟨fs, gs, rfl, hperm, hmatch⟩ := map_left_iff.1 h
    rw [hmap, hmap]
    apply Reordered.trans (.permute (hperm.map g))
    apply Reordered.map
    rw [List.forall₂_map_left_iff, List.forall₂_map_right_iff]
    exact hmatch.imp hentry

end Reordered

end Eutxo.Term

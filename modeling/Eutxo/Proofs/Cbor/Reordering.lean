import Mathlib.Algebra.BigOperators.Group.List.Basic
import Mathlib.Algebra.GroupWithZero.Nat
import Mathlib.Data.List.Forall2
import Eutxo.Proofs.Cbor.Tree
import Eutxo.Proofs.Traversal

/-!
# Terms up to the order of map entries

Two terms say the same if they differ only in the order in which maps list
their entries, at any depth and inside keys too.
-/

namespace Eutxo.Term

open Traversal

/-- The terms differ only in the order of map entries, at any depth. -/
inductive Reordered : Term → Term → Prop
  | refl (t : Term) : Reordered t t
  | trans {t u v : Term} : Reordered t u → Reordered u v → Reordered t v
  | permute {es fs : List (Term × Term)} : es.Perm fs → Reordered (.map es) (.map fs)
  | item (before after : List Term) {t u : Term} :
    Reordered t u → Reordered (.seq (before ++ t :: after)) (.seq (before ++ u :: after))
  | entry (before after : List (Term × Term)) {k l v w : Term} :
    Reordered k l → Reordered v w →
      Reordered (.map (before ++ (k, v) :: after)) (.map (before ++ (l, w) :: after))
  | tag (number : Nat) {t u : Term} : Reordered t u → Reordered (.tag number t) (.tag number u)

/-- The nodes are alike, whatever stands below them: equal leaves, sequences or maps of one length,
or equal tags. -/
def Alike : Term → Term → Prop
  | .seq xs, .seq ys => xs.length = ys.length
  | .map xs, .map ys => xs.length = ys.length
  | .tag m _, .tag n _ => m = n
  | t, u => t = u

mutual

/-- The number of nodes of a term and of code units in its texts. -/
def weight : Term → Nat
  | .text t => 1 + t.length
  | .seq items => 1 + weightOfItems items
  | .map entries => 1 + weightOfEntries entries
  | .tag _ content => 1 + weight content
  | _ => 1

/-- The weight of the terms of a list. -/
def weightOfItems : List Term → Nat
  | [] => 0
  | t :: ts => weight t + weightOfItems ts

/-- The weight of the keys and values of a list of entries. -/
def weightOfEntries : List (Term × Term) → Nat
  | [] => 0
  | (k, v) :: es => weight k + weight v + weightOfEntries es

end

theorem weight_seq (ts : List Term) : weight (.seq ts) = 1 + (ts.map weight).sum := by
  rw [weight]
  congr 1
  induction ts with
  | nil => rfl
  | cons t ts ih => rw [weightOfItems, ih, List.map_cons, List.sum_cons]

theorem weight_map (es : List (Term × Term)) :
    weight (.map es) = 1 + (es.map fun e => weight e.1 + weight e.2).sum := by
  rw [weight]
  congr 1
  induction es with
  | nil => rfl
  | cons e es ih => rw [weightOfEntries, ih, List.map_cons, List.sum_cons]

namespace Reordered

theorem symm {t u : Term} (h : Reordered t u) : Reordered u t := by
  induction h with
  | refl t => exact .refl t
  | trans _ _ ihtu ihuv => exact .trans ihuv ihtu
  | permute hperm => exact .permute hperm.symm
  | item before after _ ih => exact .item before after ih
  | entry before after _ _ ihkey ihvalue => exact .entry before after ihkey ihvalue
  | tag number _ ih => exact .tag number ih

/-- A sequence is reordered item by item. -/
theorem seq {xs ys : List Term} (h : List.Forall₂ Reordered xs ys) :
    Reordered (.seq xs) (.seq ys) := by
  refine rel_of_forall₂ (R := fun xs ys => Reordered (.seq xs) (.seq ys))
    (fun xs => .refl _) ?_ ?_ h
  · intro xs ys zs
    exact .trans
  · intro before after t u htu
    exact .item before after htu

/-- A map is reordered entry by entry. -/
theorem map {es fs : List (Term × Term)}
    (h : List.Forall₂ (fun e f => Reordered e.1 f.1 ∧ Reordered e.2 f.2) es fs) :
    Reordered (.map es) (.map fs) := by
  refine rel_of_forall₂ (R := fun es fs => Reordered (.map es) (.map fs))
    (fun es => .refl _) ?_ ?_ h
  · intro es fs gs
    exact .trans
  · rintro before after ⟨k, v⟩ ⟨l, w⟩ ⟨hkey, hvalue⟩
    exact .entry before after hkey hvalue

/-- A condition that only looks at nodes one by one does not depend on the order of entries. -/
theorem everywhere {P : Term → Prop} (halike : ∀ t u, Alike t u → P t → P u) {t u : Term}
    (h : Reordered t u) : Everywhere P t → Everywhere P u := by
  induction h with
  | refl t => exact id
  | trans _ _ ihtu ihuv => exact ihuv ∘ ihtu
  | @permute es fs hperm =>
    intro hP
    obtain ⟨hhere, hentries⟩ := everywhere_map_iff.1 hP
    have hroot : P (.map fs) := halike (.map es) (.map fs) hperm.length_eq hhere
    refine everywhere_map_iff.2 ⟨hroot, ?_⟩
    intro e he
    exact hentries e (hperm.mem_iff.2 he)
  | item before after _ ih =>
    intro hP
    obtain ⟨hhere, hitems⟩ := everywhere_seq_iff.1 hP
    obtain ⟨hbefore, hmid⟩ := List.forall_mem_append.1 hitems
    obtain ⟨ht, hafter⟩ := List.forall_mem_cons.1 hmid
    refine everywhere_seq_iff.2 ⟨halike _ _ (by simp [Alike]) hhere, ?_⟩
    exact List.forall_mem_append.2 ⟨hbefore, List.forall_mem_cons.2 ⟨ih ht, hafter⟩⟩
  | entry before after _ _ ihkey ihvalue =>
    intro hP
    obtain ⟨hhere, hentries⟩ := everywhere_map_iff.1 hP
    obtain ⟨hbefore, hmid⟩ := List.forall_mem_append.1 hentries
    obtain ⟨hentry, hafter⟩ := List.forall_mem_cons.1 hmid
    refine everywhere_map_iff.2 ⟨halike _ _ (by simp [Alike]) hhere, ?_⟩
    exact List.forall_mem_append.2
      ⟨hbefore, List.forall_mem_cons.2 ⟨⟨ihkey hentry.1, ihvalue hentry.2⟩, hafter⟩⟩
  | @tag number t u _ ih =>
    intro hP
    obtain ⟨hhere, hcontent⟩ := everywhere_tag_iff.1 hP
    have hroot : P (.tag number u) := halike (.tag number t) (.tag number u) rfl hhere
    exact everywhere_tag_iff.2 ⟨hroot, ih hcontent⟩

theorem weight_eq {t u : Term} (h : Reordered t u) : t.weight = u.weight := by
  induction h with
  | refl t => rfl
  | trans _ _ ihtu ihuv => exact ihtu.trans ihuv
  | permute hperm => rw [weight_map, weight_map, (hperm.map _).sum_eq]
  | item before after _ ih => simp [weight_seq, ih]
  | entry before after _ _ ihkey ihvalue => simp [weight_map, ihkey, ihvalue]
  | tag number _ ih => rw [weight, weight, ih]

/-! ## Node by node -/

/-- The entries say the same: their keys do, and their values. -/
def Entry (e f : Term × Term) : Prop := Reordered e.1 f.1 ∧ Reordered e.2 f.2

theorem Entry.refl (e : Term × Term) : Entry e e := ⟨.refl e.1, .refl e.2⟩

theorem Entry.symm {e f : Term × Term} (h : Entry e f) : Entry f e := ⟨h.1.symm, h.2.symm⟩

theorem Entry.trans {e f g : Term × Term} (h : Entry e f) (h' : Entry f g) : Entry e g :=
  ⟨.trans h.1 h'.1, .trans h.2 h'.2⟩

/-- What a term may become when its map entries are listed in another order: nodes keep their
kind, and only the entries of maps change places. -/
def Rearranged : Term → Term → Prop
  | .seq xs, u => ∃ ys, u = .seq ys ∧ List.Forall₂ Reordered xs ys
  | .map es, u => ∃ fs gs, u = .map fs ∧ es.Perm gs ∧ List.Forall₂ Entry gs fs
  | .tag number t, u => ∃ v, u = .tag number v ∧ Reordered t v
  | t, u => u = t

theorem Rearranged.refl (t : Term) : Rearranged t t := by
  cases t with
  | seq xs => exact ⟨xs, rfl, List.forall₂_same.2 fun x _ => .refl x⟩
  | map es => exact ⟨es, es, rfl, .refl es, List.forall₂_same.2 fun e _ => Entry.refl e⟩
  | tag number t => exact ⟨t, rfl, .refl t⟩
  | _ => rfl

theorem Rearranged.trans {t u v : Term} (h : Rearranged t u) (h' : Rearranged u v) :
    Rearranged t v := by
  cases t with
  | seq xs =>
    obtain ⟨ys, rfl, hxy⟩ := h
    obtain ⟨zs, rfl, hyz⟩ := h'
    exact ⟨zs, rfl, forall₂_comp (fun _ _ _ => .trans) hxy hyz⟩
  | map es =>
    obtain ⟨fs, gs, rfl, hperm, hmatch⟩ := h
    obtain ⟨hs, fs', rfl, hperm', hmatch'⟩ := h'
    obtain ⟨ks, hks, hksgs⟩ := List.perm_comp_forall₂ hperm'.symm hmatch.flip
    refine ⟨hs, ks, rfl, hperm.trans hksgs.symm, ?_⟩
    have hback : List.Forall₂ Entry ks fs' := hks.flip
    have htrans : ∀ e f g, Entry e f → Entry f g → Entry e g := fun _ _ _ => Entry.trans
    exact forall₂_comp htrans hback hmatch'
  | tag number t =>
    obtain ⟨w, rfl, htw⟩ := h
    obtain ⟨x, rfl, hwx⟩ := h'
    exact ⟨x, rfl, .trans htw hwx⟩
  | _ =>
    cases h
    exact h'

theorem rearranged {t u : Term} (h : Reordered t u) : Rearranged t u := by
  induction h with
  | refl t => exact .refl t
  | trans _ _ ihtu ihuv => exact ihtu.trans ihuv
  | @permute es fs hperm => exact ⟨fs, fs, rfl, hperm, List.forall₂_same.2 fun e _ => Entry.refl e⟩
  | item before after htu _ =>
    refine ⟨_, rfl, List.rel_append (List.forall₂_same.2 fun x _ => .refl x) ?_⟩
    exact .cons htu (List.forall₂_same.2 fun x _ => .refl x)
  | entry before after hkey hvalue _ _ =>
    refine ⟨_, _, rfl, .refl _, List.rel_append (List.forall₂_same.2 fun e _ => Entry.refl e) ?_⟩
    exact .cons ⟨hkey, hvalue⟩ (List.forall₂_same.2 fun e _ => Entry.refl e)
  | tag number htu _ => exact ⟨_, rfl, htu⟩

theorem seq_left_iff {xs : List Term} {u : Term} :
    Reordered (.seq xs) u ↔ ∃ ys, u = .seq ys ∧ List.Forall₂ Reordered xs ys := by
  constructor
  · exact rearranged
  · rintro ⟨ys, rfl, hys⟩
    exact .seq hys

theorem pair_left_iff {x y u : Term} :
    Reordered (.seq [x, y]) u ↔ ∃ v w, u = .seq [v, w] ∧ Reordered x v ∧ Reordered y w := by
  simp only [seq_left_iff, forall₂_pair_left_iff]
  constructor
  · rintro ⟨_, rfl, v, w, rfl, hv, hw⟩
    exact ⟨v, w, rfl, hv, hw⟩
  · rintro ⟨v, w, rfl, hv, hw⟩
    exact ⟨_, rfl, v, w, rfl, hv, hw⟩

theorem quadruple_left_iff {a b c d u : Term} :
    Reordered (.seq [a, b, c, d]) u ↔ ∃ w x y z, u = .seq [w, x, y, z] ∧
      Reordered a w ∧ Reordered b x ∧ Reordered c y ∧ Reordered d z := by
  simp only [seq_left_iff, forall₂_quadruple_left_iff]
  constructor
  · rintro ⟨_, rfl, w, x, y, z, rfl, h⟩
    exact ⟨w, x, y, z, rfl, h⟩
  · rintro ⟨w, x, y, z, rfl, h⟩
    exact ⟨_, rfl, w, x, y, z, rfl, h⟩

theorem map_left_iff {es : List (Term × Term)} {u : Term} :
    Reordered (.map es) u ↔ ∃ fs gs, u = .map fs ∧ es.Perm gs ∧ List.Forall₂ Entry gs fs := by
  constructor
  · exact rearranged
  · rintro ⟨fs, gs, rfl, hperm, hmatch⟩
    exact .trans (.permute hperm) (.map hmatch)

theorem tag_left_iff {number : Nat} {t u : Term} :
    Reordered (.tag number t) u ↔ ∃ v, u = .tag number v ∧ Reordered t v := by
  constructor
  · exact rearranged
  · rintro ⟨v, rfl, hv⟩
    exact .tag number hv

@[simp]
theorem int_left_iff {n : Int} {u : Term} : Reordered (.int n) u ↔ u = .int n :=
  ⟨rearranged, fun h => h ▸ .refl _⟩

@[simp]
theorem bytes_left_iff {bs : Bytes} {u : Term} : Reordered (.bytes bs) u ↔ u = .bytes bs :=
  ⟨rearranged, fun h => h ▸ .refl _⟩

@[simp]
theorem text_left_iff {text : Text} {u : Term} : Reordered (.text text) u ↔ u = .text text :=
  ⟨rearranged, fun h => h ▸ .refl _⟩

@[simp]
theorem bool_left_iff {b : Bool} {u : Term} : Reordered (.bool b) u ↔ u = .bool b :=
  ⟨rearranged, fun h => h ▸ .refl _⟩

@[simp]
theorem null_left_iff {u : Term} : Reordered .null u ↔ u = .null :=
  ⟨rearranged, fun h => h ▸ .refl _⟩

theorem int_int_iff {m n : Int} : Reordered (.int m) (.int n) ↔ m = n := by
  rw [int_left_iff, Term.int.injEq, eq_comm]

theorem seq_seq_iff {xs ys : List Term} :
    Reordered (.seq xs) (.seq ys) ↔ List.Forall₂ Reordered xs ys := by
  rw [seq_left_iff]
  simp

/-- Each entry of a reordered map is an entry of the map. -/
theorem exists_entry {es fs : List (Term × Term)} (h : Reordered (.map es) (.map fs)) :
    ∀ f ∈ fs, ∃ e ∈ es, Entry e f := by
  obtain ⟨_, gs, heq, hperm, hmatch⟩ := map_left_iff.1 h
  cases heq
  intro f hf
  obtain ⟨g, hg, hgf⟩ := exists_mem_of_forall₂ hmatch f hf
  exact ⟨g, hperm.mem_iff.2 hg, hgf⟩

end Reordered

/-- No two keys of the entries say the same. -/
def KeysApart (es : List (Term × Term)) : Prop := es.Pairwise fun e f => ¬ Reordered e.1 f.1

/-- Maps without equivalent keys are reorderings of each other if each entry of one is an entry of
the other. -/
theorem Reordered.map_map_iff {es fs : List (Term × Term)} (hes : KeysApart es)
    (hfs : KeysApart fs) :
    Reordered (.map es) (.map fs) ↔
      (∀ e ∈ es, ∃ f ∈ fs, Entry e f) ∧ ∀ f ∈ fs, ∃ e ∈ es, Entry e f := by
  constructor
  · intro h
    refine ⟨fun e he => ?_, exists_entry h⟩
    obtain ⟨f, hf, hfe⟩ := exists_entry h.symm e he
    exact ⟨f, hf, hfe.symm⟩
  · rintro ⟨hleft, hright⟩
    have hes' : es.Pairwise fun a b => ∀ f, Entry a f → ¬ Entry b f :=
      hes.imp fun hab f ha hb => hab (.trans ha.1 hb.1.symm)
    have hfs' : fs.Pairwise fun c d => ∀ e, Entry e c → ¬ Entry e d :=
      hfs.imp fun hcd e hc hd => hcd (.trans hc.1.symm hd.1)
    obtain ⟨gs, hperm, hmatch⟩ := exists_perm_of_partners hes' hfs' hleft hright
    exact .trans (.map hmatch) (.permute hperm.symm)

end Eutxo.Term

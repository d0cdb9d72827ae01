import Mathlib.Data.List.Induction
import Mathlib.Data.List.Perm.Subperm
import Eutxo.Json.Basic
import Eutxo.Proofs.Table

/-!
# Members of objects

An object that is built from pairs lists each name once, array indices first in
increasing order, and has under a name the value of the last pair with it.  Pairs
that are listed so already are the members of their object.
-/

namespace Eutxo.Json

variable {α : Type}

/-- The first member may stand before the second: no array index comes behind a name that is none,
or behind a larger one. -/
def InOrder (m n : Text × α) : Prop := ∀ j ∈ index? n.1, ∃ i ∈ index? m.1, i ≤ j

instance (m n : Text × α) : Decidable (InOrder m n) :=
  inferInstanceAs (Decidable (∀ j ∈ index? n.1, ∃ i ∈ index? m.1, i ≤ j))

/-- The members stand as an object lists them: each name once, array indices first and in increasing
order. -/
structure Listed (ms : List (Text × α)) : Prop where
  nodup : (ms.map Prod.fst).Nodup
  inOrder : ms.Pairwise InOrder

instance (ms : List (Text × α)) : Decidable (Listed ms) :=
  decidable_of_iff ((ms.map Prod.fst).Nodup ∧ ms.Pairwise InOrder)
    ⟨fun h => ⟨h.1, h.2⟩, fun h => ⟨h.nodup, h.inOrder⟩⟩

/-- The last of the pairs with a name has this value. -/
def LastOf (pairs : List (Text × α)) (name : Text) (value : α) : Prop :=
  ∃ before after, pairs = before ++ (name, value) :: after ∧ name ∉ after.map Prod.fst

theorem InOrder.trans {l m n : Text × α} (hlm : InOrder l m) (hmn : InOrder m n) :
    InOrder l n := by
  intro k hk
  obtain ⟨j, hj, hjk⟩ := hmn k hk
  obtain ⟨i, hi, hij⟩ := hlm j hj
  exact ⟨i, hi, Nat.le_trans hij hjk⟩

theorem InOrder.of_index_none {m n : Text × α} (h : index? n.1 = none) : InOrder m n := by
  intro j hj
  rw [h] at hj
  cases hj

theorem sizeOf_value_lt [SizeOf α] {ms : List (Text × α)} {m : Text × α} (hm : m ∈ ms) :
    sizeOf m.2 < sizeOf ms := by
  have hlt := List.sizeOf_lt_of_mem hm
  have hpair : sizeOf m = 1 + sizeOf m.1 + sizeOf m.2 := Prod.mk.sizeOf_spec m.1 m.2
  omega

/-! ## Writing pairs -/

theorem upsert_eq_insertEntry (name : Text) (value : α) (ms : List (Text × α)) :
    upsert name value ms = Table.insertEntry name value ms := by
  induction ms with
  | nil => rfl
  | cons m ms ih =>
    rw [upsert, Table.insertEntry, ih]
    split_ifs with hname
    · rw [hname]
    · rfl

/-- The table that is written pair by pair. -/
def tableOfPairs (pairs : List (Text × α)) : Table Text α :=
  pairs.foldl (fun t p => t.insert p.1 p.2) .empty

theorem foldl_upsert (pairs : List (Text × α)) :
    pairs.foldl (fun ms p => upsert p.1 p.2 ms) [] = (tableOfPairs pairs).entries := by
  have hfold (t : Table Text α) : pairs.foldl (fun ms p => upsert p.1 p.2 ms) t.entries =
      (pairs.foldl (fun t p => t.insert p.1 p.2) t).entries := by
    induction pairs generalizing t with
    | nil => rfl
    | cons p pairs ih =>
      rw [List.foldl_cons, List.foldl_cons, upsert_eq_insertEntry]
      exact ih (t.insert p.1 p.2)
  exact hfold .empty

theorem tableOfPairs_concat (pairs : List (Text × α)) (p : Text × α) :
    tableOfPairs (pairs ++ [p]) = (tableOfPairs pairs).insert p.1 p.2 := by
  rw [tableOfPairs, List.foldl_append]
  rfl

theorem lastOf_concat_iff {pairs : List (Text × α)} {p : Text × α} {name : Text} {value : α} :
    LastOf (pairs ++ [p]) name value ↔
      if p.1 = name then p.2 = value else LastOf pairs name value := by
  constructor
  · rintro ⟨before, after, heq, hlast⟩
    rcases List.eq_nil_or_concat' after with rfl | ⟨after, q, rfl⟩
    · obtain ⟨rfl⟩ := List.append_inj_right' heq rfl
      rw [if_pos rfl]
    · rw [← List.cons_append, ← List.append_assoc] at heq
      obtain ⟨hpairs, ⟨rfl⟩⟩ := List.append_inj' heq rfl
      rw [List.map_append, List.mem_append, List.map_singleton, List.mem_singleton, not_or] at hlast
      rw [if_neg (Ne.symm hlast.2)]
      exact ⟨before, after, hpairs, hlast.1⟩
  · split_ifs with hname
    · rintro rfl
      exact ⟨pairs, [], by rw [← hname], List.not_mem_nil⟩
    · rintro ⟨before, after, rfl, hlast⟩
      refine ⟨before, after ++ [p], by simp, ?_⟩
      rw [List.map_append, List.mem_append, List.map_singleton, List.mem_singleton, not_or]
      exact ⟨hlast, Ne.symm hname⟩

/-- Under a name stands the value of the last pair with it. -/
theorem get?_tableOfPairs {pairs : List (Text × α)} {name : Text} {value : α} :
    (tableOfPairs pairs).get? name = some value ↔ LastOf pairs name value := by
  induction pairs using List.reverseRecOn with
  | nil => simp [LastOf, tableOfPairs, Table.get?, Table.empty]
  | append_singleton pairs p ih =>
    rw [tableOfPairs_concat, Table.get?_insert, lastOf_concat_iff]
    split_ifs
    · exact Option.some_inj
    · exact ih

theorem entries_tableOfPairs {pairs : List (Text × α)} (h : (pairs.map Prod.fst).Nodup) :
    (tableOfPairs pairs).entries = pairs := by
  induction pairs using List.reverseRecOn with
  | nil => rfl
  | append_singleton pairs p ih =>
    rw [List.map_append, List.map_singleton, List.nodup_append] at h
    have hpairs := ih h.1
    have hnew : p.1 ∉ (tableOfPairs pairs).entries.map Prod.fst := by
      rw [hpairs]
      exact fun hmem => h.2.2 p.1 hmem p.1 (List.mem_singleton_self p.1) rfl
    rw [tableOfPairs_concat]
    refine (Table.insertEntry_of_notMem hnew).trans ?_
    rw [hpairs]

/-! ## Putting indices first -/

theorem insertIndexed_perm (i : Nat) (m : Text × α) (ms : List (Text × α)) :
    (insertIndexed i m ms).Perm (m :: ms) := by
  induction ms with
  | nil => exact .refl _
  | cons n ms ih =>
    rw [insertIndexed]
    split
    · split_ifs
      · exact .refl _
      · exact (ih.cons n).trans (.swap m n ms)
    · exact .refl _

theorem orderMembers_perm (ms : List (Text × α)) : (orderMembers ms).Perm ms := by
  induction ms with
  | nil => exact .refl _
  | cons m ms ih =>
    rw [orderMembers]
    split
    · exact (insertIndexed_perm _ m _).trans (ih.cons m)
    · refine List.perm_middle.trans (.cons m ?_)
      rw [List.takeWhile_append_dropWhile]
      exact ih

theorem inOrder_insertIndexed {i : Nat} {m : Text × α} (hm : index? m.1 = some i)
    {ms : List (Text × α)} (h : ms.Pairwise InOrder) :
    (insertIndexed i m ms).Pairwise InOrder := by
  have hfront {n : Text × α} {ms : List (Text × α)} (hmn : InOrder m n)
      (h : (n :: ms).Pairwise InOrder) : (m :: n :: ms).Pairwise InOrder := by
    refine List.pairwise_cons.2 ⟨List.forall_mem_cons.2 ⟨hmn, fun l hl => ?_⟩, h⟩
    exact hmn.trans ((List.pairwise_cons.1 h).1 l hl)
  induction ms with
  | nil => exact List.pairwise_singleton _ _
  | cons n ms ih =>
    rw [insertIndexed]
    split
    · next j hj =>
      split_ifs with hle
      · apply hfront _ h
        intro k hk
        rw [hj] at hk
        cases hk
        exact ⟨i, hm, hle⟩
      · obtain ⟨hn, hms⟩ := List.pairwise_cons.1 h
        refine List.pairwise_cons.2 ⟨fun l hl => ?_, ih hms⟩
        rcases List.mem_cons.1 ((insertIndexed_perm i m ms).mem_iff.1 hl) with rfl | hl
        · intro k hk
          rw [hm] at hk
          cases hk
          exact ⟨j, hj, by omega⟩
        · exact hn l hl
    · next hnone => exact hfront (.of_index_none hnone) h

/-- Behind the array indices come names that are none. -/
theorem index?_of_mem_dropWhile {ms : List (Text × α)} (h : ms.Pairwise InOrder) :
    ∀ n ∈ ms.dropWhile (fun n => (index? n.1).isSome), index? n.1 = none := by
  induction ms with
  | nil => exact nofun
  | cons m ms ih =>
    obtain ⟨hm, hms⟩ := List.pairwise_cons.1 h
    rw [List.dropWhile_cons]
    cases hindex : index? m.1 with
    | some i => exact ih hms
    | none =>
      refine List.forall_mem_cons.2 ⟨hindex, fun n hn => ?_⟩
      cases hother : index? n.1 with
      | none => rfl
      | some j =>
        obtain ⟨i, hi, -⟩ := hm n hn j hother
        cases hindex.symm.trans hi

theorem inOrder_orderMembers (ms : List (Text × α)) : (orderMembers ms).Pairwise InOrder := by
  induction ms with
  | nil => exact .nil
  | cons m ms ih =>
    rw [orderMembers]
    split
    · next hm => exact inOrder_insertIndexed hm ih
    · next hm =>
      have hdrop := index?_of_mem_dropWhile ih
      rw [← List.takeWhile_append_dropWhile (p := fun n => (index? n.1).isSome)
        (l := orderMembers ms), List.pairwise_append] at ih
      obtain ⟨htake, hrest, hacross⟩ := ih
      refine List.pairwise_append.2 ⟨htake, List.pairwise_cons.2 ⟨?_, hrest⟩, ?_⟩
      · exact fun n hn => .of_index_none (hdrop n hn)
      · intro l hl
        exact List.forall_mem_cons.2 ⟨.of_index_none hm, hacross l hl⟩

/-- What is in order already keeps its order. -/
theorem orderMembers_eq_self {ms : List (Text × α)} (h : ms.Pairwise InOrder) :
    orderMembers ms = ms := by
  induction ms with
  | nil => rfl
  | cons m ms ih =>
    obtain ⟨hm, hms⟩ := List.pairwise_cons.1 h
    rw [orderMembers, ih hms]
    cases ms with
    | nil => split <;> rfl
    | cons n ms =>
      cases hn : index? n.1 with
      | none => split <;> simp [insertIndexed, hn]
      | some j =>
        obtain ⟨i, hi, hle⟩ := hm n List.mem_cons_self j hn
        simp [Option.mem_def.1 hi, insertIndexed, hn, hle]

/-! ## Building an object -/

theorem listed_membersOfPairs (pairs : List (Text × α)) : Listed (membersOfPairs pairs) := by
  refine ⟨?_, inOrder_orderMembers _⟩
  have hperm := (orderMembers_perm (pairs.foldl (fun ms p => upsert p.1 p.2 ms) [])).map Prod.fst
  rw [membersOfPairs, hperm.nodup_iff, foldl_upsert]
  exact (tableOfPairs pairs).nodup_keys

/-- An object has under a name the value of the last pair with it. -/
theorem mem_membersOfPairs_iff {pairs : List (Text × α)} {name : Text} {value : α} :
    (name, value) ∈ membersOfPairs pairs ↔ LastOf pairs name value := by
  rw [membersOfPairs, (orderMembers_perm _).mem_iff, foldl_upsert, ← Table.get?_eq_some_iff]
  exact get?_tableOfPairs

/-- An object that is built from pairs with different names has all of them. -/
theorem membersOfPairs_perm {pairs : List (Text × α)} (h : (pairs.map Prod.fst).Nodup) :
    (membersOfPairs pairs).Perm pairs := by
  have hperm := orderMembers_perm (pairs.foldl (fun ms p => upsert p.1 p.2 ms) [])
  rw [foldl_upsert, entries_tableOfPairs h] at hperm
  rwa [membersOfPairs, foldl_upsert, entries_tableOfPairs h]

theorem membersOfPairs_eq_self {ms : List (Text × α)} (h : Listed ms) : membersOfPairs ms = ms := by
  rw [membersOfPairs, foldl_upsert, entries_tableOfPairs h.nodup]
  exact orderMembers_eq_self h.inOrder

/-- An object has as many members as it was built from pairs only if no name occurs twice. -/
theorem length_membersOfPairs_iff {pairs : List (Text × α)} :
    (membersOfPairs pairs).length = pairs.length ↔ (pairs.map Prod.fst).Nodup := by
  refine ⟨fun hlength => ?_, fun h => (membersOfPairs_perm h).length_eq⟩
  have hnodup := (listed_membersOfPairs pairs).nodup
  have hsubset : (membersOfPairs pairs).map Prod.fst ⊆ pairs.map Prod.fst := by
    intro name hname
    obtain ⟨m, hm, rfl⟩ := List.mem_map.1 hname
    obtain ⟨before, after, rfl, -⟩ := mem_membersOfPairs_iff.1 hm
    simp
  have hle : (pairs.map Prod.fst).length ≤ ((membersOfPairs pairs).map Prod.fst).length := by
    rw [List.length_map, List.length_map]
    exact Nat.le_of_eq hlength.symm
  have hperm := (List.subperm_of_subset hnodup hsubset).perm_of_length_le hle
  exact hperm.nodup_iff.1 hnodup

/-- What the values are does not matter for how members are listed. -/
theorem Listed.map {β : Type} {ms : List (Text × α)} (h : Listed ms) (f : α → β) :
    Listed (ms.map fun m => (m.1, f m.2)) := by
  constructor
  · rw [List.map_map]
    exact h.nodup
  · exact List.pairwise_map.2 h.inOrder

end Eutxo.Json

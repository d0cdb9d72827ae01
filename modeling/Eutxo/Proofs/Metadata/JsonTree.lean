import Eutxo.Proofs.Cbor.Tree
import Eutxo.Proofs.Json.Members
import Eutxo.Proofs.Metadata.NoSchema

/-!
# JSON without a schema as trees

What metadata is made of when it is taken from JSON, and what it is shown as,
constructor by constructor.
-/

namespace Eutxo

open Traversal

namespace NoSchema

/-! ## Trees -/

@[elab_as_elim, induction_eliminator]
theorem induct {motive : NoSchema → Prop} (text : ∀ t, motive (.text t))
    (number : ∀ n, motive (.number n))
    (list : ∀ items, (∀ j ∈ items, motive j) → motive (.list items))
    (object : ∀ members, (∀ m ∈ members, motive m.2) → motive (.object members)) (j : NoSchema) :
    motive j :=
  match j with
  | .text t => text t
  | .number n => number n
  | .list items => list items fun j _ => induct text number list object j
  | .object members => object members fun m _ => induct text number list object m.2
termination_by sizeOf j
decreasing_by
  · have hlt := List.sizeOf_lt_of_mem ‹_›
    rw [NoSchema.list.sizeOf_spec]
    omega
  · have hlt := Json.sizeOf_value_lt ‹_›
    rw [NoSchema.object.sizeOf_spec]
    omega

instance : Tree NoSchema where
  children
    | .list items => items
    | .object members => members.map Prod.snd
    | _ => []

variable {P : NoSchema → Prop}

theorem everywhere_list_iff {items : List NoSchema} :
    Everywhere P (.list items) ↔ P (.list items) ∧ ∀ j ∈ items, Everywhere P j :=
  ⟨fun h => ⟨h.here, h.children⟩, fun h => .intro h.1 h.2⟩

theorem everywhere_object_iff {members : List (Text × NoSchema)} :
    Everywhere P (.object members) ↔ P (.object members) ∧ ∀ m ∈ members, Everywhere P m.2 :=
  ⟨fun h => ⟨h.here, List.forall_mem_map.1 h.children⟩,
    fun h => .intro h.1 (List.forall_mem_map.2 h.2)⟩

/-- An object lists its members as objects do: each name once, array indices first and in increasing
order. -/
def ListedAt : NoSchema → Prop
  | .object ms => Json.Listed ms
  | _ => True

instance : DecidablePred ListedAt
  | .object ms => inferInstanceAs (Decidable (Json.Listed ms))
  | .text _ | .number _ | .list _ => inferInstanceAs (Decidable True)

/-! ## From JSON -/

/-- The entry is made of the member. -/
def EntryOf (m : Text × NoSchema) (e : Term × Term) : Prop :=
  stringToTerm m.1 = .ok e.1 ∧ toTerm m.2 = .ok e.2

theorem stringToTerm_eq_ok_iff {t : Text} {u : Term} :
    stringToTerm t = .ok u ↔
      (∃ bs, bytesOfText? t = some bs ∧ bs.length ≤ maxMetadatumSize ∧ u = .bytes bs) ∨
        bytesOfText? t = none ∧ t.toUtf8.length ≤ maxMetadatumSize ∧ u = .text t := by
  rw [stringToTerm]
  cases bytesOfText? t with
  | some bs =>
    simp only [Option.some.injEq, exists_eq_left', reduceCtorEq, false_and, or_false]
    split_ifs with hlong
    · exact iff_of_false nofun fun h => Nat.not_lt.2 h.1 hlong
    · simp [Nat.le_of_not_lt hlong, eq_comm]
  | none =>
    simp only [reduceCtorEq, false_and, exists_false, false_or, true_and]
    split_ifs with hlong
    · exact iff_of_false nofun fun h => Nat.not_lt.2 h.1 hlong
    · simp [Nat.le_of_not_lt hlong, eq_comm]

theorem toTerm_number_eq_ok_iff {n : Number} {u : Term} :
    toTerm (.number n) = .ok u ↔ ∃ i, n.safeInteger? = some i ∧ u = .int i := by
  rw [toTerm]
  cases n.safeInteger? with
  | some i => simp [eq_comm]
  | none => simp

theorem itemsToTerms_eq_mapM (js : List NoSchema) : itemsToTerms js = js.mapM toTerm := by
  induction js with
  | nil => rfl
  | cons j js ih => rw [itemsToTerms, List.mapM_cons, ih]

theorem membersToEntries_eq_ok_iff {ms : List (Text × NoSchema)} {es : List (Term × Term)} :
    membersToEntries ms = .ok es ↔ List.Forall₂ EntryOf ms es := by
  induction ms generalizing es with
  | nil => simp [membersToEntries, eq_comm]
  | cons m ms ih =>
    rw [membersToEntries, List.forall₂_cons_left_iff]
    simp only [bind_eq_ok, pure_eq_ok, ih]
    constructor
    · rintro ⟨key, hkey, value, hvalue, es, hes, rfl⟩
      exact ⟨(key, value), es, ⟨hkey, hvalue⟩, hes, rfl⟩
    · rintro ⟨e, es, ⟨hkey, hvalue⟩, hes, rfl⟩
      exact ⟨e.1, hkey, e.2, hvalue, es, hes, rfl⟩

theorem toTerm_list_eq_ok_iff {js : List NoSchema} {u : Term} :
    toTerm (.list js) = .ok u ↔
      ∃ ts, u = .seq ts ∧ List.Forall₂ (fun j t => toTerm j = .ok t) js ts := by
  rw [toTerm, map_eq_ok]
  simp only [itemsToTerms_eq_mapM, mapM_eq_ok]
  exact exists_congr fun ts => and_comm.trans (and_congr_left' eq_comm)

theorem toTerm_object_eq_ok_iff {ms : List (Text × NoSchema)} {u : Term} :
    toTerm (.object ms) = .ok u ↔ ∃ es, u = .map es ∧ List.Forall₂ EntryOf ms es := by
  rw [toTerm, map_eq_ok]
  simp only [membersToEntries_eq_ok_iff]
  exact exists_congr fun es => and_comm.trans (and_congr_left' eq_comm)

/-! ## To JSON -/

/-- The member shows the entry. -/
def MemberOf (e : Term × Term) (m : Text × NoSchema) : Prop :=
  (∃ key, ofTerm e.1 = .ok key ∧ m.1 = memberName key) ∧ ofTerm e.2 = .ok m.2

theorem ofItems_eq_mapM (ts : List Term) : ofItems ts = ts.mapM ofTerm := by
  induction ts with
  | nil => rfl
  | cons t ts ih => rw [ofItems, List.mapM_cons, ih]

theorem ofEntries_eq_ok_iff {es : List (Term × Term)} {ms : List (Text × NoSchema)} :
    ofEntries es = .ok ms ↔ List.Forall₂ MemberOf es ms := by
  induction es generalizing ms with
  | nil => simp [ofEntries, eq_comm]
  | cons e es ih =>
    rw [ofEntries, List.forall₂_cons_left_iff]
    simp only [bind_eq_ok, pure_eq_ok, ih]
    constructor
    · rintro ⟨key, hkey, value, hvalue, ms, hms, rfl⟩
      exact ⟨(memberName key, value), ms, ⟨⟨key, hkey, rfl⟩, hvalue⟩, hms, rfl⟩
    · rintro ⟨⟨name, value⟩, ms, ⟨⟨key, hkey, rfl⟩, hvalue⟩, hms, rfl⟩
      exact ⟨key, hkey, value, hvalue, ms, hms, rfl⟩

theorem ofTerm_seq_eq_ok_iff {ts : List Term} {j : NoSchema} :
    ofTerm (.seq ts) = .ok j ↔
      ∃ js, j = .list js ∧ List.Forall₂ (fun t j => ofTerm t = .ok j) ts js := by
  rw [ofTerm, map_eq_ok]
  simp only [ofItems_eq_mapM, mapM_eq_ok]
  exact exists_congr fun js => and_comm.trans (and_congr_left' eq_comm)

theorem ofTerm_map_eq_ok_iff {es : List (Term × Term)} {j : NoSchema} :
    ofTerm (.map es) = .ok j ↔ ∃ ms, j = ofPairs ms ∧ List.Forall₂ MemberOf es ms := by
  rw [ofTerm, map_eq_ok]
  simp only [ofEntries_eq_ok_iff]
  exact exists_congr fun ms => and_comm.trans (and_congr_left' eq_comm)

end NoSchema

end Eutxo

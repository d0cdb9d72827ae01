import Eutxo.Proofs.Cbor.ValueOrder
import Eutxo.Proofs.Metadata.Auxiliary

/-!
# Auxiliary data as a store of labels

Whatever was put under labels in whatever order, auxiliary data holds under each
label what was put there last.  The labels are listed by increasing number, and
the bytes list the metadata in the same order.
-/

namespace Eutxo.AuxiliaryData

open Cbor Term Traversal

/-! ## Insertions -/

/-- A metadatum can be put under any unsigned label, in use or not. -/
theorem insert_eq_ok_iff {a b : AuxiliaryData} {label : Int} {t : Term} :
    a.insert label t = .ok b ↔ ∃ n : Nat, label = n ∧ Metadatum.problem? t = none ∧
      b.table = (a.table.erase n).insert n t := by
  have hfree (n : Nat) : n ∉ (a.table.erase n).entries.map Prod.fst := by
    rw [← Table.get?_eq_none_iff, Table.get?_erase, if_pos rfl]
  have hlast (n : Nat) : b.entries = (a.table.erase n).entries ++ [(n, t)] ↔
      b.table = (a.table.erase n).insert n t := by
    rw [← Table.insertEntry_of_notMem (hfree n)]
    exact ⟨fun h => Table.eq_of_entries_eq h, congrArg Table.entries⟩
  rw [insert, insertNew_eq_ok_iff]
  refine exists_congr fun n => and_congr_right ?_
  rintro rfl
  rw [← hlast n]
  exact and_iff_right (hfree n)

theorem get?_insert {a b : AuxiliaryData} {label : Int} {t : Term} (h : a.insert label t = .ok b)
    (l : Int) : b.get? l = if l = label then some t else a.get? l := by
  obtain ⟨n, rfl, -, htable⟩ := insert_eq_ok_iff.1 h
  cases l with
  | negSucc m => rfl
  | ofNat m =>
    show b.table.get? m = if (m : Int) = n then some t else a.table.get? m
    rw [htable, Table.get?_insert, Table.get?_erase]
    by_cases hmn : m = n
    · rw [if_pos hmn.symm, if_pos (congrArg Nat.cast hmn)]
    · have hnm : ¬ n = m := fun h => hmn h.symm
      rw [if_neg hnm, if_neg hnm, if_neg (mt Int.natCast_inj.1 hmn)]

/-- The auxiliary data after some insertions, one after the other. -/
def insertAll (a : AuxiliaryData) (calls : List (Int × Term)) : Except Fault AuxiliaryData :=
  calls.foldlM (fun a call => a.insert call.1 call.2) a

theorem insertAll_cons_eq_ok_iff {a b : AuxiliaryData} {call : Int × Term}
    {calls : List (Int × Term)} :
    a.insertAll (call :: calls) = .ok b ↔
      ∃ c, a.insert call.1 call.2 = .ok c ∧ c.insertAll calls = .ok b := by
  rw [insertAll, List.foldlM_cons, bind_eq_ok]
  rfl

/-- Insertions succeed if each is of a metadatum under an unsigned label. -/
theorem exists_insertAll_iff {a : AuxiliaryData} {calls : List (Int × Term)} :
    (∃ b, a.insertAll calls = .ok b) ↔
      ∀ call ∈ calls, 0 ≤ call.1 ∧ Metadatum.problem? call.2 = none := by
  induction calls generalizing a with
  | nil => exact ⟨fun _ => nofun, fun _ => ⟨a, rfl⟩⟩
  | cons call calls ih =>
    rw [List.forall_mem_cons]
    constructor
    · rintro ⟨b, hb⟩
      obtain ⟨c, hc, hrest⟩ := insertAll_cons_eq_ok_iff.1 hb
      obtain ⟨n, hn, hproblem, -⟩ := insert_eq_ok_iff.1 hc
      exact ⟨⟨by omega, hproblem⟩, ih.1 ⟨b, hrest⟩⟩
    · rintro ⟨⟨hlabel, hproblem⟩, hrest⟩
      obtain ⟨n, hn⟩ := Int.eq_ofNat_of_zero_le hlabel
      obtain ⟨c, hc⟩ : ∃ c, a.insert call.1 call.2 = .ok c := by
        refine ⟨⟨(a.table.erase n).insert n call.2, fun e he => ?_⟩,
          insert_eq_ok_iff.2 ⟨n, hn, hproblem, rfl⟩⟩
        rcases Table.mem_insertEntry he with rfl | he
        · exact hproblem
        · exact a.problem?_eq_none e (List.mem_filter.1 he).1
      obtain ⟨b, hb⟩ := ih.2 hrest
      exact ⟨b, insertAll_cons_eq_ok_iff.2 ⟨c, hc, hb⟩⟩

/-- A label holds what the last insertion put there, or else what it held before. -/
theorem get?_insertAll {a b : AuxiliaryData} {calls : List (Int × Term)}
    (h : a.insertAll calls = .ok b) (label : Int) :
    b.get? label = (calls.reverse.lookup label).or (a.get? label) := by
  induction calls generalizing a with
  | nil =>
    cases h
    rfl
  | cons call calls ih =>
    obtain ⟨c, hc, hrest⟩ := insertAll_cons_eq_ok_iff.1 h
    obtain ⟨l, t⟩ := call
    have hcall : ([(l, t)].lookup label).or (a.get? label) = c.get? label := by
      rw [get?_insert hc, List.lookup_cons]
      by_cases hlabel : label = l
      · rw [if_pos hlabel, beq_iff_eq.2 hlabel]
        rfl
      · rw [if_neg hlabel, beq_false_of_ne hlabel]
        rfl
    rw [ih hrest, List.reverse_cons, List.lookup_append, Option.or_assoc, hcall]

theorem nonneg_of_isSome_get? {a : AuxiliaryData} {label : Int}
    (h : (a.get? label).isSome = true) : 0 ≤ label := by
  cases label with
  | ofNat n => exact Int.natCast_nonneg n
  | negSucc n => cases h

/-! ## Labels -/

theorem labels_perm (a : AuxiliaryData) : a.labels.Perm (a.entries.map Prod.fst) :=
  List.mergeSort_perm _ _

/-- The labels are listed by increasing number, each once. -/
theorem pairwise_labels (a : AuxiliaryData) : a.labels.Pairwise (· < ·) := by
  have hsorted : a.labels.Pairwise (· ≤ ·) := by
    have h := @List.pairwise_mergeSort Nat (fun m n => decide (m ≤ n))
      (fun l m n hlm hmn => by simp only [decide_eq_true_eq] at *; omega)
      (fun m n => by simp only [Bool.or_eq_true, decide_eq_true_eq]; omega) a.table.keys
    exact h.imp of_decide_eq_true
  have hnodup : a.labels.Nodup := a.labels_perm.nodup_iff.2 a.nodup_labels
  exact hsorted.and hnodup |>.imp fun h => Nat.lt_of_le_of_ne h.1 h.2

theorem mem_labels_iff {a : AuxiliaryData} {n : Nat} :
    n ∈ a.labels ↔ (a.get? n).isSome = true :=
  a.labels_perm.mem_iff.trans Table.mem_keys_iff

theorem length_labels (a : AuxiliaryData) : a.labels.length = a.size :=
  a.labels_perm.length_eq.trans (List.length_map Prod.fst)

/-! ## Bytes -/

/-- What is under the labels tells the bytes. -/
theorem toCbor_of_get?_eq {a b : AuxiliaryData} (h : ∀ label, a.get? label = b.get? label)
    {bs : Bytes} (ha : Codec.toCbor a = .ok bs) : Codec.toCbor b = .ok bs := by
  refine encode_of_reordered (reordered_iff_same.2 fun label => ?_) ha
  rw [h label]
  cases b.get? label with
  | none => exact .none
  | some t => exact .some (.refl t)

theorem hash_of_toCbor {a : AuxiliaryData} {bs : Bytes} (h : Codec.toCbor a = .ok bs) :
    a.hash = .ok (.hash bs) := by
  rw [hash, h]
  rfl

/-- The bytes list the metadata in the order of the labels. -/
theorem exists_spelled_by_labels {a : AuxiliaryData} {bs : Bytes} (h : Codec.toCbor a = .ok bs) :
    ∃ es, a.entries.Perm es ∧ es.map Prod.fst = a.labels ∧
      SpellsEntries (es.map fun e => (.int e.1, e.2)) bs := by
  have hlists : ListsBy (fun e : Nat × Term => (.int e.1, e.2)) (fun d e => d.1 < e.1)
      a.entries bs := by
    refine listsBy_of_encodedBefore (fun d e hde => ?_) h
    exact Int.ofNat_lt.1 (hde.lt (Int.natCast_nonneg _) (Int.natCast_nonneg _))
  obtain ⟨es, hperm, hspells, hpairs⟩ := hlists
  refine ⟨es, hperm, ?_, hspells⟩
  exact List.Perm.eq_of_pairwise (fun m n _ _ hmn hnm => absurd hmn (Nat.lt_asymm hnm))
    (List.pairwise_map.2 hpairs) a.pairwise_labels
    ((hperm.symm.map Prod.fst).trans a.labels_perm.symm)

/-- Insertions make auxiliary data a store of labels: a label holds what was put there last, the
labels are distinct, unsigned and listed by increasing number, and what is under them tells the
bytes and the hash, however it came there.  The bytes list the metadata in the order of the
labels. -/
theorem stores_last_insertions {a b : AuxiliaryData} {calls : List (Int × Term)}
    (h : a.insertAll calls = .ok b) :
    (b.entries.map Prod.fst).Nodup ∧
    (∀ label, (b.get? label).isSome = true → 0 ≤ label) ∧
    (∀ label, b.get? label = (calls.reverse.lookup label).or (a.get? label)) ∧
    b.labels.Pairwise (· < ·) ∧
    (∀ n : Nat, n ∈ b.labels ↔ (b.get? n).isSome = true) ∧
    b.labels.length = b.size ∧
    (∀ b' : AuxiliaryData, (∀ label, b.get? label = b'.get? label) →
      ∀ bs, Codec.toCbor b = .ok bs →
        Codec.toCbor b' = .ok bs ∧ b.hash = .ok (.hash bs) ∧ b'.hash = .ok (.hash bs)) ∧
    ∀ bs, Codec.toCbor b = .ok bs →
      ∃ es, b.entries.Perm es ∧ es.map Prod.fst = b.labels ∧
        SpellsEntries (es.map fun e => (.int e.1, e.2)) bs := by
  refine ⟨b.nodup_labels, fun _ => nonneg_of_isSome_get?, get?_insertAll h, b.pairwise_labels,
    fun _ => mem_labels_iff, b.length_labels, ?_, fun _ => exists_spelled_by_labels⟩
  intro b' hsame bs hbs
  have hbs' := toCbor_of_get?_eq hsame hbs
  exact ⟨hbs', hash_of_toCbor hbs, hash_of_toCbor hbs'⟩

/-- A message under a label beyond `2 ^ 64`, and one that is replaced. -/
def messages : List (Int × Term) :=
  [(2 ^ 64, .text "far"), (24, .text "old"), (23, .int (-1)), (24, .text "new")]

theorem stores_last_insertions_messages : ∃ b, empty.insertAll messages = .ok b ∧
    b.get? 24 = some (.text "new") ∧ b.get? 25 = none ∧ b.labels.length = b.size ∧
    ∀ bs, Codec.toCbor b = .ok bs → ∃ es, b.entries.Perm es ∧ es.map Prod.fst = b.labels ∧
      SpellsEntries (es.map fun e => (.int e.1, e.2)) bs := by
  obtain ⟨b, hb⟩ := exists_insertAll_iff.2 (show ∀ call ∈ messages, _ by decide)
  obtain ⟨-, -, hget, -, -, hlength, -, hspells⟩ := stores_last_insertions hb
  exact ⟨b, hb, hget 24, hget 25, hlength, hspells⟩

end Eutxo.AuxiliaryData

import Eutxo.Metadata.Auxiliary
import Eutxo.Proofs.Ledger.Exact
import Eutxo.Proofs.Ledger.Readback

/-!
# Auxiliary data is read back

The constructor and the decoder of auxiliary data ask the same of metadata, and
what they ask does not depend on the order of map entries.  What one accepted
the other reads back.
-/

namespace Eutxo

open Traversal Term

/-! ## Metadata -/

namespace Metadatum

/-- A node of a metadatum: an integer, a short string, a sequence or a map. -/
def NodeAt : Term → Prop
  | .bytes bs => bs.length ≤ maxMetadatumSize
  | .text t => t.toUtf8.length ≤ maxMetadatumSize
  | .int _ | .seq _ | .map _ => True
  | .bool _ | .null | .tag _ _ => False

theorem NodeAt.of_alike (t u : Term) (halike : Alike t u) (h : NodeAt t) : NodeAt u := by
  cases t <;> cases u <;> simp_all [Alike, NodeAt]

theorem itemsProblem?_eq_none_iff {ts : List Term} :
    itemsProblem? ts = none ↔ ∀ t ∈ ts, problem? t = none := by
  induction ts with
  | nil => simp [itemsProblem?]
  | cons t ts ih => simp [itemsProblem?, ih]

theorem entriesProblem?_eq_none_iff {es : List (Term × Term)} :
    entriesProblem? es = none ↔ ∀ e ∈ es, problem? e.1 = none ∧ problem? e.2 = none := by
  induction es with
  | nil => simp [entriesProblem?]
  | cons e es ih => simp [entriesProblem?, ih]

/-- A term without a problem is one whose nodes all belong in a metadatum. -/
theorem problem?_eq_none_iff {t : Term} : problem? t = none ↔ Everywhere NodeAt t := by
  induction t with
  | seq ts ih =>
    rw [problem?, itemsProblem?_eq_none_iff, Term.everywhere_seq_iff]
    exact (forall₂_congr ih).trans (and_iff_right trivial).symm
  | map es ih =>
    rw [problem?, entriesProblem?_eq_none_iff, Term.everywhere_map_iff]
    have hentries : (∀ e ∈ es, problem? e.1 = none ∧ problem? e.2 = none) ↔
        ∀ e ∈ es, Everywhere NodeAt e.1 ∧ Everywhere NodeAt e.2 :=
      forall₂_congr fun e he => and_congr (ih e he).1 (ih e he).2
    exact hentries.trans (and_iff_right trivial).symm
  | tag number content ih => exact iff_of_false nofun fun h => h.here
  | bool b => exact iff_of_false nofun fun h => h.here
  | null => exact iff_of_false nofun fun h => h.here
  | _ =>
    rw [Everywhere.iff_of_leaf rfl]
    simp [problem?, NodeAt]

/-- What is a metadatum stays one when map entries are listed in another order. -/
theorem problem?_of_reordered {t u : Term} (h : Reordered t u) (ht : problem? t = none) :
    problem? u = none :=
  problem?_eq_none_iff.2 (h.everywhere NodeAt.of_alike (problem?_eq_none_iff.1 ht))

end Metadatum

namespace AuxiliaryData

/-! ## Content -/

/-- The metadata under each label are the same up to the order of map entries. -/
def Same (a b : AuxiliaryData) : Prop :=
  ∀ label, Option.Rel Reordered (a.get? label) (b.get? label)

theorem label_eq_of_reordered (m n : Nat) (h : Reordered (.int m) (.int n)) : m = n :=
  Int.ofNat.inj (Reordered.int_int_iff.1 h)

theorem reordered_iff_same {a b : AuxiliaryData} :
    Reordered (Codec.toTerm a) (Codec.toTerm b) ↔ a.Same b := by
  refine (Table.reordered_iff id label_eq_of_reordered).trans ?_
  constructor
  · intro h label
    cases label with
    | ofNat n => exact h n
    | negSucc n => exact .none
  · exact fun h n => h n

theorem eq_of_entries {a b : AuxiliaryData} (h : a.entries = b.entries) : a = b := by
  obtain ⟨⟨entries, _⟩, _⟩ := a
  obtain ⟨⟨entries', _⟩, _⟩ := b
  cases h
  rfl

/-! ## Building -/

theorem nodup_labels (a : AuxiliaryData) : (a.entries.map Prod.fst).Nodup := a.table.nodup_keys

theorem keysApart (a : AuxiliaryData) : KeysApart (a.entries.map fun e => (.int e.1, e.2)) :=
  (a.table.lists id label_eq_of_reordered).apart

/-- A condition that holds of integers holds of all nodes of auxiliary data if it holds of the map
of labels and of all nodes of metadata. -/
theorem everywhere_toTerm_iff {P : Term → Prop} (hint : ∀ n, P (.int n)) {a : AuxiliaryData} :
    Everywhere P a.toTerm ↔ P a.toTerm ∧ ∀ e ∈ a.entries, Everywhere P e.2 := by
  rw [toTerm, Term.everywhere_map_iff, List.forall_mem_map]
  exact and_congr_right fun _ => forall₂_congr fun e _ => and_iff_right (.leaf (hint e.1) rfl)

/-- The first labels of auxiliary data are labels of auxiliary data by themselves. -/
theorem exists_initial {a : AuxiliaryData} {es fs : List (Nat × Term)}
    (h : a.entries = es ++ fs) : ∃ b : AuxiliaryData, b.entries = es := by
  have hkeys := a.nodup_labels
  rw [h, List.map_append] at hkeys
  refine ⟨⟨⟨es, (List.nodup_append.1 hkeys).1⟩, fun e he => ?_⟩, rfl⟩
  apply a.problem?_eq_none e
  show e ∈ a.entries
  rw [h]
  exact List.mem_append_left fs he

/-- A metadatum can be put under a label that is not in use, and then stands last. -/
theorem insertNew_eq_ok_iff {a b : AuxiliaryData} {label : Int} {t : Term} :
    a.insertNew label t = .ok b ↔
      ∃ n : Nat, label = n ∧ n ∉ a.entries.map Prod.fst ∧ Metadatum.problem? t = none ∧
        b.entries = a.entries ++ [(n, t)] := by
  constructor
  · intro h
    cases label with
    | negSucc n => cases h
    | ofNat n =>
      simp only [insertNew] at h
      split_ifs at h with hpresent
      split at h
      · cases h
      · next hproblem =>
        cases h
        have hnew : n ∉ a.entries.map Prod.fst :=
          fun hmem => hpresent (Table.isSome_get?_iff.2 hmem)
        exact ⟨n, rfl, hnew, hproblem, Table.insertEntry_of_notMem hnew⟩
  · rintro ⟨n, rfl, hnew, hproblem, hentries⟩
    have habsent : ¬ (a.table.get? n).isSome = true :=
      fun hsome => hnew (Table.isSome_get?_iff.1 hsome)
    simp only [insertNew, if_neg habsent]
    split
    · next problem hsome =>
      rw [hproblem] at hsome
      cases hsome
    · refine congrArg Except.ok (eq_of_entries ?_)
      rw [hentries]
      exact Table.insertEntry_of_notMem hnew

/-- A label and a metadatum as they are given to the constructor. -/
def given (e : Nat × Term) : Int × Term := (e.1, e.2)

theorem given_injective : Function.Injective given := by
  intro e f h
  injection h with hlabel hmetadatum
  exact Prod.ext (Int.ofNat.inj hlabel) hmetadatum

theorem foldlM_eq_ok_iff {es : List (Int × Term)} {a b : AuxiliaryData} :
    es.foldlM (fun a e => a.insertNew e.1 e.2) a = .ok b ↔
      b.entries.map given = a.entries.map given ++ es := by
  induction es generalizing a with
  | nil =>
    rw [List.foldlM_nil, pure_eq_ok, List.append_nil,
      (List.map_injective_iff.2 given_injective).eq_iff]
    exact ⟨fun h => h ▸ rfl, fun h => (eq_of_entries h).symm⟩
  | cons e es ih =>
    rw [List.foldlM_cons, bind_eq_ok]
    simp only [ih, insertNew_eq_ok_iff]
    constructor
    · rintro ⟨c, ⟨n, hlabel, -, -, hentries⟩, hrest⟩
      rw [hrest, hentries, List.map_append, List.append_assoc]
      exact congrArg (_ ++ · :: es) (Prod.ext hlabel.symm rfl)
    · intro h
      obtain ⟨xs, ys, hb, hxs, hys⟩ := List.map_eq_append_iff.1 h
      obtain ⟨⟨n, t⟩, ys, rfl, rfl, hrest⟩ := List.map_eq_cons_iff.1 hys
      have hfirst : xs = a.entries := List.map_injective_iff.2 given_injective hxs
      subst hfirst
      have hbegins : b.entries = (a.entries ++ [(n, t)]) ++ ys := by
        rw [hb, List.append_assoc, List.singleton_append]
      obtain ⟨c, hc⟩ := exists_initial hbegins
      have hnew : n ∉ a.entries.map Prod.fst := by
        have hkeys := c.nodup_labels
        rw [hc, List.map_append, List.nodup_append] at hkeys
        exact fun hmem => hkeys.2.2 n hmem n List.mem_cons_self rfl
      have hlast : (n, t) ∈ c.entries := by
        rw [hc]
        exact List.mem_append_right _ List.mem_cons_self
      refine ⟨c, ⟨n, rfl, hnew, c.problem?_eq_none (n, t) hlast, hc⟩, ?_⟩
      rw [hbegins, hc, List.map_append, hrest]

/-- The constructor accepts exactly the lists that auxiliary data can have. -/
theorem ofEntries_eq_ok_iff {es : List (Int × Term)} {a : AuxiliaryData} :
    ofEntries es = .ok a ↔ a.entries.map given = es :=
  foldlM_eq_ok_iff

/-! ## Reading -/

/-- The term of an entry, as it is given to the constructor. -/
def termOfGiven (e : Int × Term) : Term × Term := (.int e.1, e.2)

theorem toTerm_eq_map_given (a : AuxiliaryData) :
    a.toTerm = .map ((a.entries.map given).map termOfGiven) := by
  rw [List.map_map]
  rfl

/-- Reads the entry at a position of a map. -/
def readEntry (path : Path) : (Term × Term) × Nat → Except Fault (Int × Term)
  | ((k, v), i) => do
    let label ← k.asUnsigned (.keyAt path i)
    match Metadatum.problem? v with
    | some problem => throw (.decode (.entry path (Text.ofNat label)) (.metadatum problem))
    | none => return ((label : Int), v)

theorem ofTerm_map (path : Path) (es : List (Term × Term)) :
    ofTerm path (.map es) = (es.zipIdx.mapM (readEntry path) >>= ofEntries) := rfl

theorem readEntry_eq_ok {path : Path} {x : (Term × Term) × Nat} {e : Int × Term}
    (h : readEntry path x = .ok e) : termOfGiven e = x.1 := by
  obtain ⟨label, hlabel, hmatch⟩ := bind_eq_ok.1 h
  split at hmatch
  · cases hmatch
  · cases hmatch
    exact Prod.ext (asUnsigned_eq_ok_iff.1 hlabel).symm rfl

theorem readEntry_given (path : Path) {a : AuxiliaryData} {e : Nat × Term} (he : e ∈ a.entries)
    (i : Nat) : readEntry path (termOfGiven (given e), i) = .ok (given e) := by
  have hproblem := a.problem?_eq_none e he
  have hlabel : (Term.int e.1).asUnsigned (.keyAt path i) = .ok e.1 := rfl
  simp only [readEntry, termOfGiven, given, hlabel, ok_bind, hproblem]
  rfl

/-- Auxiliary data is read from the term that it is written as, and from no other. -/
theorem ofTerm_eq_ok_iff {path : Path} {t : Term} {a : AuxiliaryData} :
    ofTerm path t = .ok a ↔ t = a.toTerm := by
  constructor
  · intro h
    obtain ⟨es, hes, hrest⟩ := bind_eq_ok.1 h
    obtain ⟨entries, hentries, hof⟩ := bind_eq_ok.1 hrest
    have hmap : entries.map termOfGiven = es.zipIdx.map Prod.fst :=
      map_eq_of_forall₂ ((mapM_eq_ok.1 hentries).imp fun _ _ => readEntry_eq_ok)
    rw [asMap_eq_ok_iff.1 hes, toTerm_eq_map_given, ofEntries_eq_ok_iff.1 hof, hmap,
      List.zipIdx_map_fst]
  · rintro rfl
    have hstep : ∀ x ∈ ((a.entries.map given).map termOfGiven).zipIdx,
        ∃ e, readEntry path x = .ok e ∧ termOfGiven e = x.1 := by
      rintro ⟨t, i⟩ hx
      obtain ⟨g, hg, rfl⟩ := List.mem_map.1 (List.fst_mem_of_mem_zipIdx hx)
      obtain ⟨e, he, rfl⟩ := List.mem_map.1 hg
      exact ⟨given e, readEntry_given path he i, rfl⟩
    obtain ⟨entries, hentries, hmatch⟩ := exists_mapM hstep
    have hmap := map_eq_of_forall₂ hmatch
    have hinjective : Function.Injective termOfGiven := by
      intro e f h
      injection h with hlabel hmetadatum
      exact Prod.ext (Term.int.inj hlabel) hmetadatum
    rw [List.zipIdx_map_fst] at hmap
    rw [toTerm_eq_map_given, ofTerm_map, hentries, ok_bind, ofEntries_eq_ok_iff]
    exact (List.map_injective_iff.2 hinjective hmap).symm

instance : Codec.Exact AuxiliaryData where
  toTerm_eq h := (ofTerm_eq_ok_iff.1 h).symm

/-- A map from different labels to metadata is the term of auxiliary data. -/
theorem exists_toTerm_eq_map {es : List (Term × Term)} (hkeys : (es.map Prod.fst).Nodup)
    (hes : ∀ e ∈ es, (∃ n : Nat, e.1 = .int n) ∧ Metadatum.problem? e.2 = none) :
    ∃ a : AuxiliaryData, a.toTerm = .map es := by
  have hentry : ∀ e ∈ es, ∃ f : Nat × Term, (.int f.1, f.2) = e ∧
      Metadatum.problem? f.2 = none := by
    rintro ⟨k, v⟩ he
    obtain ⟨⟨n, hn⟩, hproblem⟩ := hes _ he
    exact ⟨(n, v), Prod.ext hn.symm rfl, hproblem⟩
  obtain ⟨fs, hfs⟩ := exists_forall₂ hentry
  have hmap : fs.map (fun f => (Term.int f.1, f.2)) = es :=
    (map_eq_of_forall₂ (f := id) (hfs.imp fun _ _ hf => hf.1)).trans (List.map_id es)
  have hlabels : (fs.map Prod.fst).Nodup := by
    rw [← hmap, List.map_map] at hkeys
    exact .of_map (fun n : Nat => Term.int n) (by rwa [List.map_map])
  have hproblems : ∀ f ∈ fs, Metadatum.problem? f.2 = none := by
    intro f hf
    obtain ⟨e, -, -, hproblem⟩ := exists_mem_of_forall₂ hfs f hf
    exact hproblem
  exact ⟨⟨⟨fs, hlabels⟩, hproblems⟩, congrArg Term.map hmap⟩

/-- A reordering of the term of auxiliary data is the term of auxiliary data. -/
theorem exists_toTerm_eq {a : AuxiliaryData} {t : Term} (h : Reordered a.toTerm t) :
    ∃ b : AuxiliaryData, b.toTerm = t := by
  obtain ⟨fs, rfl, hfs⟩ := Reordered.exists_entries h
  have hapart : KeysApart fs := h.keysApart a.keysApart
  have hkeys : (fs.map Prod.fst).Nodup := KeysApart.nodup_keys id id (by simpa using hapart)
  refine exists_toTerm_eq_map hkeys fun f hf => ?_
  obtain ⟨g, hg, hkey, hvalue⟩ := hfs f hf
  obtain ⟨e, he, rfl⟩ := List.mem_map.1 hg
  exact ⟨⟨e.1, Reordered.int_left_iff.1 hkey⟩,
    Metadatum.problem?_of_reordered hvalue (a.problem?_eq_none e he)⟩

instance : Codec.Readable AuxiliaryData where
  exists_ofTerm path {a t} h := by
    obtain ⟨b, hb⟩ := exists_toTerm_eq h
    exact ⟨b, ofTerm_eq_ok_iff.2 hb.symm, hb⟩

end AuxiliaryData

end Eutxo

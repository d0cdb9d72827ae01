import Mathlib.Data.List.Pairwise
import Mathlib.Data.List.Perm.Basic
import Mathlib.Data.List.Sort
import Eutxo.Cbor.Canonical
import Eutxo.Proofs.Bytes.Order
import Eutxo.Proofs.Cbor.Reordering
import Eutxo.Proofs.Traversal

/-!
# The order of keys

The canonical form of a term is its one reordering whose maps list their keys
in strictly ascending order of their encodings.  So terms that differ only in
the order of map entries have one encoding.
-/

namespace Eutxo.Cbor

open Traversal

/-! ## Sorting keyed entries -/

/-- The order in which keyed entries are sorted. -/
def KeyedEntry.AtMost (e f : KeyedEntry) : Prop := Bytes.le e.keyBytes f.keyBytes = true

/-- The order in which sorted entries must stand. -/
def KeyedEntry.Before (e f : KeyedEntry) : Prop := Bytes.cmp e.keyBytes f.keyBytes = .lt

instance : DecidableRel KeyedEntry.AtMost :=
  fun e f => inferInstanceAs (Decidable (Bytes.le e.keyBytes f.keyBytes = true))

instance : Std.Total KeyedEntry.AtMost := ⟨fun e f => Bytes.le_total e.keyBytes f.keyBytes⟩

instance : IsTrans KeyedEntry KeyedEntry.AtMost := ⟨fun _ _ _ => Bytes.le_trans⟩

theorem insertByKey_eq_orderedInsert (e : KeyedEntry) (fs : List KeyedEntry) :
    insertByKey e fs = fs.orderedInsert KeyedEntry.AtMost e := by
  induction fs with
  | nil => rfl
  | cons f fs ih =>
    rw [insertByKey, List.orderedInsert_cons, ih]
    rfl

theorem sortByKey_eq_insertionSort (es : List KeyedEntry) :
    sortByKey es = es.insertionSort KeyedEntry.AtMost := by
  induction es with
  | nil => rfl
  | cons e es ih => rw [sortByKey, insertByKey_eq_orderedInsert, ih, List.insertionSort_cons]

theorem sortByKey_perm (es : List KeyedEntry) : (sortByKey es).Perm es := by
  rw [sortByKey_eq_insertionSort]
  exact List.perm_insertionSort _ es

theorem pairwise_sortByKey (es : List KeyedEntry) :
    (sortByKey es).Pairwise KeyedEntry.AtMost := by
  rw [sortByKey_eq_insertionSort]
  exact List.pairwise_insertionSort _ es

/-- Among sorted entries equal keys are neighbours. -/
theorem repeatedKey?_eq_none_iff {es : List KeyedEntry} (hsorted : es.Pairwise KeyedEntry.AtMost) :
    repeatedKey? es = none ↔ es.Pairwise KeyedEntry.Before := by
  induction es with
  | nil => simp [repeatedKey?]
  | cons e es ih =>
    obtain ⟨hhead, htail⟩ := List.pairwise_cons.1 hsorted
    cases es with
    | nil => simp [repeatedKey?]
    | cons f fs =>
      rw [repeatedKey?, List.pairwise_cons]
      by_cases hsame : e.keyBytes = f.keyBytes
      · have hnot : ¬ e.Before f := fun hbefore => (Bytes.cmp_eq_lt_iff.1 hbefore).2 hsame
        simp [hsame, hnot]
      · rw [if_neg hsame, ih htail]
        refine ⟨fun hstrict => ⟨?_, hstrict⟩, And.right⟩
        intro g hg
        rcases List.mem_cons.1 hg with rfl | hg
        · exact Bytes.cmp_eq_lt_iff.2 ⟨hhead g List.mem_cons_self, hsame⟩
        · -- Beyond the neighbour the keys are larger still.
          have hfg : f.Before g := List.rel_of_pairwise_cons hstrict hg
          have hef : e.Before f :=
            Bytes.cmp_eq_lt_iff.2 ⟨hhead f List.mem_cons_self, hsame⟩
          exact Std.TransCmp.lt_trans hef hfg

/-- A strictly ascending list is the sorted form of each of its permutations. -/
theorem sortByKey_eq_of_perm {es fs : List KeyedEntry} (hperm : es.Perm fs)
    (hstrict : fs.Pairwise KeyedEntry.Before) : sortByKey es = fs := by
  have hfs : fs.Pairwise KeyedEntry.AtMost :=
    hstrict.imp fun hbefore => (Bytes.cmp_eq_lt_iff.1 hbefore).1
  refine List.Perm.eq_of_pairwise ?_ (pairwise_sortByKey es) hfs ((sortByKey_perm es).trans hperm)
  intro a b ha hb hab hba
  have hmem : a ∈ fs := hperm.mem_iff.1 ((sortByKey_perm es).mem_iff.1 ha)
  have hbytes : a.keyBytes = b.keyBytes := Bytes.eq_of_le_of_le hab hba
  have hdistinct : fs.Pairwise fun f g => f.keyBytes ≠ g.keyBytes :=
    hstrict.imp fun hbefore => (Bytes.cmp_eq_lt_iff.1 hbefore).2
  have : Std.Symm fun f g : KeyedEntry => f.keyBytes ≠ g.keyBytes := ⟨fun _ _ => Ne.symm⟩
  by_contra hne
  exact hdistinct.forall hmem hb hne hbytes

/-! ## Success of the canonical form -/

theorem canonicalItems_eq_mapM (ts : List Term) : canonicalItems ts = ts.mapM canonical := by
  induction ts with
  | nil => rfl
  | cons t ts ih =>
    rw [canonicalItems, List.mapM_cons, ih]

/-- An entry on its way into canonical order. -/
def keyed (e : Term × Term) : Except Fault KeyedEntry := do
  let key ← canonical e.1
  let keyBytes ← writeTerm key
  return ⟨keyBytes, key, canonical e.2⟩

theorem keyedEntries_eq_mapM (es : List (Term × Term)) : keyedEntries es = es.mapM keyed := by
  induction es with
  | nil => rfl
  | cons e es ih =>
    obtain ⟨k, v⟩ := e
    rw [keyedEntries, List.mapM_cons, ih, keyed]
    simp only [bind_assoc, pure_bind]

theorem keyed_eq_ok_iff {e : Term × Term} {k : KeyedEntry} :
    keyed e = .ok k ↔
      canonical e.1 = .ok k.key ∧ writeTerm k.key = .ok k.keyBytes ∧ canonical e.2 = k.value := by
  rw [keyed, bind_eq_ok]
  constructor
  · rintro ⟨key, hkey, hrest⟩
    obtain ⟨keyBytes, hbytes, hpure⟩ := bind_eq_ok.1 hrest
    cases pure_eq_ok.1 hpure
    exact ⟨hkey, hbytes, rfl⟩
  · rintro ⟨hkey, hbytes, hvalue⟩
    refine ⟨k.key, hkey, bind_eq_ok.2 ⟨k.keyBytes, hbytes, ?_⟩⟩
    rw [pure_eq_ok, hvalue]

/-- The entry `f` is the entry `e` in canonical form, and its key can be written. -/
def CanonicalEntry (e f : Term × Term) : Prop :=
  canonical e.1 = .ok f.1 ∧ (∃ bs, writeTerm f.1 = .ok bs) ∧ canonical e.2 = .ok f.2

/-- The key of `e` is written with smaller bytes than the key of `f`. -/
def WrittenBefore (e f : Term × Term) : Prop :=
  ∃ a b, writeTerm e.1 = .ok a ∧ writeTerm f.1 = .ok b ∧ Bytes.cmp a b = .lt

/-- The keyed entry is on its way to the entry `f`. -/
def KeyedEntry.Yields (k : KeyedEntry) (f : Term × Term) : Prop :=
  writeTerm f.1 = .ok k.keyBytes ∧ k.key = f.1 ∧ k.value = .ok f.2

theorem KeyedEntry.Yields.writtenBefore {k l : KeyedEntry} {f g : Term × Term} (hk : k.Yields f)
    (hl : l.Yields g) (h : k.Before l) : WrittenBefore f g :=
  ⟨k.keyBytes, l.keyBytes, hk.1, hl.1, h⟩

theorem KeyedEntry.Yields.before {k l : KeyedEntry} {f g : Term × Term} (hk : k.Yields f)
    (hl : l.Yields g) (h : WrittenBefore f g) : k.Before l := by
  obtain ⟨a, b, ha, hb, hlt⟩ := h
  cases ha.symm.trans hk.1
  cases hb.symm.trans hl.1
  exact hlt

theorem mapOfSorted_eq_ok_iff {ks : List KeyedEntry} {u : Term} :
    mapOfSorted ks = .ok u ↔ repeatedKey? ks = none ∧
      ∃ fs, List.Forall₂ (fun k f => k.key = f.1 ∧ k.value = .ok f.2) ks fs ∧ u = .map fs := by
  have hvalue (k : KeyedEntry) (f : Term × Term) :
      (k.key, ·) <$> k.value = .ok f ↔ k.key = f.1 ∧ k.value = .ok f.2 := by
    rw [map_eq_ok]
    constructor
    · rintro ⟨v, hv, rfl⟩
      exact ⟨rfl, hv⟩
    · rintro ⟨hkey, hv⟩
      exact ⟨f.2, hv, by rw [hkey]⟩
  rw [mapOfSorted]
  cases repeatedKey? ks with
  | some key => simp
  | none =>
    simp only [map_eq_ok, mapM_eq_ok, hvalue, true_and, eq_comm (a := u)]

theorem canonical_seq_eq_ok_iff {ts : List Term} {u : Term} :
    canonical (.seq ts) = .ok u ↔
      ∃ us, List.Forall₂ (fun t u => canonical t = .ok u) ts us ∧ u = .seq us := by
  rw [canonical, canonicalItems_eq_mapM, map_eq_ok]
  simp only [mapM_eq_ok, eq_comm (a := u)]

theorem canonical_tag_eq_ok_iff {number : Nat} {content u : Term} :
    canonical (.tag number content) = .ok u ↔
      ∃ c, canonical content = .ok c ∧ u = .tag number c := by
  rw [canonical, map_eq_ok]
  simp only [eq_comm (a := u)]

theorem exists_yields {es gs : List (Term × Term)} (hgs : List.Forall₂ CanonicalEntry es gs) :
    ∃ ks, List.Forall₂ (fun g k => KeyedEntry.Yields k g) gs ks := by
  apply exists_forall₂
  intro g hg
  obtain ⟨e, -, -, ⟨bs, hbs⟩, -⟩ := exists_mem_of_forall₂ hgs g hg
  exact ⟨⟨bs, g.1, .ok g.2⟩, hbs, rfl, rfl⟩

/-- The canonical form of a map lists the canonical forms of its entries in strictly ascending
order. -/
theorem canonical_map_eq_ok_iff {es : List (Term × Term)} {u : Term} :
    canonical (.map es) = .ok u ↔ ∃ gs fs, List.Forall₂ CanonicalEntry es gs ∧ gs.Perm fs ∧
      fs.Pairwise WrittenBefore ∧ u = .map fs := by
  rw [canonical, keyedEntries_eq_mapM, bind_eq_ok]
  constructor
  · rintro ⟨ks, hks, hmap⟩
    obtain ⟨hrepeats, fs, hfs, rfl⟩ := mapOfSorted_eq_ok_iff.1 hmap
    have hkeyed := mapM_eq_ok.1 hks
    have hwritten : ∀ k ∈ sortByKey ks, writeTerm k.key = .ok k.keyBytes := by
      intro k hk
      obtain ⟨e, -, he⟩ :=
        exists_mem_of_forall₂ hkeyed k ((sortByKey_perm ks).mem_iff.1 hk)
      exact (keyed_eq_ok_iff.1 he).2.1
    have hyields : List.Forall₂ KeyedEntry.Yields (sortByKey ks) fs :=
      ((List.forall₂_and_left _ _).2 ⟨hwritten, hfs⟩).imp fun k f h => ⟨h.2.1 ▸ h.1, h.2⟩
    obtain ⟨gs, hgs, hperm⟩ := List.perm_comp_forall₂ (sortByKey_perm ks).symm hyields
    refine ⟨gs, fs, ?_, hperm, ?_, rfl⟩
    · refine forall₂_comp ?_ hkeyed hgs
      rintro e k g hek ⟨hbytes, hkey, hvalue⟩
      obtain ⟨hcanonical, -, hrest⟩ := keyed_eq_ok_iff.1 hek
      exact ⟨hkey ▸ hcanonical, ⟨k.keyBytes, hbytes⟩, hrest.trans hvalue⟩
    · have hstrict := (repeatedKey?_eq_none_iff (pairwise_sortByKey ks)).1 hrepeats
      exact pairwise_of_forall₂ (fun _ _ _ _ hk hl h => hk.writtenBefore hl h) hyields hstrict
  · rintro ⟨gs, fs, hgs, hperm, hstrict, rfl⟩
    obtain ⟨ks, hks⟩ := exists_yields hgs
    obtain ⟨ls, hls, hlsks⟩ := List.perm_comp_forall₂ hperm.symm hks
    have hlsstrict : ls.Pairwise KeyedEntry.Before :=
      pairwise_of_forall₂ (fun _ _ _ _ hk hl h => hk.before hl h) hls hstrict
    refine ⟨ks, ?_, ?_⟩
    · rw [mapM_eq_ok]
      refine forall₂_comp ?_ hgs hks
      rintro e f k ⟨hcanonical, -, hvalue⟩ ⟨hbytes, hkey, hok⟩
      rw [keyed_eq_ok_iff, hkey, hok]
      exact ⟨hcanonical, hbytes, hvalue⟩
    · rw [sortByKey_eq_of_perm hlsks.symm hlsstrict, mapOfSorted_eq_ok_iff]
      have hrepeats := (repeatedKey?_eq_none_iff
        (hlsstrict.imp fun h => (Bytes.cmp_eq_lt_iff.1 h).1)).2 hlsstrict
      exact ⟨hrepeats, fs, hls.flip.imp fun k f h => h.2, rfl⟩

theorem encode_eq_ok_iff {t : Term} {bs : Bytes} :
    encode t = .ok bs ↔ ∃ u, canonical t = .ok u ∧ writeTerm u = .ok bs := by
  rw [encode, bind_eq_ok]

/-! ## The one ascending reordering -/

/-- Each key of a map has an encoding, smaller than those of the keys behind it. -/
def AscendingAt : Term → Prop
  | .map entries => (∀ e ∈ entries, ∃ bs, encode e.1 = .ok bs) ∧
    entries.Pairwise fun e f =>
      ∃ a b, encode e.1 = .ok a ∧ encode f.1 = .ok b ∧ Bytes.cmp a b = .lt
  | _ => True

/-- The encoded keys ascend in every map of a term. -/
def Ascending (t : Term) : Prop := Everywhere AscendingAt t

/-- A term whose keys ascend is its own canonical form. -/
theorem canonical_of_ascending {t : Term} (h : Ascending t) : canonical t = .ok t := by
  induction t with
  | seq ts ih =>
    obtain ⟨-, hts⟩ := Term.everywhere_seq_iff.1 h
    refine canonical_seq_eq_ok_iff.2 ⟨ts, ?_, rfl⟩
    exact List.forall₂_same.2 fun t ht => ih t ht (hts t ht)
  | map es ih =>
    obtain ⟨⟨hkeys, hpairs⟩, hes⟩ := Term.everywhere_map_iff.1 h
    have hkey : ∀ e ∈ es, ∀ bs, encode e.1 = .ok bs → writeTerm e.1 = .ok bs := by
      intro e he bs hbs
      obtain ⟨u, hu, hwrite⟩ := encode_eq_ok_iff.1 hbs
      rw [(ih e he).1 (hes e he).1] at hu
      cases hu
      exact hwrite
    refine canonical_map_eq_ok_iff.2 ⟨es, es, ?_, .refl es, ?_, rfl⟩
    · refine List.forall₂_same.2 fun e he => ?_
      obtain ⟨bs, hbs⟩ := hkeys e he
      exact ⟨(ih e he).1 (hes e he).1, ⟨bs, hkey e he bs hbs⟩, (ih e he).2 (hes e he).2⟩
    · apply hpairs.imp_of_mem
      rintro e f he hf ⟨a, b, ha, hb, hlt⟩
      exact ⟨a, b, hkey e he a ha, hkey f hf b hb, hlt⟩
  | tag number content ih =>
    obtain ⟨-, hcontent⟩ := Term.everywhere_tag_iff.1 h
    exact canonical_tag_eq_ok_iff.2 ⟨content, ih hcontent, rfl⟩
  | _ => rfl

theorem encode_of_ascending {t : Term} (h : Ascending t) : encode t = writeTerm t := by
  rw [encode, canonical_of_ascending h, ok_bind]

theorem ascending_map_of_writtenBefore {es : List (Term × Term)}
    (hes : ∀ e ∈ es, Ascending e.1 ∧ Ascending e.2)
    (hkeys : ∀ e ∈ es, ∃ bs, writeTerm e.1 = .ok bs) (hpairs : es.Pairwise WrittenBefore) :
    Ascending (.map es) := by
  have hencode : ∀ e ∈ es, encode e.1 = writeTerm e.1 :=
    fun e he => encode_of_ascending (hes e he).1
  refine Term.everywhere_map_iff.2 ⟨⟨?_, ?_⟩, hes⟩
  · intro e he
    rw [hencode e he]
    exact hkeys e he
  · apply hpairs.imp_of_mem
    rintro e f he hf ⟨a, b, ha, hb, hlt⟩
    exact ⟨a, b, (hencode e he).trans ha, (hencode f hf).trans hb, hlt⟩

/-- The canonical form is a reordering whose keys ascend. -/
theorem reordered_of_canonical {t u : Term} (h : canonical t = .ok u) :
    Term.Reordered t u ∧ Ascending u := by
  induction t generalizing u with
  | seq ts ih =>
    obtain ⟨us, hus, rfl⟩ := canonical_seq_eq_ok_iff.1 h
    have hboth := (List.forall₂_and_left _ _).2 ⟨fun t (ht : t ∈ ts) => ht, hus⟩
    refine ⟨.seq (hboth.imp fun t u htu => (ih t htu.1 htu.2).1), ?_⟩
    refine Term.everywhere_seq_iff.2 ⟨trivial, fun u hu => ?_⟩
    obtain ⟨t, ht, htu⟩ := exists_mem_of_forall₂ hus u hu
    exact (ih t ht htu).2
  | map es ih =>
    obtain ⟨gs, fs, hgs, hperm, hpairs, rfl⟩ := canonical_map_eq_ok_iff.1 h
    have hboth := (List.forall₂_and_left _ _).2 ⟨fun e (he : e ∈ es) => he, hgs⟩
    have hentries : Term.Reordered (.map es) (.map gs) := by
      refine .map (hboth.imp ?_)
      rintro e g ⟨he, hkey, -, hvalue⟩
      exact ⟨((ih e he).1 hkey).1, ((ih e he).2 hvalue).1⟩
    refine ⟨.trans hentries (.permute hperm), ascending_map_of_writtenBefore ?_ ?_ hpairs⟩
    · intro f hf
      obtain ⟨e, he, hkey, -, hvalue⟩ := exists_mem_of_forall₂ hgs f (hperm.mem_iff.2 hf)
      exact ⟨((ih e he).1 hkey).2, ((ih e he).2 hvalue).2⟩
    · intro f hf
      obtain ⟨e, he, -, hbytes, -⟩ := exists_mem_of_forall₂ hgs f (hperm.mem_iff.2 hf)
      exact hbytes
  | tag number content ih =>
    obtain ⟨c, hc, rfl⟩ := canonical_tag_eq_ok_iff.1 h
    obtain ⟨hreordered, hascending⟩ := ih hc
    exact ⟨.tag number hreordered, Term.everywhere_tag_iff.2 ⟨trivial, hascending⟩⟩
  | _ =>
    cases h
    exact ⟨.refl _, .leaf trivial rfl⟩

/-- Terms that differ only in the order of map entries have one canonical form. -/
theorem canonical_of_reordered {t t' u : Term} (h : Term.Reordered t t')
    (hu : canonical t = .ok u) : canonical t' = .ok u := by
  induction h generalizing u with
  | refl t => exact hu
  | trans _ _ ihtu ihuv => exact ihuv (ihtu hu)
  | permute hperm =>
    obtain ⟨gs, fs, hgs, hgsfs, hpairs, rfl⟩ := canonical_map_eq_ok_iff.1 hu
    obtain ⟨gs', hgs', hperm'⟩ := List.perm_comp_forall₂ hperm.symm hgs
    exact canonical_map_eq_ok_iff.2 ⟨gs', fs, hgs', hperm'.trans hgsfs, hpairs, rfl⟩
  | item before after _ ih =>
    obtain ⟨us, hus, rfl⟩ := canonical_seq_eq_ok_iff.1 hu
    exact canonical_seq_eq_ok_iff.2 ⟨us, forall₂_replace (fun _ => ih) hus, rfl⟩
  | entry before after _ _ ihkey ihvalue =>
    obtain ⟨gs, fs, hgs, hgsfs, hpairs, rfl⟩ := canonical_map_eq_ok_iff.1 hu
    refine canonical_map_eq_ok_iff.2 ⟨gs, fs, forall₂_replace ?_ hgs, hgsfs, hpairs, rfl⟩
    rintro g ⟨hkey, hwrite, hvalue⟩
    exact ⟨ihkey hkey, hwrite, ihvalue hvalue⟩
  | tag number _ ih =>
    obtain ⟨c, hc, rfl⟩ := canonical_tag_eq_ok_iff.1 hu
    exact canonical_tag_eq_ok_iff.2 ⟨c, ih hc, rfl⟩

/-- The canonical form is the one reordering whose keys ascend. -/
theorem canonical_eq_ok_iff {t u : Term} :
    canonical t = .ok u ↔ Term.Reordered t u ∧ Ascending u := by
  refine ⟨reordered_of_canonical, ?_⟩
  rintro ⟨hreordered, hascending⟩
  exact canonical_of_reordered hreordered.symm (canonical_of_ascending hascending)

theorem encode_of_reordered {t t' : Term} (h : Term.Reordered t t') {bs : Bytes}
    (hbs : encode t = .ok bs) : encode t' = .ok bs := by
  obtain ⟨u, hu, hwrite⟩ := encode_eq_ok_iff.1 hbs
  exact encode_eq_ok_iff.2 ⟨u, canonical_of_reordered h hu, hwrite⟩

end Eutxo.Cbor

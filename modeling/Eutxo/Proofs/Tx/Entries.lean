import Mathlib.Data.List.Nodup
import Mathlib.Data.List.Perm.Basic
import Eutxo.Tx.FieldSet
import Eutxo.Proofs.Ledger.Nodes

/-!
# Entries of keyed maps

Bodies and witness sets are maps from field keys to contents.  What is true of
both is shown here once: which entry the last one of a field is, what the record
of marks says, and when two such maps have the same content.
-/

namespace Eutxo

open Traversal Term

/-- The fields of a keyed map, each with a key of its own. -/
class FieldKey (φ : Type) where
  key : φ → Nat
  key_injective : ∀ f g, key f = key g → f = g

/-- The entries of a keyed map: each is of a field, has a content, and may be a list that is marked
as a set. -/
class FieldEntry (ε : Type) (φ : outParam Type) [FieldKey φ] where
  field : ε → φ
  content : ε → Term
  isTagged : ε → Bool

namespace FieldEntry

open FieldKey (key key_injective)

variable {ε φ : Type} [FieldKey φ] [FieldEntry ε φ] {entries : List ε}

/-- The key and the content of an entry as terms. -/
def toTerms (e : ε) : Term × Term := (.int (key (field e)), content e)

/-- The term of a list of entries. -/
def termOf (entries : List ε) : Term := .map (entries.map toTerms)

/-- The fields whose entries are marked. -/
def marksOf (entries : List ε) : FieldSet :=
  .ofList ((entries.filter isTagged).map fun e => .integer (key (field e)))

/-- No two entries are of one field. -/
def Unrepeated (entries : List ε) : Prop := (entries.map field).Nodup

/-- The keys of fields tell the fields. -/
theorem key_eq_of_reordered {f g : φ} (h : Reordered (.int (key f)) (.int (key g))) : f = g :=
  key_injective _ _ (Int.ofNat.inj (Reordered.int_int_iff.1 h))

theorem unrepeated_iff_keysApart : Unrepeated entries ↔ KeysApart (entries.map toTerms) := by
  rw [Unrepeated, KeysApart, List.pairwise_map, List.Nodup, List.pairwise_map]
  have hkey : ∀ d e : ε, field d = field e ↔ Reordered (toTerms d).1 (toTerms e).1 := by
    intro d e
    refine ⟨fun h => ?_, key_eq_of_reordered⟩
    rw [toTerms, toTerms, h]
    exact .refl _
  simp only [ne_eq, hkey]

theorem Unrepeated.eq (h : Unrepeated entries) {d e : ε} (hd : d ∈ entries) (he : e ∈ entries)
    (hfield : field d = field e) : d = e :=
  List.inj_on_of_nodup_map h hd he hfield

/-! ## The last entry of a field -/

theorem exists_lastOf {α : Type} (content? : ε → Option α) {e : ε} (he : e ∈ entries)
    (hsome : (content? e).isSome = true) : ∃ a, lastOf content? entries = some a := by
  apply Option.isSome_iff_exists.1
  rw [lastOf, List.isSome_findSome?]
  exact List.any_eq_true.2 ⟨e, List.mem_reverse.2 he, hsome⟩

theorem lastOf_eq_some_iff {α : Type} (h : Unrepeated entries) {content? : ε → Option α}
    {f : φ} (hcontent : ∀ e a, content? e = some a → field e = f) {a : α} :
    lastOf content? entries = some a ↔ ∃ e ∈ entries, content? e = some a := by
  constructor
  · intro hlast
    obtain ⟨e, he, hea⟩ := List.exists_of_findSome?_eq_some hlast
    exact ⟨e, List.mem_reverse.1 he, hea⟩
  · rintro ⟨e, he, hea⟩
    cases hlast : lastOf content? entries with
    | none =>
      have hnone := List.findSome?_eq_none_iff.1 hlast e (List.mem_reverse.2 he)
      rw [hea] at hnone
      cases hnone
    | some b =>
      obtain ⟨d, hd, hdb⟩ := List.exists_of_findSome?_eq_some hlast
      have hfield : field d = field e := (hcontent d b hdb).trans (hcontent e a hea).symm
      rw [h.eq (List.mem_reverse.1 hd) he hfield, hea] at hdb
      exact hdb.symm

/-- The last entry of a field is the only one. -/
theorem map_lastOf_eq_some_iff {α : Type} (h : Unrepeated entries) {content? : ε → Option α}
    {o : Option α} (ho : lastOf content? entries = o) (mk : α → ε) {f : φ}
    (hfield : ∀ a, field (mk a) = f) (hmk : ∀ e a, content? e = some a ↔ e = mk a) {a : α} :
    o.map mk = some (mk a) ↔ mk a ∈ entries := by
  have hcontent : ∀ e a, content? e = some a → field e = f := by
    intro e a hea
    rw [(hmk e a).1 hea, hfield]
  have hlast : ∀ a, lastOf content? entries = some a ↔ mk a ∈ entries := by
    intro a
    simp only [lastOf_eq_some_iff h hcontent, hmk, exists_eq_right]
  rw [← ho, Option.map_eq_some_iff]
  constructor
  · rintro ⟨b, hb, hsame⟩
    exact hsame ▸ (hlast b).1 hb
  · intro hmem
    exact ⟨a, (hlast a).2 hmem, rfl⟩

/-! ## Marks -/

theorem mem_marksOf {n : Number} :
    n ∈ (marksOf entries).keys ↔
      ∃ e ∈ entries, isTagged e = true ∧ n = .integer (key (field e)) := by
  have hplain : ∀ e : ε, Number.withoutZeroSign (.integer (key (field e))) =
      .integer (key (field e)) := fun _ => rfl
  show n ∈ firstOccurrences _ ↔ _
  rw [mem_firstOccurrences, List.map_map, List.mem_map]
  simp only [List.mem_filter, Function.comp_apply, hplain, and_assoc, eq_comm]

/-- A field is recorded as marked exactly if its entry is. -/
theorem contains_marksOf (h : Unrepeated entries) {e : ε} (he : e ∈ entries) :
    (marksOf entries).contains (key (field e)) = isTagged e := by
  rw [Bool.eq_iff_iff, FieldSet.contains, List.contains_iff_mem, mem_marksOf]
  constructor
  · rintro ⟨d, hd, htagged, hkey⟩
    injection hkey with hkey
    have hfield := key_injective _ _ (Int.ofNat.inj hkey)
    rw [h.eq he hd hfield, htagged]
  · intro htagged
    exact ⟨e, he, htagged, rfl⟩

/-- The last list of a field is the only one, with its mark. -/
theorem map_lastOf_marked_iff {α : Type} (h : Unrepeated entries)
    {content? : ε → Option (List α)} {o : Option (List α)} (ho : lastOf content? entries = o)
    (mk : Term.SetLike α → ε) {f : φ} (hfield : ∀ s, field (mk s) = f)
    (htagged : ∀ s, isTagged (mk s) = s.tagged)
    (hmk : ∀ e items, content? e = some items ↔ ∃ s, e = mk s ∧ s.items = items)
    {s : Term.SetLike α} :
    (o.map fun items => mk ⟨items, (marksOf entries).contains (key f)⟩) = some (mk s) ↔
      mk s ∈ entries := by
  have hcontent : ∀ e items, content? e = some items → field e = f := by
    intro e items he
    obtain ⟨s, rfl, -⟩ := (hmk e items).1 he
    exact hfield s
  have hmark : ∀ {s}, mk s ∈ entries → ⟨s.items, (marksOf entries).contains (key f)⟩ = s := by
    intro s hs
    have hcontains := contains_marksOf h hs
    rw [hfield, htagged] at hcontains
    rw [hcontains]
  rw [← ho, Option.map_eq_some_iff]
  constructor
  · rintro ⟨items, hlast, hsame⟩
    obtain ⟨e, he, hitems⟩ := (lastOf_eq_some_iff h hcontent).1 hlast
    obtain ⟨r, rfl, rfl⟩ := (hmk e items).1 hitems
    rw [hmark he] at hsame
    exact hsame ▸ he
  · intro hs
    refine ⟨s.items, (lastOf_eq_some_iff h hcontent).2 ⟨mk s, hs, ?_⟩, congrArg mk (hmark hs)⟩
    exact (hmk (mk s) s.items).2 ⟨s, rfl, rfl⟩

/-- A record of marks that has of another just the keys of some fields. -/
def RestrictsTo (s t : FieldSet) (has : φ → Prop) : Prop :=
  ∀ n, n ∈ t.keys ↔ n ∈ s.keys ∧ ∃ f, has f ∧ n = .integer (key f)

theorem restrictsTo_of_contains {s t : FieldSet} {has : φ → Prop}
    (honly : ∀ n ∈ t.keys, ∃ f, has f ∧ n = .integer (key f))
    (hsame : ∀ f, has f → s.contains (key f) = t.contains (key f)) : RestrictsTo s t has := by
  have hmem {f : φ} (hf : has f) :
      Number.integer (key f) ∈ t.keys ↔ Number.integer (key f) ∈ s.keys := by
    rw [← List.contains_iff_mem, ← List.contains_iff_mem]
    exact iff_of_eq (congrArg (· = true) (hsame f hf).symm)
  intro n
  constructor
  · intro hn
    obtain ⟨f, hf, rfl⟩ := honly n hn
    exact ⟨(hmem hf).1 hn, f, hf, rfl⟩
  · rintro ⟨hn, f, hf, rfl⟩
    exact (hmem hf).2 hn

/-! ## What the entries are -/

/-- Optional entries of one field, in front of those of other fields. -/
theorem sublist_of_option {α : Type} (o : Option α) {mk : α → ε} {f : φ}
    (hfield : ∀ a, field (mk a) = f) {es : List ε} {fs : List φ}
    (h : (es.map field).Sublist fs) : ((o.toList.map mk ++ es).map field).Sublist (f :: fs) := by
  cases o with
  | none => exact h.cons f
  | some a =>
    rw [Option.toList_some, List.map_singleton, List.singleton_append, List.map_cons, hfield]
    exact h.cons_cons f

/-- The entries are those that are given for the fields. -/
structure Listed (entryOf? : φ → Option ε) (entries : List ε) : Prop where
  unrepeated : Unrepeated entries
  mem_iff : ∀ e, e ∈ entries ↔ entryOf? (field e) = some e
  field_eq : ∀ f e, entryOf? f = some e → field e = f

variable {entryOf? entry'? : φ → Option ε} {entries' : List ε}

theorem Unrepeated.perm (h : Unrepeated entries) (h' : Unrepeated entries')
    (hmem : ∀ e, e ∈ entries' ↔ e ∈ entries) : entries.Perm entries' :=
  (List.perm_ext_iff_of_nodup (.of_map _ h) (.of_map _ h')).2 fun e => (hmem e).symm

theorem Listed.lists (h : Listed entryOf? entries) :
    Lists (fun f : φ => .int (key f)) (fun f => (entryOf? f).map content)
      (entries.map toTerms) where
  apart := unrepeated_iff_keysApart.1 h.unrepeated
  mem_iff f t := by
    rw [List.mem_map, Option.map_eq_some_iff]
    constructor
    · rintro ⟨e, he, hpair⟩
      obtain ⟨hkey, hcontent⟩ := Prod.ext_iff.1 hpair
      have hfield : field e = f := key_injective _ _ (Int.ofNat.inj (Term.int.inj hkey))
      exact ⟨e, hfield ▸ (h.mem_iff e).1 he, hcontent⟩
    · rintro ⟨e, he, rfl⟩
      have hfield := h.field_eq f e he
      exact ⟨e, (h.mem_iff e).2 (hfield.symm ▸ he), by rw [toTerms, hfield]⟩
  exists_key t ht := by
    obtain ⟨e, -, rfl⟩ := List.mem_map.1 ht
    exact ⟨field e, rfl⟩

/-- Keyed maps are reorderings of each other exactly if the contents of each field are. -/
theorem Listed.reordered_iff (h : Listed entryOf? entries) (h' : Listed entry'? entries') :
    Reordered (termOf entries) (termOf entries') ↔
      ∀ f, Option.Rel (fun d e => Reordered (content d) (content e)) (entryOf? f) (entry'? f) := by
  refine (h.lists.reordered_iff (fun _ _ => key_eq_of_reordered) h'.lists).trans ?_
  simp only [optionRel_map_iff]

/-- Entries that are read one by one make up the term that they are read from. -/
theorem exists_entries (read : Term × Term → Except Fault ε) (h : Unrepeated entries)
    (hread : ∀ e ∈ entries, ∀ t, Reordered (content e) t →
      ∃ d, read (.int (key (field e)), t) = .ok d ∧ field d = field e ∧ content d = t)
    {t : Term} (ht : Reordered (termOf entries) t) :
    ∃ fs ds, t = .map fs ∧ fs.mapM read = .ok ds ∧ Unrepeated ds ∧ termOf ds = t ∧
      ∀ e ∈ entries, ∃ d ∈ ds, field d = field e := by
  obtain ⟨fs, rfl, hfs⟩ := Reordered.exists_entries ht
  have hstep : ∀ f ∈ fs, ∃ d, read f = .ok d ∧ toTerms d = f := by
    rintro ⟨k, v⟩ hf
    obtain ⟨g, hg, hkey, hvalue⟩ := hfs _ hf
    obtain ⟨e, he, rfl⟩ := List.mem_map.1 hg
    have hk : k = .int (key (field e)) := Reordered.int_left_iff.1 hkey
    obtain ⟨d, hd, hfield, hcontent⟩ := hread e he v hvalue
    exact ⟨d, hk ▸ hd, by rw [toTerms, hfield, hcontent, hk]⟩
  obtain ⟨ds, hds, hmatch⟩ := exists_mapM hstep
  have hmap : ds.map toTerms = fs := (map_eq_of_forall₂ (f := id) hmatch).trans (List.map_id fs)
  have hterm : termOf ds = .map fs := congrArg Term.map hmap
  have hunrepeated : Unrepeated ds :=
    unrepeated_iff_keysApart.2 (hmap ▸ Reordered.keysApart ht (unrepeated_iff_keysApart.1 h))
  refine ⟨fs, ds, rfl, hds, hunrepeated, hterm, fun e he => ?_⟩
  obtain ⟨t, ht', hentry⟩ := Reordered.exists_entry (hterm ▸ ht.symm) _ (List.mem_map_of_mem he)
  obtain ⟨d, hd, rfl⟩ := List.mem_map.1 ht'
  exact ⟨d, hd, key_eq_of_reordered hentry.1⟩

/-- Entries read from a map no two keys of which are encoded alike are of different fields. -/
theorem unrepeated_of_read {read : Term × Term → Except Fault ε} {es : List (Term × Term)}
    (hread : es.mapM read = .ok entries)
    (hkey : ∀ {t e}, read t = .ok e → t.1 = .int (key (field e)))
    (hdistinct : Cbor.DistinctAt (.map es)) : Unrepeated entries := by
  refine List.pairwise_map.2 (pairwise_of_forall₂ ?_ (mapM_eq_ok.1 hread) hdistinct)
  intro t u d e hd he hencode hfield
  apply hencode
  rw [hkey hd, hkey he, hfield]

theorem everywhere_termOf {P : Term → Prop} (hP : LedgerNodes P) (h : Unrepeated entries)
    (hcontent : ∀ e ∈ entries, Everywhere P (content e)) : Everywhere P (termOf entries) := by
  refine Term.everywhere_map_iff.2 ⟨hP.map _ (unrepeated_iff_keysApart.1 h), ?_⟩
  intro t ht
  obtain ⟨e, he, rfl⟩ := List.mem_map.1 ht
  exact ⟨hP.everywhere_int _, hcontent e he⟩

end FieldEntry

end Eutxo

import Eutxo.Proofs.Cbor.CanonicalInput

/-!
# One encoding for each meaning

A term is encoded exactly if its sizes and tags fit in heads and no map has two
keys that say the same.  Two terms share an encoding exactly if they differ only
in the order of map entries, so comparing encodings compares meanings.
-/

namespace Eutxo.Cbor

open Traversal Term

/-! ## The item of a term tells the term -/

/-- Only integers are spelled by the items of integers. -/
theorem Item.eq_int_of_ofTerm_eq {u : Term} (hu : DecodedAt u) {n : Int}
    (h : ofTerm u = ofInt n) : u = .int n := by
  cases u with
  | int m =>
    have hterm : (ofInt m).term = (ofInt n).term := congrArg term h
    rw [term_ofInt, term_ofInt] at hterm
    exact hterm
  | tag number content =>
    cases n with
    | ofNat n =>
      rw [ofTerm, ofInt] at h
      split_ifs at h
      injection h with hnumber
      exact absurd hnumber hu.1
    | negSucc n =>
      rw [ofTerm, ofInt] at h
      split_ifs at h
      injection h with hnumber
      exact absurd hnumber hu.2
  | _ =>
    cases n with
    | ofNat n =>
      rw [ofTerm, ofInt] at h
      split_ifs at h
    | negSucc n =>
      rw [ofTerm, ofInt] at h
      split_ifs at h

theorem toUtf8_injective {s t : Text} (hs : s.WellFormed) (ht : t.WellFormed)
    (h : s.toUtf8 = t.toUtf8) : s = t := by
  rw [← Text.ofUtf8_toUtf8 hs, h, Text.ofUtf8_toUtf8 ht]

theorem map_injective_on {α β : Type} {f : α → β} {xs ys : List α}
    (hinj : ∀ x ∈ xs, ∀ y ∈ ys, f x = f y → x = y) (h : xs.map f = ys.map f) : xs = ys := by
  induction xs generalizing ys with
  | nil => exact (List.map_eq_nil_iff.1 h.symm).symm
  | cons x xs ih =>
    cases ys with
    | nil => cases h
    | cons y ys =>
      injection h with hhead htail
      have hxy := hinj x List.mem_cons_self y List.mem_cons_self hhead
      have hrest := ih (fun a ha b hb =>
        hinj a (List.mem_cons_of_mem x ha) b (List.mem_cons_of_mem y hb)) htail
      rw [hxy, hrest]

/-- Terms with well-formed texts and without bignum tags are told by their items. -/
theorem Item.ofTerm_injective {t u : Term} (ht : Everywhere DecodedAt t)
    (hu : Everywhere DecodedAt u) (h : ofTerm t = ofTerm u) : t = u := by
  induction t generalizing u with
  | int n => exact (eq_int_of_ofTerm_eq hu.here h.symm).symm
  | text s =>
    cases u with
    | int n => exact eq_int_of_ofTerm_eq ht.here h
    | text s' =>
      injection h with hbytes
      exact congrArg Term.text (toUtf8_injective ht.here hu.here hbytes)
    | _ => cases h
  | seq ts ih =>
    cases u with
    | int n => exact eq_int_of_ofTerm_eq ht.here h
    | seq us =>
      obtain ⟨-, hts⟩ := Term.everywhere_seq_iff.1 ht
      obtain ⟨-, hus⟩ := Term.everywhere_seq_iff.1 hu
      injection h with hitems
      rw [ofItems_eq_map, ofItems_eq_map] at hitems
      apply congrArg Term.seq
      exact map_injective_on (fun t ht u hu => ih t ht (hts t ht) (hus u hu)) hitems
    | _ => cases h
  | map es ih =>
    cases u with
    | int n => exact eq_int_of_ofTerm_eq ht.here h
    | map fs =>
      obtain ⟨-, hes⟩ := Term.everywhere_map_iff.1 ht
      obtain ⟨-, hfs⟩ := Term.everywhere_map_iff.1 hu
      injection h with hentries
      rw [ofEntries_eq_map, ofEntries_eq_map] at hentries
      apply congrArg Term.map
      refine map_injective_on (fun e he f hf hef => ?_) hentries
      injection hef with hkey hvalue
      exact Prod.ext ((ih e he).1 (hes e he).1 (hfs f hf).1 hkey)
        ((ih e he).2 (hes e he).2 (hfs f hf).2 hvalue)
    | _ => cases h
  | tag number content ih =>
    cases u with
    | int n => exact eq_int_of_ofTerm_eq ht.here h
    | tag number' content' =>
      obtain ⟨-, hcontent⟩ := Term.everywhere_tag_iff.1 ht
      obtain ⟨-, hcontent'⟩ := Term.everywhere_tag_iff.1 hu
      injection h with hnumber hbelow
      rw [hnumber, ih hcontent hcontent' hbelow]
    | _ => cases h
  | _ =>
    cases u with
    | int n => exact eq_int_of_ofTerm_eq ht.here h
    | _ =>
      cases h
      try rfl

/-- Terms that share an encoding differ only in the order of map entries. -/
theorem reordered_of_encode {t u : Term} (ht : Everywhere DecodedAt t)
    (hu : Everywhere DecodedAt u) {bs : Bytes} (htbs : encode t = .ok bs)
    (hubs : encode u = .ok bs) : Reordered t u := by
  obtain ⟨t', ht', htwrite⟩ := encode_eq_ok_iff.1 htbs
  obtain ⟨u', hu', huwrite⟩ := encode_eq_ok_iff.1 hubs
  have htt' := (reordered_of_canonical ht').1
  have huu' := (reordered_of_canonical hu').1
  have hitem : Item.ofTerm t' = Item.ofTerm u' :=
    Item.eq_of_write?_eq (Item.plain_ofTerm t') (Item.plain_ofTerm u')
      (writeTerm_eq_ok_iff.1 htwrite) (writeTerm_eq_ok_iff.1 huwrite)
  have hsame : t' = u' :=
    Item.ofTerm_injective (htt'.everywhere DecodedAt.of_alike ht)
      (huu'.everywhere DecodedAt.of_alike hu) hitem
  rw [← hsame] at huu'
  exact .trans htt' huu'.symm

/-- Two encodings are equal exactly if the terms differ only in the order of map entries. -/
theorem encode_eq_iff {t u : Term} (ht : Everywhere DecodedAt t) (hu : Everywhere DecodedAt u)
    {a b : Bytes} (ha : encode t = .ok a) (hb : encode u = .ok b) : a = b ↔ Reordered t u := by
  constructor
  · rintro rfl
    exact reordered_of_encode ht hu ha hb
  · intro h
    rw [encode_of_reordered h ha] at hb
    exact Except.ok.inj hb

/-! ## When a term is encoded -/

theorem Item.exists_write?_of_mem {xs : List Item} {bs : Bytes} (h : writeItems? xs = some bs)
    {x : Item} (hx : x ∈ xs) : ∃ a, x.write? = some a ∧ a <:+: bs := by
  induction xs generalizing bs with
  | nil => cases hx
  | cons y ys ih =>
    obtain ⟨a, b, ha, hb, rfl⟩ := writeItems?_cons_eq_some_iff.1 h
    rcases List.mem_cons.1 hx with rfl | hx
    · exact ⟨a, ha, (List.prefix_append a b).isInfix⟩
    · obtain ⟨c, hc, hwithin⟩ := ih hb hx
      exact ⟨c, hc, hwithin.trans (List.suffix_append a b).isInfix⟩

/-- What is written has no argument that is too large for a head. -/
theorem Item.headOf_le_of_write? {x : Item} (hx : Plain x) {bs : Bytes}
    (h : x.write? = some bs) : Everywhere (fun y => y.headOf.2 ≤ maxArgument) x := by
  induction hx generalizing bs with
  | @intro x here children ih =>
    obtain ⟨a, b, ha, hb, -⟩ := write?_eq_some_iff.1 h
    obtain ⟨head, hhead, -⟩ := (opening?_eq_some_iff here).1 ha
    refine .intro ?_ fun y hy => ?_
    · have hlt := Head.lt_of_write? hhead
      rw [maxArgument]
      omega
    · obtain ⟨c, hc, -⟩ := exists_write?_of_mem hb hy
      exact ih y hy hc

/-- The largest argument of a head, if lengths are at most `limit`. -/
def Major.bound (limit : Nat) : Major → Nat
  | .bytes => limit
  | .text => limit
  | .array => limit
  | .map => limit
  | _ => maxArgument

/-- The argument of the head of an item is within bounds. -/
def Item.HeadWithin (limit : Nat) (x : Item) : Prop := x.headOf.2 ≤ x.headOf.1.bound limit

theorem Item.headWithin_iff {x : Item} : x.HeadWithin maxArgument ↔ x.headOf.2 ≤ maxArgument := by
  have hbound (major : Major) : major.bound maxArgument = maxArgument := by cases major <;> rfl
  rw [HeadWithin, hbound]

theorem Item.length_le_of_writeItems? {xs : List Item} {bs : Bytes}
    (h : writeItems? xs = some bs) : xs.length ≤ bs.length := by
  induction xs generalizing bs with
  | nil => exact Nat.zero_le _
  | cons x xs ih =>
    obtain ⟨a, b, ha, hb, rfl⟩ := writeItems?_cons_eq_some_iff.1 h
    have hpos := length_pos_of_write? ha
    have hle := ih hb
    rw [List.length_cons, List.length_append]
    omega

/-- An item is within bounds if it is written within them. -/
theorem Item.headWithin_of_write? {x : Item} (hx : Plain x) {bs : Bytes} {limit : Nat}
    (h : x.write? = some bs) (hlimit : bs.length ≤ limit) : Everywhere (HeadWithin limit) x := by
  induction hx generalizing bs with
  | @intro x here children ih =>
    obtain ⟨a, b, ha, hb, rfl⟩ := write?_eq_some_iff.1 h
    obtain ⟨head, hhead, rfl⟩ := (opening?_eq_some_iff here).1 ha
    simp only [List.length_append] at hlimit
    refine .intro ?_ fun y hy => ?_
    · have hargument := Head.lt_of_write? hhead
      have hcontent := length_contentOf x
      have hbelow := length_children here
      have hitems := length_le_of_writeItems? hb
      rw [HeadWithin]
      generalize x.headOf = opening at hargument hcontent hbelow
      obtain ⟨major, argument⟩ := opening
      cases major <;>
        simp only [Major.bound, Major.contentLength, Major.itemsBelow, maxArgument] at * <;> omega
    · obtain ⟨c, hc, hwithin⟩ := exists_write?_of_mem hb hy
      have hle := hwithin.length_le
      exact ih y hy hc (by omega)

theorem fitsAt_int_of_headWithin {limit : Nat} (height : 8 ≤ limit) {n : Int}
    (h : Everywhere (Item.HeadWithin limit) (Item.ofInt n)) : FitsAt limit (.int n) := by
  have hsmall {m : Nat} (hm : m ≤ maxArgument) : (Bytes.ofNat m).length ≤ limit :=
    (Item.length_ofNat_le hm).trans height
  cases n with
  | ofNat m =>
    rw [Item.ofInt] at h
    split_ifs at h with hm
    · exact hsmall hm
    · exact (Item.everywhere_tag_iff.1 h).2.here
  | negSucc m =>
    rw [Item.ofInt] at h
    split_ifs at h with hm
    · exact hsmall hm
    · exact (Item.everywhere_tag_iff.1 h).2.here

theorem fits_of_headWithin {limit : Nat} (height : 8 ≤ limit) {t : Term}
    (h : Everywhere (Item.HeadWithin limit) (Item.ofTerm t)) : Everywhere (FitsAt limit) t := by
  induction t with
  | int n => exact .leaf (fitsAt_int_of_headWithin height h) rfl
  | seq ts ih =>
    rw [Item.ofTerm, Item.ofItems_eq_map] at h
    obtain ⟨hlength, hitems⟩ := Item.everywhere_array_iff.1 h
    rw [Item.HeadWithin, Item.headOf, List.length_map] at hlength
    exact Term.everywhere_seq_iff.2
      ⟨hlength, fun t ht => ih t ht (hitems _ (List.mem_map_of_mem ht))⟩
  | map es ih =>
    rw [Item.ofTerm, Item.ofEntries_eq_map] at h
    obtain ⟨hlength, hentries⟩ := Item.everywhere_map_iff.1 h
    rw [Item.HeadWithin, Item.headOf, List.length_map] at hlength
    refine Term.everywhere_map_iff.2 ⟨hlength, fun e he => ?_⟩
    have hentry := hentries (Item.ofTerm e.1, Item.ofTerm e.2) (List.mem_map.2 ⟨e, he, rfl⟩)
    exact ⟨(ih e he).1 hentry.1, (ih e he).2 hentry.2⟩
  | tag number content ih =>
    obtain ⟨hnumber, hcontent⟩ := Item.everywhere_tag_iff.1 h
    exact Term.everywhere_tag_iff.2 ⟨hnumber, ih hcontent⟩
  | bytes bs => exact .leaf h.here rfl
  | text s => exact .leaf h.here rfl
  | bool b => exact .leaf trivial rfl
  | null => exact .leaf trivial rfl

/-- What is encoded fits as far as the item that it is written as is within bounds. -/
theorem fits_of_encode_of_headWithin {limit : Nat} (height : 8 ≤ limit) {t : Term} {bs : Bytes}
    (h : encode t = .ok bs)
    (hwithin : ∀ x, Item.Plain x → x.write? = some bs → Everywhere (Item.HeadWithin limit) x) :
    Everywhere (FitsAt limit) t := by
  obtain ⟨u, hu, hwrite⟩ := encode_eq_ok_iff.1 h
  have hitem := hwithin (Item.ofTerm u) (Item.plain_ofTerm u) (writeTerm_eq_ok_iff.1 hwrite)
  exact (reordered_of_canonical hu).1.symm.everywhere FitsAt.of_alike
    (fits_of_headWithin height hitem)

theorem fits_of_encode {t : Term} {bs : Bytes} (h : encode t = .ok bs) :
    Everywhere (FitsAt maxArgument) t :=
  fits_of_encode_of_headWithin (by decide) h fun _ hx hwrite =>
    (Item.headOf_le_of_write? hx hwrite).imp fun _ => Item.headWithin_iff.2

/-- No length in a term exceeds that of its encoding. -/
theorem fits_of_length_encode {limit : Nat} (height : 8 ≤ limit) {t : Term} {bs : Bytes}
    (h : encode t = .ok bs) (hlimit : bs.length ≤ limit) : Everywhere (FitsAt limit) t :=
  fits_of_encode_of_headWithin height h fun _ hx hwrite =>
    Item.headWithin_of_write? hx hwrite hlimit

/-- No two keys of a map say the same. -/
def KeysApartAt : Term → Prop
  | .map entries => KeysApart entries
  | _ => True

/-- What holds of maps whose keys have different encodings, and of all other nodes, holds everywhere
in a term that has a canonical form. -/
theorem everywhere_of_canonical {P : Term → Prop} (hother : ∀ t, (∀ es, t ≠ .map es) → P t)
    (hmap : ∀ es gs, List.Forall₂ CanonicalEntry es gs →
      (gs.Pairwise fun g g' => writeTerm g.1 ≠ writeTerm g'.1) → P (.map es))
    {t u : Term} (h : canonical t = .ok u) : Everywhere P t := by
  induction t generalizing u with
  | seq ts ih =>
    obtain ⟨us, hus, -⟩ := canonical_seq_eq_ok_iff.1 h
    refine Term.everywhere_seq_iff.2 ⟨hother _ (fun _ => nofun), fun t ht => ?_⟩
    obtain ⟨v, -, hv⟩ := exists_mem_of_forall₂ hus.flip t ht
    exact ih t ht hv
  | map es ih =>
    obtain ⟨gs, fs, hgs, hperm, hpairs, -⟩ := canonical_map_eq_ok_iff.1 h
    have hfs : fs.Pairwise fun g g' => writeTerm g.1 ≠ writeTerm g'.1 := by
      apply hpairs.imp
      rintro g g' ⟨a, b, ha, hb, hlt⟩ hsame
      rw [ha, hb] at hsame
      exact (Bytes.cmp_eq_lt_iff.1 hlt).2 (Except.ok.inj hsame)
    have hgspairs := (hperm.pairwise_iff Ne.symm).2 hfs
    refine Term.everywhere_map_iff.2 ⟨hmap es gs hgs hgspairs, fun e he => ?_⟩
    obtain ⟨g, -, hkey, -, hvalue⟩ := exists_mem_of_forall₂ hgs.flip e he
    exact ⟨(ih e he).1 hkey, (ih e he).2 hvalue⟩
  | tag number content ih =>
    obtain ⟨c, hc, -⟩ := canonical_tag_eq_ok_iff.1 h
    exact Term.everywhere_tag_iff.2 ⟨hother _ (fun _ => nofun), ih hc⟩
  | _ => exact .leaf (hother _ (fun _ => nofun)) rfl

/-- Two keys of one encoding keep a map from having a canonical form. -/
theorem distinct_of_canonical {t u : Term} (h : canonical t = .ok u) : Everywhere DistinctAt t := by
  refine everywhere_of_canonical (fun t ht => ?_) (fun es gs hgs hne => ?_) h
  · cases t with
    | map es => exact (ht es rfl).elim
    | _ => exact trivial
  · refine pairwise_of_forall₂ ?_ hgs.flip hne
    rintro g g' e e' ⟨he, -⟩ ⟨he', -⟩ hne hsame
    rw [encode, encode, he, he'] at hsame
    exact hne hsame

/-- Two keys that say the same keep a map from having a canonical form. -/
theorem keysApart_of_canonical {t u : Term} (h : canonical t = .ok u) :
    Everywhere KeysApartAt t := by
  refine everywhere_of_canonical (fun t ht => ?_) (fun es gs hgs hne => ?_) h
  · cases t with
    | map es => exact (ht es rfl).elim
    | _ => exact trivial
  · refine pairwise_of_forall₂ ?_ hgs.flip hne
    rintro g g' e e' ⟨he, -⟩ ⟨he', -⟩ hne hsame
    rw [canonical_of_reordered hsame he] at he'
    exact hne (congrArg writeTerm (Except.ok.inj he'))

theorem keysApart_of_encode {t : Term} {bs : Bytes} (h : encode t = .ok bs) :
    Everywhere KeysApartAt t := by
  obtain ⟨u, hu, -⟩ := encode_eq_ok_iff.1 h
  exact keysApart_of_canonical hu

/-- Keys that do not say the same are encoded differently. -/
theorem distinct_of_keysApart {t : Term} (hdecoded : Everywhere DecodedAt t)
    (hfits : Everywhere (FitsAt maxArgument) t) (hkeys : Everywhere KeysApartAt t) :
    Everywhere DistinctAt t := by
  induction t with
  | seq ts ih =>
    obtain ⟨-, hdecoded⟩ := Term.everywhere_seq_iff.1 hdecoded
    obtain ⟨-, hfits⟩ := Term.everywhere_seq_iff.1 hfits
    obtain ⟨-, hkeys⟩ := Term.everywhere_seq_iff.1 hkeys
    exact Term.everywhere_seq_iff.2
      ⟨trivial, fun t ht => ih t ht (hdecoded t ht) (hfits t ht) (hkeys t ht)⟩
  | map es ih =>
    obtain ⟨-, hdecoded⟩ := Term.everywhere_map_iff.1 hdecoded
    obtain ⟨-, hfits⟩ := Term.everywhere_map_iff.1 hfits
    obtain ⟨hapart, hkeys⟩ := Term.everywhere_map_iff.1 hkeys
    have hbelow : ∀ e ∈ es, Everywhere DistinctAt e.1 ∧ Everywhere DistinctAt e.2 :=
      fun e he => ⟨(ih e he).1 (hdecoded e he).1 (hfits e he).1 (hkeys e he).1,
        (ih e he).2 (hdecoded e he).2 (hfits e he).2 (hkeys e he).2⟩
    refine Term.everywhere_map_iff.2 ⟨hapart.imp_of_mem fun {e f} he hf hef hsame => ?_, hbelow⟩
    obtain ⟨bs, hbs⟩ := exists_encode ((hfits e he).1.and (hbelow e he).1)
    rw [hbs] at hsame
    exact hef (reordered_of_encode (hdecoded e he).1 (hdecoded f hf).1 hbs hsame.symm)
  | tag number content ih =>
    obtain ⟨-, hdecoded⟩ := Term.everywhere_tag_iff.1 hdecoded
    obtain ⟨-, hfits⟩ := Term.everywhere_tag_iff.1 hfits
    obtain ⟨-, hkeys⟩ := Term.everywhere_tag_iff.1 hkeys
    exact Term.everywhere_tag_iff.2 ⟨trivial, ih hdecoded hfits hkeys⟩
  | _ => exact .leaf trivial rfl

theorem exists_encode_iff {t : Term} (hdecoded : Everywhere DecodedAt t) :
    (∃ bs, encode t = .ok bs) ↔ Everywhere (FitsAt maxArgument) t ∧ Everywhere KeysApartAt t := by
  constructor
  · rintro ⟨bs, hbs⟩
    exact ⟨fits_of_encode hbs, keysApart_of_encode hbs⟩
  · rintro ⟨hfits, hkeys⟩
    exact exists_encode (hfits.and (distinct_of_keysApart hdecoded hfits hkeys))

theorem distinct_of_encode {t : Term} (hdecoded : Everywhere DecodedAt t) {bs : Bytes}
    (h : encode t = .ok bs) : Everywhere DistinctAt t := by
  obtain ⟨hfits, hkeys⟩ := (exists_encode_iff hdecoded).1 ⟨bs, h⟩
  exact distinct_of_keysApart hdecoded hfits hkeys

/-- A term is encoded exactly if its sizes and tags fit in heads and no map has two keys of one
encoding. -/
theorem exists_encode_iff_distinct {t : Term} : (∃ bs, encode t = .ok bs) ↔
    Everywhere (FitsAt maxArgument) t ∧ Everywhere DistinctAt t := by
  constructor
  · rintro ⟨bs, hbs⟩
    obtain ⟨u, hu, -⟩ := encode_eq_ok_iff.1 hbs
    exact ⟨fits_of_encode hbs, distinct_of_canonical hu⟩
  · rintro ⟨hfits, hdistinct⟩
    exact exists_encode (hfits.and hdistinct)

theorem FaithfulAt.decodedAt {t : Term} (h : FaithfulAt t) : DecodedAt t := by
  cases t with
  | text t => exact h.1
  | tag number content => exact h.2
  | _ => exact trivial

/-- What was encoded is decoded up to the order of map entries. -/
theorem exists_decode (path : Path) {t : Term} (hfaithful : Everywhere FaithfulAt t)
    (hfits : Everywhere (FitsAt maxLength) t) {bs : Bytes} (h : encode t = .ok bs) :
    ∃ u, decode path bs = .ok u ∧ Reordered t u := by
  have hdistinct := distinct_of_encode (hfaithful.imp fun _ => FaithfulAt.decodedAt) h
  obtain ⟨bs', u, hencode, hdecode, hu⟩ := decode_encode path hfaithful hdistinct hfits
  have hbytes : bs' = bs := Except.ok.inj (hencode.symm.trans h)
  exact ⟨u, hbytes ▸ hdecode, ((hu u).1 rfl).1⟩

/-! ## How encoding fails -/

theorem kind_of_writeTerm {t : Term} {fault : Fault} (h : writeTerm t = .error fault) :
    fault.kind = .serialize := by
  rw [writeTerm] at h
  split at h
  · cases h
  · cases h
    rfl

theorem kind_of_canonical {t : Term} {fault : Fault} (h : canonical t = .error fault) :
    fault.kind = .serialize := by
  induction t generalizing fault with
  | seq ts ih =>
    rw [canonical, canonicalItems_eq_mapM, map_eq_error] at h
    obtain ⟨t, ht, hfault⟩ := exists_mem_of_mapM_eq_error h
    exact ih t ht hfault
  | map es ih =>
    rw [canonical, keyedEntries_eq_mapM] at h
    rcases bind_eq_error.1 h with hkeyed | ⟨ks, hks, hsorted⟩
    · obtain ⟨e, he, hfault⟩ := exists_mem_of_mapM_eq_error hkeyed
      rcases bind_eq_error.1 hfault with hkey | ⟨key, -, hrest⟩
      · exact (ih e he).1 hkey
      · rcases bind_eq_error.1 hrest with hwrite | ⟨bs, -, hpure⟩
        · exact kind_of_writeTerm hwrite
        · cases hpure
    · rw [mapOfSorted] at hsorted
      split at hsorted
      · cases hsorted
        rfl
      · obtain ⟨k, hk, hfault⟩ := exists_mem_of_mapM_eq_error (map_eq_error.1 hsorted)
        -- A value that has no canonical form is that of one of the entries.
        obtain ⟨e, he, hek⟩ :=
          exists_mem_of_forall₂ (mapM_eq_ok.1 hks) k ((sortByKey_perm ks).mem_iff.1 hk)
        have hvalue := (keyed_eq_ok_iff.1 hek).2.2
        exact (ih e he).2 (hvalue.trans (map_eq_error.1 hfault))
  | tag number content ih =>
    rw [canonical, map_eq_error] at h
    exact ih h
  | _ => cases h

/-- Encoding fails in no other way than an encoder does. -/
theorem kind_of_encode {t : Term} {fault : Fault} (h : encode t = .error fault) :
    fault.kind = .serialize := by
  rcases bind_eq_error.1 h with hcanonical | ⟨u, -, hwrite⟩
  · exact kind_of_canonical hcanonical
  · exact kind_of_writeTerm hwrite

/-- A term is encoded exactly if its sizes and tags fit in heads and no map has two keys that differ
only in the order of map entries, and the encodings of two terms are equal exactly if the terms
differ only in that order. -/
theorem encode_unique {p q : Term} (hp : Everywhere DecodedAt p) (hq : Everywhere DecodedAt q) :
    ((∃ bs, encode p = .ok bs) ↔
        Everywhere (FitsAt maxArgument) p ∧ Everywhere KeysApartAt p) ∧
      (∀ fault, encode p = .error fault → fault.kind = .serialize) ∧
      ∀ a b, encode p = .ok a → encode q = .ok b → (a = b ↔ Reordered p q) :=
  ⟨exists_encode_iff hp, fun _ => kind_of_encode, fun _ _ => encode_eq_iff hp hq⟩

/-- A map one key of which is itself a map. -/
def mapAsKey : Term :=
  .map [(.map [(.int 0, .null), (.int 1, .null)], .text "a"), (.int 2, .tag 24 (.bytes []))]

/-- The same map, listed in another order outside and inside its key. -/
def mapAsKeyReordered : Term :=
  .map [(.int 2, .tag 24 (.bytes [])), (.map [(.int 1, .null), (.int 0, .null)], .text "a")]

theorem encode_unique_mapAsKey :
    Everywhere DecodedAt mapAsKey ∧ Everywhere DecodedAt mapAsKeyReordered ∧
      ((∃ bs, encode mapAsKey = .ok bs) ↔
        Everywhere (FitsAt maxArgument) mapAsKey ∧ Everywhere KeysApartAt mapAsKey) ∧
      (∀ fault, encode mapAsKey = .error fault → fault.kind = .serialize) ∧
      ∀ a b, encode mapAsKey = .ok a → encode mapAsKeyReordered = .ok b →
        (a = b ↔ Reordered mapAsKey mapAsKeyReordered) := by
  have hdecoded : Everywhere DecodedAt mapAsKey := by decide
  have hreordered : Everywhere DecodedAt mapAsKeyReordered := by decide
  exact ⟨hdecoded, hreordered, encode_unique hdecoded hreordered⟩

end Eutxo.Cbor

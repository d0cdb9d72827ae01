import Eutxo.Proofs.Cbor.PrefixFree
import Eutxo.Proofs.Cbor.RoundTrip

/-!
# Encoding what was decoded

Encoding what was decoded gives the bytes back exactly if they were canonical:
keys in ascending order, and texts in UTF-8 without a byte order mark.  Nothing
else about accepted input can be written in two ways.
-/

namespace Eutxo.Cbor

open Traversal

/-! ## Canonical input is given back -/

/-- A text is well-formed UTF-8 and does not begin with a byte order mark. -/
def CanonicalTextAt : Item → Prop
  | .text content => Text.IsUtf8 content ∧ ¬ [0xEF, 0xBB, 0xBF] <+: content
  | _ => True

/-- The keys of a map, as they are written, stand in strictly ascending order. -/
def CanonicalKeysAt : Item → Prop
  | .map entries => entries.Pairwise fun e f =>
    ∃ a b, e.1.write? = some a ∧ f.1.write? = some b ∧ Bytes.cmp a b = .lt
  | _ => True

/-- The node is no text. -/
def NoTextAt : Term → Prop
  | .text _ => False
  | _ => True

namespace Item

theorem ofInt_natCast {n : Nat} (hn : n ≤ maxArgument) : ofInt n = .unsigned n := if_pos hn

theorem ofInt_negative {n : Nat} (hn : n ≤ maxArgument) : ofInt (-1 - n) = .negative n := by
  rw [neg_one_sub_eq_negSucc]
  exact if_pos hn

theorem toUtf8_textOfContent {content : Bytes} (h : CanonicalTextAt (.text content)) :
    (textOfContent content).toUtf8 = content := by
  rw [textOfContent_of_unmarked h.2]
  exact (Text.toUtf8_ofUtf8_iff content).2 h.1

/-- A strict item is the item of its term, if its texts are canonical. -/
theorem ofTerm_term {x : Item} (hx : Strict x) (htext : Everywhere CanonicalTextAt x) :
    ofTerm x.term = x := by
  induction x with
  | unsigned n => exact ofInt_natCast hx.here
  | negative n => exact ofInt_negative hx.here
  | text content => exact congrArg Item.text (toUtf8_textOfContent htext.here)
  | array items ih =>
    obtain ⟨-, hitems⟩ := everywhere_array_iff.1 hx
    obtain ⟨-, htexts⟩ := everywhere_array_iff.1 htext
    rw [term, ofTerm, ofItems_eq_map, terms_eq_map, List.map_map]
    apply congrArg Item.array
    exact (List.map_congr_left fun x hx => ih x hx (hitems x hx) (htexts x hx)).trans
      (List.map_id items)
  | map entries ih =>
    obtain ⟨-, hentries⟩ := everywhere_map_iff.1 hx
    obtain ⟨-, htexts⟩ := everywhere_map_iff.1 htext
    rw [term, ofTerm, ofEntries_eq_map, termEntries_eq_map, List.map_map]
    apply congrArg Item.map
    refine (List.map_congr_left fun e he => ?_).trans (List.map_id entries)
    exact Prod.ext ((ih e he).1 (hentries e he).1 (htexts e he).1)
      ((ih e he).2 (hentries e he).2 (htexts e he).2)
  | tag number content ih =>
    obtain ⟨⟨-, hbignum⟩, hcontent⟩ := everywhere_tag_iff.1 hx
    obtain ⟨-, htexts⟩ := everywhere_tag_iff.1 htext
    have hlarge {bs : Bytes} (h : 2 ^ 64 ≤ Bytes.toNatBE bs) :
        ¬ Bytes.toNatBE bs ≤ maxArgument := by
      rw [maxArgument]
      omega
    rw [term]
    split_ifs with htwo hthree
    · obtain ⟨bs, rfl, hzero, hle⟩ := hbignum (.inl htwo)
      have hitem : ofInt (Bytes.toNatBE bs) =
          .tag unsignedBignumTag (.bytes (Bytes.ofNat (Bytes.toNatBE bs))) := if_neg (hlarge hle)
      rw [ofTerm, digits, hitem, Bytes.ofNat_toNatBE hzero, htwo]
    · obtain ⟨bs, rfl, hzero, hle⟩ := hbignum (.inr hthree)
      have hitem : ofInt (.negSucc (Bytes.toNatBE bs)) =
          .tag negativeBignumTag (.bytes (Bytes.ofNat (Bytes.toNatBE bs))) := if_neg (hlarge hle)
      rw [ofTerm, digits, neg_one_sub_eq_negSucc, hitem, Bytes.ofNat_toNatBE hzero, hthree]
    · rw [ofTerm, ih hcontent htexts]
  | bareTag number => exact absurd hx.here id
  | float width bits => exact absurd hx.here id
  | _ => rfl

/-- Where the term has no text, the item has none. -/
theorem canonicalText_of_noText {x : Item} (hx : Strict x)
    (h : Everywhere NoTextAt x.term) : Everywhere CanonicalTextAt x := by
  induction x with
  | text content => exact h.here.elim
  | array items ih =>
    obtain ⟨-, hitems⟩ := everywhere_array_iff.1 hx
    rw [term, terms_eq_map] at h
    obtain ⟨-, hterms⟩ := Term.everywhere_seq_iff.1 h
    refine everywhere_array_iff.2 ⟨trivial, fun x hx => ?_⟩
    exact ih x hx (hitems x hx) (hterms x.term (List.mem_map_of_mem hx))
  | map entries ih =>
    obtain ⟨-, hentries⟩ := everywhere_map_iff.1 hx
    rw [term, termEntries_eq_map] at h
    obtain ⟨-, hterms⟩ := Term.everywhere_map_iff.1 h
    refine everywhere_map_iff.2 ⟨trivial, fun e he => ?_⟩
    have hentry := hterms (e.1.term, e.2.term) (List.mem_map_of_mem he)
    exact ⟨(ih e he).1 (hentries e he).1 hentry.1, (ih e he).2 (hentries e he).2 hentry.2⟩
  | tag number content ih =>
    obtain ⟨⟨-, hbignum⟩, hcontent⟩ := everywhere_tag_iff.1 hx
    refine everywhere_tag_iff.2 ⟨trivial, ?_⟩
    rw [term] at h
    split_ifs at h with htwo hthree
    · obtain ⟨bs, rfl, -⟩ := hbignum (.inl htwo)
      exact .leaf trivial rfl
    · obtain ⟨bs, rfl, -⟩ := hbignum (.inr hthree)
      exact .leaf trivial rfl
    · exact ih hcontent (Term.everywhere_tag_iff.1 h).2
  | _ => exact .leaf trivial rfl

/-- Keys that ascend as they are written ascend as they are encoded. -/
theorem ascending_term {x : Item} (hx : Strict x) (htext : Everywhere CanonicalTextAt x)
    (hkeys : Everywhere CanonicalKeysAt x) : Ascending x.term := by
  induction x with
  | array items ih =>
    obtain ⟨-, hitems⟩ := everywhere_array_iff.1 hx
    obtain ⟨-, htexts⟩ := everywhere_array_iff.1 htext
    obtain ⟨-, hbelow⟩ := everywhere_array_iff.1 hkeys
    rw [term, terms_eq_map]
    refine Term.everywhere_seq_iff.2 ⟨trivial, ?_⟩
    intro t ht
    obtain ⟨x, hx, rfl⟩ := List.mem_map.1 ht
    exact ih x hx (hitems x hx) (htexts x hx) (hbelow x hx)
  | map entries ih =>
    obtain ⟨-, hentries⟩ := everywhere_map_iff.1 hx
    obtain ⟨-, htexts⟩ := everywhere_map_iff.1 htext
    obtain ⟨hpairs, hbelow⟩ := everywhere_map_iff.1 hkeys
    have hwritten : ∀ e ∈ entries, ∀ bs, e.1.write? = some bs → encode e.1.term = .ok bs := by
      intro e he bs hbs
      have hascending := (ih e he).1 (hentries e he).1 (htexts e he).1 (hbelow e he).1
      rw [encode_of_ascending hascending, writeTerm_eq_ok_iff,
        ofTerm_term (hentries e he).1 (htexts e he).1, hbs]
    rw [term, termEntries_eq_map]
    refine Term.everywhere_map_iff.2 ⟨⟨?_, ?_⟩, ?_⟩
    · intro e' he'
      obtain ⟨e, he, rfl⟩ := List.mem_map.1 he'
      exact exists_encode_term (hentries e he).1
    · refine List.pairwise_map.2 (hpairs.imp_of_mem ?_)
      rintro e f he hf ⟨a, b, ha, hb, hlt⟩
      exact ⟨a, b, hwritten e he a ha, hwritten f hf b hb, hlt⟩
    · intro e' he'
      obtain ⟨e, he, rfl⟩ := List.mem_map.1 he'
      exact ⟨(ih e he).1 (hentries e he).1 (htexts e he).1 (hbelow e he).1,
        (ih e he).2 (hentries e he).2 (htexts e he).2 (hbelow e he).2⟩
  | tag number content ih =>
    obtain ⟨-, hcontent⟩ := everywhere_tag_iff.1 hx
    obtain ⟨-, htexts⟩ := everywhere_tag_iff.1 htext
    obtain ⟨-, hbelow⟩ := everywhere_tag_iff.1 hkeys
    rw [term]
    split_ifs
    · exact .leaf trivial rfl
    · exact .leaf trivial rfl
    · exact Term.everywhere_tag_iff.2 ⟨trivial, ih hcontent htexts hbelow⟩
  | _ => exact .leaf trivial rfl

/-- A canonical item is what its term is encoded as. -/
theorem encode_term {x : Item} (hx : Strict x) (htext : Everywhere CanonicalTextAt x)
    (hkeys : Everywhere CanonicalKeysAt x) {bs : Bytes} (hwrite : x.write? = some bs) :
    encode x.term = .ok bs := by
  rw [encode_of_ascending (ascending_term hx htext hkeys), writeTerm_eq_ok_iff,
    ofTerm_term hx htext, hwrite]

/-! ## Other input is not -/

/-- What holds of leaves without text and of tags holds of the items of integers. -/
theorem everywhere_ofInt {Q : Item → Prop} (hunsigned : ∀ n, Q (.unsigned n))
    (hnegative : ∀ n, Q (.negative n)) (hbytes : ∀ bs, Q (.bytes bs))
    (htag : ∀ number content, Q (.tag number content)) (n : Int) : Everywhere Q (ofInt n) := by
  cases n with
  | ofNat n =>
    rw [ofInt]
    split_ifs
    · exact .leaf (hunsigned n) rfl
    · exact everywhere_tag_iff.2 ⟨htag _ _, .leaf (hbytes _) rfl⟩
  | negSucc n =>
    rw [ofInt]
    split_ifs
    · exact .leaf (hnegative n) rfl
    · exact everywhere_tag_iff.2 ⟨htag _ _, .leaf (hbytes _) rfl⟩

theorem plain_ofTerm (t : Term) : Plain (ofTerm t) := by
  refine everywhere_ofTerm (fun n _ => ?_) (fun t hint _ => ?_) (Term.everywhere_true t)
  · exact everywhere_ofInt (fun _ => trivial) (fun _ => trivial) (fun _ => trivial)
      (fun _ _ => trivial) n
  · cases t with
    | int n => exact absurd rfl (hint n)
    | _ => exact trivial

end Item

/-- Well-formed text, and tags that mark no bignum, as decoding returns them. -/
def DecodedAt : Term → Prop
  | .text t => t.WellFormed
  | .tag number _ => number ≠ 2 ∧ number ≠ 3
  | _ => True

instance : DecidablePred DecodedAt
  | .text t => inferInstanceAs (Decidable t.WellFormed)
  | .tag number _ => inferInstanceAs (Decidable (number ≠ 2 ∧ number ≠ 3))
  | .int _ | .bytes _ | .bool _ | .null | .seq _ | .map _ => isTrue trivial

/-- No text begins with a byte order mark. -/
def UnmarkedAt : Term → Prop
  | .text t => t.units.head? ≠ some Text.mark
  | _ => True

instance : DecidablePred UnmarkedAt
  | .text t => inferInstanceAs (Decidable (t.units.head? ≠ some Text.mark))
  | .int _ | .bytes _ | .bool _ | .null | .seq _ | .map _ | .tag _ _ => isTrue trivial

theorem DecodedAt.of_alike (t u : Term) (halike : Term.Alike t u) (h : DecodedAt t) :
    DecodedAt u := by
  cases t <;> cases u <;> simp_all [Term.Alike, DecodedAt]

theorem UnmarkedAt.of_alike (t u : Term) (halike : Term.Alike t u) (h : UnmarkedAt t) :
    UnmarkedAt u := by
  cases t <;> cases u <;> simp_all [Term.Alike, UnmarkedAt]

theorem wellFormed_textOfContent (content : Bytes) : (textOfContent content).WellFormed := by
  unfold textOfContent
  split
  · exact Text.wellFormed_ofUtf8 _
  · exact Text.wellFormed_ofUtf8 _

theorem Item.decoded_term {x : Item} (hx : Strict x) : Everywhere DecodedAt x.term := by
  refine everywhere_term (fun y _ => ?_) hx
  cases y with
  | text content => exact wellFormed_textOfContent content
  | tag number content =>
    rw [term]
    split_ifs with htwo hthree
    · exact trivial
    · exact trivial
    · exact ⟨htwo, hthree⟩
  | _ => exact trivial

/-- Reading a text back shortens it exactly if it begins with a mark. -/
theorem length_textOfContent_toUtf8 {t : Text} (ht : t.WellFormed) :
    (textOfContent t.toUtf8).length ≤ t.length ∧
      ((textOfContent t.toUtf8).length = t.length → t.units.head? ≠ some Text.mark) := by
  by_cases hmark : [0xEF, 0xBB, 0xBF] <+: t.toUtf8
  · obtain ⟨rest, hrest⟩ := hmark
    have hunits := units_of_marked ht hrest.symm
    have hlength : t.length = (textOfContent t.toUtf8).length + 1 := by
      rw [← hrest]
      exact congrArg List.length hunits
    exact ⟨by omega, fun h => by omega⟩
  · rw [textOfContent_of_unmarked hmark, Text.ofUtf8_toUtf8 ht]
    exact ⟨Nat.le_refl _, fun _ => mt Text.marked_iff.2 hmark⟩

theorem sum_map_le {α : Type} {f g : α → Nat} {xs : List α} (h : ∀ x ∈ xs, f x ≤ g x) :
    (xs.map f).sum ≤ (xs.map g).sum ∧
      ((xs.map f).sum = (xs.map g).sum → ∀ x ∈ xs, f x = g x) := by
  induction xs with
  | nil => exact ⟨Nat.le_refl _, fun _ => nofun⟩
  | cons x xs ih =>
    obtain ⟨hx, hxs⟩ := List.forall_mem_cons.1 h
    obtain ⟨hle, heq⟩ := ih hxs
    simp only [List.map_cons, List.sum_cons]
    refine ⟨Nat.add_le_add hx hle, fun hsum => ?_⟩
    have hfirst : f x = g x := by omega
    have hrest : (xs.map f).sum = (xs.map g).sum := by omega
    exact List.forall_mem_cons.2 ⟨hfirst, heq hrest⟩

/-- What decoding makes of a written term weighs no more, and less if a text lost its mark. -/
theorem weight_term_ofTerm {u : Term} (hu : Everywhere DecodedAt u) :
    (Item.ofTerm u).term.weight ≤ u.weight ∧
      ((Item.ofTerm u).term.weight = u.weight → Everywhere UnmarkedAt u) := by
  induction u with
  | int n =>
    rw [Item.ofTerm, Item.term_ofInt]
    exact ⟨Nat.le_refl _, fun _ => .leaf trivial rfl⟩
  | text t =>
    obtain ⟨hle, heq⟩ := length_textOfContent_toUtf8 hu.here
    refine ⟨Nat.add_le_add_left hle 1, fun h => .leaf (heq ?_) rfl⟩
    exact Nat.add_left_cancel h
  | seq ts ih =>
    obtain ⟨-, hts⟩ := Term.everywhere_seq_iff.1 hu
    obtain ⟨hle, heq⟩ := sum_map_le fun t ht => (ih t ht (hts t ht)).1
    rw [Item.ofTerm, Item.term, Item.terms_eq_map, Item.ofItems_eq_map, List.map_map,
      Term.weight_seq, Term.weight_seq, List.map_map]
    refine ⟨Nat.add_le_add_left hle 1, fun h => ?_⟩
    have hitems := heq (Nat.add_left_cancel h)
    exact Term.everywhere_seq_iff.2
      ⟨trivial, fun t ht => (ih t ht (hts t ht)).2 (hitems t ht)⟩
  | map es ih =>
    obtain ⟨-, hes⟩ := Term.everywhere_map_iff.1 hu
    obtain ⟨hle, heq⟩ := sum_map_le fun e he =>
      Nat.add_le_add ((ih e he).1 (hes e he).1).1 ((ih e he).2 (hes e he).2).1
    rw [Item.ofTerm, Item.term, Item.termEntries_eq_map, Item.ofEntries_eq_map, List.map_map,
      Term.weight_map, Term.weight_map, List.map_map]
    refine ⟨Nat.add_le_add_left hle 1, fun h => ?_⟩
    have hentries := heq (Nat.add_left_cancel h)
    refine Term.everywhere_map_iff.2 ⟨trivial, fun e he => ?_⟩
    obtain ⟨hkeyle, hkey⟩ := (ih e he).1 (hes e he).1
    obtain ⟨hvaluele, hvalue⟩ := (ih e he).2 (hes e he).2
    have hsum := hentries e he
    exact ⟨hkey (by omega), hvalue (by omega)⟩
  | tag number content ih =>
    obtain ⟨⟨htwo, hthree⟩, hcontent⟩ := Term.everywhere_tag_iff.1 hu
    obtain ⟨hle, heq⟩ := ih hcontent
    have hunsigned : ¬ number = unsignedBignumTag := htwo
    have hnegative : ¬ number = negativeBignumTag := hthree
    rw [Item.ofTerm, Item.term, if_neg hunsigned, if_neg hnegative, Term.weight, Term.weight]
    refine ⟨Nat.add_le_add_left hle 1, fun h => ?_⟩
    exact Term.everywhere_tag_iff.2 ⟨trivial, heq (Nat.add_left_cancel h)⟩
  | _ => exact ⟨Nat.le_refl _, fun _ => .leaf trivial rfl⟩

/-- The text of a term is canonical as it is written unless it begins with a mark. -/
theorem Item.canonicalText_ofTerm_iff {u : Term} :
    Everywhere CanonicalTextAt (ofTerm u) ↔ Everywhere UnmarkedAt u := by
  constructor
  · intro h
    induction u with
    | text t => exact .leaf (mt Text.marked_iff.2 h.here.2) rfl
    | seq ts ih =>
      rw [ofTerm, ofItems_eq_map] at h
      obtain ⟨-, hitems⟩ := everywhere_array_iff.1 h
      refine Term.everywhere_seq_iff.2 ⟨trivial, fun t ht => ?_⟩
      exact ih t ht (hitems _ (List.mem_map_of_mem ht))
    | map es ih =>
      rw [ofTerm, ofEntries_eq_map] at h
      obtain ⟨-, hentries⟩ := everywhere_map_iff.1 h
      refine Term.everywhere_map_iff.2 ⟨trivial, fun e he => ?_⟩
      have hentry := hentries _ (List.mem_map_of_mem he)
      exact ⟨(ih e he).1 hentry.1, (ih e he).2 hentry.2⟩
    | tag number content ih =>
      exact Term.everywhere_tag_iff.2 ⟨trivial, ih (everywhere_tag_iff.1 h).2⟩
    | _ => exact .leaf trivial rfl
  · refine everywhere_ofTerm (fun n _ => ?_) (fun t hint h => ?_)
    · exact everywhere_ofInt (fun _ => trivial) (fun _ => trivial) (fun _ => trivial)
        (fun _ _ => trivial) n
    · cases t with
      | int n => exact absurd rfl (hint n)
      | text t => exact ⟨Text.isUtf8_toUtf8 t, mt Text.marked_iff.1 h⟩
      | _ => exact trivial

theorem Item.canonicalKeys_ofTerm {u : Term} (hascending : Ascending u) :
    Everywhere CanonicalKeysAt (ofTerm u) := by
  refine everywhere_ofTerm (fun n _ => ?_) (fun t hint h => ?_) hascending.everywhere
  · exact everywhere_ofInt (fun _ => trivial) (fun _ => trivial) (fun _ => trivial)
      (fun _ _ => trivial) n
  · cases t with
    | int n => exact absurd rfl (hint n)
    | map es =>
      obtain ⟨⟨-, hpairs⟩, hes⟩ := Term.everywhere_map_iff.1 h
      have hwritten : ∀ e ∈ es, ∀ bs, encode e.1 = .ok bs → (ofTerm e.1).write? = some bs := by
        intro e he bs hbs
        rw [encode_of_ascending (hes e he).1] at hbs
        exact writeTerm_eq_ok_iff.1 hbs
      rw [ofTerm, ofEntries_eq_map]
      refine List.pairwise_map.2 (hpairs.imp_of_mem ?_)
      rintro e f he hf ⟨a, b, ha, hb, hlt⟩
      exact ⟨a, b, hwritten e he a ha, hwritten f hf b hb, hlt⟩
    | _ => exact trivial

/-- Bytes that a term encodes to are canonical, if the term weighs no more than what they decode
to. -/
theorem Item.canonical_of_encode {x : Item} (hx : Strict x) {bs : Bytes}
    (hwrite : x.write? = some bs) {t : Term} (hdecoded : Everywhere DecodedAt t)
    (hweight : t.weight ≤ x.term.weight) (hencode : encode t = .ok bs) :
    t.weight = x.term.weight ∧ Everywhere CanonicalTextAt x ∧ Everywhere CanonicalKeysAt x := by
  obtain ⟨u, hu, hbs⟩ := encode_eq_ok_iff.1 hencode
  obtain ⟨hreordered, hascending⟩ := reordered_of_canonical hu
  have hudecoded := hreordered.everywhere DecodedAt.of_alike hdecoded
  have hitem : ofTerm u = x :=
    eq_of_write?_eq (plain_ofTerm u) hx.plain (writeTerm_eq_ok_iff.1 hbs) hwrite
  obtain ⟨hle, hunmarked⟩ := weight_term_ofTerm hudecoded
  rw [hitem, ← hreordered.weight_eq] at hle hunmarked
  have hsame : x.term.weight = t.weight := Nat.le_antisymm hle hweight
  rw [← hitem]
  exact ⟨by rw [hitem, hsame], canonicalText_ofTerm_iff.2 (hunmarked hsame),
    canonicalKeys_ofTerm hascending⟩

/-- Encoding gives back the bytes that were decoded exactly if their keys ascend and their texts are
well-formed UTF-8 without a mark in front.  Where there is no text, a term is decoded from no other
bytes. -/
theorem encode_decode {path : Path} {bs : Bytes} {t : Term} (h : decode path bs = .ok t) :
    ∃ item out, item.write? = some bs ∧ Item.Strict item ∧ encode t = .ok out ∧
      (out = bs ↔ Everywhere CanonicalTextAt item ∧ Everywhere CanonicalKeysAt item) ∧
      (Everywhere NoTextAt t → ∀ path' bs', decode path' bs' = .ok t → bs' = bs) := by
  obtain ⟨item, hwrite, hstrict, rfl⟩ := decode_eq_ok_iff.1 h
  obtain ⟨out, hout⟩ := Item.exists_encode_term hstrict
  refine ⟨item, out, hwrite, hstrict, hout, ⟨?_, ?_⟩, ?_⟩
  · rintro rfl
    exact (Item.canonical_of_encode hstrict hwrite (Item.decoded_term hstrict) (Nat.le_refl _)
      hout).2
  · rintro ⟨htext, hkeys⟩
    have hsame := Item.encode_term hstrict htext hkeys hwrite
    rw [hout] at hsame
    exact Except.ok.inj hsame
  · intro hnone path' bs' h'
    obtain ⟨item', hwrite', hstrict', hterm⟩ := decode_eq_ok_iff.1 h'
    have hitem := Item.ofTerm_term hstrict (Item.canonicalText_of_noText hstrict hnone)
    have hnone' : Everywhere NoTextAt item'.term := by
      rw [hterm]
      exact hnone
    have hitem' := Item.ofTerm_term hstrict' (Item.canonicalText_of_noText hstrict' hnone')
    rw [hterm, hitem] at hitem'
    rw [hitem', hwrite'] at hwrite
    exact Option.some.inj hwrite

theorem encode_decode_unordered : ∃ t, decode (.root "map") [0xA2, 1, 0xF6, 0, 0xF6] = .ok t ∧
    ∃ item out, item.write? = some [0xA2, 1, 0xF6, 0, 0xF6] ∧ Item.Strict item ∧
      encode t = .ok out ∧
      (out = [0xA2, 1, 0xF6, 0, 0xF6] ↔
        Everywhere CanonicalTextAt item ∧ Everywhere CanonicalKeysAt item) ∧
      (Everywhere NoTextAt t →
        ∀ path' bs', decode path' bs' = .ok t → bs' = [0xA2, 1, 0xF6, 0, 0xF6]) := by
  have h : decode (.root "map") [0xA2, 1, 0xF6, 0, 0xF6] =
      .ok (.map [(.int 1, .null), (.int 0, .null)]) := rfl
  exact ⟨_, h, encode_decode h⟩

end Eutxo.Cbor

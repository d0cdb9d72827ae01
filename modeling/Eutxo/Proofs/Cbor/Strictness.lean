import Eutxo.Cbor.Strict
import Eutxo.Proofs.Cbor.Encoding
import Eutxo.Proofs.Cbor.FloatWalk
import Eutxo.Proofs.Text.Utf8

/-!
# The strict grammar

Decoding accepts exactly the bytes of strict items: no floating point numbers,
only the tags in use, no bignum that is short or has a needless zero, and no
map with two keys of one encoding.  Whatever else it is given, it fails as a
decoder does.
-/

namespace Eutxo.Cbor

open Traversal

/-- The tags in use: bignums, embedded data, rational numbers, constructors of script data, sets. -/
def KnownTag (number : Nat) : Prop :=
  number ∈ [2, 3, 24, 30, 102, 258] ∨ 121 ≤ number ∧ number ≤ 127 ∨
    1280 ≤ number ∧ number ≤ 1400

theorem supportsTag_iff {number : Nat} : supportsTag number = true ↔ KnownTag number := by
  simp only [supportsTag, KnownTag, Bool.or_eq_true, Bool.and_eq_true, decide_eq_true_eq,
    List.mem_cons, List.not_mem_nil, or_false]
  omega

theorem isBignumTag_iff {number : Nat} : isBignumTag number = true ↔ number = 2 ∨ number = 3 := by
  rw [isBignumTag, Bool.or_eq_true, decide_eq_true_eq, decide_eq_true_eq]
  rfl

namespace Item

/-- The number that a byte string spells. -/
def digits : Item → Nat
  | .bytes content => Bytes.toNatBE content
  | _ => 0

mutual

/-- The term that an item stands for.  Those that stand for no term are read as null. -/
def term : Item → Term
  | .unsigned n => .int n
  | .negative n => .int (-1 - n)
  | .bytes content => .bytes content
  | .text content => .text (textOfContent content)
  | .array items => .seq (terms items)
  | .map entries => .map (termEntries entries)
  | .tag number content =>
    if number = unsignedBignumTag then .int content.digits
    else if number = negativeBignumTag then .int (-1 - content.digits)
    else .tag number (term content)
  | .bool b => .bool b
  | _ => .null

/-- The terms that the items of a list stand for. -/
def terms : List Item → List Term
  | [] => []
  | x :: xs => term x :: terms xs

/-- The entries that pairs of items stand for. -/
def termEntries : List (Item × Item) → List (Term × Term)
  | [] => []
  | (k, v) :: es => (term k, term v) :: termEntries es

end

theorem terms_eq_map (xs : List Item) : terms xs = xs.map term := by
  induction xs with
  | nil => rfl
  | cons x xs ih => rw [terms, ih, List.map_cons]

theorem termEntries_eq_map (es : List (Item × Item)) :
    termEntries es = es.map fun e => (e.1.term, e.2.term) := by
  induction es with
  | nil => rfl
  | cons e es ih => rw [termEntries, ih, List.map_cons]

/-- What the strict grammar asks of an item, those below it apart. -/
def StrictAt : Item → Prop
  | .unsigned n => n ≤ maxArgument
  | .negative n => n ≤ maxArgument
  | .bytes content => content.length ≤ maxLength
  | .text content => content.length ≤ maxLength
  | .array items => items.length ≤ maxLength
  | .map entries => entries.length ≤ maxLength ∧
    entries.Pairwise fun e f => encode e.1.term ≠ encode f.1.term
  | .tag number content => KnownTag number ∧
    (number = 2 ∨ number = 3 → ∃ bs, content = .bytes bs ∧ bs.head? ≠ some 0 ∧
      2 ^ 64 ≤ Bytes.toNatBE bs)
  | .bareTag _ => False
  | .bool _ => True
  | .null => True
  | .float _ _ => False

/-- An item of the strict grammar. -/
def Strict (x : Item) : Prop := Everywhere StrictAt x

theorem StrictAt.plainAt {x : Item} (h : StrictAt x) : PlainAt x := by
  cases x with
  | bareTag number => exact h
  | float width bits => exact h
  | _ => exact trivial

theorem StrictAt.readableAt {x : Item} (h : StrictAt x) : ReadableAt x := by
  cases x with
  | map entries => exact h.1
  | tag number content => exact supportsTag_iff.2 h.1
  | bareTag number => exact absurd h id
  | float width bits => exact absurd h id
  | _ => exact h

theorem Strict.plain {x : Item} (h : Strict x) : Plain x := h.imp fun _ => StrictAt.plainAt

theorem Strict.readable {x : Item} (h : Strict x) : Readable x :=
  h.imp fun _ hy => ⟨hy.readableAt, hy.plainAt⟩

/-! ## Terms of strict items -/

/-- A condition on the term of an item follows from one on the items below it. -/
theorem everywhere_term {P : Item → Prop} {Q : Term → Prop} (hnode : ∀ x, P x → Q x.term)
    {x : Item} (h : Everywhere P x) : Everywhere Q x.term := by
  induction x with
  | array items ih =>
    obtain ⟨hhere, hitems⟩ := everywhere_array_iff.1 h
    refine Term.everywhere_seq_iff.2 ⟨hnode _ hhere, ?_⟩
    rw [terms_eq_map]
    intro t ht
    obtain ⟨x, hx, rfl⟩ := List.mem_map.1 ht
    exact ih x hx (hitems x hx)
  | map entries ih =>
    obtain ⟨hhere, hentries⟩ := everywhere_map_iff.1 h
    refine Term.everywhere_map_iff.2 ⟨hnode _ hhere, ?_⟩
    rw [termEntries_eq_map]
    intro e' he'
    obtain ⟨e, he, rfl⟩ := List.mem_map.1 he'
    exact ⟨(ih e he).1 (hentries e he).1, (ih e he).2 (hentries e he).2⟩
  | tag number content ih =>
    obtain ⟨hhere, hcontent⟩ := everywhere_tag_iff.1 h
    have hroot : Q (term (.tag number content)) := hnode _ hhere
    rw [term] at hroot ⊢
    split_ifs at hroot ⊢
    · exact .leaf hroot rfl
    · exact .leaf hroot rfl
    · exact Term.everywhere_tag_iff.2 ⟨hroot, ih hcontent⟩
  | _ => exact .leaf (hnode _ h.here) rfl

theorem length_ofNat_le {n : Nat} (hn : n ≤ maxArgument) : (Bytes.ofNat n).length ≤ 8 := by
  rw [Bytes.length_ofNat, Bytes.widthOf_le_iff]
  exact Nat.lt_of_le_of_lt hn (by decide)

theorem neg_one_sub_eq_negSucc (n : Nat) : -1 - (n : Int) = Int.negSucc n := by
  rw [Int.negSucc_eq]
  omega

theorem length_toUtf8_textOfContent_le (content : Bytes) :
    (textOfContent content).toUtf8.length ≤ 3 * content.length := by
  unfold textOfContent
  split
  · next rest =>
    have hle := Text.length_toUtf8_ofUtf8_le rest
    simp only [List.length_cons]
    omega
  · exact Text.length_toUtf8_ofUtf8_le _

theorem fitsAt_int_of_digits {bs : Bytes} (hzero : bs.head? ≠ some 0)
    (hlength : bs.length ≤ maxLength) :
    (Bytes.ofNat (Bytes.toNatBE bs)).length ≤ maxArgument := by
  rw [Bytes.ofNat_toNatBE hzero]
  exact Nat.le_trans hlength (by decide)

theorem fitsAt_term {x : Item} (h : Strict x) : FitsAt maxArgument x.term := by
  have hlimit : maxLength ≤ maxArgument := by decide
  have height : 8 ≤ maxArgument := by decide
  cases x with
  | unsigned n => exact Nat.le_trans (length_ofNat_le h.here) height
  | negative n =>
    rw [term, neg_one_sub_eq_negSucc]
    exact Nat.le_trans (length_ofNat_le h.here) height
  | bytes content => exact Nat.le_trans h.here hlimit
  | text content =>
    have hcontent : content.length ≤ maxLength := h.here
    have hle : (textOfContent content).toUtf8.length ≤ 3 * maxLength :=
      Nat.le_trans (length_toUtf8_textOfContent_le content) (Nat.mul_le_mul_left 3 hcontent)
    exact Nat.le_trans hle (by decide)
  | array items =>
    show (terms items).length ≤ maxArgument
    rw [terms_eq_map, List.length_map]
    exact Nat.le_trans h.here hlimit
  | map entries =>
    show (termEntries entries).length ≤ maxArgument
    rw [termEntries_eq_map, List.length_map]
    exact Nat.le_trans h.here.1 hlimit
  | tag number content =>
    obtain ⟨⟨hknown, hbignum⟩, hcontent⟩ := everywhere_tag_iff.1 h
    rw [term]
    split_ifs with htwo hthree
    · obtain ⟨bs, rfl, hzero, -⟩ := hbignum (.inl htwo)
      exact fitsAt_int_of_digits hzero hcontent.here
    · obtain ⟨bs, rfl, hzero, -⟩ := hbignum (.inr hthree)
      rw [neg_one_sub_eq_negSucc]
      exact fitsAt_int_of_digits hzero hcontent.here
    · have hnumber : number ≤ 1400 := by
        simp only [KnownTag, List.mem_cons, List.not_mem_nil, or_false] at hknown
        omega
      exact Nat.le_trans hnumber (by decide)
  | _ => exact trivial

theorem distinctAt_term {x : Item} (h : StrictAt x) : DistinctAt x.term := by
  cases x with
  | map entries =>
    rw [term, termEntries_eq_map]
    exact List.pairwise_map.2 h.2
  | tag number content =>
    rw [term]
    split_ifs <;> exact trivial
  | _ => exact trivial

/-- The term of a strict item can be encoded. -/
theorem encodable_term {x : Item} (h : Strict x) :
    Everywhere (fun t => FitsAt maxArgument t ∧ DistinctAt t) x.term :=
  everywhere_term (fun _ hy => ⟨fitsAt_term hy, distinctAt_term hy.here⟩) h.everywhere

theorem exists_encode_term {x : Item} (h : Strict x) : ∃ bs, encode x.term = .ok bs :=
  exists_encode (encodable_term h)

/-! ## The last pass -/

theorem toTerms_of_forall {xs : List Item} (h : ∀ x ∈ xs, ∀ path, toTerm path x = .ok x.term)
    (path : Path) (index : Nat) : toTerms path index xs = .ok (terms xs) := by
  induction xs generalizing index with
  | nil => rfl
  | cons x xs ih =>
    obtain ⟨hx, hxs⟩ := List.forall_mem_cons.1 h
    rw [toTerms, hx, ok_bind, ih hxs, ok_bind]
    rfl

theorem toEntries_of_forall {es : List (Item × Item)}
    (h : ∀ e ∈ es, ∀ path, toTerm path e.1 = .ok e.1.term ∧ toTerm path e.2 = .ok e.2.term)
    (hencode : ∀ e ∈ es, ∃ bs, encode e.1.term = .ok bs)
    (hdistinct : es.Pairwise fun e f => encode e.1.term ≠ encode f.1.term) (path : Path)
    {seen : List Bytes} (hseen : ∀ e ∈ es, ∀ bs ∈ seen, encode e.1.term ≠ .ok bs) :
    toEntries path seen es = .ok (termEntries es) := by
  induction es generalizing seen with
  | nil => rfl
  | cons e es ih =>
    obtain ⟨k, v⟩ := e
    obtain ⟨hkv, hes⟩ := List.forall_mem_cons.1 h
    obtain ⟨⟨bs, hbs⟩, hencodes⟩ := List.forall_mem_cons.1 hencode
    obtain ⟨hk, hrest⟩ := List.pairwise_cons.1 hdistinct
    obtain ⟨hkseen, hesseen⟩ := List.forall_mem_cons.1 hseen
    have hnew : seen.contains bs = false := by
      rw [← Bool.not_eq_true, List.contains_iff_mem]
      exact fun hmem => hkseen bs hmem hbs
    have hlater : ∀ f ∈ es, ∀ b ∈ bs :: seen, encode f.1.term ≠ .ok b := by
      intro f hf b hb
      rcases List.mem_cons.1 hb with rfl | hb
      · rw [← hbs]
        exact (hk f hf).symm
      · exact hesseen f hf b hb
    rw [toEntries, (hkv _).1, ok_bind, hbs, ok_bind, hnew, (hkv _).2]
    simp only [Bool.false_eq_true, if_false, ok_bind, ih hes hencodes hrest hlater]
    rfl

theorem bignum_of_digits {path : Path} {bs : Bytes} (hzero : bs.head? ≠ some 0)
    (hlarge : 2 ^ 64 ≤ Bytes.toNatBE bs) : bignum path bs = .ok (Bytes.toNatBE bs) := by
  have hrange : ¬ (bs.head? = some 0 ∨ Bytes.toNatBE bs ≤ maxArgument) := by
    rw [maxArgument]
    rintro (h | h)
    · exact hzero h
    · omega
  rw [bignum]
  exact if_neg hrange

/-- A strict item is turned into its term. -/
theorem toTerm_of_strict {x : Item} (h : Strict x) (path : Path) :
    toTerm path x = .ok x.term := by
  induction x generalizing path with
  | array items ih =>
    obtain ⟨-, hitems⟩ := everywhere_array_iff.1 h
    rw [toTerm, toTerms_of_forall (fun x hx path => ih x hx (hitems x hx) path), map_ok, term]
  | map entries ih =>
    obtain ⟨⟨-, hdistinct⟩, hentries⟩ := everywhere_map_iff.1 h
    have hterms : ∀ e ∈ entries, ∀ path,
        toTerm path e.1 = .ok e.1.term ∧ toTerm path e.2 = .ok e.2.term :=
      fun e he path => ⟨(ih e he).1 (hentries e he).1 path, (ih e he).2 (hentries e he).2 path⟩
    have hencode : ∀ e ∈ entries, ∃ bs, encode e.1.term = .ok bs :=
      fun e he => exists_encode_term (hentries e he).1
    have hseen : ∀ e ∈ entries, ∀ bs ∈ ([] : List Bytes), encode e.1.term ≠ .ok bs :=
      fun _ _ _ hbs => absurd hbs List.not_mem_nil
    rw [toTerm, toEntries_of_forall hterms hencode hdistinct path hseen, map_ok, term]
  | tag number content ih =>
    obtain ⟨⟨-, hbignum⟩, hcontent⟩ := everywhere_tag_iff.1 h
    rw [toTerm, term]
    by_cases htag : number = 2 ∨ number = 3
    · obtain ⟨bs, rfl, hzero, hlarge⟩ := hbignum htag
      rw [if_pos (isBignumTag_iff.2 htag), bignumOfItem, bignum_of_digits hzero hlarge, ok_bind]
      rcases htag with rfl | rfl <;> rfl
    · have hnot : ¬ isBignumTag number = true := fun hb => htag (isBignumTag_iff.1 hb)
      have htwo : ¬ number = unsignedBignumTag := fun h2 => htag (.inl h2)
      have hthree : ¬ number = negativeBignumTag := fun h3 => htag (.inr h3)
      rw [if_neg hnot, ih hcontent, map_ok, if_neg htwo, if_neg hthree]
  | bareTag number => exact absurd h.here id
  | float width bits => exact absurd h.here id
  | _ => rfl

theorem strict_of_toTerms {xs : List Item}
    (h : ∀ x ∈ xs, ∀ path t, toTerm path x = .ok t → Strict x) {path : Path} {index : Nat}
    {ts : List Term} (hts : toTerms path index xs = .ok ts) : ∀ x ∈ xs, Strict x := by
  induction xs generalizing index ts with
  | nil => exact nofun
  | cons x xs ih =>
    obtain ⟨hx, hxs⟩ := List.forall_mem_cons.1 h
    rw [toTerms] at hts
    obtain ⟨t, ht, hrest⟩ := bind_eq_ok.1 hts
    obtain ⟨ts', hts', -⟩ := bind_eq_ok.1 hrest
    exact List.forall_mem_cons.2 ⟨hx _ t ht, ih hxs hts'⟩

/-- The keys seen so far differ from those to come. -/
theorem strict_of_toEntries {es : List (Item × Item)}
    (h : ∀ e ∈ es, ∀ path t, (toTerm path e.1 = .ok t → Strict e.1) ∧
      (toTerm path e.2 = .ok t → Strict e.2)) {path : Path} {seen : List Bytes}
    {fs : List (Term × Term)} (hfs : toEntries path seen es = .ok fs) :
    (∀ e ∈ es, Strict e.1 ∧ Strict e.2) ∧
      (es.Pairwise fun e f => encode e.1.term ≠ encode f.1.term) ∧
      ∀ e ∈ es, ∀ bs ∈ seen, encode e.1.term ≠ .ok bs := by
  induction es generalizing seen fs with
  | nil => exact ⟨nofun, .nil, nofun⟩
  | cons e es ih =>
    obtain ⟨k, v⟩ := e
    obtain ⟨hkv, hes⟩ := List.forall_mem_cons.1 h
    rw [toEntries] at hfs
    obtain ⟨key, hkey, hfs⟩ := bind_eq_ok.1 hfs
    obtain ⟨keyBytes, hbytes, hfs⟩ := bind_eq_ok.1 hfs
    split_ifs at hfs with hnew
    obtain ⟨value, hvalue, hfs⟩ := bind_eq_ok.1 hfs
    obtain ⟨rest, hrest, -⟩ := bind_eq_ok.1 hfs
    have hkstrict : Strict k := (hkv _ key).1 hkey
    have hvstrict : Strict v := (hkv _ value).2 hvalue
    have hterm : key = k.term := by
      rw [toTerm_of_strict hkstrict] at hkey
      exact (Except.ok.inj hkey).symm
    rw [hterm] at hbytes
    obtain ⟨hstrict, hpairs, hseen⟩ := ih hes hrest
    refine ⟨List.forall_mem_cons.2 ⟨⟨hkstrict, hvstrict⟩, hstrict⟩,
      List.pairwise_cons.2 ⟨?_, hpairs⟩, List.forall_mem_cons.2 ⟨?_, ?_⟩⟩
    · intro f hf hsame
      exact hseen f hf keyBytes List.mem_cons_self (hsame.symm.trans hbytes)
    · intro bs hbs hsame
      have heq : keyBytes = bs := Except.ok.inj (hbytes.symm.trans hsame)
      rw [heq, List.contains_iff_mem] at hnew
      exact hnew hbs
    · intro f hf bs hbs
      exact hseen f hf bs (List.mem_cons_of_mem keyBytes hbs)

theorem digits_of_bignumOfItem {path : Path} {number : Nat} {content : Item} {t : Term}
    (h : bignumOfItem path number content = .ok t) :
    ∃ bs, content = .bytes bs ∧ bs.head? ≠ some 0 ∧ 2 ^ 64 ≤ Bytes.toNatBE bs := by
  cases content with
  | bytes bs =>
    obtain ⟨magnitude, hmagnitude, -⟩ := bind_eq_ok.1 h
    rw [bignum] at hmagnitude
    by_cases hrange : bs.head? = some 0 ∨ Bytes.toNatBE bs ≤ maxArgument
    · simp only [if_pos hrange] at hmagnitude
      cases hmagnitude
    · rw [not_or, maxArgument] at hrange
      exact ⟨bs, rfl, hrange.1, by omega⟩
  | _ => cases h

/-- What is turned into a term is strict, if it could be read. -/
theorem strict_of_toTerm {x : Item} (hx : Everywhere ReadableAt x) {path : Path} {t : Term}
    (h : toTerm path x = .ok t) : Strict x := by
  induction x generalizing path t with
  | unsigned n => exact .leaf hx.here rfl
  | negative n => exact .leaf hx.here rfl
  | bytes content => exact .leaf hx.here rfl
  | text content => exact .leaf hx.here rfl
  | array items ih =>
    obtain ⟨hlength, hitems⟩ := everywhere_array_iff.1 hx
    rw [toTerm] at h
    obtain ⟨ts, hts, -⟩ := map_eq_ok.1 h
    have hstrict := strict_of_toTerms (fun x hx path t => ih x hx (hitems x hx)) hts
    exact everywhere_array_iff.2 ⟨hlength, hstrict⟩
  | map entries ih =>
    obtain ⟨hlength, hentries⟩ := everywhere_map_iff.1 hx
    rw [toTerm] at h
    obtain ⟨fs, hfs, -⟩ := map_eq_ok.1 h
    obtain ⟨hstrict, hpairs, -⟩ := strict_of_toEntries
      (fun e he path t => ⟨(ih e he).1 (hentries e he).1, (ih e he).2 (hentries e he).2⟩) hfs
    exact everywhere_map_iff.2 ⟨⟨hlength, hpairs⟩, hstrict⟩
  | tag number content ih =>
    obtain ⟨hnumber, hcontent⟩ := everywhere_tag_iff.1 hx
    have hknown : KnownTag number := supportsTag_iff.1 hnumber
    rw [toTerm] at h
    split_ifs at h with htag
    · obtain ⟨bs, rfl, hdigits⟩ := digits_of_bignumOfItem h
      refine everywhere_tag_iff.2 ⟨⟨hknown, fun _ => ⟨bs, rfl, hdigits⟩⟩, ?_⟩
      exact .leaf hcontent.here rfl
    · obtain ⟨c, hc, -⟩ := map_eq_ok.1 h
      have hnot : ¬ (number = 2 ∨ number = 3) := fun h23 => htag (isBignumTag_iff.2 h23)
      exact everywhere_tag_iff.2 ⟨⟨hknown, fun h23 => absurd h23 hnot⟩, ih hcontent hc⟩
  | bareTag number => cases h
  | bool b => exact .leaf trivial rfl
  | null => exact .leaf trivial rfl
  | float width bits => cases h

theorem kind_of_toTerms {xs : List Item}
    (h : ∀ x ∈ xs, ∀ path fault, toTerm path x = .error fault → fault.kind = .deserialize)
    {path : Path} {index : Nat} {fault : Fault} (hfault : toTerms path index xs = .error fault) :
    fault.kind = .deserialize := by
  induction xs generalizing index with
  | nil => cases hfault
  | cons x xs ih =>
    obtain ⟨hx, hxs⟩ := List.forall_mem_cons.1 h
    rw [toTerms] at hfault
    rcases bind_eq_error.1 hfault with hfirst | ⟨t, -, hrest⟩
    · exact hx _ fault hfirst
    · rcases bind_eq_error.1 hrest with htail | ⟨ts, -, hpure⟩
      · exact ih hxs htail
      · cases hpure

theorem kind_of_toEntries {es : List (Item × Item)}
    (hreadable : ∀ e ∈ es, Everywhere ReadableAt e.1)
    (h : ∀ e ∈ es, ∀ path fault, (toTerm path e.1 = .error fault → fault.kind = .deserialize) ∧
      (toTerm path e.2 = .error fault → fault.kind = .deserialize)) {path : Path}
    {seen : List Bytes} {fault : Fault} (hfault : toEntries path seen es = .error fault) :
    fault.kind = .deserialize := by
  induction es generalizing seen with
  | nil => cases hfault
  | cons e es ih =>
    obtain ⟨k, v⟩ := e
    obtain ⟨hk, hks⟩ := List.forall_mem_cons.1 hreadable
    obtain ⟨hkv, hes⟩ := List.forall_mem_cons.1 h
    rw [toEntries] at hfault
    rcases bind_eq_error.1 hfault with hkey | ⟨key, hkey, hfault⟩
    · exact (hkv _ fault).1 hkey
    -- A key that was decoded is encoded without fail.
    have hstrict : Strict k := strict_of_toTerm hk hkey
    rw [toTerm_of_strict hstrict] at hkey
    obtain ⟨bs, hbs⟩ := exists_encode_term hstrict
    cases hkey
    rw [hbs, ok_bind] at hfault
    split_ifs at hfault with hseen
    · cases hfault
      rfl
    · rcases bind_eq_error.1 hfault with hvalue | ⟨value, -, hfault⟩
      · exact (hkv _ fault).2 hvalue
      · rcases bind_eq_error.1 hfault with htail | ⟨rest, -, hpure⟩
        · exact ih hks hes htail
        · cases hpure

/-- What cannot be turned into a term fails as a decoder does. -/
theorem kind_of_toTerm {x : Item} (hx : Everywhere ReadableAt x) {path : Path} {fault : Fault}
    (h : toTerm path x = .error fault) : fault.kind = .deserialize := by
  induction x generalizing path fault with
  | array items ih =>
    obtain ⟨-, hitems⟩ := everywhere_array_iff.1 hx
    rw [toTerm, map_eq_error] at h
    exact kind_of_toTerms (fun x hx path fault => ih x hx (hitems x hx)) h
  | map entries ih =>
    obtain ⟨-, hentries⟩ := everywhere_map_iff.1 hx
    rw [toTerm, map_eq_error] at h
    exact kind_of_toEntries (fun e he => (hentries e he).1)
      (fun e he path fault => ⟨(ih e he).1 (hentries e he).1, (ih e he).2 (hentries e he).2⟩) h
  | tag number content ih =>
    obtain ⟨-, hcontent⟩ := everywhere_tag_iff.1 hx
    rw [toTerm] at h
    split_ifs at h with htag
    · cases content with
      | bytes bs =>
        rcases bind_eq_error.1 h with hrange | ⟨magnitude, -, hpure⟩
        · rw [bignum] at hrange
          split_ifs at hrange
          cases hrange
          rfl
        · cases hpure
      | _ =>
        cases h
        rfl
    · rw [map_eq_error] at h
      exact ih hcontent h
  | bareTag number =>
    cases h
    rfl
  | float width bits =>
    cases h
    rfl
  | _ => cases h

/-! ## Repeated scalar keys -/

/-- The term that is written as a key compared by value, where that key is no fraction. -/
def keyTerm : ScalarKey → Term
  | .number (.integer n) => .int n
  | .wide n => .int n
  | .text t => .text t
  | .bool b => .bool b
  | .noBytes => .bytes []
  | _ => .null

theorem keyTerm_ofInt (n : Int) : keyTerm (.ofInt n) = .int n := by
  rw [ScalarKey.ofInt]
  split_ifs <;> rfl

theorem term_eq_keyTerm {x : Item} (hx : PlainAt x) {key : ScalarKey}
    (hkey : x.scalarKey? = some key) : x.term = keyTerm key := by
  cases x with
  | unsigned n =>
    cases hkey
    exact (keyTerm_ofInt n).symm
  | negative n =>
    cases hkey
    exact (keyTerm_ofInt (-1 - n)).symm
  | bytes content =>
    cases content with
    | nil =>
      cases hkey
      rfl
    | cons b bs => cases hkey
  | float width bits => exact absurd hx id
  | text content =>
    cases hkey
    rfl
  | bool b =>
    cases hkey
    rfl
  | null =>
    cases hkey
    rfl
  | _ => cases hkey

theorem hasRepeats_eq_false {keys : List ScalarKey} (h : keys.Nodup) : hasRepeats keys = false := by
  induction keys with
  | nil => rfl
  | cons k ks ih =>
    obtain ⟨hk, hks⟩ := List.nodup_cons.1 h
    rw [hasRepeats, ih hks, Bool.or_false, ← Bool.not_eq_true, List.contains_iff_mem]
    exact hk

theorem itemsRepeatScalarKey_eq_false {xs : List Item}
    (h : ∀ x ∈ xs, x.repeatsScalarKey = false) : itemsRepeatScalarKey xs = false := by
  induction xs with
  | nil => rfl
  | cons x xs ih =>
    obtain ⟨hx, hxs⟩ := List.forall_mem_cons.1 h
    rw [itemsRepeatScalarKey, hx, ih hxs, Bool.or_false]

theorem entriesRepeatScalarKey_eq_false {es : List (Item × Item)}
    (h : ∀ e ∈ es, e.1.repeatsScalarKey = false ∧ e.2.repeatsScalarKey = false) :
    entriesRepeatScalarKey es = false := by
  induction es with
  | nil => rfl
  | cons e es ih =>
    obtain ⟨k, v⟩ := e
    obtain ⟨⟨hk, hv⟩, hes⟩ := List.forall_mem_cons.1 h
    rw [entriesRepeatScalarKey, hk, hv, ih hes, Bool.or_false, Bool.or_false]

/-- Keys of different encoding are not equal by value either. -/
theorem repeatsScalarKey_of_strict {x : Item} (h : Strict x) : x.repeatsScalarKey = false := by
  induction x with
  | array items ih =>
    obtain ⟨-, hitems⟩ := everywhere_array_iff.1 h
    rw [repeatsScalarKey, itemsRepeatScalarKey_eq_false fun x hx => ih x hx (hitems x hx)]
  | map entries ih =>
    obtain ⟨⟨-, hdistinct⟩, hentries⟩ := everywhere_map_iff.1 h
    have hplain : ∀ e ∈ entries, PlainAt e.1 := fun e he => (hentries e he).1.here.plainAt
    have hkeys : (entries.filterMap fun e => e.1.scalarKey?).Nodup := by
      refine List.pairwise_filterMap.2 (hdistinct.imp_of_mem ?_)
      rintro e f he hf hef key hkey key' hkey' rfl
      have hterm : e.1.term = f.1.term := by
        rw [term_eq_keyTerm (hplain e he) hkey, term_eq_keyTerm (hplain f hf) hkey']
      exact hef (by rw [hterm])
    have hbelow := entriesRepeatScalarKey_eq_false fun e he =>
      ⟨(ih e he).1 (hentries e he).1, (ih e he).2 (hentries e he).2⟩
    rw [repeatsScalarKey, hasRepeats_eq_false hkeys, hbelow, Bool.or_false]
  | tag number content ih =>
    obtain ⟨-, hcontent⟩ := everywhere_tag_iff.1 h
    rw [repeatsScalarKey, ih hcontent]
  | _ => rfl

end Item

/-! ## Decoding -/

open Item

/-- Decoding returns the term of the strict item whose bytes the input is. -/
theorem decode_eq_ok_iff {path : Path} {bs : Bytes} {t : Term} :
    decode path bs = .ok t ↔ ∃ item, item.write? = some bs ∧ Strict item ∧ item.term = t := by
  constructor
  · intro h
    rw [decode] at h
    cases hread : Item.ofBytes? bs with
    | none =>
      rw [hread] at h
      cases h
    | some read =>
      obtain ⟨item, rest⟩ := read
      rw [hread] at h
      simp only at h
      split_ifs at h with hrepeats hrest
      obtain ⟨hreadable, spelled, hwrite, hbs⟩ := begins_of_ofBytes? hread
      have hnil : rest = [] := by simpa using hrest
      cases hfloat : firstFloat? bs with
      | some offset =>
        rw [hfloat] at h
        cases h
      | none =>
        rw [hfloat] at h
        have hstrict := strict_of_toTerm hreadable h
        rw [toTerm_of_strict hstrict] at h
        refine ⟨item, ?_, hstrict, Except.ok.inj h⟩
        rw [hwrite, hbs, hnil, List.append_nil]
  · rintro ⟨item, hwrite, hstrict, rfl⟩
    rw [decode, ofBytes?_of_write? hstrict.readable hwrite]
    simp only [repeatsScalarKey_of_strict hstrict, List.isEmpty_nil, Bool.not_true,
      Bool.false_eq_true, if_false, firstFloat?_of_write? hstrict.plain hwrite]
    exact toTerm_of_strict hstrict path

theorem Item.eq_bytes_of_term {x : Item} {content : Bytes} (h : x.term = .bytes content) :
    x = .bytes content := by
  cases x with
  | bytes content' => exact congrArg Item.bytes (Term.bytes.inj h)
  | tag number inner =>
    rw [term] at h
    split_ifs at h
  | _ => cases h

/-- A byte string is decoded from its own bytes alone. -/
theorem decode_eq_ok_bytes_iff {path : Path} {bs content : Bytes} :
    decode path bs = .ok (.bytes content) ↔
      content.length ≤ maxLength ∧ (Item.bytes content).write? = some bs := by
  rw [decode_eq_ok_iff]
  constructor
  · rintro ⟨item, hwrite, hstrict, hterm⟩
    obtain rfl := eq_bytes_of_term hterm
    exact ⟨hstrict.here, hwrite⟩
  · rintro ⟨hlength, hwrite⟩
    exact ⟨.bytes content, hwrite, .leaf hlength rfl, rfl⟩

/-- Decoding fails in no other way than a decoder does. -/
theorem kind_of_decode {path : Path} {bs : Bytes} {fault : Fault}
    (h : decode path bs = .error fault) : fault.kind = .deserialize := by
  rw [decode] at h
  cases hread : Item.ofBytes? bs with
  | none =>
    rw [hread] at h
    cases h
    rfl
  | some read =>
    obtain ⟨item, rest⟩ := read
    rw [hread] at h
    simp only at h
    split_ifs at h with hrepeats hrest
    · cases h
      rfl
    · cases h
      rfl
    · cases hfloat : firstFloat? bs with
      | some offset =>
        rw [hfloat] at h
        cases h
        rfl
      | none =>
        rw [hfloat] at h
        exact kind_of_toTerm (begins_of_ofBytes? hread).1 h

/-- Decoding accepts exactly the strict grammar, and reports everything else as malformed input. -/
theorem decode_accepts_strict (path : Path) (bs : Bytes) :
    ((∃ t, decode path bs = .ok t) ↔ ∃ item, item.write? = some bs ∧ Strict item) ∧
      ∀ fault, decode path bs = .error fault → fault.kind = .deserialize := by
  refine ⟨⟨?_, ?_⟩, fun fault => kind_of_decode⟩
  · rintro ⟨t, ht⟩
    obtain ⟨item, hwrite, hstrict, -⟩ := decode_eq_ok_iff.1 ht
    exact ⟨item, hwrite, hstrict⟩
  · rintro ⟨item, hwrite, hstrict⟩
    exact ⟨item.term, decode_eq_ok_iff.2 ⟨item, hwrite, hstrict, rfl⟩⟩

end Eutxo.Cbor

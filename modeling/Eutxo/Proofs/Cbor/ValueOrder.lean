import Eutxo.Proofs.Cbor.Encoding

/-!
# The order of keys in terms of their values

The entries of an encoded map stand in the bytewise order of their encoded keys.
What order that is can be told from the keys alone: integers are ordered by
class and then by magnitude, byte strings by length and then bytewise.
-/

namespace Eutxo.Cbor

open Traversal

/-! ## Integers -/

/-- The class of an integer as a key: those that a head carries come first, the unsigned ones in
front of the negative ones, and then the bignums in the same order. -/
def intClass (n : Int) : Nat :=
  if 0 ≤ n then (if n < 2 ^ 64 then 0 else 2) else (if -2 ^ 64 ≤ n then 1 else 3)

/-- The order of integers as keys: by class, and by absolute value within a class. -/
def cmpInt (a b : Int) : Ordering :=
  (compare (intClass a) (intClass b)).then (compare a.natAbs b.natAbs)

theorem intClass_ofNat (n : Nat) : intClass (.ofNat n) = if n ≤ maxArgument then 0 else 2 := by
  rw [intClass, maxArgument, Int.ofNat_eq_natCast, if_pos (Int.natCast_nonneg n)]
  split_ifs <;> omega

theorem intClass_negSucc (n : Nat) :
    intClass (.negSucc n) = if n ≤ maxArgument then 1 else 3 := by
  rw [intClass, maxArgument, if_neg (by omega)]
  split_ifs <;> omega

/-- Within a class the absolute values are in the order of the magnitudes that are written. -/
theorem compare_natAbs_of_intClass_eq {a b : Int} (h : intClass a = intClass b) :
    compare a.natAbs b.natAbs = compare (magnitude a) (magnitude b) := by
  cases a with
  | ofNat m =>
    cases b with
    | ofNat n => rfl
    | negSucc n =>
      rw [intClass_ofNat, intClass_negSucc] at h
      split_ifs at h <;> cases h
  | negSucc m =>
    cases b with
    | ofNat n =>
      rw [intClass_ofNat, intClass_negSucc] at h
      split_ifs at h <;> cases h
    | negSucc n =>
      rw [Int.natAbs_negSucc, Int.natAbs_negSucc, magnitude, magnitude, Nat.compare_eq_ite_lt,
        Nat.compare_eq_ite_lt]
      simp only [Nat.succ_lt_succ_iff]

theorem cmpInt_eq (a b : Int) :
    cmpInt a b = (compare (intClass a) (intClass b)).then
      (compare (magnitude a) (magnitude b)) := by
  rw [cmpInt]
  by_cases h : intClass a = intClass b
  · rw [compare_natAbs_of_intClass_eq h]
  · cases hcompare : compare (intClass a) (intClass b) with
    | lt => rfl
    | gt => rfl
    | eq => exact absurd (Nat.compare_eq_eq.1 hcompare) h

/-- The bytes that spell an integer: a head that carries it, or a tagged byte string. -/
inductive SpelledInt (n : Int) : Bytes → Prop
  | head (major : Major) {head : Bytes} (hclass : intClass n = major.code) (hlow : major.code < 2)
      (hhead : Head.write? major (magnitude n) = some head) : SpelledInt n head
  | bignum {tag opening : Bytes} (hclass : 2 ≤ intClass n)
      (htag : Head.write? .tag (intClass n) = some tag)
      (hopening : Head.write? .bytes (Bytes.ofNat (magnitude n)).length = some opening) :
      SpelledInt n (tag ++ (opening ++ Bytes.ofNat (magnitude n)))

theorem write?_bytes_eq_some_iff {content bs : Bytes} :
    (Item.bytes content).write? = some bs ↔
      ∃ head, Head.write? .bytes content.length = some head ∧ bs = head ++ content := by
  rw [Item.write?]
  cases Head.write? .bytes content.length <;> simp [eq_comm]

/-- The item of a bignum is written as its tag and the byte string of its magnitude. -/
theorem exists_heads_of_write?_tag_bytes {number : Nat} {content bs : Bytes}
    (h : (Item.tag number (.bytes content)).write? = some bs) :
    ∃ tag opening, Head.write? .tag number = some tag ∧
      Head.write? .bytes content.length = some opening ∧ bs = tag ++ (opening ++ content) := by
  obtain ⟨tag, below, htag, hbelow, rfl⟩ := Item.write?_eq_some_iff.1 h
  have hcontent := (Item.writeItems?_singleton (.bytes content)).symm.trans hbelow
  obtain ⟨opening, hopening, rfl⟩ := write?_bytes_eq_some_iff.1 hcontent
  exact ⟨tag, opening, htag, hopening, rfl⟩

theorem spelledInt_of_encode {n : Int} {bs : Bytes} (h : encode (.int n) = .ok bs) :
    SpelledInt n bs := by
  have hitem : (Item.ofInt n).write? = some bs := writeTerm_eq_ok_iff.1 h
  cases n with
  | ofNat m =>
    have hclass := intClass_ofNat m
    rw [Item.ofInt] at hitem
    split_ifs at hitem hclass with hm
    · exact .head .unsigned hclass (by decide) hitem
    · obtain ⟨tag, opening, htag, hopening, rfl⟩ := exists_heads_of_write?_tag_bytes hitem
      exact .bignum (by omega) (hclass ▸ htag) hopening
  | negSucc m =>
    have hclass := intClass_negSucc m
    rw [Item.ofInt] at hitem
    split_ifs at hitem hclass with hm
    · exact .head .negative hclass (by decide) hitem
    · obtain ⟨tag, opening, htag, hopening, rfl⟩ := exists_heads_of_write?_tag_bytes hitem
      exact .bignum (by omega) (hclass ▸ htag) hopening

/-- The bytes of integers are in the order of the integers as keys. -/
theorem cmp_encode_int {a b : Int} {x y : Bytes} (hx : encode (.int a) = .ok x)
    (hy : encode (.int b) = .ok y) : Bytes.cmp x y = cmpInt a b := by
  rw [cmpInt_eq]
  cases spelledInt_of_encode hx with
  | head _ haclass halow hx =>
    cases spelledInt_of_encode hy with
    | head _ hbclass hblow hy =>
      have hcmp := Head.cmp_write? hx hy [] []
      rw [List.append_nil, List.append_nil, ← haclass, ← hbclass] at hcmp
      rw [hcmp, Bytes.cmp_self, Ordering.then_eq]
    | @bignum tag opening hbclass htag hopening =>
      have hcmp := Head.cmp_write? hx htag [] (opening ++ Bytes.ofNat (magnitude b))
      rw [List.append_nil] at hcmp
      rw [hcmp, haclass, Nat.compare_eq_lt.2 (Nat.lt_trans halow (by decide)),
        Nat.compare_eq_lt.2 (Nat.lt_of_lt_of_le halow hbclass)]
      rfl
  | @bignum tag opening haclass htag hopening =>
    cases spelledInt_of_encode hy with
    | head _ hbclass hblow hy =>
      have hcmp := Head.cmp_write? htag hy (opening ++ Bytes.ofNat (magnitude a)) []
      rw [List.append_nil] at hcmp
      rw [hcmp, hbclass, Nat.compare_eq_gt.2 (Nat.lt_trans hblow (by decide)),
        Nat.compare_eq_gt.2 (Nat.lt_of_lt_of_le hblow haclass)]
      rfl
    | bignum hbclass htag' hopening' =>
      rw [Head.cmp_write? htag htag', Head.cmp_write? hopening hopening', Nat.compare_eq_eq.2 rfl,
        Ordering.eq_then, Nat.compare_eq_eq.2 rfl, Ordering.eq_then,
        Bytes.compare_length_then_cmp_ofNat]

/-! ## Byte strings -/

/-- The order of byte strings as keys: by length, and bytewise within a length. -/
def cmpBytes (a b : Bytes) : Ordering := (compare a.length b.length).then (Bytes.cmp a b)

theorem encode_bytes_eq_ok_iff {content bs : Bytes} :
    encode (.bytes content) = .ok bs ↔
      ∃ head, Head.write? .bytes content.length = some head ∧ bs = head ++ content :=
  writeTerm_eq_ok_iff.trans write?_bytes_eq_some_iff

theorem exists_encode_bytes_iff {content : Bytes} :
    (∃ bs, encode (.bytes content) = .ok bs) ↔ content.length ≤ maxArgument := by
  constructor
  · rintro ⟨bs, h⟩
    obtain ⟨head, hhead, -⟩ := encode_bytes_eq_ok_iff.1 h
    exact Nat.le_of_lt_succ (Head.lt_of_write? hhead)
  · intro hlength
    obtain ⟨head, hhead⟩ := exists_head .bytes hlength
    exact ⟨head ++ content, encode_bytes_eq_ok_iff.2 ⟨head, hhead, rfl⟩⟩

/-- The bytes of byte strings are in the order of the byte strings as keys. -/
theorem cmp_encode_bytes {a b x y : Bytes} (hx : encode (.bytes a) = .ok x)
    (hy : encode (.bytes b) = .ok y) : Bytes.cmp x y = cmpBytes a b := by
  obtain ⟨head, hhead, rfl⟩ := encode_bytes_eq_ok_iff.1 hx
  obtain ⟨head', hhead', rfl⟩ := encode_bytes_eq_ok_iff.1 hy
  rw [Head.cmp_write? hhead hhead', Nat.compare_eq_eq.2 rfl]
  rfl

/-! ## Entries -/

/-- The bytes of an entry: those of its key and then those of its value. -/
def SpellsEntry (e : Term × Term) (bs : Bytes) : Prop :=
  ∃ k v, encode e.1 = .ok k ∧ encode e.2 = .ok v ∧ bs = k ++ v

/-- The bytes of a map that lists its entries in the order given. -/
def SpellsEntries (es : List (Term × Term)) (bs : Bytes) : Prop :=
  ∃ head parts, Head.write? .map es.length = some head ∧ List.Forall₂ SpellsEntry es parts ∧
    bs = head ++ parts.flatten

/-- The bytes of some entries, one after the other. -/
def SpellsInside (es : List (Term × Term)) (bs : Bytes) : Prop :=
  ∃ parts, List.Forall₂ SpellsEntry es parts ∧ bs = parts.flatten

theorem spellsEntries_iff {es : List (Term × Term)} {bs : Bytes} :
    SpellsEntries es bs ↔ ∃ head below, Head.write? .map es.length = some head ∧
      SpellsInside es below ∧ bs = head ++ below := by
  constructor
  · rintro ⟨head, parts, hhead, hparts, rfl⟩
    exact ⟨head, _, hhead, ⟨parts, hparts, rfl⟩, rfl⟩
  · rintro ⟨head, _, hhead, ⟨parts, hparts, rfl⟩, rfl⟩
    exact ⟨head, parts, hhead, hparts, rfl⟩

theorem spellsInside_append_iff {es fs : List (Term × Term)} {bs : Bytes} :
    SpellsInside (es ++ fs) bs ↔
      ∃ x y, SpellsInside es x ∧ SpellsInside fs y ∧ bs = x ++ y := by
  constructor
  · rintro ⟨parts, hparts, rfl⟩
    have hfirst := List.forall₂_take_append _ es fs hparts.flip
    have hsecond := List.forall₂_drop_append _ es fs hparts.flip
    refine ⟨_, _, ⟨_, hfirst.flip, rfl⟩, ⟨_, hsecond.flip, rfl⟩, ?_⟩
    rw [← List.flatten_append, List.take_append_drop]
  · rintro ⟨_, _, ⟨ps, hps, rfl⟩, ⟨qs, hqs, rfl⟩, rfl⟩
    exact ⟨ps ++ qs, List.rel_append hps hqs, List.flatten_append.symm⟩

theorem exists_spellsInside {es : List (Term × Term)} (h : ∀ e ∈ es, ∃ bs, SpellsEntry e bs) :
    ∃ bs, SpellsInside es bs := by
  obtain ⟨parts, hparts⟩ := exists_forall₂ h
  exact ⟨_, parts, hparts, rfl⟩

/-- The bytes are those of a map that lists entries, in one of their orders, so that what stands
behind another comes after it. -/
def ListsBy {α : Type} (f : α → Term × Term) (before : α → α → Prop) (xs : List α) (bs : Bytes) :
    Prop :=
  ∃ ys, xs.Perm ys ∧ SpellsEntries (ys.map f) bs ∧ ys.Pairwise before

/-- The encoded key of `e` comes before that of `f`. -/
def EncodedBefore (e f : Term × Term) : Prop :=
  ∃ a b, encode e.1 = .ok a ∧ encode f.1 = .ok b ∧ Bytes.cmp a b = .lt

/-- The bytes of an entry that stands in its canonical form. -/
def WritesEntry (f : Term × Term) (bs : Bytes) : Prop :=
  ∃ k v, writeTerm f.1 = .ok k ∧ writeTerm f.2 = .ok v ∧ bs = k ++ v

theorem CanonicalEntry.encode_eq {e g : Term × Term} (h : CanonicalEntry e g) :
    encode e.1 = writeTerm g.1 ∧ encode e.2 = writeTerm g.2 := by
  obtain ⟨hkey, -, hvalue⟩ := h
  rw [encode, encode, hkey, hvalue]
  exact ⟨rfl, rfl⟩

/-- An entry is encoded by writing its canonical form. -/
theorem spellsEntry_iff {e : Term × Term} {bs : Bytes} :
    SpellsEntry e bs ↔ ∃ g, CanonicalEntry e g ∧ WritesEntry g bs := by
  constructor
  · rintro ⟨k, v, hk, hv, rfl⟩
    obtain ⟨a, ha, hkey⟩ := encode_eq_ok_iff.1 hk
    obtain ⟨b, hb, hvalue⟩ := encode_eq_ok_iff.1 hv
    exact ⟨(a, b), ⟨ha, ⟨k, hkey⟩, hb⟩, k, v, hkey, hvalue, rfl⟩
  · rintro ⟨g, hg, k, v, hk, hv, rfl⟩
    exact ⟨k, v, hg.encode_eq.1.trans hk, hg.encode_eq.2.trans hv, rfl⟩

theorem writeTerm_map_eq_ok_iff {fs : List (Term × Term)} {bs : Bytes} :
    writeTerm (.map fs) = .ok bs ↔ ∃ head parts, Head.write? .map fs.length = some head ∧
      List.Forall₂ WritesEntry fs parts ∧ bs = head ++ parts.flatten := by
  have hentries : ∀ below, Item.writeItems? (entryNodes (Item.ofEntries fs)) = some below ↔
      ∃ parts, List.Forall₂ WritesEntry fs parts ∧ below = parts.flatten := by
    induction fs with
    | nil => simp [Item.ofEntries, entryNodes, Item.writeItems?, eq_comm]
    | cons f fs ih =>
      intro below
      have hnodes : entryNodes (Item.ofEntries (f :: fs)) =
          Item.ofTerm f.1 :: Item.ofTerm f.2 :: entryNodes (Item.ofEntries fs) := rfl
      rw [hnodes]
      constructor
      · intro h
        obtain ⟨k, _, hk, hrest, rfl⟩ := Item.writeItems?_cons_eq_some_iff.1 h
        obtain ⟨v, _, hv, hbelow, rfl⟩ := Item.writeItems?_cons_eq_some_iff.1 hrest
        obtain ⟨parts, hparts, rfl⟩ := (ih _).1 hbelow
        refine ⟨(k ++ v) :: parts, .cons ⟨k, v, ?_, ?_, rfl⟩ hparts, ?_⟩
        · exact writeTerm_eq_ok_iff.2 hk
        · exact writeTerm_eq_ok_iff.2 hv
        · rw [List.flatten_cons, List.append_assoc]
      · rintro ⟨_, hall, rfl⟩
        obtain ⟨_, parts, ⟨k, v, hk, hv, rfl⟩, hparts, rfl⟩ := List.forall₂_cons_left_iff.1 hall
        have hrest := Item.writeItems?_cons_eq_some_iff.2
          ⟨v, _, writeTerm_eq_ok_iff.1 hv, (ih _).2 ⟨parts, hparts, rfl⟩, rfl⟩
        rw [List.flatten_cons, List.append_assoc]
        exact Item.writeItems?_cons_eq_some_iff.2 ⟨k, _, writeTerm_eq_ok_iff.1 hk, hrest, rfl⟩
  have hopening : (Item.ofTerm (.map fs)).opening? = Head.write? .map fs.length := by
    rw [Item.ofTerm, Item.opening?, Item.ofEntries_eq_map, List.length_map]
  rw [writeTerm_eq_ok_iff, Item.write?_eq_some_iff, hopening]
  constructor
  · rintro ⟨head, below, hhead, hbelow, rfl⟩
    obtain ⟨parts, hparts, rfl⟩ := (hentries below).1 hbelow
    exact ⟨head, parts, hhead, hparts, rfl⟩
  · rintro ⟨head, parts, hhead, hparts, rfl⟩
    exact ⟨head, _, hhead, (hentries _).2 ⟨parts, hparts, rfl⟩, rfl⟩

/-- An encoded map lists its entries in the order of their encoded keys. -/
theorem listsBy_of_encode {α : Type} {f : α → Term × Term} {xs : List α} {bs : Bytes}
    (h : encode (.map (xs.map f)) = .ok bs) :
    ListsBy f (fun x y => EncodedBefore (f x) (f y)) xs bs := by
  obtain ⟨u, hu, hwrite⟩ := encode_eq_ok_iff.1 h
  obtain ⟨gs, fs, hgs, hperm, hpairs, rfl⟩ := canonical_map_eq_ok_iff.1 hu
  obtain ⟨ys, hys, hysxs⟩ :=
    List.perm_comp_forall₂ hperm.symm (List.forall₂_map_left_iff.1 hgs).flip
  obtain ⟨head, parts, hhead, hparts, rfl⟩ := writeTerm_map_eq_ok_iff.1 hwrite
  refine ⟨ys, hysxs.symm, ⟨head, parts, ?_, ?_, rfl⟩, ?_⟩
  · rw [List.length_map, ← hys.length_eq]
    exact hhead
  · refine List.forall₂_map_left_iff.2 (forall₂_comp ?_ hys.flip hparts)
    exact fun x g part hx hg => spellsEntry_iff.2 ⟨g, hx, hg⟩
  · refine pairwise_of_forall₂ ?_ hys hpairs
    rintro g g' x x' hx hx' ⟨a, b, ha, hb, hlt⟩
    have hkey := (CanonicalEntry.encode_eq hx).1
    have hkey' := (CanonicalEntry.encode_eq hx').1
    exact ⟨a, b, hkey.trans ha, hkey'.trans hb, hlt⟩

theorem EncodedBefore.asymm {e f : Term × Term} (h : EncodedBefore e f) : ¬ EncodedBefore f e := by
  rintro ⟨b, a, hb, ha, hba⟩
  obtain ⟨a', b', ha', hb', hab⟩ := h
  obtain rfl := Except.ok.inj (ha.symm.trans ha')
  obtain rfl := Except.ok.inj (hb.symm.trans hb')
  obtain ⟨hle, hne⟩ := Bytes.cmp_eq_lt_iff.1 hab
  exact hne (Bytes.eq_of_le_of_le hle (Bytes.cmp_eq_lt_iff.1 hba).1)

/-- A map whose entries stand in the order of their encoded keys is encoded entry by entry. -/
theorem encode_map_eq_ok_iff {es : List (Term × Term)} (hes : es.Pairwise EncodedBefore)
    {bs : Bytes} : encode (.map es) = .ok bs ↔ SpellsEntries es bs := by
  constructor
  · intro h
    rw [← List.map_id es] at h
    obtain ⟨ys, hperm, hspells, hys⟩ := listsBy_of_encode h
    obtain rfl : es = ys :=
      List.Perm.eq_of_pairwise (fun _ _ _ _ hef hfe => absurd hfe hef.asymm) hes hys hperm
    rwa [List.map_id] at hspells
  · rintro ⟨head, parts, hhead, hparts, rfl⟩
    obtain ⟨gs, hgs, hwritten⟩ := exists_between (hparts.imp fun _ _ => spellsEntry_iff.1)
    have hpairs : gs.Pairwise WrittenBefore := by
      refine pairwise_of_forall₂ ?_ hgs hes
      rintro e f g g' hg hg' ⟨a, b, ha, hb, hlt⟩
      exact ⟨a, b, hg.encode_eq.1.symm.trans ha, hg'.encode_eq.1.symm.trans hb, hlt⟩
    rw [hgs.length_eq] at hhead
    exact encode_eq_ok_iff.2
      ⟨.map gs, canonical_map_eq_ok_iff.2 ⟨gs, gs, hgs, .refl gs, hpairs, rfl⟩,
        writeTerm_map_eq_ok_iff.2 ⟨head, parts, hhead, hwritten, rfl⟩⟩

/-- An encoded map lists its entries in an order that follows from that of the encoded keys. -/
theorem listsBy_of_encodedBefore {α : Type} {f : α → Term × Term} {before : α → α → Prop}
    (hbefore : ∀ x y, EncodedBefore (f x) (f y) → before x y) {xs : List α} {bs : Bytes}
    (h : encode (.map (xs.map f)) = .ok bs) : ListsBy f before xs bs := by
  obtain ⟨ys, hperm, hspells, hpairs⟩ := listsBy_of_encode h
  exact ⟨ys, hperm, hspells, hpairs.imp fun h => hbefore _ _ h⟩

theorem EncodedBefore.cmpInt {a b : Int} {v w : Term}
    (h : EncodedBefore (.int a, v) (.int b, w)) : cmpInt a b = .lt := by
  obtain ⟨x, y, hx, hy, hlt⟩ := h
  rw [← cmp_encode_int hx hy, hlt]

theorem EncodedBefore.cmpBytes {a b : Bytes} {v w : Term}
    (h : EncodedBefore (.bytes a, v) (.bytes b, w)) : cmpBytes a b = .lt := by
  obtain ⟨x, y, hx, hy, hlt⟩ := h
  rw [← cmp_encode_bytes hx hy, hlt]

/-- Unsigned integers are in the same order as keys and as numbers. -/
theorem EncodedBefore.lt {a b : Int} {v w : Term} (ha : 0 ≤ a) (hb : 0 ≤ b)
    (h : EncodedBefore (.int a, v) (.int b, w)) : a < b := by
  rcases Ordering.then_eq_lt.1 h.cmpInt with hclass | ⟨-, habs⟩
  · have hlt := Nat.compare_eq_lt.1 hclass
    simp only [intClass, if_pos ha, if_pos hb] at hlt
    split_ifs at hlt <;> omega
  · have hlt := Nat.compare_eq_lt.1 habs
    omega

theorem encodedBefore_of_lt {m n : Nat} (hmn : m < n) (hn : n ≤ maxArgument) (v w : Term) :
    EncodedBefore (.int m, v) (.int n, w) := by
  have hencode : ∀ {k : Nat}, k ≤ maxArgument → ∃ bs, encode (.int k) = .ok bs := by
    intro k hk
    obtain ⟨head, hhead⟩ := exists_head .unsigned hk
    have hitem : Item.ofInt k = .unsigned k := if_pos hk
    refine ⟨head, writeTerm_eq_ok_iff.2 ?_⟩
    rw [Item.ofTerm, hitem]
    exact hhead
  have hm : m ≤ maxArgument := Nat.le_of_lt (Nat.lt_of_lt_of_le hmn hn)
  obtain ⟨x, hx⟩ := hencode hm
  obtain ⟨y, hy⟩ := hencode hn
  have hclass : ∀ {k : Nat}, k ≤ maxArgument → intClass k = 0 := fun hk =>
    (intClass_ofNat _).trans (if_pos hk)
  refine ⟨x, y, hx, hy, ?_⟩
  rw [cmp_encode_int hx hy, Cbor.cmpInt, hclass hm, hclass hn]
  exact Nat.compare_eq_lt.2 hmn

/-- Byte strings of one length are in the same order as keys and by themselves. -/
theorem EncodedBefore.cmp_eq_lt {a b : Bytes} {v w : Term} (hlength : a.length = b.length)
    (h : EncodedBefore (.bytes a, v) (.bytes b, w)) : Bytes.cmp a b = .lt := by
  have hcmp := h.cmpBytes
  rwa [Cbor.cmpBytes, hlength, Nat.compare_eq_eq.2 rfl] at hcmp

end Eutxo.Cbor

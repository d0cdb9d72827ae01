import Eutxo.Proofs.Cbor.Strictness

/-!
# Decoding what was encoded

Decoding what was encoded gives the term with its map entries in the order of
their keys.
-/

namespace Eutxo.Cbor

open Traversal

/-! ## Texts -/

theorem textOfContent_of_unmarked {content : Bytes}
    (h : ¬ [0xEF, 0xBB, 0xBF] <+: content) : textOfContent content = Text.ofUtf8 content := by
  unfold textOfContent
  split
  · next rest => exact absurd (List.prefix_append [0xEF, 0xBB, 0xBF] rest) h
  · rfl

/-- The bytes of a text begin with those of the mark only if the text begins with the mark. -/
theorem units_of_marked {t : Text} (ht : t.WellFormed) {rest : Bytes}
    (h : t.toUtf8 = 0xEF :: 0xBB :: 0xBF :: rest) :
    t.units = Text.mark :: (Text.ofUtf8 rest).units := by
  rw [← Text.units_ofUtf8_mark, ← h, Text.ofUtf8_toUtf8 ht]

theorem textOfContent_toUtf8 {t : Text} (ht : t.WellFormed)
    (hmark : t.units.head? ≠ some Text.mark) :
    textOfContent t.toUtf8 = t := by
  rw [textOfContent_of_unmarked (mt Text.marked_iff.1 hmark), Text.ofUtf8_toUtf8 ht]

/-! ## Decoding undoes encoding -/

/-- Text and tags that decoding gives back as they are: well-formed text without a mark in front,
and tags in use that mark no bignum. -/
def FaithfulAt : Term → Prop
  | .text t => t.WellFormed ∧ t.units.head? ≠ some Text.mark
  | .tag number _ => KnownTag number ∧ number ≠ 2 ∧ number ≠ 3
  | _ => True

instance : DecidablePred FaithfulAt
  | .text t => inferInstanceAs (Decidable (t.WellFormed ∧ t.units.head? ≠ some Text.mark))
  | .tag number _ => inferInstanceAs (Decidable
      ((number ∈ [2, 3, 24, 30, 102, 258] ∨ 121 ≤ number ∧ number ≤ 127 ∨
        1280 ≤ number ∧ number ≤ 1400) ∧ number ≠ 2 ∧ number ≠ 3))
  | .int _ | .bytes _ | .bool _ | .null | .seq _ | .map _ => isTrue trivial

theorem FaithfulAt.of_alike (t u : Term) (halike : Term.Alike t u) (h : FaithfulAt t) :
    FaithfulAt u := by
  cases t <;> cases u <;> simp_all [Term.Alike, FaithfulAt]

theorem Item.term_ofInt (n : Int) : (Item.ofInt n).term = .int n := by
  cases n with
  | ofNat n =>
    rw [ofInt]
    split_ifs
    · rfl
    · show Term.int (Bytes.toNatBE (Bytes.ofNat n)) = .int n
      rw [Bytes.toNatBE_ofNat]
  | negSucc n =>
    rw [ofInt, ← neg_one_sub_eq_negSucc]
    split_ifs
    · rfl
    · show Term.int (-1 - (Bytes.toNatBE (Bytes.ofNat n) : Int)) = .int (-1 - n)
      rw [Bytes.toNatBE_ofNat]

theorem Item.term_ofTerm {t : Term} (h : Everywhere FaithfulAt t) : (Item.ofTerm t).term = t := by
  induction t with
  | int n => exact term_ofInt n
  | text t => exact congrArg Term.text (textOfContent_toUtf8 h.here.1 h.here.2)
  | seq ts ih =>
    obtain ⟨-, hts⟩ := Term.everywhere_seq_iff.1 h
    rw [ofTerm, term, terms_eq_map, ofItems_eq_map, List.map_map]
    apply congrArg Term.seq
    exact (List.map_congr_left fun t ht => ih t ht (hts t ht)).trans (List.map_id ts)
  | map es ih =>
    obtain ⟨-, hes⟩ := Term.everywhere_map_iff.1 h
    rw [ofTerm, term, termEntries_eq_map, ofEntries_eq_map, List.map_map]
    apply congrArg Term.map
    refine (List.map_congr_left fun e he => ?_).trans (List.map_id es)
    exact Prod.ext ((ih e he).1 (hes e he).1) ((ih e he).2 (hes e he).2)
  | tag number content ih =>
    obtain ⟨⟨-, htwo, hthree⟩, hcontent⟩ := Term.everywhere_tag_iff.1 h
    have hunsigned : ¬ number = unsignedBignumTag := htwo
    have hnegative : ¬ number = negativeBignumTag := hthree
    rw [ofTerm, term, if_neg hunsigned, if_neg hnegative, ih hcontent]
  | _ => rfl

theorem Item.strict_ofInt {n : Int} (h : FitsAt maxLength (.int n)) : Strict (Item.ofInt n) := by
  have hbignum {n : Nat} (hn : ¬ n ≤ maxArgument) (hlength : (Bytes.ofNat n).length ≤ maxLength)
      {number : Nat} (hnumber : number = 2 ∨ number = 3) :
      Strict (.tag number (.bytes (Bytes.ofNat n))) := by
    have hknown : KnownTag number := by
      rcases hnumber with rfl | rfl <;> exact .inl (by decide)
    have hdigits : 2 ^ 64 ≤ Bytes.toNatBE (Bytes.ofNat n) := by
      rw [Bytes.toNatBE_ofNat]
      rw [maxArgument] at hn
      omega
    refine everywhere_tag_iff.2 ⟨⟨hknown, fun _ => ⟨Bytes.ofNat n, rfl, ?_, hdigits⟩⟩, ?_⟩
    · exact Bytes.head?_ofNat n
    · exact .leaf hlength rfl
  cases n with
  | ofNat n =>
    rw [ofInt]
    split_ifs with hn
    · exact .leaf hn rfl
    · exact hbignum hn h (.inl rfl)
  | negSucc n =>
    rw [ofInt]
    split_ifs with hn
    · exact .leaf hn rfl
    · exact hbignum hn h (.inr rfl)

theorem Item.strictAt_ofTerm {t : Term} (hint : ∀ n, t ≠ .int n)
    (hfaithful : Everywhere FaithfulAt t) (hdistinct : DistinctAt t) (hfits : FitsAt maxLength t) :
    StrictAt (Item.ofTerm t) := by
  cases t with
  | int n => exact absurd rfl (hint n)
  | seq ts =>
    rw [ofTerm, ofItems_eq_map]
    show (ts.map ofTerm).length ≤ maxLength
    rw [List.length_map]
    exact hfits
  | map es =>
    obtain ⟨-, hes⟩ := Term.everywhere_map_iff.1 hfaithful
    rw [ofTerm, ofEntries_eq_map]
    refine ⟨?_, ?_⟩
    · rw [List.length_map]
      exact hfits
    · refine List.pairwise_map.2 (hdistinct.imp_of_mem fun {e f} he hf hef => ?_)
      rw [term_ofTerm (hes e he).1, term_ofTerm (hes f hf).1]
      exact hef
  | tag number content =>
    obtain ⟨hknown, htwo, hthree⟩ := hfaithful.here
    refine ⟨hknown, ?_⟩
    rintro (h | h)
    · exact absurd h htwo
    · exact absurd h hthree
  | bool b => exact trivial
  | null => exact trivial
  | _ => exact hfits

/-- The item of a term is strict if the term fits and no map repeats a key. -/
theorem Item.strict_ofTerm {t : Term} (hfaithful : Everywhere FaithfulAt t)
    (hdistinct : Everywhere DistinctAt t) (hfits : Everywhere (FitsAt maxLength) t) :
    Strict (Item.ofTerm t) :=
  everywhere_ofTerm (fun _ h => strict_ofInt h.2.2)
    (fun _ hint h => strictAt_ofTerm hint h.1 h.2.1 h.2.2)
    (hfaithful.everywhere.and (hdistinct.and hfits))

theorem AscendingAt.distinctAt {t : Term} (h : AscendingAt t) : DistinctAt t := by
  cases t with
  | map es =>
    apply h.2.imp
    rintro e f ⟨a, b, ha, hb, hlt⟩ hsame
    rw [ha, hb] at hsame
    exact (Bytes.cmp_eq_lt_iff.1 hlt).2 (Except.ok.inj hsame)
  | _ => exact trivial

/-- What is encoded is decoded to the one reordering whose keys ascend. -/
theorem decode_encode (path : Path) {p : Term} (hfaithful : Everywhere FaithfulAt p)
    (hdistinct : Everywhere DistinctAt p) (hfits : Everywhere (FitsAt maxLength) p) :
    ∃ bs q, encode p = .ok bs ∧ decode path bs = .ok q ∧
      ∀ r, r = q ↔ Term.Reordered p r ∧ Ascending r := by
  have hwritable : Everywhere (FitsAt maxArgument) p :=
    hfits.imp fun _ => FitsAt.mono (by decide)
  obtain ⟨q, bs, hq, hbs⟩ := exists_canonical (hwritable.and hdistinct)
  obtain ⟨hreordered, hascending⟩ := reordered_of_canonical hq
  have hqfaithful := hreordered.everywhere FaithfulAt.of_alike hfaithful
  have hqfits := hreordered.everywhere FitsAt.of_alike hfits
  have hqdistinct : Everywhere DistinctAt q := hascending.imp fun _ => AscendingAt.distinctAt
  have hstrict := Item.strict_ofTerm hqfaithful hqdistinct hqfits
  refine ⟨bs, q, encode_eq_ok_iff.2 ⟨q, hq, hbs⟩, ?_, ?_⟩
  · exact decode_eq_ok_iff.2
      ⟨Item.ofTerm q, writeTerm_eq_ok_iff.1 hbs, hstrict, Item.term_ofTerm hqfaithful⟩
  · intro r
    rw [← canonical_eq_ok_iff, hq, Except.ok.injEq, eq_comm]

/-- A map that lists a text before a smaller integer key. -/
def twoKeys : Term := .map [(.text "b", .int (2 ^ 64)), (.int 0, .null)]

theorem everywhere_twoKeys {P : Term → Prop} (hroot : P twoKeys) (htext : P (.text "b"))
    (hbig : P (.int (2 ^ 64))) (hzero : P (.int 0)) (hnull : P .null) : Everywhere P twoKeys := by
  refine Term.everywhere_map_iff.2 ⟨hroot, List.forall_mem_cons.2 ⟨⟨?_, ?_⟩, ?_⟩⟩
  · exact .leaf htext rfl
  · exact .leaf hbig rfl
  · exact List.forall_mem_singleton.2 ⟨.leaf hzero rfl, .leaf hnull rfl⟩

theorem decode_encode_twoKeys : Everywhere FaithfulAt twoKeys ∧ Everywhere DistinctAt twoKeys ∧
    Everywhere (FitsAt maxLength) twoKeys ∧ ∃ bs q, encode twoKeys = .ok bs ∧
      decode (.root "map") bs = .ok q ∧ ∀ r, r = q ↔ Term.Reordered twoKeys r ∧ Ascending r := by
  have hfaithful : Everywhere FaithfulAt twoKeys :=
    everywhere_twoKeys trivial ⟨by decide, by decide⟩ trivial trivial trivial
  have hkeys : encode (.text "b") ≠ encode (.int 0) := by
    have htext : encode (.text "b") = .ok [0x61, 0x62] := rfl
    have hzero : encode (.int 0) = .ok [0] := rfl
    simp [htext, hzero]
  have hdistinct : Everywhere DistinctAt twoKeys :=
    everywhere_twoKeys (List.pairwise_pair.2 hkeys) trivial trivial trivial trivial
  have hfits : Everywhere (FitsAt maxLength) twoKeys :=
    everywhere_twoKeys (show 2 ≤ maxLength by decide) (show 1 ≤ maxLength by decide)
      (show 9 ≤ maxLength by decide) (show 0 ≤ maxLength by decide) trivial
  exact ⟨hfaithful, hdistinct, hfits, decode_encode (.root "map") hfaithful hdistinct hfits⟩

end Eutxo.Cbor

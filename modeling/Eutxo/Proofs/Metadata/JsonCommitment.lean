import Eutxo.Proofs.Cbor.Canonicity
import Eutxo.Proofs.Metadata.Auxiliary
import Eutxo.Proofs.Metadata.JsonTree

/-!
# JSON put into auxiliary data

Whatever is taken from JSON is a metadatum, so auxiliary data accepts it under
any label.  It can be written, and so has a hash, unless two names in one object
stand for the same key: names differ that spell the same bytes with digits of
different case, or texts whose stray surrogates are replaced alike.
-/

namespace Eutxo

open Traversal Term Cbor

namespace NoSchema

/-- The names stand for the same key: for the same bytes, or for texts that are written alike. -/
def SameKey (s t : Text) : Prop :=
  match bytesOfText? s, bytesOfText? t with
  | some a, some b => a = b
  | none, none => s.toUtf8 = t.toUtf8
  | _, _ => False

instance (s t : Text) : Decidable (SameKey s t) := by
  unfold SameKey
  split <;> infer_instance

/-- No two names of an object stand for the same key. -/
def NamesApartAt : NoSchema → Prop
  | .object ms => ms.Pairwise fun m n => ¬ SameKey m.1 n.1
  | _ => True

instance : DecidablePred NamesApartAt
  | .object ms => inferInstanceAs (Decidable (ms.Pairwise fun m n => ¬ SameKey m.1 n.1))
  | .text _ | .number _ | .list _ => inferInstanceAs (Decidable True)

/-! ## What is taken from JSON is metadata -/

theorem everywhere_stringToTerm {P : Term → Prop}
    (hbytes : ∀ bs : Bytes, bs.length ≤ maxMetadatumSize → P (.bytes bs))
    (htext : ∀ t : Text, t.toUtf8.length ≤ maxMetadatumSize → P (.text t)) {t : Text} {u : Term}
    (h : stringToTerm t = .ok u) : Everywhere P u := by
  rcases stringToTerm_eq_ok_iff.1 h with ⟨bs, -, hsize, rfl⟩ | ⟨-, hsize, rfl⟩
  · exact .leaf (hbytes bs hsize) rfl
  · exact .leaf (htext t hsize) rfl

theorem nodeAt_of_toTerm {j : NoSchema} {t : Term} (h : toTerm j = .ok t) :
    Everywhere Metadatum.NodeAt t := by
  have hname {s : Text} {u : Term} : stringToTerm s = .ok u → Everywhere Metadatum.NodeAt u :=
    everywhere_stringToTerm (fun _ h => h) (fun _ h => h)
  induction j generalizing t with
  | text s => exact hname h
  | number n =>
    obtain ⟨i, -, rfl⟩ := toTerm_number_eq_ok_iff.1 h
    exact .leaf trivial rfl
  | list js ih =>
    obtain ⟨ts, rfl, hitems⟩ := toTerm_list_eq_ok_iff.1 h
    refine everywhere_seq_iff.2 ⟨trivial, fun t ht => ?_⟩
    obtain ⟨j, hj, hjt⟩ := exists_mem_of_forall₂ hitems t ht
    exact ih j hj hjt
  | object ms ih =>
    obtain ⟨es, rfl, hentries⟩ := toTerm_object_eq_ok_iff.1 h
    refine everywhere_map_iff.2 ⟨trivial, fun e he => ?_⟩
    obtain ⟨m, hm, hkey, hvalue⟩ := exists_mem_of_forall₂ hentries e he
    exact ⟨hname hkey, ih m hm hvalue⟩

/-- Auxiliary data accepts under any label what was taken from JSON. -/
theorem exists_ofEntries {j : NoSchema} {t : Term} (h : toTerm j = .ok t) (label : Nat) :
    ∃ a, AuxiliaryData.ofEntries [(label, t)] = .ok a ∧ a.toTerm = .map [(.int label, t)] := by
  have hproblem := Metadatum.problem?_eq_none_iff.2 (nodeAt_of_toTerm h)
  refine ⟨⟨⟨[(label, t)], by simp⟩, by simpa using hproblem⟩, ?_, rfl⟩
  exact AuxiliaryData.ofEntries_eq_ok_iff.2 rfl

/-! ## What is taken from JSON can be written -/

theorem encode_leaf_eq_iff {k l : Term} (hk : canonical k = .ok k) (hl : canonical l = .ok l)
    (hfits : Everywhere (FitsAt maxArgument) k) :
    encode k = encode l ↔ Item.ofTerm k = Item.ofTerm l := by
  rw [encode, encode, hk, hl, ok_bind, ok_bind]
  constructor
  · intro hsame
    obtain ⟨bs, hbs⟩ := exists_writeTerm hfits
    exact Item.eq_of_write?_eq (Item.plain_ofTerm k) (Item.plain_ofTerm l)
      (writeTerm_eq_ok_iff.1 hbs) (writeTerm_eq_ok_iff.1 (hsame ▸ hbs))
  · intro hsame
    rw [writeTerm, writeTerm, hsame]

/-- Names stand for the same key exactly if the keys have one encoding. -/
theorem encode_eq_iff_sameKey {s t : Text} {k l : Term} (hk : stringToTerm s = .ok k)
    (hl : stringToTerm t = .ok l) : encode k = encode l ↔ SameKey s t := by
  have hfits : Everywhere (FitsAt maxArgument) k :=
    everywhere_stringToTerm (fun bs h => h.trans (by decide)) (fun t h => h.trans (by decide)) hk
  rw [SameKey]
  rcases stringToTerm_eq_ok_iff.1 hk with ⟨a, ha, -, rfl⟩ | ⟨ha, -, rfl⟩ <;>
    rcases stringToTerm_eq_ok_iff.1 hl with ⟨b, hb, -, rfl⟩ | ⟨hb, -, rfl⟩
  all_goals
    rw [encode_leaf_eq_iff rfl rfl hfits, ha, hb]
    simp [Item.ofTerm]

/-- The maps of what is taken from JSON have no two keys of one encoding exactly if no two names
stand for the same key. -/
theorem distinct_iff_namesApart {j : NoSchema} {t : Term} (h : toTerm j = .ok t) :
    Everywhere NamesApartAt j ↔ Everywhere DistinctAt t := by
  have hname {s : Text} {u : Term} : stringToTerm s = .ok u → Everywhere DistinctAt u :=
    everywhere_stringToTerm (fun _ _ => trivial) (fun _ _ => trivial)
  induction j generalizing t with
  | text s => exact iff_of_true (.leaf trivial rfl) (hname h)
  | number n =>
    obtain ⟨i, -, rfl⟩ := toTerm_number_eq_ok_iff.1 h
    exact iff_of_true (.leaf trivial rfl) (.leaf trivial rfl)
  | list js ih =>
    obtain ⟨ts, rfl, hitems⟩ := toTerm_list_eq_ok_iff.1 h
    rw [everywhere_list_iff, everywhere_seq_iff]
    exact and_congr_right fun _ => forall_mem_iff_of_forall₂ (fun j hj t => ih j hj) hitems
  | object ms ih =>
    obtain ⟨es, rfl, hentries⟩ := toTerm_object_eq_ok_iff.1 h
    rw [everywhere_object_iff, everywhere_map_iff]
    apply and_congr
    · apply pairwise_iff_of_forall₂ _ hentries
      intro m n e f hm hn
      exact not_congr (encode_eq_iff_sameKey hm.1 hn.1).symm
    · apply forall_mem_iff_of_forall₂ _ hentries
      intro m hm e he
      exact (ih m hm he.2).trans (and_iff_right (hname he.1)).symm

/-- Auxiliary data accepts under any label what was taken from JSON.  It can be written exactly if
in no object two names stand for the same key, and else fails as an encoder does.  What is asked of
lengths holds of every list and every object. -/
theorem toCbor_ofEntries {j : NoSchema} {t : Term} (h : toTerm j = .ok t) {label : Nat}
    (hlabel : FitsAt maxArgument (.int label)) (hfits : Everywhere (FitsAt maxArgument) t) :
    ∃ a, AuxiliaryData.ofEntries [(label, t)] = .ok a ∧
      ((∃ bs, Codec.toCbor a = .ok bs ∧ a.hash = .ok (.hash bs)) ↔ Everywhere NamesApartAt j) ∧
      ∀ fault, Codec.toCbor a = .error fault → fault.kind = .serialize := by
  obtain ⟨a, ha, hterm⟩ := exists_ofEntries h label
  have hall {P : Term → Prop} (hmap : P (.map [(.int label, t)])) (hint : P (.int label)) :
      Everywhere P a.toTerm ↔ Everywhere P t := by
    rw [hterm, everywhere_map_iff, and_iff_right hmap, List.forall_mem_singleton]
    exact and_iff_right (.leaf hint rfl)
  refine ⟨a, ha, ?_, fun fault hfault => kind_of_encode hfault⟩
  have hhash : (∃ bs, Codec.toCbor a = .ok bs ∧ a.hash = .ok (.hash bs)) ↔
      ∃ bs, encode a.toTerm = .ok bs :=
    exists_congr fun bs => and_iff_left_of_imp fun hbs => bind_eq_ok.2 ⟨bs, hbs, rfl⟩
  have hroot : FitsAt maxArgument (.map [(.int label, t)]) := (by decide : 1 ≤ maxArgument)
  have hsingle : DistinctAt (.map [(.int label, t)]) := List.pairwise_singleton _ _
  rw [hhash, exists_encode_iff_distinct, hall hroot hlabel, hall hsingle trivial,
    and_iff_right hfits, distinct_iff_namesApart h]

/-- An object with a name that stands for bytes and one that stands for itself. -/
def digits : NoSchema := .object [("0xAB", .number (.integer 1)), ("ab", .list [.text "0x"])]

theorem toCbor_ofEntries_digits : ∃ t, toTerm digits = .ok t ∧
    FitsAt maxArgument (.int (674 : Nat)) ∧ Everywhere (FitsAt maxArgument) t ∧
      ∃ a bs, AuxiliaryData.ofEntries [((674 : Nat), t)] = .ok a ∧ Codec.toCbor a = .ok bs ∧
        a.hash = .ok (.hash bs) := by
  obtain ⟨t, ht⟩ : ∃ t, toTerm digits = .ok t := ⟨_, rfl⟩
  have hlabel : FitsAt maxArgument (.int (674 : Nat)) := by decide
  have hfits : Everywhere (FitsAt maxArgument) t := by
    cases ht
    decide
  have hnames : Everywhere NamesApartAt digits := by
    refine everywhere_object_iff.2 ⟨by decide, ?_⟩
    simp only [List.forall_mem_cons]
    refine ⟨.leaf trivial rfl, everywhere_list_iff.2 ⟨trivial, ?_⟩, nofun⟩
    exact List.forall_mem_singleton.2 (.leaf trivial rfl)
  obtain ⟨a, ha, hwritten, -⟩ := toCbor_ofEntries ht hlabel hfits
  obtain ⟨bs, hbs, hhash⟩ := hwritten.2 hnames
  exact ⟨t, ht, hlabel, hfits, a, bs, ha, hbs, hhash⟩

/-- An object with two names for the same byte. -/
def bothCases : NoSchema :=
  .object [("0xAB", .number (.integer 1)), ("0xab", .number (.integer 2))]

/-- Not all that is taken from JSON can be written, although each name occurs once. -/
theorem not_toCbor_ofEntries : ¬ ∀ (j : NoSchema) (t : Term) (label : Nat),
    Everywhere ListedAt j → toTerm j = .ok t →
      ∃ a bs, AuxiliaryData.ofEntries [(label, t)] = .ok a ∧ Codec.toCbor a = .ok bs := by
  intro hall
  have hlisted : Everywhere ListedAt bothCases := by
    refine everywhere_object_iff.2 ⟨by decide, ?_⟩
    simp only [List.forall_mem_cons]
    exact ⟨.leaf trivial rfl, .leaf trivial rfl, nofun⟩
  have hbuilt : (AuxiliaryData.ofEntries [((1 : Nat), .map [(.bytes [0xAB], .int 1),
      (.bytes [0xAB], .int 2)])] >>= Codec.toCbor) = .error (.repeatedKey [0x41, 0xAB]) := rfl
  have hread : toTerm bothCases = .ok (.map [(.bytes [0xAB], .int 1), (.bytes [0xAB], .int 2)]) :=
    rfl
  obtain ⟨a, bs, ha, hbs⟩ := hall bothCases _ 1 hlisted hread
  rw [ha, ok_bind, hbs] at hbuilt
  cases hbuilt

end NoSchema

end Eutxo

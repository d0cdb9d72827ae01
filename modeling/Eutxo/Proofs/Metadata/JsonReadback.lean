import Eutxo.Proofs.Metadata.JsonTree
import Eutxo.Proofs.Text.Hex

/-!
# JSON shown as it was given

Metadata that was taken from JSON is shown as the same JSON, the order of members
included.  Only what the metadata does not keep has to be excluded: the case of
hexadecimal digits and the sign of zero.
-/

namespace Eutxo

open Traversal

namespace NoSchema

/-- If the text stands for bytes, none of its digits is a capital letter. -/
def LowerHex (t : Text) : Prop :=
  (bytesOfText? t).isSome = true → ∀ u ∈ t.units, ¬ (0x41 ≤ u.toNat ∧ u.toNat ≤ 0x46)

instance (t : Text) : Decidable (LowerHex t) :=
  -- The units of the text are searched, not all units that there are.
  have : Decidable (∀ u ∈ t.units, ¬ (0x41 ≤ u.toNat ∧ u.toNat ≤ 0x46)) :=
    List.decidableBAll (fun u => ¬ (0x41 ≤ u.toNat ∧ u.toNat ≤ 0x46)) t.units
  inferInstanceAs (Decidable (_ → _))

/-- A node of JSON that metadata keeps: no digit of bytes is a capital letter, no zero has a sign,
and members stand as an object lists them. -/
def KeptAt : NoSchema → Prop
  | .text t => LowerHex t
  | .number n => n ≠ .negativeZero
  | .list _ => True
  | .object ms => Json.Listed ms ∧ ∀ m ∈ ms, LowerHex m.1

instance : DecidablePred KeptAt
  | .text t => inferInstanceAs (Decidable (LowerHex t))
  | .number n => inferInstanceAs (Decidable (n ≠ .negativeZero))
  | .list _ => inferInstanceAs (Decidable True)
  | .object ms => inferInstanceAs (Decidable (Json.Listed ms ∧ ∀ m ∈ ms, LowerHex m.1))

/-- The mark of bytes with their digits behind it is the text that stood for them. -/
theorem hexText_of_bytesOfText? {t : Text} {bs : Bytes} (h : bytesOfText? t = some bs)
    (hlower : LowerHex t) : "0x" ++ bs.toHex = t := by
  have hdigits := hlower (by rw [h]; rfl)
  rw [bytesOfText?] at h
  split_ifs at h with hmark
  have hrest : ∀ u ∈ (t.drop 2).units, ¬ (0x41 ≤ u.toNat ∧ u.toNat ≤ 0x46) :=
    fun u hu => hdigits u (List.mem_of_mem_drop hu)
  have hunits : [0x30, 0x78] ++ t.units.drop 2 = t.units := by
    rw [← hmark, List.take_append_drop]
  rw [Bytes.toHex_of_ofHex? h hrest]
  exact congrArg Text.mk hunits

/-- A text is shown as it was given, as a value and as a name. -/
theorem ofTerm_stringToTerm {t : Text} {u : Term} (hlower : LowerHex t)
    (h : stringToTerm t = .ok u) : ofTerm u = .ok (.text t) := by
  rcases stringToTerm_eq_ok_iff.1 h with ⟨bs, hbs, -, rfl⟩ | ⟨-, -, rfl⟩
  · rw [ofTerm, hexText_of_bytesOfText? hbs hlower]
  · rw [ofTerm]

theorem ofTerm_safeInteger {n : Number} {i : Int} (hzero : n ≠ .negativeZero)
    (h : n.safeInteger? = some i) : ofTerm (.int i) = .ok (.number n) := by
  obtain ⟨hinteger, hsafe⟩ := Option.filter_eq_some_iff.1 h
  have hsafe := of_decide_eq_true hsafe
  cases n with
  | integer m =>
    cases hinteger
    rw [ofTerm, if_pos hsafe]
  | negativeZero => exact (hzero rfl).elim
  | _ => cases hinteger

/-- Metadata that was taken from JSON is shown as the same JSON. -/
theorem ofTerm_toTerm {j : NoSchema} {t : Term} (hkept : Everywhere KeptAt j)
    (h : toTerm j = .ok t) : ofTerm t = .ok j := by
  induction j generalizing t with
  | text s => exact ofTerm_stringToTerm hkept.here h
  | number n =>
    obtain ⟨i, hi, rfl⟩ := toTerm_number_eq_ok_iff.1 h
    exact ofTerm_safeInteger hkept.here hi
  | list js ih =>
    obtain ⟨ts, rfl, hitems⟩ := toTerm_list_eq_ok_iff.1 h
    have hback : ∀ j ∈ js, ∀ t, toTerm j = .ok t → ofTerm t = .ok j :=
      fun j hj t => ih j hj ((everywhere_list_iff.1 hkept).2 j hj)
    have hmatch := (List.forall₂_and_left _ _).2 ⟨hback, hitems⟩
    exact ofTerm_seq_eq_ok_iff.2 ⟨js, rfl, (hmatch.imp fun j t h => h.1 t h.2).flip⟩
  | object ms ih =>
    obtain ⟨es, rfl, hentries⟩ := toTerm_object_eq_ok_iff.1 h
    obtain ⟨⟨hlisted, hlower⟩, hkept⟩ := everywhere_object_iff.1 hkept
    have hback : ∀ m ∈ ms, ∀ e, EntryOf m e → MemberOf e m := by
      rintro m hm e ⟨hkey, hvalue⟩
      exact ⟨⟨.text m.1, ofTerm_stringToTerm (hlower m hm) hkey, rfl⟩, ih m hm (hkept m hm) hvalue⟩
    have hmatch := (List.forall₂_and_left _ _).2 ⟨hback, hentries⟩
    refine ofTerm_map_eq_ok_iff.2 ⟨ms, ?_, (hmatch.imp fun m e h => h.1 e h.2).flip⟩
    rw [ofPairs, Json.membersOfPairs_eq_self hlisted]

/-- An object with an array index for a name, bytes as a name and a value, and digits that stand
for no bytes. -/
def inventory : NoSchema :=
  .object [("7", .number (.integer (-1))), ("name", .text "0xbeef"),
    ("0x", .list [.text "AB", .object []])]

theorem ofTerm_toTerm_inventory : Everywhere KeptAt inventory ∧
    ∃ t, toTerm inventory = .ok t ∧ ofTerm t = .ok inventory := by
  have hkept : Everywhere KeptAt inventory := by
    refine everywhere_object_iff.2 ⟨by decide, ?_⟩
    simp only [List.forall_mem_cons]
    refine ⟨.leaf (by decide) rfl, .leaf (by decide) rfl, ?_, nofun⟩
    refine everywhere_list_iff.2 ⟨trivial, ?_⟩
    simp only [List.forall_mem_cons]
    exact ⟨.leaf (by decide) rfl, .leaf (by decide) rfl, nofun⟩
  exact ⟨hkept, _, rfl, ofTerm_toTerm hkept rfl⟩

end NoSchema

end Eutxo

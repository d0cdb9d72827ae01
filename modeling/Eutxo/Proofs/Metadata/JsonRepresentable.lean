import Eutxo.Proofs.Cbor.KeyOrder
import Eutxo.Proofs.Metadata.Auxiliary
import Eutxo.Proofs.Metadata.JsonTree
import Eutxo.Proofs.Text.Hex

/-!
# Metadata that JSON represents

JSON without a schema has numbers for safe integers alone, names members by texts,
and tells bytes from texts by their looks.  A metadatum that stays within these
limits is given back by the JSON that shows it.  Only the order of map entries can
change, because objects put array indices first.
-/

namespace Eutxo

open Traversal Term

namespace Text

/-- What is read as whole bytes is an even number of hexadecimal digits. -/
theorem isSome_bytesOfHexUnits_iff {us : List UInt16} :
    (bytesOfHexUnits us).isSome = true ↔
      us.length % 2 = 0 ∧ ∀ u ∈ us, (hexValue? u).isSome = true := by
  induction us using bytesOfHexUnits.induct with
  | case1 => simp [bytesOfHexUnits]
  | case2 u => simp [bytesOfHexUnits]
  | case3 u v rest ih =>
    rw [bytesOfHexUnits, List.forall_mem_cons, List.forall_mem_cons, List.length_cons,
      List.length_cons, Nat.add_assoc, Nat.add_mod_right]
    cases hexValue? u with
    | none => simp
    | some high =>
      cases hexValue? v with
      | none => simp
      | some low =>
        cases hrest : bytesOfHexUnits rest <;> simp [hrest] at ih ⊢ <;> tauto

end Text

namespace NoSchema

/-- The text is the mark of bytes and an even number of hexadecimal digits of either case. -/
def HexText (t : Text) : Prop :=
  ∃ us, t.units = [0x30, 0x78] ++ us ∧ us.length % 2 = 0 ∧
    ∀ u ∈ us, (Text.hexValue? u).isSome = true

/-- Just these texts stand for bytes. -/
theorem bytesOfText?_eq_none_iff {t : Text} : bytesOfText? t = none ↔ ¬ HexText t := by
  rw [bytesOfText?]
  split_ifs with hmark
  · have hunits : t.units = [0x30, 0x78] ++ t.units.drop 2 := by
      rw [← hmark, List.take_append_drop]
    rw [← Option.not_isSome_iff_eq_none]
    show ¬ (Text.bytesOfHexUnits (t.units.drop 2)).isSome = true ↔ _
    rw [Text.isSome_bytesOfHexUnits_iff, not_iff_not]
    constructor
    · exact fun hdigits => ⟨_, hunits, hdigits⟩
    · rintro ⟨us, hus, hdigits⟩
      rw [hus]
      exact hdigits
  · refine iff_of_true rfl ?_
    rintro ⟨us, hus, -⟩
    exact hmark (by rw [hus]; rfl)

instance (t : Text) : Decidable (HexText t) :=
  decidable_of_iff (¬ bytesOfText? t = none) (by rw [bytesOfText?_eq_none_iff, not_not])

/-- The key has a name that tells it: it is a text or bytes. -/
def NamedKey : Term → Prop
  | .bytes _ | .text _ => True
  | _ => False

instance : DecidablePred NamedKey
  | .bytes _ | .text _ => inferInstanceAs (Decidable True)
  | .int _ | .seq _ | .map _ | .tag _ _ | .bool _ | .null => inferInstanceAs (Decidable False)

/-- A node that JSON without a schema represents: a safe integer, a text that does not look like
bytes, or a map whose keys are different texts and bytes. -/
def RepresentableAt : Term → Prop
  | .int n => n.natAbs ≤ Number.maxSafe
  | .text t => ¬ HexText t
  | .map es => (es.map Prod.fst).Nodup ∧ ∀ e ∈ es, NamedKey e.1
  | _ => True

instance : DecidablePred RepresentableAt
  | .int n => inferInstanceAs (Decidable (n.natAbs ≤ Number.maxSafe))
  | .text t => inferInstanceAs (Decidable (¬ HexText t))
  | .map es => inferInstanceAs (Decidable ((es.map Prod.fst).Nodup ∧ ∀ e ∈ es, NamedKey e.1))
  | .bytes _ | .seq _ | .tag _ _ | .bool _ | .null => inferInstanceAs (Decidable True)

/-- Bytes and texts of a metadatum are given back by the text that shows them, which is also their
name. -/
theorem exists_text_of_namedKey {k : Term} (hkey : NamedKey k) (hnode : Metadatum.NodeAt k)
    (h : RepresentableAt k) : ∃ t, ofTerm k = .ok (.text t) ∧ stringToTerm t = .ok k := by
  cases k with
  | bytes bs =>
    have hmark : bytesOfText? ("0x" ++ bs.toHex) = some bs := Bytes.ofHex?_toHex bs
    exact ⟨_, rfl, stringToTerm_eq_ok_iff.2 (.inl ⟨bs, hmark, hnode, rfl⟩)⟩
  | text t =>
    have hnone := bytesOfText?_eq_none_iff.2 h
    exact ⟨t, rfl, stringToTerm_eq_ok_iff.2 (.inr ⟨hnone, hnode, rfl⟩)⟩
  | _ => exact hkey.elim

/-- The JSON value that shows the metadatum `t` stands for the metadatum `u`, which says the
same. -/
def ComesBackAs (t : Term) (j : NoSchema) (u : Term) : Prop :=
  ofTerm t = .ok j ∧ toTerm j = .ok u ∧ Reordered t u

/-- The member shows the entry `e` and stands for the entry `f`, which has the same key. -/
def EntryComesBackAs (e : Term × Term) (m : Text × NoSchema) (f : Term × Term) : Prop :=
  MemberOf e m ∧ EntryOf m f ∧ e.1 = f.1 ∧ Reordered e.2 f.2

/-- A map comes back if its entries do.  Their members get different names, so that the object has
all of them, though in an order of its own. -/
theorem exists_map_comesBack {es : List (Term × Term)} (hkeys : (es.map Prod.fst).Nodup)
    (h : ∀ e ∈ es, ∃ m f, EntryComesBackAs e m f) : ∃ j u, ComesBackAs (.map es) j u := by
  obtain ⟨xs, hxs⟩ := exists_forall₂ (R := fun e (x : (Text × NoSchema) × Term × Term) =>
    EntryComesBackAs e x.1 x.2) fun e he => by
      obtain ⟨m, f, hmf⟩ := h e he
      exact ⟨(m, f), hmf⟩
  have hmembers : List.Forall₂ MemberOf es (xs.map Prod.fst) :=
    List.forall₂_map_right_iff.2 (hxs.imp fun e x hx => hx.1)
  have hread : List.Forall₂ EntryOf (xs.map Prod.fst) (xs.map Prod.snd) := by
    rw [List.forall₂_map_left_iff, List.forall₂_map_right_iff, List.forall₂_same]
    intro x hx
    obtain ⟨e, -, -, hentry, -⟩ := exists_mem_of_forall₂ hxs x hx
    exact hentry
  have hentries : Reordered (.map es) (.map (xs.map Prod.snd)) := by
    refine .map (List.forall₂_map_right_iff.2 (hxs.imp ?_))
    rintro e x ⟨-, -, hkey, hvalue⟩
    exact ⟨hkey ▸ .refl _, hvalue⟩
  have hnames : ((xs.map Prod.fst).map Prod.fst).Nodup := by
    rw [List.map_map]
    refine List.pairwise_map.2 (pairwise_of_forall₂ ?_ hxs (List.pairwise_map.1 hkeys))
    rintro d e x y ⟨-, ⟨hx, -⟩, hdx, -⟩ ⟨-, ⟨hy, -⟩, hey, -⟩ hne hname
    -- Members of one name would stand for one key.
    rw [Function.comp, Function.comp] at hname
    rw [hname, hy] at hx
    exact hne (hdx.trans ((Except.ok.inj hx).symm.trans hey.symm))
  obtain ⟨fs, hfs, hperm⟩ := List.perm_comp_forall₂ (Json.membersOfPairs_perm hnames) hread
  exact ⟨_, _, ofTerm_map_eq_ok_iff.2 ⟨_, rfl, hmembers⟩, toTerm_object_eq_ok_iff.2 ⟨fs, rfl, hfs⟩,
    .trans hentries (.permute hperm.symm)⟩

theorem exists_comesBack {p : Term} (hp : Everywhere Metadatum.NodeAt p)
    (h : Everywhere RepresentableAt p) : ∃ j q, ComesBackAs p j q := by
  induction p with
  | int n =>
    have hsafe : n.natAbs ≤ Number.maxSafe := h.here
    have hnumber : (Number.integer n).safeInteger? = some n :=
      Option.filter_eq_some_iff.2 ⟨rfl, decide_eq_true hsafe⟩
    refine ⟨.number (.integer n), .int n, ?_, toTerm_number_eq_ok_iff.2 ⟨n, hnumber, rfl⟩, .refl _⟩
    rw [ofTerm, if_pos hsafe]
  | bytes bs =>
    obtain ⟨t, ht, hback⟩ := exists_text_of_namedKey (k := .bytes bs) trivial hp.here h.here
    exact ⟨_, _, ht, hback, .refl _⟩
  | text t =>
    obtain ⟨t, ht, hback⟩ := exists_text_of_namedKey (k := .text t) trivial hp.here h.here
    exact ⟨_, _, ht, hback, .refl _⟩
  | seq ts ih =>
    have hitems : ∀ t ∈ ts, ∃ x : NoSchema × Term, ComesBackAs t x.1 x.2 := by
      intro t ht
      obtain ⟨j, u, hu⟩ := ih t ht ((everywhere_seq_iff.1 hp).2 t ht)
        ((everywhere_seq_iff.1 h).2 t ht)
      exact ⟨(j, u), hu⟩
    obtain ⟨xs, hxs⟩ := exists_forall₂ hitems
    refine ⟨.list (xs.map Prod.fst), .seq (xs.map Prod.snd),
      ofTerm_seq_eq_ok_iff.2 ⟨_, rfl, ?_⟩, toTerm_list_eq_ok_iff.2 ⟨_, rfl, ?_⟩, .seq ?_⟩
    · exact List.forall₂_map_right_iff.2 (hxs.imp fun t x hx => hx.1)
    · rw [List.forall₂_map_left_iff, List.forall₂_map_right_iff, List.forall₂_same]
      intro x hx
      obtain ⟨t, -, -, hback, -⟩ := exists_mem_of_forall₂ hxs x hx
      exact hback
    · exact List.forall₂_map_right_iff.2 (hxs.imp fun t x hx => hx.2.2)
  | map es ih =>
    obtain ⟨-, hnodes⟩ := everywhere_map_iff.1 hp
    obtain ⟨⟨hkeys, hnamed⟩, hbelow⟩ := everywhere_map_iff.1 h
    refine exists_map_comesBack hkeys fun e he => ?_
    obtain ⟨name, hname, hkey⟩ :=
      exists_text_of_namedKey (hnamed e he) (hnodes e he).1.here (hbelow e he).1.here
    obtain ⟨j, v, hj, hv, hvalue⟩ := (ih e he).2 (hnodes e he).2 (hbelow e he).2
    exact ⟨(name, j), (e.1, v), ⟨⟨_, hname, rfl⟩, hj⟩, ⟨hkey, hv⟩, rfl, hvalue⟩
  | bool b => exact hp.here.elim
  | null => exact hp.here.elim
  | tag number content => exact hp.here.elim

/-- A metadatum that JSON represents is shown, and what it is shown as stands for the same
metadatum up to the order of map entries, and so for one with the same bytes. -/
theorem exists_toTerm_ofTerm {p : Term} (hp : Metadatum.problem? p = none)
    (h : Everywhere RepresentableAt p) : ∃ j q, ofTerm p = .ok j ∧ toTerm j = .ok q ∧
      Reordered p q ∧ ∀ bs, Cbor.encode p = .ok bs ↔ Cbor.encode q = .ok bs := by
  obtain ⟨j, q, hj, hq, hpq⟩ := exists_comesBack (Metadatum.problem?_eq_none_iff.1 hp) h
  exact ⟨j, q, hj, hq, hpq,
    fun _ => ⟨Cbor.encode_of_reordered hpq, Cbor.encode_of_reordered hpq.symm⟩⟩

/-- Keys that are array indices, one of them behind bytes, and a text that is no bytes for want of a
digit. -/
def cabinet : Term :=
  .map [(.text "2", .int (-1)), (.bytes [0xAB], .seq [.text "0xa", .bytes []]),
    (.text "1", .map [(.text "b", .int 0), (.text "0", .int 1)])]

theorem exists_toTerm_ofTerm_cabinet : Metadatum.problem? cabinet = none ∧
    Everywhere RepresentableAt cabinet ∧ ∃ j q, ofTerm cabinet = .ok j ∧ toTerm j = .ok q ∧
      Reordered cabinet q ∧ ∀ bs, Cbor.encode cabinet = .ok bs ↔ Cbor.encode q = .ok bs := by
  have hproblem : Metadatum.problem? cabinet = none := by decide
  have hrepresentable : Everywhere RepresentableAt cabinet := by decide
  exact ⟨hproblem, hrepresentable, exists_toTerm_ofTerm hproblem hrepresentable⟩

end NoSchema

end Eutxo

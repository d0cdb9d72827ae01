import Eutxo.Proofs.Cbor.Acceptance
import Eutxo.Proofs.Json.RoundTrip
import Eutxo.Proofs.Metadata.Auxiliary
import Eutxo.Proofs.Metadata.JsonTree
import Eutxo.Proofs.Text.Hex

/-!
# Map entries shown as members

A map is shown as an object with one member for each name that a key has.  Keys
of different kinds can have one name, and so can sequences or maps that are shown
alike: of such entries the last one is shown.  All other entries have members of
their own.
-/

namespace Eutxo

open Traversal Term

namespace NoSchema

/-! ## Names of keys -/

/-- The text is the name of a key that is no text: decimal digits, hexadecimal digits, or the text
of the JSON value that shows the key. -/
def Names (name : Text) : Term → Prop
  | .int n => name = Text.ofInt n
  | .bytes bs => name = "0x" ++ bs.toHex
  | .seq ts => ∃ j, ofTerm (.seq ts) = .ok j ∧ name = j.toJson.render
  | .map es => ∃ j, ofTerm (.map es) = .ok j ∧ name = j.toJson.render
  | .text _ | .bool _ | .null | .tag _ _ => False

/-- Different keys have one name: a text is the name of the other, or both are sequences or both
maps that are shown alike. -/
inductive Clash : Term → Term → Prop
  | named {name : Text} {k : Term} : Names name k → Clash (.text name) k
  | naming {name : Text} {k : Term} : Names name k → Clash k (.text name)
  | seqs {ts us : List Term} {j : NoSchema} :
    ofTerm (.seq ts) = .ok j → ofTerm (.seq us) = .ok j → Clash (.seq ts) (.seq us)
  | maps {es fs : List (Term × Term)} {j : NoSchema} :
    ofTerm (.map es) = .ok j → ofTerm (.map fs) = .ok j → Clash (.map es) (.map fs)

/-! ## Values -/

theorem toJson_injective : Function.Injective toJson := by
  intro i
  induction i with
  | text t =>
    intro j h
    cases j <;> simp_all [toJson]
  | number n =>
    intro j h
    cases j <;> simp_all [toJson]
  | list is ih =>
    intro j h
    cases j with
    | list js =>
      rw [toJson_list, toJson_list] at h
      exact congrArg list (eq_of_map_eq (fun i hi => @ih i hi) (Json.array.inj h))
    | _ => simp [toJson] at h
  | object ms ih =>
    intro j h
    cases j with
    | object ns =>
      rw [toJson_object, toJson_object] at h
      refine congrArg object (eq_of_map_eq (fun m hm n hmn => ?_) (Json.object.inj h))
      obtain ⟨hname, hvalue⟩ := Prod.mk.inj hmn
      exact Prod.ext hname (ih m hm hvalue)
    | _ => simp [toJson] at h

/-- Whatever shows a metadatum is given back by its text. -/
theorem exact_toJson {t : Term} {j : NoSchema} (h : ofTerm t = .ok j) :
    Everywhere Json.ExactAt j.toJson := by
  induction t generalizing j with
  | int n =>
    cases h
    split_ifs with hsafe
    · exact .leaf ⟨n, hsafe, rfl⟩ rfl
    · exact .leaf trivial rfl
  | bytes bs =>
    cases h
    exact .leaf trivial rfl
  | text s =>
    cases h
    exact .leaf trivial rfl
  | seq ts ih =>
    obtain ⟨js, rfl, hitems⟩ := ofTerm_seq_eq_ok_iff.1 h
    rw [toJson_list, Json.everywhere_array_iff, List.forall_mem_map]
    refine ⟨trivial, fun j hj => ?_⟩
    obtain ⟨t, ht, htj⟩ := exists_mem_of_forall₂ hitems j hj
    exact ih t ht htj
  | map es ih =>
    obtain ⟨pairs, rfl, hmembers⟩ := ofTerm_map_eq_ok_iff.1 h
    rw [ofPairs, toJson_object, Json.everywhere_object_iff, List.forall_mem_map]
    refine ⟨(Json.listed_membersOfPairs pairs).map toJson, fun m hm => ?_⟩
    obtain ⟨before, after, rfl, -⟩ := Json.mem_membersOfPairs_iff.1 hm
    obtain ⟨e, he, -, hvalue⟩ := exists_mem_of_forall₂ hmembers m (by simp)
    exact (ih e he).2 hvalue
  | bool b => cases h
  | null => cases h
  | tag number content => cases h

/-! ## Keys with one name -/

/-- The name of a key that is shown by a JSON value is the text of that value. -/
theorem memberName_eq_iff_render {k : Term} {j : NoSchema} (h : ofTerm k = .ok j)
    (hshown : memberName j = j.toJson.render) {name : Text} :
    memberName j = name ↔ ∃ i, ofTerm k = .ok i ∧ name = i.toJson.render := by
  constructor
  · rintro rfl
    exact ⟨j, h, hshown⟩
  · rintro ⟨i, hi, rfl⟩
    cases h.symm.trans hi
    exact hshown

/-- Two metadata whose JSON has one text are shown alike. -/
theorem exists_shown_alike {k l : Term} {name : Text}
    (hk : ∃ i, ofTerm k = .ok i ∧ name = i.toJson.render)
    (hl : ∃ j, ofTerm l = .ok j ∧ name = j.toJson.render) :
    ∃ j, ofTerm k = .ok j ∧ ofTerm l = .ok j := by
  obtain ⟨i, hi, hname⟩ := hk
  obtain ⟨j, hj, hname'⟩ := hl
  have hrender : i.toJson.render = j.toJson.render := hname.symm.trans hname'
  have hjson := Json.render_injOn (exact_toJson hi) (exact_toJson hj) hrender
  exact ⟨j, toJson_injective hjson ▸ hi, hj⟩

/-- The name of a key that is no text. -/
theorem memberName_eq_iff_names {k : Term} {j : NoSchema} (h : ofTerm k = .ok j)
    (hk : ∀ t, k ≠ .text t) {name : Text} : memberName j = name ↔ Names name k := by
  cases k with
  | int n =>
    cases h
    split_ifs with hsafe
    · have hname : memberName (number (.integer n)) = Text.ofInt n := Json.render_integer hsafe
      rw [hname]
      exact eq_comm
    · exact eq_comm
  | bytes bs =>
    cases h
    exact eq_comm
  | text t => exact (hk t rfl).elim
  | seq ts =>
    obtain ⟨js, rfl, -⟩ := ofTerm_seq_eq_ok_iff.1 h
    exact memberName_eq_iff_render h rfl
  | map es =>
    obtain ⟨pairs, rfl, -⟩ := ofTerm_map_eq_ok_iff.1 h
    exact memberName_eq_iff_render h rfl
  | bool b => cases h
  | null => cases h
  | tag number content => cases h

/-- The first code unit of a name that no integer has. -/
def mark (name : Text) : Option UInt16 :=
  name.units.find? fun u => u = 0x78 || u = 0x5B || u = 0x7B

/-- The mark of the names of a kind of keys. -/
def markOf : Term → Option UInt16
  | .bytes _ => some 0x78
  | .seq _ => some 0x5B
  | .map _ => some 0x7B
  | .int _ | .text _ | .bool _ | .null | .tag _ _ => none

theorem mark_of_names {name : Text} {k : Term} (h : Names name k) : mark name = markOf k := by
  cases k with
  | int n =>
    cases h
    refine List.find?_eq_none.2 fun u hu hmark => ?_
    have hdigit := Text.of_mem_ofInt hu
    simp only [Bool.or_eq_true, decide_eq_true_iff] at hmark
    rcases hmark with (rfl | rfl) | rfl <;> exact absurd hdigit (by decide)
  | bytes bs =>
    cases h
    rfl
  | seq ts =>
    obtain ⟨j, hj, rfl⟩ := h
    obtain ⟨js, rfl, -⟩ := ofTerm_seq_eq_ok_iff.1 hj
    rw [toJson_list, Json.render]
    rfl
  | map es =>
    obtain ⟨j, hj, rfl⟩ := h
    obtain ⟨pairs, rfl, -⟩ := ofTerm_map_eq_ok_iff.1 hj
    rw [ofPairs, toJson_object, Json.render]
    rfl
  | _ => exact h.elim

/-- Keys that are no texts have one name only if they are shown alike. -/
theorem eq_or_clash_of_names {name : Text} {k l : Term} (hk : Names name k) (hl : Names name l) :
    k = l ∨ Clash k l := by
  have hmark := (mark_of_names hk).symm.trans (mark_of_names hl)
  cases k with
  | int m =>
    cases l with
    | int n => exact .inl (congrArg Term.int (Text.ofInt_injective (hk.symm.trans hl)))
    | _ => first | exact hl.elim | cases hmark
  | bytes bs =>
    cases l with
    | bytes cs =>
      have hdigits := List.append_cancel_left (congrArg Text.units (hk.symm.trans hl))
      exact .inl (congrArg Term.bytes (Bytes.toHex_injective (congrArg Text.mk hdigits)))
    | _ => first | exact hl.elim | cases hmark
  | seq ts =>
    cases l with
    | seq us =>
      obtain ⟨j, hj, hj'⟩ := exists_shown_alike hk hl
      exact .inr (.seqs hj hj')
    | _ => first | exact hl.elim | cases hmark
  | map es =>
    cases l with
    | map fs =>
      obtain ⟨j, hj, hj'⟩ := exists_shown_alike hk hl
      exact .inr (.maps hj hj')
    | _ => first | exact hl.elim | cases hmark
  | _ => exact hk.elim

/-- Keys have one name exactly if they are equal or clash. -/
theorem memberName_eq_iff {k l : Term} {i j : NoSchema} (hi : ofTerm k = .ok i)
    (hj : ofTerm l = .ok j) : memberName i = memberName j ↔ k = l ∨ Clash k l := by
  have htext {name : Text} {k : Term} (h : Names name k) : ∀ t, k ≠ .text t := by
    rintro t rfl
    exact h
  constructor
  · intro h
    by_cases hk : ∃ s, k = .text s
    · obtain ⟨s, rfl⟩ := hk
      cases hi
      by_cases hl : ∃ t, l = .text t
      · obtain ⟨t, rfl⟩ := hl
        cases hj
        exact .inl (congrArg Term.text h)
      · exact .inr (.named ((memberName_eq_iff_names hj (not_exists.1 hl)).1 h.symm))
    · have hname := (memberName_eq_iff_names hi (not_exists.1 hk)).1 h
      by_cases hl : ∃ t, l = .text t
      · obtain ⟨t, rfl⟩ := hl
        cases hj
        exact .inr (.naming hname)
      · exact eq_or_clash_of_names hname ((memberName_eq_iff_names hj (not_exists.1 hl)).1 rfl)
  · rintro (rfl | hclash)
    · cases hi.symm.trans hj
      rfl
    · cases hclash with
      | named hname =>
        cases hi
        exact ((memberName_eq_iff_names hj (htext hname)).2 hname).symm
      | naming hname =>
        cases hj
        exact (memberName_eq_iff_names hi (htext hname)).2 hname
      | seqs hts hus =>
        cases hi.symm.trans (hts.trans (hus.symm.trans hj))
        rfl
      | maps hes hfs =>
        cases hi.symm.trans (hes.trans (hfs.symm.trans hj))
        rfl

/-! ## Objects -/

/-- A map with these entries is shown as an object with these members.  Each pair is the name and
the value of an entry.  The object has under each name the value of the last pair with it; it has all
pairs, and as many members as there are entries, exactly if no two keys clash. -/
structure ShownAs (es : List (Term × Term)) (pairs ms : List (Text × NoSchema)) : Prop where
  entries : List.Forall₂ MemberOf es pairs
  object : ofTerm (.map es) = .ok (.object ms)
  listed : Json.Listed ms
  last : ∀ name value, (name, value) ∈ ms ↔ Json.LastOf pairs name value
  complete : ms.Perm pairs ↔ es.Pairwise fun e f => ¬ Clash e.1 f.1
  size : ms.length = es.length ↔ es.Pairwise fun e f => ¬ Clash e.1 f.1

/-- A sequence is shown item by item, and a map as an object. -/
def ShownAt : Term → Prop
  | .seq ts => ∃ js, ofTerm (.seq ts) = .ok (.list js) ∧
      List.Forall₂ (fun t j => ofTerm t = .ok j) ts js
  | .map es => ∃ pairs ms, ShownAs es pairs ms
  | _ => True

theorem exists_ofTerm {t : Term} (h : Everywhere Metadatum.NodeAt t) : ∃ j, ofTerm t = .ok j := by
  induction t with
  | int n => exact ⟨_, rfl⟩
  | bytes bs => exact ⟨_, rfl⟩
  | text t => exact ⟨_, rfl⟩
  | seq ts ih =>
    obtain ⟨js, hjs⟩ := exists_forall₂ fun t ht => ih t ht ((everywhere_seq_iff.1 h).2 t ht)
    exact ⟨_, ofTerm_seq_eq_ok_iff.2 ⟨js, rfl, hjs⟩⟩
  | map es ih =>
    have hmembers : ∀ e ∈ es, ∃ m, MemberOf e m := by
      intro e he
      obtain ⟨hkey, hvalue⟩ := (everywhere_map_iff.1 h).2 e he
      obtain ⟨i, hi⟩ := (ih e he).1 hkey
      obtain ⟨j, hj⟩ := (ih e he).2 hvalue
      exact ⟨(memberName i, j), ⟨i, hi, rfl⟩, hj⟩
    obtain ⟨pairs, hpairs⟩ := exists_forall₂ hmembers
    exact ⟨_, ofTerm_map_eq_ok_iff.2 ⟨pairs, rfl, hpairs⟩⟩
  | bool b => exact h.here.elim
  | null => exact h.here.elim
  | tag number content => exact h.here.elim

/-- The names of different keys are different exactly if no two keys clash. -/
theorem nodup_names_iff {es : List (Term × Term)} {pairs : List (Text × NoSchema)}
    (hkeys : (es.map Prod.fst).Nodup) (h : List.Forall₂ MemberOf es pairs) :
    (pairs.map Prod.fst).Nodup ↔ es.Pairwise fun e f => ¬ Clash e.1 f.1 := by
  have hnames (e f : Term × Term) (m n : Text × NoSchema) (hm : MemberOf e m) (hn : MemberOf f n) :
      e.1 ≠ f.1 ∧ ¬ Clash e.1 f.1 ↔ m.1 ≠ n.1 := by
    obtain ⟨⟨i, hi, hmi⟩, -⟩ := hm
    obtain ⟨⟨j, hj, hnj⟩, -⟩ := hn
    rw [hmi, hnj, ← not_or, Ne, memberName_eq_iff hi hj]
  rw [List.Nodup, List.pairwise_map] at hkeys ⊢
  have hpairs := pairwise_iff_of_forall₂ hnames h
  exact hpairs.symm.trans (List.pairwise_and_iff.trans (and_iff_right hkeys))

/-- A metadatum whose maps have no key twice is shown completely, apart from entries whose keys
clash with that of a later entry. -/
theorem shown_of_problem?_eq_none {p : Term} (hp : Metadatum.problem? p = none)
    (hkeys : Everywhere UniqueKeysAt p) : Everywhere ShownAt p := by
  have hnodes := Metadatum.problem?_eq_none_iff.1 hp
  refine (hnodes.everywhere.and hkeys).imp fun t ht => ?_
  obtain ⟨j, hj⟩ := exists_ofTerm ht.1
  cases t with
  | seq ts =>
    obtain ⟨js, rfl, hjs⟩ := ofTerm_seq_eq_ok_iff.1 hj
    exact ⟨js, hj, hjs⟩
  | map es =>
    obtain ⟨pairs, rfl, hpairs⟩ := ofTerm_map_eq_ok_iff.1 hj
    have hnames := nodup_names_iff ht.2 hpairs
    have hperm : (Json.membersOfPairs pairs).Perm pairs ↔ (pairs.map Prod.fst).Nodup :=
      ⟨fun h => Json.length_membersOfPairs_iff.1 h.length_eq, Json.membersOfPairs_perm⟩
    refine ⟨pairs, Json.membersOfPairs pairs, hpairs, hj, Json.listed_membersOfPairs pairs,
      fun name value => Json.mem_membersOfPairs_iff, hperm.trans hnames, ?_⟩
    rw [hpairs.length_eq]
    exact Json.length_membersOfPairs_iff.trans hnames
  | _ => trivial

/-- A map with keys of each kind, of which no two clash. -/
def shelf : Term :=
  .map [(.int 1, .text "one"), (.bytes [0xAB], .seq [.int 2]), (.text "x", .map []),
    (.seq [.int 1], .int 3), (.map [(.text "1", .int 1)], .int 4)]

theorem shown_of_problem?_eq_none_shelf : Metadatum.problem? shelf = none ∧
    Everywhere UniqueKeysAt shelf ∧ Everywhere ShownAt shelf := by
  have hproblem : Metadatum.problem? shelf = none := by decide
  have hkeys : Everywhere UniqueKeysAt shelf := by decide
  exact ⟨hproblem, hkeys, shown_of_problem?_eq_none hproblem hkeys⟩

/-- A map with a number for a key, and a text that is the name of that number. -/
def oneTwice : Term := .map [(.int 1, .int 0), (.text "1", .int 2)]

/-- An object can have fewer members than the map has entries, although no key occurs twice. -/
theorem not_length_members : ¬ ∀ p : Term, Metadatum.problem? p = none →
    Everywhere UniqueKeysAt p → Everywhere (fun t => ∀ es, t = .map es →
      ∃ ms, ofTerm t = .ok (.object ms) ∧ ms.length = es.length) p := by
  intro hall
  have hproblem : Metadatum.problem? oneTwice = none := by decide
  have hkeys : Everywhere UniqueKeysAt oneTwice := by decide
  have hshown : ofTerm oneTwice = .ok (.object [("1", .number (.integer 2))]) := rfl
  obtain ⟨ms, hms, hlength⟩ := (hall oneTwice hproblem hkeys).here _ rfl
  rw [hshown] at hms
  cases hms
  cases hlength

end NoSchema

end Eutxo

import Mathlib.Tactic.IntervalCases
import Eutxo.Json.Printer
import Eutxo.Json.Reader
import Eutxo.Proofs.Cbor.Tree
import Eutxo.Proofs.Json.Members
import Eutxo.Proofs.Number.Decimal
import Eutxo.Proofs.Traversal

/-!
# JSON read back

The text of a JSON value is read as the value it was written for, if its numbers
are exact integers and its objects list their members as objects do.  So no two
such values have the same text.
-/

namespace Eutxo.Json

open Traversal

/-! ## Strings -/

theorem hexadecimal?_digit {n : Nat} (hn : n < 16) :
    hexadecimal? (UInt16.ofNat (if n < 10 then 0x30 + n else 0x57 + n)) = some n := by
  interval_cases n <;> rfl

theorem unitOfDigits?_escapeUnit (u : UInt16) :
    ∃ a b c d, escapeUnit u = [0x5C, 0x75, a, b, c, d] ∧ unitOfDigits? a b c d = some u := by
  have hu := u.toNat_lt
  have hfirst := hexadecimal?_digit (n := u.toNat / 0x1000) (by omega)
  have hsecond := hexadecimal?_digit (n := u.toNat / 0x100 % 0x10) (by omega)
  have hthird := hexadecimal?_digit (n := u.toNat / 0x10 % 0x10) (by omega)
  have hlast := hexadecimal?_digit (n := u.toNat % 0x10) (by omega)
  have hvalue : 0x1000 * (u.toNat / 0x1000) + 0x100 * (u.toNat / 0x100 % 0x10) +
      0x10 * (u.toNat / 0x10 % 0x10) + u.toNat % 0x10 = u.toNat := by omega
  refine ⟨_, _, _, _, rfl, ?_⟩
  simp only [unitOfDigits?, hfirst, hsecond, hthird, hlast, Option.bind_eq_bind, Option.bind_some,
    hvalue, UInt16.ofNat_toNat, Option.pure_def]

/-- A code unit without a meaning of its own stands for itself. -/
theorem readString_plain {u : UInt16} (hquote : u ≠ 0x22) (hbackslash : u ≠ 0x5C)
    (hcontrol : ¬ u < 0x20) (us : List UInt16) :
    readString (u :: us) = (fun p => (u :: p.1, p.2)) <$> readString us := by
  rw [readString]
  · rw [if_neg hcontrol]
    rfl
  · exact hquote
  · exact fun _ _ _ _ _ h => (hbackslash h).elim
  · exact fun _ _ h => (hbackslash h).elim

theorem readString_surrogate {u : UInt16} (h : 0xD800 ≤ u) (us : List UInt16) :
    readString (u :: us) = (fun p => (u :: p.1, p.2)) <$> readString us := by
  apply readString_plain
  · rintro rfl
    exact absurd h (by decide)
  · rintro rfl
    exact absurd h (by decide)
  · exact fun hlow => absurd (UInt16.le_of_lt (UInt16.lt_of_le_of_lt h hlow)) (by decide)

theorem readString_quoteUnit (u : UInt16) (us : List UInt16) :
    readString (quoteUnit u ++ us) = (fun p => (u :: p.1, p.2)) <$> readString us := by
  rw [quoteUnit]
  split_ifs with hquote hbackslash hbs htab hlf hff hcr hescape
  · rw [hquote]
    rfl
  · rw [hbackslash]
    rfl
  · rw [hbs]
    rfl
  · rw [htab]
    rfl
  · rw [hlf]
    rfl
  · rw [hff]
    rfl
  · rw [hcr]
    rfl
  · obtain ⟨a, b, c, d, hunits, hvalue⟩ := unitOfDigits?_escapeUnit u
    rw [hunits]
    simp only [List.cons_append, List.nil_append, readString, hvalue]
    rfl
  · refine readString_plain hquote hbackslash (fun hcontrol => hescape ?_) us
    rw [decide_eq_true hcontrol, Bool.true_or]

/-- The inside of a string is read up to the quote behind it. -/
theorem readString_quoteUnits (us rest : List UInt16) :
    readString (quoteUnits us ++ 0x22 :: rest) = .ok (us, rest) := by
  induction us using quoteUnits.induct with
  | case1 => rfl
  | case2 u =>
    rw [quoteUnits, readString_quoteUnit]
    rfl
  | case3 u v us hpair ih =>
    have hboth := hpair
    simp only [Text.isHighSurrogate, Text.isLowSurrogate, Bool.and_eq_true,
      decide_eq_true_iff] at hboth
    obtain ⟨⟨hhigh, -⟩, hlow, -⟩ := hboth
    have hlow : 0xD800 ≤ v := UInt16.le_trans (by decide) hlow
    rw [quoteUnits, if_pos hpair, List.cons_append, List.cons_append, readString_surrogate hhigh,
      readString_surrogate hlow, ih]
    rfl
  | case4 u v us hpair ih =>
    rw [quoteUnits, if_neg hpair, List.append_assoc, readString_quoteUnit, ih]
    rfl

/-! ## Trees -/

@[elab_as_elim, induction_eliminator]
theorem induct {motive : Json → Prop} (null : motive .null) (bool : ∀ b, motive (.bool b))
    (number : ∀ n, motive (.number n)) (string : ∀ t, motive (.string t))
    (array : ∀ items, (∀ j ∈ items, motive j) → motive (.array items))
    (object : ∀ members, (∀ m ∈ members, motive m.2) → motive (.object members)) (j : Json) :
    motive j :=
  match j with
  | .null => null
  | .bool b => bool b
  | .number n => number n
  | .string t => string t
  | .array items => array items fun j _ => induct null bool number string array object j
  | .object members =>
    object members fun m _ => induct null bool number string array object m.2
termination_by sizeOf j
decreasing_by
  · have hlt := List.sizeOf_lt_of_mem ‹_›
    rw [Json.array.sizeOf_spec]
    omega
  · have hlt := sizeOf_value_lt ‹_›
    rw [Json.object.sizeOf_spec]
    omega

instance : Tree Json where
  children
    | .array items => items
    | .object members => members.map Prod.snd
    | _ => []

theorem everywhere_array_iff {P : Json → Prop} {items : List Json} :
    Everywhere P (.array items) ↔ P (.array items) ∧ ∀ j ∈ items, Everywhere P j :=
  ⟨fun h => ⟨h.here, h.children⟩, fun h => .intro h.1 h.2⟩

theorem everywhere_object_iff {P : Json → Prop} {members : List (Text × Json)} :
    Everywhere P (.object members) ↔ P (.object members) ∧ ∀ m ∈ members, Everywhere P m.2 :=
  ⟨fun h => ⟨h.here, List.forall_mem_map.1 h.children⟩,
    fun h => .intro h.1 (List.forall_mem_map.2 h.2)⟩

/-- A node that its text gives back: a number is an exact integer, and members stand as an object
lists them. -/
def ExactAt : Json → Prop
  | .number n => ∃ i : Int, i.natAbs ≤ Number.maxSafe ∧ n = .integer i
  | .object ms => Listed ms
  | _ => True

/-! ## Texts of values -/

/-- The text begins neither with a blank nor with a closing bracket. -/
def Opening (us : List UInt16) : Prop := ∃ u ∈ us.head?, isSpace u = false ∧ u ≠ 0x5D

/-- The text of a value is read back in front of whatever cannot continue a number.  Each level of
nesting takes two steps, and has two code units of its own. -/
structure ReadsBack (j : Json) : Prop where
  opening : Opening (render j).units
  readValue : ∀ (fuel : Nat) (rest : List UInt16), Number.Ends rest →
    2 * (render j).units.length ≤ fuel →
      readValue fuel ((render j).units ++ rest) = .ok (j, rest)

theorem Opening.append {us : List UInt16} (h : Opening us) (rest : List UInt16) :
    Opening (us ++ rest) := by
  cases us with
  | nil =>
    obtain ⟨u, hu, -⟩ := h
    cases hu
  | cons u us => exact h

theorem skip_cons {u : UInt16} (h : isSpace u = false) (us : List UInt16) :
    skip (u :: us) = u :: us := by
  rw [skip, List.dropWhile_cons, h]
  rfl

theorem Opening.skip {us : List UInt16} (h : Opening us) : skip us = us := by
  cases us with
  | nil => rfl
  | cons u us =>
    obtain ⟨v, hv, hspace, -⟩ := h
    cases hv
    exact skip_cons hspace us

theorem Opening.of_head {u : UInt16} {us : List UInt16} (h : isSpace u = false ∧ u ≠ 0x5D) :
    Opening (u :: us) :=
  ⟨u, rfl, h⟩

theorem Opening.of_number {u : UInt16} (h : u = 0x2D ∨ 0x30 ≤ u ∧ u ≤ 0x39) (us : List UInt16) :
    Opening (u :: us) := by
  refine .of_head ⟨Bool.eq_false_iff.2 fun hspace => ?_, ?_⟩
  · simp only [isSpace, Bool.or_eq_true, decide_eq_true_iff] at hspace
    rcases hspace with ((rfl | rfl) | rfl) | rfl <;> exact absurd h (by decide)
  · rintro rfl
    exact absurd h (by decide)

theorem ends_cons {u : UInt16} (h : u = 0x2C ∨ u = 0x5D ∨ u = 0x7D) (rest : List UInt16) :
    Number.Ends (u :: rest) := by
  rintro v ⟨rfl⟩
  rcases h with rfl | rfl | rfl <;> decide

/-! ## Items -/

theorem units_renderItems_cons (j i : Json) (js : List Json) :
    (Text.join "," (renderItems (j :: i :: js))).units =
      (render j).units ++ 0x2C :: (Text.join "," (renderItems (i :: js))).units :=
  List.append_assoc _ _ _

theorem ReadsBack.opening_items {j : Json} (h : ReadsBack j) (js : List Json)
    (rest : List UInt16) : Opening ((Text.join "," (renderItems (j :: js))).units ++ rest) := by
  cases js with
  | nil => exact h.opening.append rest
  | cons i js =>
    rw [units_renderItems_cons, List.append_assoc]
    exact h.opening.append _

theorem readItems_render {j : Json} {js : List Json} (hread : ∀ i ∈ j :: js, ReadsBack i)
    (rest : List UInt16) (fuel : Nat)
    (hfuel : 2 * (Text.join "," (renderItems (j :: js))).units.length + 1 ≤ fuel) :
    readItems fuel ((Text.join "," (renderItems (j :: js))).units ++ 0x5D :: rest) =
      .ok (j :: js, rest) := by
  induction js generalizing j fuel with
  | nil =>
    obtain ⟨fuel, rfl⟩ := Nat.exists_eq_add_of_le' (Nat.le_of_add_left_le hfuel)
    have hj := (hread j List.mem_cons_self).readValue fuel (0x5D :: rest)
      (ends_cons (by decide) rest) (Nat.le_of_succ_le_succ hfuel)
    rw [renderItems, renderItems, Text.join, readItems, hj]
    rfl
  | cons i js ih =>
    obtain ⟨fuel, rfl⟩ := Nat.exists_eq_add_of_le' (Nat.le_of_add_left_le hfuel)
    obtain ⟨hj, hrest⟩ := List.forall_mem_cons.1 hread
    have hlength := congrArg List.length (units_renderItems_cons j i js)
    rw [List.length_append, List.length_cons] at hlength
    have hfirst := hj.readValue fuel
      (0x2C :: ((Text.join "," (renderItems (i :: js))).units ++ 0x5D :: rest))
      (ends_cons (by decide) _) (by omega)
    have hjs := ih hrest fuel (by omega)
    have hskip := (hrest i List.mem_cons_self).opening_items js (0x5D :: rest)
    rw [units_renderItems_cons, List.append_assoc, List.cons_append, readItems, hfirst]
    simp only [ok_bind, skip_cons (by decide : isSpace 0x2C = false), hskip.skip, hjs]
    rfl

/-! ## Members -/

/-- The code units of a member in front of others. -/
def memberUnits (m : Text × Json) (rest : List UInt16) : List UInt16 :=
  0x22 :: (quoteUnits m.1.units ++ 0x22 :: 0x3A :: ((render m.2).units ++ rest))

theorem length_memberUnits (m : Text × Json) (rest : List UInt16) :
    (memberUnits m rest).length =
      (quoteUnits m.1.units).length + (render m.2).units.length + rest.length + 3 := by
  simp only [memberUnits, List.length_cons, List.length_append]
  omega

theorem units_renderMembers_singleton (m : Text × Json) (rest : List UInt16) :
    (Text.join "," (renderMembers [m])).units ++ rest = memberUnits m rest := by
  show (0x22 :: quoteUnits m.1.units ++ [0x22] ++ [0x3A] ++ (render m.2).units) ++ rest = _
  simp [memberUnits]

theorem units_renderMembers_cons (m n : Text × Json) (ms : List (Text × Json))
    (rest : List UInt16) :
    (Text.join "," (renderMembers (m :: n :: ms))).units ++ rest =
      memberUnits m (0x2C :: ((Text.join "," (renderMembers (n :: ms))).units ++ rest)) := by
  show (0x22 :: quoteUnits m.1.units ++ [0x22] ++ [0x3A] ++ (render m.2).units ++ [0x2C] ++
    (Text.join "," (renderMembers (n :: ms))).units) ++ rest = _
  simp [memberUnits]

/-- The first member begins with the quote of its name. -/
theorem exists_units_renderMembers (m : Text × Json) (ms : List (Text × Json))
    (rest : List UInt16) :
    ∃ us, (Text.join "," (renderMembers (m :: ms))).units ++ rest = 0x22 :: us := by
  cases ms with
  | nil => exact ⟨_, units_renderMembers_singleton m rest⟩
  | cons n ms => exact ⟨_, units_renderMembers_cons m n ms rest⟩

theorem readPairs_member (fuel : Nat) {m : Text × Json} (hm : ReadsBack m.2)
    {rest : List UInt16} (hrest : Number.Ends rest)
    (hfuel : 2 * (render m.2).units.length ≤ fuel) :
    readPairs (fuel + 1) (memberUnits m rest) =
      match skip rest with
      | 0x7D :: rest => .ok ([m], rest)
      | 0x2C :: rest => (fun p => (m :: p.1, p.2)) <$> readPairs fuel (skip rest)
      | rest => .error rest := by
  rw [memberUnits, readPairs]
  simp only [readString_quoteUnits, ok_bind,
    skip_cons (by decide : isSpace 0x3A = false), (hm.opening.append rest).skip,
    hm.readValue fuel rest hrest hfuel]
  rfl

theorem readPairs_render {m : Text × Json} {ms : List (Text × Json)}
    (hread : ∀ n ∈ m :: ms, ReadsBack n.2) (rest : List UInt16) (fuel : Nat)
    (hfuel : 2 * (Text.join "," (renderMembers (m :: ms))).units.length + 1 ≤ fuel) :
    readPairs fuel ((Text.join "," (renderMembers (m :: ms))).units ++ 0x7D :: rest) =
      .ok (m :: ms, rest) := by
  obtain ⟨hm, hrest⟩ := List.forall_mem_cons.1 hread
  induction ms generalizing m fuel with
  | nil =>
    obtain ⟨fuel, rfl⟩ := Nat.exists_eq_add_of_le' (Nat.le_of_add_left_le hfuel)
    have hlength := congrArg List.length (units_renderMembers_singleton m [])
    rw [List.append_nil, length_memberUnits] at hlength
    rw [units_renderMembers_singleton, readPairs_member fuel hm (ends_cons (by decide) rest)
      (by omega)]
    rfl
  | cons n ms ih =>
    obtain ⟨fuel, rfl⟩ := Nat.exists_eq_add_of_le' (Nat.le_of_add_left_le hfuel)
    have hlength := congrArg List.length (units_renderMembers_cons m n ms [])
    rw [List.append_nil, List.append_nil, length_memberUnits, List.length_cons] at hlength
    obtain ⟨hn, hothers⟩ := List.forall_mem_cons.1 hrest
    have hms := ih hrest fuel (by omega) hn hothers
    obtain ⟨us, hus⟩ := exists_units_renderMembers n ms (0x7D :: rest)
    rw [units_renderMembers_cons, readPairs_member fuel hm (ends_cons (by decide) _) (by omega)]
    rw [hus] at hms ⊢
    simp only [skip_cons (by decide : isSpace 0x2C = false),
      skip_cons (by decide : isSpace 0x22 = false), hms]
    rfl

/-! ## Values -/

theorem units_render_array (js : List Json) (rest : List UInt16) :
    (render (.array js)).units ++ rest =
      0x5B :: ((Text.join "," (renderItems js)).units ++ 0x5D :: rest) := by
  rw [render]
  show 0x5B :: (Text.join "," (renderItems js)).units ++ [0x5D] ++ rest = _
  simp

theorem units_render_object (ms : List (Text × Json)) (rest : List UInt16) :
    (render (.object ms)).units ++ rest =
      0x7B :: ((Text.join "," (renderMembers ms)).units ++ 0x7D :: rest) := by
  rw [render]
  show 0x7B :: (Text.join "," (renderMembers ms)).units ++ [0x7D] ++ rest = _
  simp

theorem readValue_string (fuel : Nat) (t : Text) (rest : List UInt16) :
    readValue (fuel + 1) (t.quote.units ++ rest) = .ok (.string t, rest) := by
  have hunits : t.quote.units ++ rest = 0x22 :: (quoteUnits t.units ++ 0x22 :: rest) := by
    simp [Text.quote]
  rw [hunits, readValue, readString_quoteUnits]
  rfl

theorem readValue_number (fuel : Nat) {u : UInt16} (h : u = 0x2D ∨ 0x30 ≤ u ∧ u ≤ 0x39)
    (us : List UInt16) : readValue (fuel + 1) (u :: us) = readNumber (u :: us) := by
  rw [readValue]
  all_goals
    rintro _ ⟨rfl⟩
    exact absurd h (by decide)

theorem readValue_array (fuel : Nat) {us : List UInt16} (h : Opening us) :
    readValue (fuel + 1) (0x5B :: us) =
      (fun p => (.array p.1, p.2)) <$> readItems fuel us := by
  rw [readValue, h.skip]
  split
  · obtain ⟨u, hu, -, hbracket⟩ := h
    cases hu
    exact (hbracket rfl).elim
  · rfl

theorem readValue_object (fuel : Nat) (us : List UInt16) :
    readValue (fuel + 1) (0x7B :: 0x22 :: us) =
      (fun p => (ofPairs p.1, p.2)) <$> readPairs fuel (0x22 :: us) := rfl

theorem readNumber_of_readJson? {us rest : List UInt16} {n : Number}
    (h : Number.readJson? us = some (n, rest)) : readNumber us = .ok (.number n, rest) := by
  simp only [readNumber, h]

/-- A value without values below it takes one step. -/
theorem ReadsBack.of_step {j : Json} (hopening : Opening (render j).units)
    (h : ∀ (fuel : Nat) (rest : List UInt16), Number.Ends rest →
      Json.readValue (fuel + 1) ((render j).units ++ rest) = .ok (j, rest)) : ReadsBack j := by
  refine ⟨hopening, fun fuel rest hrest hfuel => ?_⟩
  obtain ⟨u, hu, -⟩ := hopening
  have hlength := List.length_pos_of_mem (List.mem_of_mem_head? hu)
  obtain ⟨fuel, rfl⟩ := Nat.exists_eq_add_of_le' (show 1 ≤ fuel by omega)
  exact h fuel rest hrest

theorem render_integer {n : Int} (hn : n.natAbs ≤ Number.maxSafe) :
    render (.number (.integer n)) = Text.ofInt n := by
  rw [render, numberText, Number.toText, if_pos hn]
  · exact nofun
  · exact nofun

theorem ReadsBack.of_integer {n : Int} (hn : n.natAbs ≤ Number.maxSafe) :
    ReadsBack (.number (.integer n)) := by
  obtain ⟨u, us, hunits⟩ := Text.exists_units_ofInt n
  have hu := Text.of_mem_ofInt (hunits ▸ List.mem_cons_self)
  apply ReadsBack.of_step
  · rw [render_integer hn, hunits]
    exact .of_number hu us
  · intro fuel rest hrest
    have hread := Number.readJson?_ofInt hn hrest
    rw [hunits] at hread
    rw [render_integer hn, hunits]
    exact (readValue_number fuel hu (us ++ rest)).trans (readNumber_of_readJson? hread)

theorem ReadsBack.of_array {js : List Json} (h : ∀ j ∈ js, ReadsBack j) :
    ReadsBack (.array js) := by
  have hunits := units_render_array js []
  rw [List.append_nil] at hunits
  constructor
  · rw [hunits]
    exact .of_head (by decide)
  · intro fuel rest _ hfuel
    rw [hunits, List.length_cons, List.length_append] at hfuel
    obtain ⟨fuel, rfl⟩ := Nat.exists_eq_add_of_le' (show 1 ≤ fuel by omega)
    rw [units_render_array]
    cases js with
    | nil => rfl
    | cons j js =>
      have hopening := (h j List.mem_cons_self).opening_items js (0x5D :: rest)
      rw [readValue_array fuel hopening, readItems_render h rest fuel (by omega)]
      rfl

theorem ReadsBack.of_object {ms : List (Text × Json)} (hlisted : Listed ms)
    (h : ∀ m ∈ ms, ReadsBack m.2) : ReadsBack (.object ms) := by
  have hunits := units_render_object ms []
  rw [List.append_nil] at hunits
  constructor
  · rw [hunits]
    exact .of_head (by decide)
  · intro fuel rest _ hfuel
    rw [hunits, List.length_cons, List.length_append] at hfuel
    obtain ⟨fuel, rfl⟩ := Nat.exists_eq_add_of_le' (show 1 ≤ fuel by omega)
    rw [units_render_object]
    cases ms with
    | nil => rfl
    | cons m ms =>
      have hpairs := readPairs_render h rest fuel (by omega)
      obtain ⟨us, hus⟩ := exists_units_renderMembers m ms (0x7D :: rest)
      rw [hus] at hpairs ⊢
      rw [readValue_object, hpairs, map_ok, ofPairs, membersOfPairs_eq_self hlisted]

theorem readsBack {j : Json} (h : Everywhere ExactAt j) : ReadsBack j := by
  induction j with
  | null => exact .of_step (.of_head (by decide)) fun _ _ _ => rfl
  | bool b =>
    cases b with
    | false => exact .of_step (.of_head (by decide)) fun _ _ _ => rfl
    | true => exact .of_step (.of_head (by decide)) fun _ _ _ => rfl
  | number n =>
    obtain ⟨i, hi, rfl⟩ := h.here
    exact .of_integer hi
  | string t =>
    refine .of_step (.of_head (by decide)) fun fuel rest _ => ?_
    rw [render]
    exact readValue_string fuel t rest
  | array js ih =>
    exact .of_array fun j hj => ih j hj ((everywhere_array_iff.1 h).2 j hj)
  | object ms ih =>
    exact .of_object h.here fun m hm => ih m hm ((everywhere_object_iff.1 h).2 m hm)

/-- The text of a value is read as the value. -/
theorem read_render {j : Json} (h : Everywhere ExactAt j) : read j.render = .ok j := by
  have hback := readsBack h
  have hends : Number.Ends [] := nofun
  have hread := hback.readValue (2 * (render j).units.length + 2) [] hends (by omega)
  rw [List.append_nil] at hread
  rw [read, readUnits, hback.opening.skip, hread]
  rfl

/-- Different values have different texts. -/
theorem render_injOn : Set.InjOn render {j | Everywhere ExactAt j} := by
  intro i hi j hj hij
  have hread := read_render hi
  rw [hij, read_render hj] at hread
  exact (Except.ok.inj hread).symm

end Eutxo.Json

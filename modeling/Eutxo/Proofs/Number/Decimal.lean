import Mathlib.Algebra.Order.Group.Nat
import Mathlib.Data.Nat.Log
import Mathlib.Tactic.Ring
import Eutxo.Number.Reading

/-!
# Decimal digits read back

The decimal digits of an integer are read as the integer they were written for,
and the binary64 number nearest to an integer that is exact is that integer.
-/

namespace Eutxo

/-! ## Digits -/

theorem range_of_isDigit {c : Char} (h : c.isDigit = true) : 48 ≤ c.toNat ∧ c.toNat ≤ 57 := by
  rw [Char.isDigit, Bool.and_eq_true, decide_eq_true_iff, decide_eq_true_iff] at h
  exact h

theorem isDigit_of_mem_toDigits {n : Nat} : ∀ c ∈ Nat.toDigits 10 n, c.isDigit = true :=
  fun _ => Nat.isDigit_of_mem_toDigits (by decide) (by decide)

theorem exists_toDigits (n : Nat) : ∃ c cs, Nat.toDigits 10 n = c :: cs :=
  List.exists_cons_of_ne_nil Nat.toDigits_ne_nil

/-- Only zero is written with a zero in front. -/
theorem eq_zero_of_head_toDigits {n : Nat} {c : Char} {cs : List Char}
    (h : Nat.toDigits 10 n = c :: cs) (hc : c.toNat = 48) : n = 0 := by
  induction n using Nat.strongRecOn generalizing c cs with
  | ind n ih =>
    by_cases hn : n < 10
    · rw [Nat.toDigits_of_lt_base hn] at h
      obtain ⟨rfl, -⟩ := List.cons.inj h
      rw [Nat.toNat_digitChar_of_lt_ten hn] at hc
      omega
    · rw [Nat.toDigits_of_base_le (by decide) (by omega)] at h
      obtain ⟨e, es, hes⟩ := exists_toDigits (n / 10)
      rw [hes] at h
      obtain ⟨rfl, -⟩ := List.cons.inj h
      have hzero := ih (n / 10) (by omega) hes hc
      omega

namespace Text

theorem units_ofDigits {cs : List Char} (hcs : ∀ c ∈ cs, c.isDigit = true) :
    (ofString (String.ofList cs)).units = cs.map fun c => UInt16.ofNat c.toNat := by
  rw [ofString, String.toList_ofList]
  show cs.flatMap (fun c => unitsOfScalar c.toNat) = _
  induction cs with
  | nil => rfl
  | cons c cs ih =>
    obtain ⟨hc, hcs⟩ := List.forall_mem_cons.1 hcs
    have hsmall : c.toNat < 0x10000 := by
      have := range_of_isDigit hc
      omega
    rw [List.flatMap_cons, List.map_cons, ih hcs, unitsOfScalar, if_pos hsmall]
    rfl

/-- The digits of a natural number as code units. -/
theorem units_ofNat (n : Nat) :
    (ofNat n).units = (Nat.toDigits 10 n).map fun c => UInt16.ofNat c.toNat := by
  rw [ofNat, Nat.toString_eq_ofList_toDigits]
  exact units_ofDigits isDigit_of_mem_toDigits

theorem digit_of_isDigit {c : Char} (h : c.isDigit = true) :
    (UInt16.ofNat c.toNat).toNat = c.toNat ∧
      0x30 ≤ UInt16.ofNat c.toNat ∧ UInt16.ofNat c.toNat ≤ 0x39 := by
  have hrange := range_of_isDigit h
  have hunit : (UInt16.ofNat c.toNat).toNat = c.toNat :=
    UInt16.toNat_ofNat_of_lt' (by simp only [UInt16.size]; omega)
  rw [UInt16.le_iff_toNat_le, UInt16.le_iff_toNat_le, hunit]
  exact ⟨rfl, hrange⟩

theorem digit_of_mem_ofNat {n : Nat} {u : UInt16} (hu : u ∈ (ofNat n).units) :
    0x30 ≤ u ∧ u ≤ 0x39 := by
  rw [units_ofNat] at hu
  obtain ⟨c, hc, rfl⟩ := List.mem_map.1 hu
  exact (digit_of_isDigit (isDigit_of_mem_toDigits c hc)).2

/-- Nothing but digits and a minus sign stands in the text of an integer. -/
theorem of_mem_ofInt {n : Int} {u : UInt16} (hu : u ∈ (ofInt n).units) :
    u = 0x2D ∨ 0x30 ≤ u ∧ u ≤ 0x39 := by
  cases n with
  | ofNat n => exact .inr (digit_of_mem_ofNat hu)
  | negSucc n => exact (List.mem_cons.1 hu).imp_right digit_of_mem_ofNat

theorem exists_units_ofInt (n : Int) : ∃ u us, (ofInt n).units = u :: us := by
  cases n with
  | ofNat n =>
    obtain ⟨c, cs, hcs⟩ := exists_toDigits n
    refine ⟨UInt16.ofNat c.toNat, cs.map fun c => UInt16.ofNat c.toNat, ?_⟩
    rw [ofInt, units_ofNat, hcs, List.map_cons]
  | negSucc n => exact ⟨0x2D, (ofNat (n + 1)).units, rfl⟩

end Text

namespace Number

theorem decimalDigit?_of_isDigit {c : Char} (h : c.isDigit = true) :
    decimalDigit? (UInt16.ofNat c.toNat) = some (c.toNat - 48) := by
  obtain ⟨hunit, hdigit⟩ := Text.digit_of_isDigit h
  rw [decimalDigit?, if_pos hdigit, hunit]

theorem takeDigits_append {cs : List Char} (hcs : ∀ c ∈ cs, c.isDigit = true) {rest : List UInt16}
    (hrest : ∀ u ∈ rest.head?, decimalDigit? u = none) :
    takeDigits (cs.map (fun c => UInt16.ofNat c.toNat) ++ rest) =
      (cs.map fun c => c.toNat - 48, rest) := by
  induction cs with
  | nil =>
    cases rest with
    | nil => rfl
    | cons u us =>
      rw [List.map_nil, List.nil_append, takeDigits, hrest u rfl]
      rfl
  | cons c cs ih =>
    obtain ⟨hc, hcs⟩ := List.forall_mem_cons.1 hcs
    rw [List.map_cons, List.cons_append, takeDigits, decimalDigit?_of_isDigit hc, ih hcs]
    rfl

theorem ofDigits_toDigits (n : Nat) :
    ofDigits ((Nat.toDigits 10 n).map fun c => c.toNat - 48) = n := by
  rw [ofDigits, List.foldl_map]
  exact Nat.ofDigitChars_ten_toDigits

end Number

namespace Text

theorem ofNat_injective : Function.Injective ofNat := by
  have hback (n : Nat) : Number.ofDigits (Number.takeDigits (ofNat n).units).1 = n := by
    have hends : ∀ u ∈ ([] : List UInt16).head?, Number.decimalDigit? u = none := nofun
    have hread := Number.takeDigits_append (isDigit_of_mem_toDigits (n := n)) hends
    rw [List.append_nil, ← units_ofNat] at hread
    rw [hread]
    exact Number.ofDigits_toDigits n
  intro m n hmn
  rw [← hback m, hmn, hback]

theorem ofInt_injective : Function.Injective ofInt := by
  have hsign (m n : Nat) : ofInt m ≠ ofInt (.negSucc n) := by
    intro h
    have hminus : (0x2D : UInt16) ∈ (ofNat m).units := by
      have hunits : (ofNat m).units = 0x2D :: (ofNat (n + 1)).units := congrArg units h
      rw [hunits]
      exact List.mem_cons_self
    exact absurd (digit_of_mem_ofNat hminus) (by decide)
  intro m n h
  cases m with
  | ofNat m =>
    cases n with
    | ofNat n => exact congrArg Int.ofNat (ofNat_injective h)
    | negSucc n => exact (hsign m n h).elim
  | negSucc m =>
    cases n with
    | ofNat n => exact (hsign n m h.symm).elim
    | negSucc n =>
      have hunits : (ofNat (m + 1)).units = (ofNat (n + 1)).units :=
        (List.cons.inj (congrArg units h)).2
      have hsucc := ofNat_injective (congrArg mk hunits)
      exact congrArg Int.negSucc (Nat.succ.inj hsucc)

end Text

namespace Number

/-! ## Exact integers -/

theorem binaryExponent_one {n : Nat} (hn : n ≠ 0) : binaryExponent n 1 = n.log2 := by
  have hlog : Nat.log2 1 = 0 := by decide
  have hnonneg : (0 : Int) ≤ (n.log2 : Int) - (0 : Nat) := by omega
  have hreaches : 1 <<< ((n.log2 : Int) - (0 : Nat)).toNat ≤ n := by
    rw [Nat.shiftLeft_eq, one_mul]
    simpa using Nat.log2_self_le hn
  simp only [binaryExponent, hlog, if_pos hnonneg, hreaches]
  simp

/-- The binary64 number nearest to a positive integer that is exact. -/
theorem ofQuotient_one {n : Nat} (hpos : n ≠ 0) (hn : n ≤ maxSafe) (negative : Bool) :
    ofQuotient negative n 1 = .integer (if negative then -(n : Int) else n) := by
  have hlog : n.log2 ≤ 52 := by
    have hlt : n.log2 < 53 := (Nat.log2_lt hpos).2 (hn.trans_lt (by decide))
    omega
  have hunit : unitExponent n 1 = (n.log2 : Int) - 52 := by
    rw [unitExponent, binaryExponent_one hpos]
    omega
  have hround (m : Nat) : roundHalfEven m 1 = m := by
    simp [roundHalfEven, Nat.mod_one]
  by_cases htop : n.log2 = 52
  · have hzero : unitExponent n 1 = 0 := by omega
    have hlarge : ¬ 1 <<< 1024 ≤ n := by
      have hsmall : maxSafe < 1 <<< 1024 := by decide
      omega
    simp only [ofQuotient, if_neg hpos, hzero, le_refl, if_true, Int.toNat_zero,
      Nat.shiftLeft_zero, hround, if_neg hlarge]
  · -- The integer is shifted to the left by as many places as it is shifted back.
    obtain ⟨places, hplaces⟩ : ∃ places : Nat, (n.log2 : Int) - 52 = -(places + 1 : Nat) :=
      ⟨51 - n.log2, by omega⟩
    have hnegative : ¬ (0 : Int) ≤ -((places + 1 : Nat) : Int) := by omega
    have hscale : 0 < 2 ^ (places + 1) := Nat.two_pow_pos _
    have hshifted : ¬ n * 2 ^ (places + 1) = 0 := Nat.mul_ne_zero hpos hscale.ne'
    rw [hplaces] at hunit
    simp only [ofQuotient, if_neg hpos, hunit, if_neg hnegative, hround, neg_neg, Int.toNat_natCast,
      Nat.shiftLeft_eq, one_mul, if_neg hshifted, Nat.mul_mod_left, if_true,
      Nat.mul_div_cancel _ hscale]

/-! ## Reading -/

/-- What follows cannot be read as part of a number. -/
def Ends (us : List UInt16) : Prop :=
  ∀ u ∈ us.head?, decimalDigit? u = none ∧ u ≠ 0x2E ∧ u ≠ 0x65 ∧ u ≠ 0x45

theorem Ends.takeFraction {us : List UInt16} (h : Ends us) (least : Nat) :
    takeFraction least us = ([], us) := by
  unfold Number.takeFraction
  split
  · exact ((h _ rfl).2.1 rfl).elim
  · rfl

theorem Ends.takeExponent {us : List UInt16} (h : Ends us) : takeExponent us = (0, us) := by
  cases us with
  | nil => rfl
  | cons u us =>
    have hletter : ¬ (u = 0x65 ∨ u = 0x45) := not_or.2 (h u rfl).2.2
    simp only [Number.takeExponent, if_neg hletter]

theorem ofDecimal_zero {n : Nat} (hn : n ≤ maxSafe) (negative : Bool)
    (hsign : n = 0 → negative = false) :
    ofDecimal negative n 0 = .integer (if negative then -(n : Int) else n) := by
  by_cases hzero : n = 0
  · subst hzero
    rw [hsign rfl]
    rfl
  · have hlength : (Nat.toDigits 10 n).length ≤ 400 := by
      have hsmall : (Nat.toDigits 10 n).length ≤ 16 :=
        (Nat.length_toDigits_le_iff (by decide) (by decide)).2 (hn.trans_lt (by decide))
      omega
    have hlarge : ¬ (400 : Int) < (Nat.toDigits 10 n).length + 0 := by omega
    have hsmall : ¬ ((Nat.toDigits 10 n).length + 0 : Int) < -400 := by omega
    have hunit : n * Nat.pow 10 0 = n := Nat.mul_one n
    simp only [ofDecimal, if_neg hzero, if_neg hlarge, if_neg hsmall, le_refl, if_true,
      Int.toNat_zero, hunit]
    exact ofQuotient_one hzero hn negative

/-- Reads what stands behind the sign of a number. -/
def readMagnitude? (negative : Bool) (us : List UInt16) : Option (Number × List UInt16) :=
  let (whole, rest) := takeDigits us
  match whole with
  | [] => none
  | 0 :: _ :: _ => none
  | _ =>
    let (part, rest) := Number.takeFraction 1 rest
    let (power, rest) := Number.takeExponent rest
    some (ofDecimal negative (ofDigits (whole ++ part)) (power - part.length), rest)

theorem readJson?_minus (us : List UInt16) : readJson? (0x2D :: us) = readMagnitude? true us := rfl

theorem readJson?_plain {us : List UInt16} (h : ∀ u ∈ us.head?, u ≠ 0x2D) :
    readJson? us = readMagnitude? false us := by
  cases us with
  | nil => rfl
  | cons u us =>
    have hne := h u rfl
    unfold readJson? readMagnitude?
    split
    next heq =>
      split at heq
      · next hminus => exact (hne (List.cons.inj hminus).1).elim
      · cases heq
        rfl

theorem readMagnitude?_of_takeDigits {us rest : List UInt16} {d : Nat} {ds : List Nat}
    (h : takeDigits us = (d :: ds, rest)) (hfront : d = 0 → ds = []) (hrest : Ends rest)
    (negative : Bool) :
    readMagnitude? negative us = some (ofDecimal negative (ofDigits (d :: ds)) 0, rest) := by
  have hread : readMagnitude? negative us =
      some (ofDecimal negative (ofDigits (d :: ds ++ [])) (0 - ([] : List Nat).length), rest) := by
    cases ds with
    | nil => cases d <;> simp only [readMagnitude?, h, hrest.takeFraction, hrest.takeExponent]
    | cons e es =>
      obtain ⟨k, rfl⟩ := Nat.exists_eq_succ_of_ne_zero fun hzero => nomatch hfront hzero
      simp only [readMagnitude?, h, hrest.takeFraction, hrest.takeExponent]
  rw [hread, List.append_nil]
  rfl

theorem readMagnitude?_ofNat {n : Nat} (hn : n ≤ maxSafe) {negative : Bool}
    (hsign : n = 0 → negative = false) {rest : List UInt16} (hrest : Ends rest) :
    readMagnitude? negative ((Text.ofNat n).units ++ rest) =
      some (.integer (if negative then -(n : Int) else n), rest) := by
  have hdigits := takeDigits_append (isDigit_of_mem_toDigits (n := n)) fun u hu => (hrest u hu).1
  have hvalue := ofDigits_toDigits n
  rw [← Text.units_ofNat] at hdigits
  obtain ⟨c, cs, hcs⟩ := exists_toDigits n
  have hfront : c.toNat - 48 = 0 → cs.map (fun c => c.toNat - 48) = [] := by
    intro hzero
    have hrange := range_of_isDigit (isDigit_of_mem_toDigits c (hcs ▸ List.mem_cons_self))
    obtain rfl := eq_zero_of_head_toDigits hcs (by omega)
    obtain ⟨-, rfl⟩ := List.cons.inj ((Nat.toDigits_zero 10).symm.trans hcs)
    rfl
  rw [hcs, List.map_cons] at hdigits hvalue
  rw [readMagnitude?_of_takeDigits hdigits hfront hrest, hvalue, ofDecimal_zero hn negative hsign]

/-- The decimal text of an integer that is exact is read as that integer. -/
theorem readJson?_ofInt {n : Int} (hn : n.natAbs ≤ maxSafe) {rest : List UInt16}
    (hrest : Ends rest) : readJson? ((Text.ofInt n).units ++ rest) = some (.integer n, rest) := by
  cases n with
  | ofNat m =>
    have hplain : ∀ u ∈ ((Text.ofNat m).units ++ rest).head?, u ≠ 0x2D := by
      obtain ⟨u, us, hunits⟩ : ∃ u us, (Text.ofNat m).units = u :: us := Text.exists_units_ofInt m
      have hdigit := Text.digit_of_mem_ofNat (hunits ▸ List.mem_cons_self)
      rw [hunits]
      rintro v ⟨rfl⟩ rfl
      exact absurd hdigit (by decide)
    exact (readJson?_plain hplain).trans (readMagnitude?_ofNat hn (fun _ => rfl) hrest)
  | negSucc m =>
    have hunits : (Text.ofInt (.negSucc m)).units = 0x2D :: (Text.ofNat (m + 1)).units := rfl
    have hread : readMagnitude? true ((Text.ofNat (m + 1)).units ++ rest) =
        some (.integer (.negSucc m), rest) := readMagnitude?_ofNat hn (fun h => nomatch h) hrest
    rw [hunits, List.cons_append, readJson?_minus]
    exact hread

end Number

end Eutxo

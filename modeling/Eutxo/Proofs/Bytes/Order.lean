import Eutxo.Bytes

/-!
# The bytewise order

Comparison of byte strings is the lexicographic order that the bytes induce on
lists, so it is total and only equal byte strings compare as equal.
-/

namespace Eutxo.Bytes

theorem cmp_eq_compareLex (a b : Bytes) : cmp a b = List.compareLex compare a b := by
  induction a generalizing b with
  | nil => cases b <;> rfl
  | cons x xs ih =>
    cases b with
    | nil => rfl
    | cons y ys =>
      simp only [cmp, List.compareLex_cons_cons, ih, compare, compareOfLessAndEq]
      by_cases hlt : x < y
      · simp [hlt]
      · by_cases heq : x = y
        · subst heq
          simp
        · have hgt : y < x :=
            UInt8.lt_of_le_of_ne (UInt8.not_lt.1 hlt) fun h => heq h.symm
          simp [hlt, heq, hgt]

private theorem cmp_eq : cmp = List.compareLex compare :=
  funext fun a => funext fun b => cmp_eq_compareLex a b

instance : Std.TransCmp cmp := cmp_eq ▸ inferInstanceAs (Std.TransCmp (List.compareLex _))

instance : Std.LawfulEqCmp cmp := cmp_eq ▸ inferInstanceAs (Std.LawfulEqCmp (List.compareLex _))

theorem cmp_self (a : Bytes) : cmp a a = .eq := Std.ReflCmp.compare_self

/-- Two byte strings that come no later than each other are equal. -/
theorem eq_of_le_of_le {a b : Bytes} (hab : le a b = true) (hba : le b a = true) : a = b := by
  simp only [le, bne_iff_ne, ne_eq] at hab hba
  have hlt : ¬ cmp a b = .lt := fun h => hba (Std.OrientedCmp.gt_of_lt h)
  cases hcmp : cmp a b with
  | lt => exact absurd hcmp hlt
  | gt => exact absurd hcmp hab
  | eq => exact Std.LawfulEqCmp.eq_of_compare hcmp

theorem le_total (a b : Bytes) : le a b = true ∨ le b a = true := by
  by_cases h : cmp a b = .gt
  · have hba : cmp b a = .lt := Std.OrientedCmp.lt_of_gt h
    exact .inr (by simp [le, hba])
  · exact .inl (by simpa [le] using h)

theorem le_trans {a b c : Bytes} (hab : le a b = true) (hbc : le b c = true) :
    le a c = true := by
  simp only [le, bne_iff_ne, ne_eq, ← Ordering.isLE_iff_ne_gt] at hab hbc ⊢
  exact Std.TransCmp.isLE_trans hab hbc

/-- The first byte decides before those behind it. -/
theorem cmp_cons (x y : UInt8) (a b : Bytes) :
    cmp (x :: a) (y :: b) = (compare x.toNat y.toNat).then (cmp a b) := by
  have hbyte : compare x y = compare x.toNat y.toNat := by
    simp only [compare, compareOfLessAndEq, UInt8.lt_iff_toNat_lt, UInt8.toNat_inj]
  rw [cmp_eq_compareLex, List.compareLex_cons_cons, ← cmp_eq_compareLex, hbyte]

/-- Prefixes of one length decide before what follows them. -/
theorem cmp_append {a b : Bytes} (hlength : a.length = b.length) (r s : Bytes) :
    cmp (a ++ r) (b ++ s) = (cmp a b).then (cmp r s) := by
  induction a generalizing b with
  | nil =>
    rw [List.eq_nil_of_length_eq_zero hlength.symm]
    rfl
  | cons x a ih =>
    cases b with
    | nil => cases hlength
    | cons y b =>
      rw [List.cons_append, List.cons_append, cmp_cons, cmp_cons, ih (Nat.succ.inj hlength),
        Ordering.then_assoc]

/-- The strict order: no later and different. -/
theorem cmp_eq_lt_iff {a b : Bytes} : cmp a b = .lt ↔ le a b = true ∧ a ≠ b := by
  constructor
  · intro hlt
    refine ⟨by simp [le, hlt], ?_⟩
    rintro rfl
    rw [cmp_self] at hlt
    cases hlt
  · rintro ⟨hle, hne⟩
    cases hcmp : cmp a b with
    | lt => rfl
    | gt => simp [le, hcmp] at hle
    | eq => exact absurd (Std.LawfulEqCmp.eq_of_compare hcmp) hne

end Eutxo.Bytes

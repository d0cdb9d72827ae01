import Mathlib.Tactic.IntervalCases
import Eutxo.Text.Utf8

/-!
# UTF-8 and UTF-16

Well-formed text and well-formed UTF-8 both spell sequences of scalar values,
and each sequence has one spelling of either kind.  Reading UTF-8 is therefore
undone by writing exactly where nothing had to be replaced.
-/

namespace Eutxo.Text

/-- A code point that is no surrogate. -/
def IsScalar (c : Nat) : Prop := c < 0xD800 ∨ 0xE000 ≤ c ∧ c < 0x110000

/-- The bytes spell scalar values. -/
def IsUtf8 (bs : Bytes) : Prop :=
  ∃ cs : List Nat, (∀ c ∈ cs, IsScalar c) ∧ bs = cs.flatMap utf8OfScalar

theorem isHighSurrogate_iff (u : UInt16) :
    isHighSurrogate u = true ↔ 0xD800 ≤ u.toNat ∧ u.toNat < 0xDC00 := by
  simp [isHighSurrogate, UInt16.le_iff_toNat_le, UInt16.lt_iff_toNat_lt]

theorem isLowSurrogate_iff (u : UInt16) :
    isLowSurrogate u = true ↔ 0xDC00 ≤ u.toNat ∧ u.toNat < 0xE000 := by
  simp [isLowSurrogate, UInt16.le_iff_toNat_le, UInt16.lt_iff_toNat_lt]

theorem isSurrogate_iff (u : UInt16) :
    isSurrogate u = true ↔ 0xD800 ≤ u.toNat ∧ u.toNat < 0xE000 := by
  simp [isSurrogate, UInt16.le_iff_toNat_le, UInt16.lt_iff_toNat_lt]

/-! ## Code units -/

theorem scalarsOfUnits_cons {u : UInt16} (hu : ¬ isSurrogate u = true) (rest : List UInt16) :
    scalarsOfUnits (u :: rest) = u.toNat :: scalarsOfUnits rest := by
  have hhigh : ¬ isHighSurrogate u = true := by
    rw [isSurrogate_iff] at hu
    rw [isHighSurrogate_iff]
    omega
  cases rest with
  | nil => simp [scalarsOfUnits, hu]
  | cons v rest => simp [scalarsOfUnits, hu, hhigh]

theorem scalarsOfUnits_pair {u v : UInt16} (hu : isHighSurrogate u = true)
    (hv : isLowSurrogate v = true) (rest : List UInt16) :
    scalarsOfUnits (u :: v :: rest) =
      (0x10000 + (u.toNat - 0xD800) * 0x400 + (v.toNat - 0xDC00)) :: scalarsOfUnits rest := by
  rw [scalarsOfUnits, if_pos (by rw [hu, hv]; rfl)]

theorem wellFormedUnits_cons {u : UInt16} (hu : ¬ isSurrogate u = true) (rest : List UInt16) :
    wellFormedUnits (u :: rest) = wellFormedUnits rest := by
  have hhigh : ¬ isHighSurrogate u = true := by
    rw [isSurrogate_iff] at hu
    rw [isHighSurrogate_iff]
    omega
  cases rest with
  | nil => simp [wellFormedUnits, hu]
  | cons v rest => simp [wellFormedUnits, hu, hhigh]

theorem wellFormedUnits_pair {u v : UInt16} (hu : isHighSurrogate u = true)
    (hv : isLowSurrogate v = true) (rest : List UInt16) :
    wellFormedUnits (u :: v :: rest) = wellFormedUnits rest := by
  rw [wellFormedUnits, if_pos (by rw [hu, hv]; rfl)]

/-- A scalar value is spelled by one unit that is no surrogate or by a surrogate pair. -/
theorem unitsOfScalar_cases {c : Nat} (hc : IsScalar c) :
    (∃ u, unitsOfScalar c = [u] ∧ ¬ isSurrogate u = true ∧ u.toNat = c) ∨
      ∃ u v, unitsOfScalar c = [u, v] ∧ isHighSurrogate u = true ∧ isLowSurrogate v = true ∧
        0x10000 + (u.toNat - 0xD800) * 0x400 + (v.toNat - 0xDC00) = c := by
  rw [IsScalar] at hc
  by_cases hsmall : c < 0x10000
  · have hunit : (UInt16.ofNat c).toNat = c := by
      rw [UInt16.toNat_ofNat']
      omega
    refine .inl ⟨UInt16.ofNat c, by rw [unitsOfScalar, if_pos hsmall], ?_, hunit⟩
    rw [isSurrogate_iff, hunit]
    omega
  · have hhigh : (UInt16.ofNat (0xD800 + (c - 0x10000) / 0x400)).toNat =
        0xD800 + (c - 0x10000) / 0x400 := by
      rw [UInt16.toNat_ofNat']
      omega
    have hlow : (UInt16.ofNat (0xDC00 + (c - 0x10000) % 0x400)).toNat =
        0xDC00 + (c - 0x10000) % 0x400 := by
      rw [UInt16.toNat_ofNat']
      omega
    refine .inr ⟨_, _, by rw [unitsOfScalar, if_neg hsmall], ?_⟩
    rw [isHighSurrogate_iff, isLowSurrogate_iff, hhigh, hlow]
    omega

theorem scalarsOfUnits_unitsOfScalar {c : Nat} (hc : IsScalar c) (rest : List UInt16) :
    scalarsOfUnits (unitsOfScalar c ++ rest) = c :: scalarsOfUnits rest := by
  rcases unitsOfScalar_cases hc with ⟨u, hunits, hu, hvalue⟩ | ⟨u, v, hunits, hu, hv, hvalue⟩
  · rw [hunits, List.singleton_append, scalarsOfUnits_cons hu, hvalue]
  · rw [hunits, List.cons_append, List.singleton_append, scalarsOfUnits_pair hu hv, hvalue]

theorem wellFormedUnits_unitsOfScalar {c : Nat} (hc : IsScalar c) (rest : List UInt16) :
    wellFormedUnits (unitsOfScalar c ++ rest) = wellFormedUnits rest := by
  rcases unitsOfScalar_cases hc with ⟨u, hunits, hu, -⟩ | ⟨u, v, hunits, hu, hv, -⟩
  · rw [hunits, List.singleton_append, wellFormedUnits_cons hu]
  · rw [hunits, List.cons_append, List.singleton_append, wellFormedUnits_pair hu hv]

theorem wellFormed_ofScalars {cs : List Nat} (hcs : ∀ c ∈ cs, IsScalar c) :
    (ofScalars cs).WellFormed := by
  rw [WellFormed, ofScalars]
  induction cs with
  | nil => rfl
  | cons c cs ih =>
    rw [List.flatMap_cons, wellFormedUnits_unitsOfScalar (hcs c List.mem_cons_self)]
    exact ih fun c' hc' => hcs c' (List.mem_cons_of_mem c hc')

/-- The scalar values of a text can be read back from its code units. -/
theorem scalars_ofScalars {cs : List Nat} (hcs : ∀ c ∈ cs, IsScalar c) :
    (ofScalars cs).scalars = cs := by
  rw [scalars, ofScalars]
  induction cs with
  | nil => rfl
  | cons c cs ih =>
    rw [List.flatMap_cons, scalarsOfUnits_unitsOfScalar (hcs c List.mem_cons_self)]
    rw [ih fun c' hc' => hcs c' (List.mem_cons_of_mem c hc')]

theorem isScalar_scalarOfUnit (u : UInt16) :
    IsScalar (if isSurrogate u then 0xFFFD else u.toNat) := by
  have hu : u.toNat < 0x10000 := UInt16.toNat_lt u
  by_cases h : isSurrogate u = true
  · rw [if_pos h, IsScalar]
    omega
  · rw [if_neg h, IsScalar]
    rw [isSurrogate_iff] at h
    omega

theorem isScalar_of_mem_scalarsOfUnits {us : List UInt16} {c : Nat}
    (hc : c ∈ scalarsOfUnits us) : IsScalar c := by
  induction us using scalarsOfUnits.induct with
  | case1 => simp [scalarsOfUnits] at hc
  | case2 u =>
    rw [scalarsOfUnits, List.mem_singleton] at hc
    exact hc ▸ isScalar_scalarOfUnit u
  | case3 u v rest hpair ih =>
    rw [scalarsOfUnits, if_pos hpair, List.mem_cons] at hc
    rcases hc with hc | hc
    · rw [Bool.and_eq_true, isHighSurrogate_iff, isLowSurrogate_iff] at hpair
      rw [IsScalar]
      omega
    · exact ih hc
  | case4 u v rest hpair ih =>
    rw [scalarsOfUnits, if_neg hpair, List.mem_cons] at hc
    rcases hc with rfl | hc
    · exact isScalar_scalarOfUnit u
    · exact ih hc

theorem unitsOfScalar_toNat {u : UInt16} : unitsOfScalar u.toNat = [u] := by
  have hu : u.toNat < 0x10000 := UInt16.toNat_lt u
  rw [unitsOfScalar, if_pos hu, UInt16.ofNat_toNat]

/-- A well-formed text is spelled by its scalar values. -/
theorem ofScalars_scalars {t : Text} (ht : t.WellFormed) : ofScalars t.scalars = t := by
  obtain ⟨us⟩ := t
  simp only [WellFormed] at ht
  suffices h : (scalarsOfUnits us).flatMap unitsOfScalar = us by
    rw [ofScalars, scalars, h]
  induction us using scalarsOfUnits.induct with
  | case1 => rfl
  | case2 u =>
    have hu : isSurrogate u = false := by simpa [wellFormedUnits] using ht
    simp [scalarsOfUnits, hu, unitsOfScalar_toNat]
  | case3 u v rest hpair ih =>
    rw [wellFormedUnits, if_pos hpair] at ht
    rw [scalarsOfUnits, if_pos hpair, List.flatMap_cons, ih ht]
    rw [Bool.and_eq_true, isHighSurrogate_iff, isLowSurrogate_iff] at hpair
    have hhigh : UInt16.ofNat (0xD800 + (0x10000 + (u.toNat - 0xD800) * 0x400 +
        (v.toNat - 0xDC00) - 0x10000) / 0x400) = u := by
      apply UInt16.toNat_inj.1
      rw [UInt16.toNat_ofNat']
      omega
    have hlow : UInt16.ofNat (0xDC00 + (0x10000 + (u.toNat - 0xD800) * 0x400 +
        (v.toNat - 0xDC00) - 0x10000) % 0x400) = v := by
      apply UInt16.toNat_inj.1
      rw [UInt16.toNat_ofNat']
      omega
    rw [unitsOfScalar, if_neg (by omega), hhigh, hlow]
    rfl
  | case4 u v rest hpair ih =>
    rw [wellFormedUnits, if_neg hpair, Bool.and_eq_true, Bool.not_eq_true'] at ht
    rw [scalarsOfUnits, if_neg hpair, List.flatMap_cons, ih ht.2, ht.1]
    simp [unitsOfScalar_toNat]

/-! ## Bytes -/

theorem toNat_byte {n : Nat} (hn : n < 0x100) : (UInt8.ofNat n).toNat = n := by
  rw [UInt8.toNat_ofNat']
  omega

/-- The last continuation byte of a character completes it. -/
theorem scalarsOfUtf8_last {bits low high k : Nat} (hk : k < 0x40) (hlow : low ≤ 0x80 + k)
    (hhigh : 0x80 + k ≤ high) (rest : Bytes) :
    scalarsOfUtf8 (some ⟨bits, 1, low, high⟩) (UInt8.ofNat (0x80 + k) :: rest) =
      (bits * 0x40 + k) :: scalarsOfUtf8 none rest := by
  have hbyte : (UInt8.ofNat (0x80 + k)).toNat = 0x80 + k := toNat_byte (by omega)
  rw [scalarsOfUtf8, resume, hbyte, if_pos ⟨hlow, hhigh⟩, if_pos rfl, Nat.add_sub_cancel_left]
  rfl

/-- Any other continuation byte leaves the character open. -/
theorem scalarsOfUtf8_inner {bits owed low high k : Nat} (hk : k < 0x40) (hlow : low ≤ 0x80 + k)
    (hhigh : 0x80 + k ≤ high) (rest : Bytes) :
    scalarsOfUtf8 (some ⟨bits, owed + 2, low, high⟩) (UInt8.ofNat (0x80 + k) :: rest) =
      scalarsOfUtf8 (some ⟨bits * 0x40 + k, owed + 1, 0x80, 0xBF⟩) rest := by
  have hbyte : (UInt8.ofNat (0x80 + k)).toNat = 0x80 + k := toNat_byte (by omega)
  have howed : ¬ owed + 2 = 1 := by omega
  rw [scalarsOfUtf8, resume, hbyte, if_pos ⟨hlow, hhigh⟩, if_neg howed, Nat.add_sub_cancel_left]
  rfl

/-- The first byte of a scalar value beyond ASCII announces the bits it holds. -/
theorem scalarsOfUtf8_opens {b : UInt8} {p : Pending} (hb : Lead.ofByte b = .opens p)
    (rest : Bytes) : scalarsOfUtf8 none (b :: rest) = scalarsOfUtf8 (some p) rest := by
  rw [scalarsOfUtf8, start, hb]
  rfl

theorem ofByte_single {c : Nat} (hc : c < 0x80) :
    Lead.ofByte (UInt8.ofNat c) = .single c := by
  rw [Lead.ofByte, toNat_byte (by omega)]
  exact if_pos hc

theorem ofByte_two {k : Nat} (hk : 2 ≤ k) (hk' : k < 0x20) :
    Lead.ofByte (UInt8.ofNat (0xC0 + k)) = .opens ⟨k, 1, 0x80, 0xBF⟩ := by
  interval_cases k <;> rfl

theorem ofByte_three {k : Nat} (hk : k < 0x10) :
    Lead.ofByte (UInt8.ofNat (0xE0 + k)) =
      .opens ⟨k, 2, if k = 0 then 0xA0 else 0x80, if k = 0xD then 0x9F else 0xBF⟩ := by
  interval_cases k <;> rfl

theorem ofByte_four {k : Nat} (hk : k < 5) :
    Lead.ofByte (UInt8.ofNat (0xF0 + k)) =
      .opens ⟨k, 3, if k = 0 then 0x90 else 0x80, if k = 4 then 0x8F else 0xBF⟩ := by
  interval_cases k <;> rfl

/-- A scalar value is read back from its bytes, whatever follows them. -/
theorem scalarsOfUtf8_utf8OfScalar {c : Nat} (hc : IsScalar c) (rest : Bytes) :
    scalarsOfUtf8 none (utf8OfScalar c ++ rest) = c :: scalarsOfUtf8 none rest := by
  rw [IsScalar] at hc
  by_cases hone : c < 0x80
  · rw [utf8OfScalar, if_pos hone, List.singleton_append, scalarsOfUtf8, start, ofByte_single hone]
    rfl
  by_cases htwo : c < 0x800
  · have hvalue : c / 0x40 * 0x40 + c % 0x40 = c := by omega
    rw [utf8OfScalar, if_neg hone, if_pos htwo]
    simp only [List.cons_append, List.nil_append]
    rw [scalarsOfUtf8_opens (ofByte_two (by omega) (by omega)),
      scalarsOfUtf8_last (by omega) (by omega) (by omega), hvalue]
  by_cases hthree : c < 0x10000
  · have hvalue : (c / 0x1000 * 0x40 + c / 0x40 % 0x40) * 0x40 + c % 0x40 = c := by omega
    rw [utf8OfScalar, if_neg hone, if_neg htwo, if_pos hthree]
    simp only [List.cons_append, List.nil_append]
    rw [scalarsOfUtf8_opens (ofByte_three (by omega)),
      scalarsOfUtf8_inner (by omega) (by split <;> omega) (by split <;> omega),
      scalarsOfUtf8_last (by omega) (by omega) (by omega), hvalue]
  · have hvalue : ((c / 0x40000 * 0x40 + c / 0x1000 % 0x40) * 0x40 + c / 0x40 % 0x40) * 0x40 +
        c % 0x40 = c := by
      omega
    rw [utf8OfScalar, if_neg hone, if_neg htwo, if_neg hthree]
    simp only [List.cons_append, List.nil_append]
    rw [scalarsOfUtf8_opens (ofByte_four (by omega)),
      scalarsOfUtf8_inner (by omega) (by split <;> omega) (by split <;> omega),
      scalarsOfUtf8_inner (by omega) (by omega) (by omega),
      scalarsOfUtf8_last (by omega) (by omega) (by omega), hvalue]

theorem scalarsOfUtf8_flatMap {cs : List Nat} (hcs : ∀ c ∈ cs, IsScalar c) :
    scalarsOfUtf8 none (cs.flatMap utf8OfScalar) = cs := by
  induction cs with
  | nil => rfl
  | cons c cs ih =>
    rw [List.flatMap_cons, scalarsOfUtf8_utf8OfScalar (hcs c List.mem_cons_self)]
    rw [ih fun c' hc' => hcs c' (List.mem_cons_of_mem c hc')]

/-- Whatever completes an open character is a scalar value. -/
structure Pending.Valid (p : Pending) : Prop where
  owed_pos : 0 < p.owed
  low_ge : 0x80 ≤ p.low
  isScalar : ∀ k, p.low ≤ 0x80 + k → 0x80 + k ≤ p.high →
    ∀ c, c / 0x40 ^ (p.owed - 1) = p.bits * 0x40 + k → IsScalar c

/-- The first bytes of scalar values beyond ASCII, by the number of bytes that follow. -/
theorem exists_of_ofByte_opens {b : UInt8} {p : Pending} (hb : Lead.ofByte b = .opens p) :
    (∃ k, 2 ≤ k ∧ k < 0x20 ∧ b = UInt8.ofNat (0xC0 + k) ∧ p = ⟨k, 1, 0x80, 0xBF⟩) ∨
      (∃ k < 0x10, b = UInt8.ofNat (0xE0 + k) ∧
        p = ⟨k, 2, if k = 0 then 0xA0 else 0x80, if k = 0xD then 0x9F else 0xBF⟩) ∨
      ∃ k < 5, b = UInt8.ofNat (0xF0 + k) ∧
        p = ⟨k, 3, if k = 0 then 0x90 else 0x80, if k = 4 then 0x8F else 0xBF⟩ := by
  have hlt : b.toNat < 0x100 := UInt8.toNat_lt b
  have hsplit : ∀ base, base ≤ b.toNat → b = UInt8.ofNat (base + (b.toNat - base)) := by
    intro base hbase
    rw [Nat.add_sub_cancel' hbase, UInt8.ofNat_toNat]
  by_cases hlow : b.toNat < 0xC2
  · rw [Lead.ofByte] at hb
    split_ifs at hb
  by_cases htwo : b.toNat < 0xE0
  · rw [hsplit 0xC0 (by omega), ofByte_two (by omega) (by omega)] at hb
    injection hb with hp
    exact .inl ⟨b.toNat - 0xC0, by omega, by omega, hsplit 0xC0 (by omega), hp.symm⟩
  by_cases hthree : b.toNat < 0xF0
  · rw [hsplit 0xE0 (by omega), ofByte_three (by omega)] at hb
    injection hb with hp
    exact .inr (.inl ⟨b.toNat - 0xE0, by omega, hsplit 0xE0 (by omega), hp.symm⟩)
  by_cases hfour : b.toNat < 0xF5
  · rw [hsplit 0xF0 (by omega), ofByte_four (by omega)] at hb
    injection hb with hp
    exact .inr (.inr ⟨b.toNat - 0xF0, by omega, hsplit 0xF0 (by omega), hp.symm⟩)
  · rw [Lead.ofByte] at hb
    split_ifs at hb <;> omega

theorem valid_of_ofByte_opens {b : UInt8} {p : Pending} (hb : Lead.ofByte b = .opens p) :
    p.Valid := by
  rcases exists_of_ofByte_opens hb with
    ⟨k, hk, hk', -, rfl⟩ | ⟨k, hk, -, rfl⟩ | ⟨k, hk, -, rfl⟩
  · refine ⟨Nat.zero_lt_succ _, le_rfl, fun j hlow hhigh c hc => ?_⟩
    rw [IsScalar]
    simp only at hlow hhigh hc
    omega
  · refine ⟨Nat.zero_lt_succ _, ?_, fun j hlow hhigh c hc => ?_⟩
    · simp only
      split <;> omega
    · rw [IsScalar]
      simp only at hlow hhigh hc
      split at hlow <;> split at hhigh <;> omega
  · refine ⟨Nat.zero_lt_succ _, ?_, fun j hlow hhigh c hc => ?_⟩
    · simp only
      split <;> omega
    · rw [IsScalar]
      simp only at hlow hhigh hc
      split at hlow <;> split at hhigh <;> omega

theorem of_ofByte_single {b : UInt8} {c : Nat} (hb : Lead.ofByte b = .single c) :
    c < 0x80 ∧ b = UInt8.ofNat c := by
  rw [Lead.ofByte] at hb
  split_ifs at hb with hlow
  injection hb with hc
  subst hc
  exact ⟨hlow, UInt8.ofNat_toNat.symm⟩

/-- A character that is not replaced goes on with a byte in range, which completes it or leaves it
open. -/
theorem exists_of_scalarsOfUtf8_some {p : Pending} {bs : Bytes} {c : Nat} {cs : List Nat}
    (hlow : 0x80 ≤ p.low) (hc : c ≠ 0xFFFD) (h : scalarsOfUtf8 (some p) bs = c :: cs) :
    ∃ k rest, bs = UInt8.ofNat (0x80 + k) :: rest ∧ p.low ≤ 0x80 + k ∧ 0x80 + k ≤ p.high ∧
      if p.owed = 1 then c = p.bits * 0x40 + k
      else scalarsOfUtf8 (some ⟨p.bits * 0x40 + k, p.owed - 1, 0x80, 0xBF⟩) rest = c :: cs := by
  cases bs with
  | nil => exact absurd (List.cons.inj h).1.symm hc
  | cons b rest =>
    rw [scalarsOfUtf8, resume] at h
    by_cases hrange : p.low ≤ b.toNat ∧ b.toNat ≤ p.high
    · have hb : 0x80 + (b.toNat - 0x80) = b.toNat := by omega
      rw [if_pos hrange] at h
      refine ⟨b.toNat - 0x80, rest, ?_, by omega, by omega, ?_⟩
      · rw [hb, UInt8.ofNat_toNat]
      · split_ifs at h ⊢ with hlast
        · exact (List.cons.inj h).1.symm
        · exact h
    · rw [if_neg hrange] at h
      exact absurd (List.cons.inj h).1.symm hc

/-- A scalar value that replaces nothing is read from its own bytes. -/
theorem prefix_of_scalarsOfUtf8_cons {bs : Bytes} {c : Nat} {cs : List Nat} (hc : c ≠ 0xFFFD)
    (h : scalarsOfUtf8 none bs = c :: cs) : utf8OfScalar c <+: bs := by
  cases bs with
  | nil => cases h
  | cons b rest =>
    cases hb : Lead.ofByte b with
    | malformed =>
      rw [scalarsOfUtf8, start, hb] at h
      exact absurd (List.cons.inj h).1.symm hc
    | single d =>
      rw [scalarsOfUtf8, start, hb] at h
      obtain ⟨hd, rfl⟩ := of_ofByte_single hb
      have hvalue : d = c := (List.cons.inj h).1
      rw [utf8OfScalar, ← hvalue, if_pos hd]
      exact List.prefix_append [_] rest
    | opens p =>
      rw [scalarsOfUtf8_opens hb] at h
      rcases exists_of_ofByte_opens hb with
        ⟨i, hi, hi', rfl, rfl⟩ | ⟨i, hi, rfl, rfl⟩ | ⟨i, hi, rfl, rfl⟩
      · obtain ⟨j, rest, rfl, hlow, hhigh, hvalue⟩ := exists_of_scalarsOfUtf8_some (by simp) hc h
        simp only [if_true] at hlow hhigh hvalue
        have hi : c / 0x40 = i := by omega
        have hj : c % 0x40 = j := by omega
        rw [utf8OfScalar, if_neg (by omega), if_pos (by omega), hi, hj]
        exact List.prefix_append [_, _] rest
      · obtain ⟨j, rest, rfl, hlow, hhigh, h⟩ :=
          exists_of_scalarsOfUtf8_some (by simp only; split <;> omega) hc h
        obtain ⟨k, rest, rfl, hlow', hhigh', hvalue⟩ :=
          exists_of_scalarsOfUtf8_some (by simp) hc h
        simp only [if_true] at hlow hhigh hlow' hhigh' hvalue
        have hlead : 0x20 ≤ i * 0x40 + j := by split at hlow <;> omega
        have hlimit : j < 0x40 := by split at hhigh <;> omega
        have hi : c / 0x1000 = i := by omega
        have hj : c / 0x40 % 0x40 = j := by omega
        have hk : c % 0x40 = k := by omega
        rw [utf8OfScalar, if_neg (by omega), if_neg (by omega), if_pos (by omega), hi, hj, hk]
        exact List.prefix_append [_, _, _] rest
      · obtain ⟨j, rest, rfl, hlow, hhigh, h⟩ :=
          exists_of_scalarsOfUtf8_some (by simp only; split <;> omega) hc h
        obtain ⟨k, rest, rfl, hlow', hhigh', h⟩ := exists_of_scalarsOfUtf8_some (by simp) hc h
        obtain ⟨l, rest, rfl, hlow'', hhigh'', hvalue⟩ :=
          exists_of_scalarsOfUtf8_some (by simp) hc h
        simp only [if_true] at hlow hhigh hlow' hhigh' hlow'' hhigh'' hvalue
        have hlead : 0x10 ≤ i * 0x40 + j := by split at hlow <;> omega
        have hlimit : j < 0x40 := by split at hhigh <;> omega
        have hi : c / 0x40000 = i := by omega
        have hj : c / 0x1000 % 0x40 = j := by omega
        have hk : c / 0x40 % 0x40 = k := by omega
        have hl : c % 0x40 = l := by omega
        rw [utf8OfScalar, if_neg (by omega), if_neg (by omega), if_neg (by omega), hi, hj, hk, hl]
        exact List.prefix_append [_, _, _, _] rest

/-- What a byte does at the start of a character, by the three kinds of first bytes. -/
theorem start_cases (b : UInt8) :
    (∃ c < 0x80, start b = ([c], none)) ∨ (∃ p : Pending, p.Valid ∧ start b = ([], some p)) ∨
      start b = ([0xFFFD], none) := by
  rw [start]
  cases hb : Lead.ofByte b with
  | single c => exact .inl ⟨c, (of_ofByte_single hb).1, rfl⟩
  | opens p => exact .inr (.inl ⟨p, valid_of_ofByte_opens hb, rfl⟩)
  | malformed => exact .inr (.inr rfl)

/-- What a byte does inside a character: it completes it, leaves it open, or ends it unfinished. -/
theorem resume_cases {p : Pending} (hp : p.Valid) (b : UInt8) :
    (∃ c, IsScalar c ∧ resume p b = ([c], none)) ∨
      (∃ q : Pending, q.Valid ∧ resume p b = ([], some q)) ∨
      resume p b = (0xFFFD :: (start b).1, (start b).2) := by
  obtain ⟨bits, owed, low, high⟩ := p
  obtain ⟨howed, hlow, hscalar⟩ := hp
  simp only at howed hlow hscalar
  by_cases hrange : low ≤ b.toNat ∧ b.toNat ≤ high
  · have hk : 0x80 + (b.toNat - 0x80) = b.toNat := by omega
    have hnext := hscalar (b.toNat - 0x80) (by omega) (by omega)
    by_cases hlast : owed = 1
    · refine .inl ⟨bits * 0x40 + (b.toNat - 0x80), hnext _ ?_, ?_⟩
      · rw [hlast, Nat.sub_self, Nat.pow_zero, Nat.div_one]
      · rw [resume, if_pos hrange]
        exact if_pos hlast
    · obtain ⟨more, rfl⟩ : ∃ more, owed = more + 2 := ⟨owed - 2, by omega⟩
      refine .inr (.inl ⟨⟨bits * 0x40 + (b.toNat - 0x80), more + 1, 0x80, 0xBF⟩, ?_, ?_⟩)
      · refine ⟨Nat.zero_lt_succ _, le_rfl, fun k hk hk' c hc => hnext c ?_⟩
        simp only [Nat.add_sub_cancel] at hk hk' hc
        rw [show more + 2 - 1 = more + 1 from rfl, Nat.pow_succ, ← Nat.div_div_eq_div_mul, hc]
        omega
      · rw [resume, if_pos hrange]
        exact if_neg hlast
  · exact .inr (.inr (by rw [resume, if_neg hrange]))

theorem isScalar_replacement : IsScalar 0xFFFD := by
  rw [IsScalar]
  omega

/-- Reading UTF-8 gives scalar values only. -/
theorem isScalar_of_mem_scalarsOfUtf8 {bs : Bytes} {state : Option Pending}
    (hstate : ∀ p ∈ state, p.Valid) {c : Nat} (hc : c ∈ scalarsOfUtf8 state bs) :
    IsScalar c := by
  induction bs generalizing state with
  | nil =>
    cases state with
    | none => simp [scalarsOfUtf8] at hc
    | some p =>
      rw [scalarsOfUtf8, List.mem_singleton] at hc
      exact hc ▸ isScalar_replacement
  | cons b bs ih =>
    have hstart : ∀ d ∈ (start b).1, IsScalar d := by
      rcases start_cases b with ⟨d, hd, hb⟩ | ⟨p, -, hb⟩ | hb <;> rw [hb]
      · intro e he
        exact .inl (by rw [List.mem_singleton.1 he]; omega)
      · simp
      · simpa using isScalar_replacement
    have hopen : ∀ p ∈ (start b).2, p.Valid := by
      rcases start_cases b with ⟨d, hd, hb⟩ | ⟨p, hp, hb⟩ | hb <;> rw [hb]
      · simp
      · simpa using hp
      · simp
    cases state with
    | none =>
      rw [scalarsOfUtf8, List.mem_append] at hc
      exact hc.elim (hstart c) (ih hopen)
    | some p =>
      rw [scalarsOfUtf8, List.mem_append] at hc
      rcases resume_cases (hstate p rfl) b with ⟨d, hd, hb⟩ | ⟨q, hq, hb⟩ | hb <;>
        rw [hb] at hc
      · exact hc.elim (fun h => List.mem_singleton.1 h ▸ hd) (ih (by simp))
      · exact hc.elim (by simp) (ih (by simpa using hq))
      · rcases hc with hc | hc
        · rcases List.mem_cons.1 hc with rfl | hc
          · exact isScalar_replacement
          · exact hstart c hc
        · exact ih hopen hc

theorem scalars_ofUtf8 (bs : Bytes) : (ofUtf8 bs).scalars = scalarsOfUtf8 none bs :=
  scalars_ofScalars fun _ hc => isScalar_of_mem_scalarsOfUtf8 (by simp) hc

theorem wellFormed_ofUtf8 (bs : Bytes) : (ofUtf8 bs).WellFormed :=
  wellFormed_ofScalars fun _ hc => isScalar_of_mem_scalarsOfUtf8 (by simp) hc

theorem isUtf8_toUtf8 (t : Text) : IsUtf8 t.toUtf8 :=
  ⟨t.scalars, fun _ hc => isScalar_of_mem_scalarsOfUnits hc, rfl⟩

/-- Well-formed text is read back from its bytes. -/
theorem ofUtf8_toUtf8 {t : Text} (ht : t.WellFormed) : ofUtf8 t.toUtf8 = t := by
  have hscalars : scalarsOfUtf8 none t.toUtf8 = t.scalars :=
    scalarsOfUtf8_flatMap fun _ hc => isScalar_of_mem_scalarsOfUnits hc
  rw [ofUtf8, hscalars, ofScalars_scalars ht]

/-- Writing undoes reading exactly on well-formed UTF-8. -/
theorem toUtf8_ofUtf8_iff (bs : Bytes) : (ofUtf8 bs).toUtf8 = bs ↔ IsUtf8 bs := by
  constructor
  · intro h
    exact h ▸ isUtf8_toUtf8 _
  · rintro ⟨cs, hcs, rfl⟩
    rw [toUtf8, scalars_ofUtf8, scalarsOfUtf8_flatMap hcs]

theorem length_utf8OfScalar_le (c : Nat) : (utf8OfScalar c).length ≤ 4 := by
  rw [utf8OfScalar]
  split_ifs <;> simp

theorem length_utf8OfScalar_single {c : Nat} (hc : c < 0x80) : (utf8OfScalar c).length = 1 := by
  rw [utf8OfScalar, if_pos hc]
  rfl

/-- Text in ASCII takes one byte for each unit. -/
theorem length_toUtf8_of_ascii {t : Text} (h : ∀ u ∈ t.units, u.toNat < 0x80) :
    t.toUtf8.length = t.length := by
  obtain ⟨us⟩ := t
  rw [toUtf8, scalars]
  induction us with
  | nil => rfl
  | cons u us ih =>
    obtain ⟨hu, hus⟩ := List.forall_mem_cons.1 h
    have hplain : ¬ isSurrogate u = true := by
      rw [isSurrogate_iff]
      omega
    rw [scalarsOfUnits_cons hplain, List.flatMap_cons, List.length_append,
      length_utf8OfScalar_single hu, ih hus, length, length, List.length_cons, Nat.add_comm]

/-- A byte is replaced by at most the three bytes of `U+FFFD`; an open character has saved up three
bytes more than it needs for those it is made of. -/
theorem length_flatMap_scalarsOfUtf8_le {bs : Bytes} {state : Option Pending}
    (hstate : ∀ p ∈ state, p.Valid) :
    ((scalarsOfUtf8 state bs).flatMap utf8OfScalar).length ≤
      3 * bs.length + (if state.isSome then 3 else 0) := by
  have hreplacement : (utf8OfScalar 0xFFFD).length = 3 := rfl
  induction bs generalizing state with
  | nil =>
    cases state with
    | none => simp [scalarsOfUtf8]
    | some p => simp [scalarsOfUtf8, hreplacement]
  | cons b bs ih =>
    have hnone : ((scalarsOfUtf8 none bs).flatMap utf8OfScalar).length ≤ 3 * bs.length :=
      @ih none (by simp)
    have hsome : ∀ p : Pending, p.Valid →
        ((scalarsOfUtf8 (some p) bs).flatMap utf8OfScalar).length ≤ 3 * bs.length + 3 :=
      fun p hp => @ih (some p) (by simpa using hp)
    have hstart : (((start b).1 ++ scalarsOfUtf8 (start b).2 bs).flatMap utf8OfScalar).length ≤
        3 * bs.length + 3 := by
      rcases start_cases b with ⟨c, hc, hb⟩ | ⟨p, hp, hb⟩ | hb <;> rw [hb]
      · simp only [List.singleton_append, List.flatMap_cons, List.length_append,
          length_utf8OfScalar_single hc]
        omega
      · exact hsome p hp
      · simp only [List.singleton_append, List.flatMap_cons, List.length_append, hreplacement]
        omega
    cases state with
    | none =>
      rw [scalarsOfUtf8, List.length_cons]
      simp only [Option.isSome_none]
      omega
    | some p =>
      rw [scalarsOfUtf8, List.length_cons]
      simp only [Option.isSome_some, if_true]
      rcases resume_cases (hstate p rfl) b with ⟨c, -, hb⟩ | ⟨q, hq, hb⟩ | hb <;> rw [hb]
      · have hc := length_utf8OfScalar_le c
        simp only [List.singleton_append, List.flatMap_cons, List.length_append]
        omega
      · have hq' := hsome q hq
        simp only [List.nil_append]
        omega
      · simp only [List.cons_append, List.flatMap_cons, List.length_append, hreplacement]
        omega

theorem length_toUtf8_ofUtf8_le (bs : Bytes) : (ofUtf8 bs).toUtf8.length ≤ 3 * bs.length := by
  rw [toUtf8, scalars_ofUtf8]
  exact length_flatMap_scalarsOfUtf8_le (by simp)

/-! ## The byte order mark -/

/-- The byte order mark, which decoding drops from the front of a text. -/
def mark : UInt16 := 0xFEFF

theorem scalarsOfUtf8_mark (rest : Bytes) :
    scalarsOfUtf8 none (0xEF :: 0xBB :: 0xBF :: rest) = 0xFEFF :: scalarsOfUtf8 none rest := rfl

theorem units_ofUtf8_mark (rest : Bytes) :
    (ofUtf8 (0xEF :: 0xBB :: 0xBF :: rest)).units = mark :: (ofUtf8 rest).units := by
  rw [ofUtf8, scalarsOfUtf8_mark]
  rfl

theorem scalars_of_marked {t : Text} (h : t.units.head? = some mark) :
    ∃ cs, t.scalars = 0xFEFF :: cs := by
  obtain ⟨units⟩ := t
  cases units with
  | nil => cases h
  | cons u us =>
    cases h
    exact ⟨scalarsOfUnits us, scalarsOfUnits_cons (by decide) us⟩

theorem prefix_of_marked {t : Text} (h : t.units.head? = some mark) :
    [0xEF, 0xBB, 0xBF] <+: t.toUtf8 := by
  obtain ⟨cs, hcs⟩ := scalars_of_marked h
  rw [toUtf8, hcs]
  exact List.prefix_append (utf8OfScalar 0xFEFF) _

/-- No replacement puts a mark in front of a text. -/
theorem marked_ofUtf8_iff {bs : Bytes} :
    (ofUtf8 bs).units.head? = some mark ↔ [0xEF, 0xBB, 0xBF] <+: bs := by
  constructor
  · intro h
    obtain ⟨cs, hcs⟩ := scalars_of_marked h
    rw [scalars_ofUtf8] at hcs
    exact prefix_of_scalarsOfUtf8_cons (by decide) hcs
  · rintro ⟨rest, rfl⟩
    exact congrArg List.head? (units_ofUtf8_mark rest)

/-- No other code unit is read as the scalar value of the mark. -/
theorem head?_of_scalars {us : List UInt16} {cs : List Nat}
    (h : scalarsOfUnits us = 0xFEFF :: cs) : us.head? = some mark := by
  have hunit {u : UInt16} (hu : (if isSurrogate u then 0xFFFD else u.toNat) = 0xFEFF) :
      u = mark := by
    split_ifs at hu
    · cases hu
    · exact UInt16.toNat_inj.1 hu
  cases us using scalarsOfUnits.induct with
  | case1 => cases h
  | case2 u =>
    rw [scalarsOfUnits, List.cons.injEq] at h
    rw [List.head?_cons, hunit h.1]
  | case3 u v rest hpair =>
    rw [scalarsOfUnits, if_pos hpair, List.cons.injEq] at h
    omega
  | case4 u v rest hpair =>
    rw [scalarsOfUnits, if_neg hpair, List.cons.injEq] at h
    rw [List.head?_cons, hunit h.1]

/-- The bytes of a text begin with those of the mark exactly if the text begins with the mark. -/
theorem marked_iff {t : Text} :
    [0xEF, 0xBB, 0xBF] <+: t.toUtf8 ↔ t.units.head? = some mark := by
  refine ⟨?_, prefix_of_marked⟩
  rintro ⟨rest, hrest⟩
  have hscalars : scalarsOfUtf8 none t.toUtf8 = t.scalars :=
    scalarsOfUtf8_flatMap fun _ hc => isScalar_of_mem_scalarsOfUnits hc
  rw [← hrest] at hscalars
  exact head?_of_scalars (hscalars.symm.trans (scalarsOfUtf8_mark rest))

/-- The text as it is written, its stray surrogates replaced. -/
def repaired (t : Text) : Text := ofUtf8 t.toUtf8

theorem toUtf8_repaired (t : Text) : t.repaired.toUtf8 = t.toUtf8 :=
  (toUtf8_ofUtf8_iff _).2 (isUtf8_toUtf8 t)

theorem wellFormed_repaired (t : Text) : t.repaired.WellFormed := wellFormed_ofUtf8 _

theorem head?_repaired_iff {t : Text} :
    t.repaired.units.head? = some mark ↔ t.units.head? = some mark := by
  rw [← marked_iff, ← marked_iff, toUtf8_repaired]

end Eutxo.Text

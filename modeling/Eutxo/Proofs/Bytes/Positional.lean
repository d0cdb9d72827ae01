import Mathlib.Tactic.Ring
import Eutxo.Proofs.Bytes.Order

/-!
# Numbers as bytes

The positional readings of a byte string are inverse to the positional
spellings of a number.  The shortest big-endian spelling is the only one that
does not begin with a zero byte.  Big-endian spellings of one length are in the
order of their numbers, shortest ones by length first.
-/

namespace Eutxo.Bytes

theorem toNatLE_lt (bs : Bytes) : toNatLE bs < 256 ^ bs.length := by
  induction bs with
  | nil => simp [toNatLE]
  | cons b bs ih =>
    have hb : b.toNat < 256 := UInt8.toNat_lt b
    rw [toNatLE, List.length_cons, Nat.pow_succ]
    omega

theorem toNatLE_ofNatLE {width n : Nat} (hn : n < 256 ^ width) :
    toNatLE (ofNatLE width n) = n := by
  induction width generalizing n with
  | zero =>
    rw [Nat.pow_zero] at hn
    rw [ofNatLE, toNatLE]
    omega
  | succ width ih =>
    have hquotient : n / 256 < 256 ^ width := by
      rw [Nat.pow_succ] at hn
      exact Nat.div_lt_of_lt_mul (by omega)
    have hbyte : (UInt8.ofNat n).toNat = n % 256 := UInt8.toNat_ofNat'
    rw [ofNatLE, toNatLE, ih hquotient, hbyte]
    omega

theorem ofNatLE_toNatLE (bs : Bytes) : ofNatLE bs.length (toNatLE bs) = bs := by
  induction bs with
  | nil => rfl
  | cons b bs ih =>
    have hb : b.toNat < 256 := UInt8.toNat_lt b
    have hlow : UInt8.ofNat (b.toNat + 256 * toNatLE bs) = b := by
      apply UInt8.toNat_inj.1
      rw [UInt8.toNat_ofNat']
      omega
    have hhigh : (b.toNat + 256 * toNatLE bs) / 256 = toNatLE bs := by omega
    rw [List.length_cons, toNatLE, ofNatLE, hlow, hhigh, ih]

theorem toNatBE_lt (bs : Bytes) : toNatBE bs < 256 ^ bs.length := by
  simpa [toNatBE] using toNatLE_lt bs.reverse

theorem toNatBE_ofNatBE {width n : Nat} (hn : n < 256 ^ width) :
    toNatBE (ofNatBE width n) = n := by
  rw [toNatBE, ofNatBE, List.reverse_reverse, toNatLE_ofNatLE hn]

theorem ofNatBE_toNatBE (bs : Bytes) : ofNatBE bs.length (toNatBE bs) = bs := by
  have h := ofNatLE_toNatLE bs.reverse
  rw [List.length_reverse] at h
  rw [ofNatBE, toNatBE, h, List.reverse_reverse]

theorem toNatBE_cons (b : UInt8) (bs : Bytes) :
    toNatBE (b :: bs) = b.toNat * 256 ^ bs.length + toNatBE bs := by
  have happend : ∀ xs : Bytes, toNatLE (xs ++ [b]) = toNatLE xs + b.toNat * 256 ^ xs.length := by
    intro xs
    induction xs with
    | nil => simp [toNatLE]
    | cons x xs ih =>
      rw [List.cons_append, toNatLE, toNatLE, ih, List.length_cons, Nat.pow_succ]
      ring
  rw [toNatBE, List.reverse_cons, happend, List.length_reverse, toNatBE]
  omega

theorem widthOf_le_iff (n width : Nat) : widthOf n ≤ width ↔ n < 256 ^ width := by
  have hpow : (256 : Nat) ^ width = 2 ^ (8 * width) := by
    rw [Nat.pow_mul]
  rw [hpow, widthOf]
  by_cases hn : n = 0
  · simp [hn]
  · rw [if_neg hn, ← Nat.log2_lt hn]
    omega

theorem toNatBE_ofNat (n : Nat) : toNatBE (ofNat n) = n :=
  toNatBE_ofNatBE ((widthOf_le_iff n _).1 le_rfl)

theorem length_ofNat (n : Nat) : (ofNat n).length = widthOf n := length_ofNatBE _ n

/-- A byte string without a leading zero is the shortest spelling of its number. -/
theorem ofNat_toNatBE {bs : Bytes} (hhead : bs.head? ≠ some 0) : ofNat (toNatBE bs) = bs := by
  have hwidth : widthOf (toNatBE bs) = bs.length := by
    apply Nat.le_antisymm ((widthOf_le_iff _ _).2 (toNatBE_lt bs))
    cases bs with
    | nil => exact Nat.zero_le _
    | cons b rest =>
      have hb : 0 < b.toNat := by
        rw [Nat.pos_iff_ne_zero]
        intro hzero
        have hb0 : b = 0 := UInt8.toNat_inj.1 hzero
        exact hhead (by rw [List.head?_cons, hb0])
      have hpow : 256 ^ rest.length ≤ toNatBE (b :: rest) := by
        rw [toNatBE_cons]
        exact Nat.le_add_right_of_le (Nat.le_mul_of_pos_left _ hb)
      have hnot := mt (widthOf_le_iff (toNatBE (b :: rest)) rest.length).1 (by omega)
      rw [List.length_cons]
      omega
  rw [ofNat, hwidth, ofNatBE_toNatBE]

theorem head?_ofNat (n : Nat) : (ofNat n).head? ≠ some 0 := by
  intro hzero
  obtain ⟨rest, hrest⟩ : ∃ rest, ofNat n = 0 :: rest := by
    cases hofNat : ofNat n with
    | nil => simp [hofNat] at hzero
    | cons b rest =>
      rw [hofNat, List.head?_cons, Option.some.injEq] at hzero
      exact ⟨rest, by rw [hzero]⟩
  have hvalue : n = toNatBE rest := by
    rw [← toNatBE_ofNat n, hrest, toNatBE_cons]
    simp
  have hshort : widthOf n ≤ rest.length := (widthOf_le_iff _ _).2 (hvalue ▸ toNatBE_lt rest)
  have hlength := length_ofNat n
  rw [hrest, List.length_cons] at hlength
  omega

/-! ## The order of spellings -/

/-- Numbers that a measure tells apart are in the order of their measures. -/
theorem compare_then_eq {i j m n : Nat} {o : Ordering} (hlt : i < j → m < n) (hgt : j < i → n < m)
    (heq : i = j → o = compare m n) : (compare i j).then o = compare m n := by
  rcases Nat.lt_trichotomy i j with hij | hij | hij
  · rw [Nat.compare_eq_lt.2 hij, Nat.compare_eq_lt.2 (hlt hij)]
    rfl
  · rw [Nat.compare_eq_eq.2 hij, Ordering.eq_then, heq hij]
  · rw [Nat.compare_eq_gt.2 hij, Nat.compare_eq_gt.2 (hgt hij)]
    rfl

/-- The higher digit decides before the lower one. -/
theorem compare_mul_add {base a b : Nat} (ha : a < base) (hb : b < base) (x y : Nat) :
    compare (x * base + a) (y * base + b) = (compare x y).then (compare a b) := by
  have hhigh {u v c d : Nat} (hc : c < base) (huv : u < v) : u * base + c < v * base + d := by
    have hmul : (u + 1) * base ≤ v * base := Nat.mul_le_mul_right base huv
    rw [Nat.add_mul, Nat.one_mul] at hmul
    omega
  refine (compare_then_eq (hhigh ha) (hhigh hb) ?_).symm
  rintro rfl
  rw [Nat.compare_eq_ite_lt, Nat.compare_eq_ite_lt]
  simp only [Nat.add_lt_add_iff_left]

/-- Bytes of one length are in the order of the numbers that they spell. -/
theorem cmp_eq_compare_toNatBE {a b : Bytes} (hlength : a.length = b.length) :
    cmp a b = compare (toNatBE a) (toNatBE b) := by
  induction a generalizing b with
  | nil =>
    rw [List.eq_nil_of_length_eq_zero hlength.symm]
    rfl
  | cons x a ih =>
    cases b with
    | nil => cases hlength
    | cons y b =>
      have htail : a.length = b.length := Nat.succ.inj hlength
      have hb := toNatBE_lt b
      rw [← htail] at hb
      rw [cmp_cons, ih htail, toNatBE_cons, toNatBE_cons, ← htail,
        compare_mul_add (toNatBE_lt a) hb]

theorem widthOf_mono {m n : Nat} (h : m ≤ n) : widthOf m ≤ widthOf n :=
  (widthOf_le_iff m _).2 (Nat.lt_of_le_of_lt h ((widthOf_le_iff n _).1 le_rfl))

/-- The shortest spellings are by length and then bytewise in the order of their numbers. -/
theorem compare_length_then_cmp_ofNat (m n : Nat) :
    (compare (ofNat m).length (ofNat n).length).then (cmp (ofNat m) (ofNat n)) = compare m n := by
  rw [length_ofNat, length_ofNat]
  have hnarrow {i j : Nat} (hlt : widthOf i < widthOf j) : i < j :=
    Nat.lt_of_not_le fun hle => Nat.not_le.2 hlt (widthOf_mono hle)
  refine compare_then_eq hnarrow hnarrow fun heq => ?_
  have hlength : (ofNat m).length = (ofNat n).length := by rw [length_ofNat, length_ofNat, heq]
  rw [cmp_eq_compare_toNatBE hlength, toNatBE_ofNat, toNatBE_ofNat]

end Eutxo.Bytes

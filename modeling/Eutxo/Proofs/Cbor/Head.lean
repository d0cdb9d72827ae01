import Mathlib.Tactic.IntervalCases
import Eutxo.Cbor.Head
import Eutxo.Proofs.Bytes.Positional

/-!
# Reading and writing heads

A head is read back from its bytes, and the bytes in front of what a head leaves
are its own.  The shortest heads are the minimal ones among them.
-/

namespace Eutxo.Cbor

theorem Major.code_lt (major : Major) : major.code < 8 := by
  cases major <;> decide

theorem Major.code_ofByte (b : UInt8) : (Major.ofByte b).code = b.toNat / 32 := by
  have hlt : b.toNat / 32 < 8 := by
    have := UInt8.toNat_lt b
    omega
  rw [Major.ofByte]
  generalize b.toNat / 32 = n at hlt
  interval_cases n <;> rfl

theorem Major.code_injective {m n : Major} (h : m.code = n.code) : m = n := by
  cases m <;> cases n <;> first | rfl | cases h

namespace Head

/-- The bytes of a head. -/
def spell (h : Head) : Bytes :=
  if h.width = 0 then [UInt8.ofNat (32 * h.major.code + h.argument)]
  else
    UInt8.ofNat (32 * h.major.code + widthCode h.width) :: Bytes.ofNatBE h.width h.argument

/-- The first byte of a head. -/
def first (h : Head) : UInt8 :=
  UInt8.ofNat (32 * h.major.code + if h.width = 0 then h.argument else widthCode h.width)

theorem spell_eq_cons (h : Head) : h.spell = h.first :: Bytes.ofNatBE h.width h.argument := by
  by_cases hwidth : h.width = 0
  · rw [spell, first, if_pos hwidth, if_pos hwidth, hwidth]
    rfl
  · rw [spell, first, if_neg hwidth, if_neg hwidth]

/-- The argument can stand in the width. -/
def Fits (h : Head) : Prop :=
  h.width = 0 ∧ h.argument < 24 ∨ h.width ∈ [1, 2, 4, 8] ∧ h.argument < 256 ^ h.width

theorem ne_zero_of_mem_widths {width : Nat} (h : width ∈ [1, 2, 4, 8]) : width ≠ 0 := by
  rintro rfl
  simp at h

theorem toNat_first (major : Major) {info : Nat} (hinfo : info < 32) :
    (UInt8.ofNat (32 * major.code + info)).toNat = 32 * major.code + info := by
  have hcode := major.code_lt
  rw [UInt8.toNat_ofNat']
  omega

theorem ofByte_first (major : Major) {info : Nat} (hinfo : info < 32) :
    Major.ofByte (UInt8.ofNat (32 * major.code + info)) = major := by
  apply Major.code_injective
  rw [Major.code_ofByte, toNat_first major hinfo]
  omega

theorem first_eq (b : UInt8) :
    UInt8.ofNat (32 * (Major.ofByte b).code + b.toNat % 32) = b := by
  rw [Major.code_ofByte, Nat.div_add_mod, UInt8.ofNat_toNat]

theorem widthCode_lt (width : Nat) : widthCode width < 32 := by
  rw [widthCode]
  split_ifs <;> decide

/-- The first byte of a head announces its argument bytes. -/
theorem widthOf?_first (major : Major) {width : Nat} (hwidth : width ∈ [1, 2, 4, 8]) :
    widthOf? (UInt8.ofNat (32 * major.code + widthCode width)) = some width := by
  rw [widthOf?, toNat_first major (widthCode_lt width)]
  simp only [List.mem_cons, List.not_mem_nil, or_false] at hwidth
  rcases hwidth with rfl | rfl | rfl | rfl <;> simp [widthCode]

theorem widthOf?_immediate (major : Major) {n : Nat} (hn : n < 24) :
    widthOf? (UInt8.ofNat (32 * major.code + n)) = some 0 := by
  rw [widthOf?, toNat_first major (by omega)]
  exact if_pos (by omega)

/-- A head is read back from its bytes, whatever follows them. -/
theorem read?_spell {h : Head} (hfits : h.Fits) (rest : Bytes) :
    read? (h.spell ++ rest) = some (h, rest) := by
  obtain ⟨major, width, argument⟩ := h
  rcases hfits with ⟨hwidth, hargument⟩ | ⟨hwidth, hargument⟩
  · simp only at hwidth hargument
    subst hwidth
    rw [spell, if_pos rfl, List.singleton_append, read?, widthOf?_immediate major hargument]
    have hinfo : (32 * major.code + argument) % 32 = argument := by omega
    simp only [Option.bind_eq_bind, Option.bind_some, if_true,
      ofByte_first major (show argument < 32 by omega),
      toNat_first major (show argument < 32 by omega), hinfo]
    rfl
  · simp only at hwidth hargument
    have hpos := ne_zero_of_mem_widths hwidth
    rw [spell, if_neg hpos, List.cons_append, read?, widthOf?_first major hwidth]
    have hlength : (Bytes.ofNatBE width argument).length = width := Bytes.length_ofNatBE _ _
    have hshort : ¬ (Bytes.ofNatBE width argument ++ rest).length < width := by
      rw [List.length_append]
      omega
    simp only [Option.bind_eq_bind, Option.bind_some, if_neg hpos, if_neg hshort,
      ofByte_first major (widthCode_lt width), List.take_left' hlength, List.drop_left' hlength,
      Bytes.toNatBE_ofNatBE hargument]
    rfl

theorem widthOf?_eq_some {b : UInt8} {width : Nat} (h : widthOf? b = some width) :
    width = 0 ∧ b.toNat % 32 < 24 ∨
      width ∈ [1, 2, 4, 8] ∧ b.toNat % 32 = widthCode width := by
  simp only [widthOf?] at h
  split_ifs at h with h0 h1 h2 h3 h4 <;> injection h with h <;> subst h
  · exact .inl ⟨rfl, h0⟩
  · exact .inr ⟨by decide, h1⟩
  · exact .inr ⟨by decide, h2⟩
  · exact .inr ⟨by decide, h3⟩
  · exact .inr ⟨by decide, h4⟩

/-- What is read as a head fits, and its bytes stand in front of the rest. -/
theorem eq_spell_of_read? {bs rest : Bytes} {h : Head} (hread : read? bs = some (h, rest)) :
    h.Fits ∧ bs = h.spell ++ rest := by
  cases bs with
  | nil => cases hread
  | cons b bs =>
    rw [read?] at hread
    obtain ⟨width, hwidth, hread⟩ := Option.bind_eq_some_iff.1 hread
    rcases widthOf?_eq_some hwidth with ⟨rfl, hinfo⟩ | ⟨hmem, hinfo⟩
    · rw [if_pos rfl] at hread
      injection hread with hread
      injection hread with hhead hrest
      subst hhead hrest
      refine ⟨.inl ⟨rfl, hinfo⟩, ?_⟩
      rw [spell, if_pos rfl, first_eq, List.singleton_append]
    · have hpos := ne_zero_of_mem_widths hmem
      rw [if_neg hpos] at hread
      split_ifs at hread with hshort
      injection hread with hread
      injection hread with hhead hrest
      subst hhead hrest
      have hlength : (bs.take width).length = width := by
        rw [List.length_take]
        omega
      have hbytes := Bytes.ofNatBE_toNatBE (bs.take width)
      have hlt := Bytes.toNatBE_lt (bs.take width)
      rw [hlength] at hbytes hlt
      refine ⟨.inr ⟨hmem, hlt⟩, ?_⟩
      rw [spell, if_neg hpos]
      simp only
      rw [hbytes, ← hinfo, first_eq, List.cons_append, List.take_append_drop]

/-! ## The shortest heads -/

theorem fits_of_minimalWidth? {n width : Nat} (major : Major) (h : minimalWidth? n = some width) :
    Fits ⟨major, width, n⟩ := by
  rw [minimalWidth?] at h
  split_ifs at h with h0 h1 h2 h3 h4 <;> injection h with h <;> subst h
  · exact .inl ⟨rfl, h0⟩
  · exact .inr ⟨by simp, by simpa using h1⟩
  · exact .inr ⟨by simp, by simpa using h2⟩
  · exact .inr ⟨by simp, by simpa using h3⟩
  · exact .inr ⟨by simp, by simpa using h4⟩

theorem write?_eq_some_iff {major : Major} {n : Nat} {bs : Bytes} :
    write? major n = some bs ↔
      ∃ width, minimalWidth? n = some width ∧ bs = spell ⟨major, width, n⟩ := by
  rw [write?]
  cases minimalWidth? n with
  | none => simp
  | some width =>
    by_cases hwidth : width = 0
    · simp [hwidth, spell, eq_comm]
    · simp [hwidth, spell, eq_comm]

/-- There is a head for every argument below `2 ^ 64`. -/
theorem exists_write? (major : Major) {n : Nat} (hn : n < 2 ^ 64) :
    ∃ bs, write? major n = some bs := by
  have hwidth : ∃ width, minimalWidth? n = some width := by
    rw [minimalWidth?]
    split_ifs with h0 h1 h2 h3 h4
    case neg => exact absurd hn h4
    all_goals exact ⟨_, rfl⟩
  obtain ⟨width, hwidth⟩ := hwidth
  exact ⟨_, write?_eq_some_iff.2 ⟨width, hwidth, rfl⟩⟩

theorem lt_of_write? {major : Major} {n : Nat} {bs : Bytes} (h : write? major n = some bs) :
    n < 2 ^ 64 := by
  obtain ⟨width, hwidth, -⟩ := write?_eq_some_iff.1 h
  rw [minimalWidth?] at hwidth
  split_ifs at hwidth <;> omega

/-- The shortest head is read back, and is minimal. -/
theorem read?_of_write? {major : Major} {n : Nat} {head : Bytes} (h : write? major n = some head)
    (rest : Bytes) : ∃ width, minimalWidth? n = some width ∧
      read? (head ++ rest) = some (⟨major, width, n⟩, rest) := by
  obtain ⟨width, hwidth, rfl⟩ := write?_eq_some_iff.1 h
  exact ⟨width, hwidth, read?_spell (fits_of_minimalWidth? major hwidth) rest⟩

/-- A minimal head that is read is the shortest one. -/
theorem write?_of_read? {bs rest : Bytes} {h : Head} (hread : read? bs = some (h, rest))
    (hminimal : h.isMinimal = true) :
    ∃ head, write? h.major h.argument = some head ∧ bs = head ++ rest := by
  obtain ⟨-, hbs⟩ := eq_spell_of_read? hread
  refine ⟨h.spell, write?_eq_some_iff.2 ⟨h.width, ?_, rfl⟩, hbs⟩
  simpa [isMinimal] using hminimal

/-! ## The order of the shortest heads -/

/-- What the first byte of a head says besides the major type. -/
def lead (width n : Nat) : Nat := if width = 0 then n else widthCode width

/-- Smaller arguments stand in narrower heads. -/
theorem minimalWidth?_mono {i j v w : Nat} (hi : minimalWidth? i = some v)
    (hj : minimalWidth? j = some w) (hle : i ≤ j) : v ≤ w := by
  rw [minimalWidth?] at hi hj
  split_ifs at hi hj <;> cases hi <;> cases hj <;> omega

/-- Narrower heads have smaller first bytes. -/
theorem lead_lt_lead {i j v w : Nat} (hi : minimalWidth? i = some v)
    (hj : minimalWidth? j = some w) (hlt : v < w) : lead v i < lead w j := by
  rw [minimalWidth?] at hi hj
  split_ifs at hi hj <;> cases hi <;> cases hj <;> simp [lead, widthCode] at hlt ⊢ <;> omega

/-- Of two shortest heads of one major type the first bytes and the arguments behind them are in
the order of the arguments. -/
theorem compare_lead_then_cmp {i j v w : Nat} (hi : minimalWidth? i = some v)
    (hj : minimalWidth? j = some w) (r s : Bytes) :
    (compare (lead v i) (lead w j)).then
        (Bytes.cmp (Bytes.ofNatBE v i ++ r) (Bytes.ofNatBE w j ++ s)) =
      (compare i j).then (Bytes.cmp r s) := by
  rcases Nat.lt_trichotomy v w with hlt | rfl | hgt
  · have hij : i < j := Nat.lt_of_not_le fun hle => Nat.not_le.2 hlt (minimalWidth?_mono hj hi hle)
    rw [Nat.compare_eq_lt.2 (lead_lt_lead hi hj hlt), Nat.compare_eq_lt.2 hij]
    rfl
  · by_cases hv : v = 0
    · subst hv
      rfl
    · have hfits {n : Nat} (hn : minimalWidth? n = some v) : n < 256 ^ v :=
        (fits_of_minimalWidth? .unsigned hn).elim (fun h => absurd h.1 hv) And.right
      rw [lead, lead, if_neg hv, if_neg hv, Nat.compare_eq_eq.2 rfl, Ordering.eq_then,
        Bytes.cmp_append (by simp), Bytes.cmp_eq_compare_toNatBE (by simp),
        Bytes.toNatBE_ofNatBE (hfits hi), Bytes.toNatBE_ofNatBE (hfits hj)]
  · have hij : j < i := Nat.lt_of_not_le fun hle => Nat.not_le.2 hgt (minimalWidth?_mono hi hj hle)
    rw [Nat.compare_eq_gt.2 (lead_lt_lead hj hi hgt), Nat.compare_eq_gt.2 hij]
    rfl

theorem lead_lt {n width : Nat} (h : minimalWidth? n = some width) : lead width n < 32 := by
  rw [lead]
  split_ifs with hwidth
  · rcases fits_of_minimalWidth? .unsigned h with ⟨-, hn⟩ | ⟨hmem, -⟩
    · exact Nat.lt_trans hn (by decide)
    · exact absurd hwidth (ne_zero_of_mem_widths hmem)
  · exact widthCode_lt width

/-- Shortest heads are in the order of their major types, then in that of their arguments. -/
theorem cmp_write? {m n : Major} {i j : Nat} {a b : Bytes} (ha : write? m i = some a)
    (hb : write? n j = some b) (r s : Bytes) :
    Bytes.cmp (a ++ r) (b ++ s) =
      (compare m.code n.code).then ((compare i j).then (Bytes.cmp r s)) := by
  obtain ⟨v, hv, rfl⟩ := write?_eq_some_iff.1 ha
  obtain ⟨w, hw, rfl⟩ := write?_eq_some_iff.1 hb
  have hfirst {major : Major} {k width : Nat} (hk : minimalWidth? k = some width) :
      (first ⟨major, width, k⟩).toNat = major.code * 32 + lead width k := by
    rw [Nat.mul_comm]
    exact toNat_first major (lead_lt hk)
  rw [spell_eq_cons, spell_eq_cons, List.cons_append, List.cons_append, Bytes.cmp_cons, hfirst hv,
    hfirst hw, Bytes.compare_mul_add (lead_lt hv) (lead_lt hw), Ordering.then_assoc,
    compare_lead_then_cmp hv hw]

end Head

end Eutxo.Cbor

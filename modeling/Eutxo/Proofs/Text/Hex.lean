import Mathlib.Tactic.IntervalCases
import Eutxo.Text.Hex

/-!
# Hexadecimal read back

Bytes are given back by the digits that they are written with, and the digits
are letters and figures alone.
-/

namespace Eutxo

namespace Text

theorem hexValue?_hexDigit {n : Nat} (hn : n < 16) : hexValue? (hexDigit n) = some n := by
  interval_cases n <;> rfl

theorem hexDigit_lt {n : Nat} (hn : n < 16) : (hexDigit n).toNat < 0x80 := by
  interval_cases n <;> decide

theorem bytesOfHexUnits_cons (b : UInt8) (us : List UInt16) :
    bytesOfHexUnits (hexOfByte b ++ us) = (bytesOfHexUnits us).map (b :: ·) := by
  have hb := b.toNat_lt
  have hhigh : hexValue? (hexDigit (b.toNat / 16)) = some (b.toNat / 16) :=
    hexValue?_hexDigit (by omega)
  have hlow : hexValue? (hexDigit (b.toNat % 16)) = some (b.toNat % 16) :=
    hexValue?_hexDigit (by omega)
  have hbyte : UInt8.ofNat (16 * (b.toNat / 16) + b.toNat % 16) = b := by
    rw [Nat.div_add_mod]
    exact UInt8.ofNat_toNat
  rw [hexOfByte, List.cons_append, List.cons_append, List.nil_append, bytesOfHexUnits, hhigh, hlow]
  cases bytesOfHexUnits us with
  | none => rfl
  | some bs => exact congrArg (fun c => some (c :: bs)) hbyte

theorem lt_of_hexValue? {u : UInt16} {n : Nat} (h : hexValue? u = some n) : n < 16 := by
  simp only [hexValue?] at h
  split_ifs at h
  all_goals
    cases h
    omega

theorem ascii_of_hexValue? {u : UInt16} {n : Nat} (h : hexValue? u = some n) :
    u.toNat < 0x80 := by
  simp only [hexValue?] at h
  split_ifs at h
  all_goals omega

/-- Hexadecimal text is in ASCII. -/
theorem ascii_of_isHex {t : Text} (h : t.isHex = true) : ∀ u ∈ t.units, u.toNat < 0x80 := by
  obtain ⟨us⟩ := t
  rw [isHex] at h
  induction us using bytesOfHexUnits.induct with
  | case1 => exact nofun
  | case2 u => cases h
  | case3 u v rest ih =>
    obtain ⟨bytes, hbytes⟩ := Option.isSome_iff_exists.1 h
    simp only [bytesOfHexUnits, Option.bind_eq_bind, Option.bind_eq_some_iff] at hbytes
    obtain ⟨high, hhigh, low, hlow, rest', hrest, -⟩ := hbytes
    simp only [List.forall_mem_cons]
    exact ⟨ascii_of_hexValue? hhigh, ascii_of_hexValue? hlow,
      ih (Option.isSome_of_eq_some hrest)⟩

/-- A digit that is no capital letter is the one that its value is written with. -/
theorem hexDigit_of_hexValue? {u : UInt16} {n : Nat} (h : hexValue? u = some n)
    (hlower : ¬ (0x41 ≤ u.toNat ∧ u.toNat ≤ 0x46)) : hexDigit n = u := by
  have hunit : UInt16.ofNat u.toNat = u := UInt16.ofNat_toNat
  simp only [hexValue?] at h
  split_ifs at h with hfigure hletter
  · cases h
    have hsmall : u.toNat - 0x30 < 10 := by omega
    have hsame : 0x30 + (u.toNat - 0x30) = u.toNat := by omega
    rw [hexDigit, if_pos hsmall, hsame, hunit]
  · cases h
    have hlarge : ¬ u.toNat - 0x57 < 10 := by omega
    have hsame : 0x57 + (u.toNat - 0x57) = u.toNat := by omega
    rw [hexDigit, if_neg hlarge, hsame, hunit]

theorem hexOfByte_of_hexValue? {u v : UInt16} {high low : Nat} (hhigh : hexValue? u = some high)
    (hlow : hexValue? v = some low) (hu : ¬ (0x41 ≤ u.toNat ∧ u.toNat ≤ 0x46))
    (hv : ¬ (0x41 ≤ v.toNat ∧ v.toNat ≤ 0x46)) :
    hexOfByte (UInt8.ofNat (16 * high + low)) = [u, v] := by
  have hhighlt := lt_of_hexValue? hhigh
  have hlowlt := lt_of_hexValue? hlow
  have hbyte : (UInt8.ofNat (16 * high + low)).toNat = 16 * high + low :=
    UInt8.toNat_ofNat_of_lt' (by simp only [UInt8.size]; omega)
  have hdiv : (16 * high + low) / 16 = high := by omega
  have hmod : (16 * high + low) % 16 = low := by omega
  rw [hexOfByte, hbyte, hdiv, hmod, hexDigit_of_hexValue? hhigh hu, hexDigit_of_hexValue? hlow hv]

end Text

namespace Bytes

theorem ofHex?_toHex (bs : Bytes) : ofHex? (toHex bs) = some bs := by
  rw [ofHex?, toHex]
  induction bs with
  | nil => rfl
  | cons b bs ih => rw [List.flatMap_cons, Text.bytesOfHexUnits_cons, ih, Option.map_some]

theorem toHex_injective : Function.Injective toHex := by
  intro bs cs h
  have hbytes := ofHex?_toHex bs
  rw [h, ofHex?_toHex] at hbytes
  exact (Option.some.inj hbytes).symm

/-- Digits without capital letters are those that their bytes are written with. -/
theorem toHex_of_ofHex? {t : Text} {bs : Bytes} (h : ofHex? t = some bs)
    (hlower : ∀ u ∈ t.units, ¬ (0x41 ≤ u.toNat ∧ u.toNat ≤ 0x46)) : toHex bs = t := by
  obtain ⟨us⟩ := t
  rw [ofHex?] at h
  refine congrArg Text.mk ?_
  induction us using Text.bytesOfHexUnits.induct generalizing bs with
  | case1 =>
    cases h
    rfl
  | case2 u => cases h
  | case3 u v rest ih =>
    simp only [Text.bytesOfHexUnits, Option.bind_eq_bind, Option.bind_eq_some_iff] at h
    obtain ⟨high, hhigh, low, hlow, bytes, hbytes, hpure⟩ := h
    cases hpure
    obtain ⟨hu, hrest⟩ := List.forall_mem_cons.1 hlower
    obtain ⟨hv, hrest⟩ := List.forall_mem_cons.1 hrest
    rw [List.flatMap_cons, Text.hexOfByte_of_hexValue? hhigh hlow hu hv, ih hbytes hrest]
    rfl

theorem lt_of_mem_toHex {bs : Bytes} : ∀ u ∈ (toHex bs).units, u.toNat < 0x80 := by
  intro u hu
  obtain ⟨b, -, hdigit⟩ := List.mem_flatMap.1 hu
  have hb := b.toNat_lt
  rcases List.mem_cons.1 hdigit with rfl | hdigit
  · exact Text.hexDigit_lt (by omega)
  · rw [List.mem_singleton.1 hdigit]
    exact Text.hexDigit_lt (by omega)

end Bytes

end Eutxo

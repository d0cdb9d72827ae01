/-!
# Byte strings

A byte string is a list of bytes.  This module holds its order, which is the
bytewise one with a proper initial segment first, and the two positional
readings of a byte string as a natural number.
-/

namespace Eutxo

/-- A byte string. -/
abbrev Bytes := List UInt8

namespace Bytes

/-- Bytewise comparison; a proper initial segment comes first. -/
def cmp : Bytes → Bytes → Ordering
  | [], [] => .eq
  | [], _ :: _ => .lt
  | _ :: _, [] => .gt
  | a :: as, b :: bs => if a < b then .lt else if b < a then .gt else cmp as bs

/-- The bytes `a` come no later than the bytes `b`. -/
def le (a b : Bytes) : Bool := cmp a b != .gt

/-- The number spelled least significant byte first. -/
def toNatLE : Bytes → Nat
  | [] => 0
  | b :: bs => b.toNat + 256 * toNatLE bs

/-- The number spelled most significant byte first. -/
def toNatBE (bs : Bytes) : Nat := toNatLE bs.reverse

/-- The lowest `width` bytes of `n`, least significant first. -/
def ofNatLE : Nat → Nat → Bytes
  | 0, _ => []
  | width + 1, n => UInt8.ofNat n :: ofNatLE width (n / 256)

/-- The lowest `width` bytes of `n`, most significant first. -/
def ofNatBE (width n : Nat) : Bytes := (ofNatLE width n).reverse

/-- The number of bytes that `n` needs; zero needs none. -/
def widthOf (n : Nat) : Nat := if n = 0 then 0 else n.log2 / 8 + 1

/-- The shortest big-endian spelling of `n`. -/
def ofNat (n : Nat) : Bytes := ofNatBE (widthOf n) n

@[simp]
theorem length_ofNatLE (width n : Nat) : (ofNatLE width n).length = width := by
  induction width generalizing n with
  | zero => rfl
  | succ width ih => simp [ofNatLE, ih]

@[simp]
theorem length_ofNatBE (width n : Nat) : (ofNatBE width n).length = width := by
  simp [ofNatBE]

end Bytes

end Eutxo

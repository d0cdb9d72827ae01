import Eutxo.Bytes

/-!
# The twisted Edwards curve of Ed25519

Field elements are residues modulo the prime `2 ^ 255 - 19`, points are kept in
extended coordinates.  One addition formula serves for all pairs of points.
-/

namespace Eutxo.Ed25519

/-- The prime of the field. -/
def prime : Nat := (1 <<< 255) - 19

/-- The order of the base point. -/
def order : Nat := (1 <<< 252) + 27742317777372353535851937790883648493

/-- The coefficient `d` of the curve `-x² + y² = 1 + d x² y²`. -/
def coefficient : Nat := 0x52036cee2b6ffe738cc740797779e89800700a4d4141d8ab75eb4dca135978a3

/-- A square root of `-1`. -/
def rootOfMinusOne : Nat := 0x2b8324804fc1df0b2b4d00993dfbd7a72f431806ad2fe478c4ee1b274a0ea0b0

/-- The difference of two residues. -/
def sub (a b : Nat) : Nat := (a + (prime - b % prime)) % prime

/-- The `count` lowest binary digits of a number, highest first. -/
def bits (count n : Nat) : List Bool := (List.range count).reverse.map n.testBit

/-- A power of a residue, with an exponent of at most 255 binary digits. -/
def power (a exponent : Nat) : Nat :=
  (bits 255 exponent).foldl
    (fun acc bit => if bit then acc * acc % prime * a % prime else acc * acc % prime) 1

/-- The inverse of a residue; zero has the inverse zero. -/
def inverse (a : Nat) : Nat := power a (prime - 2)

/-- A point in extended coordinates: `x = X / Z`, `y = Y / Z`, `x y = T / Z`. -/
structure Point where
  X : Nat
  Y : Nat
  Z : Nat
  T : Nat
  deriving DecidableEq, Repr

namespace Point

/-- The neutral point. -/
def zero : Point := ⟨0, 1, 1, 0⟩

/-- The base point. -/
def base : Point :=
  let x := 0x216936d3cd6e53fec0a4e231fdd6dc5c692cc7609525a7b2c9562d608f25d51a
  let y := 0x6666666666666666666666666666666666666666666666666666666666666658
  ⟨x, y, 1, x * y % prime⟩

/-- The sum of two points. -/
def add (p q : Point) : Point :=
  let a := sub p.Y p.X * sub q.Y q.X % prime
  let b := (p.Y + p.X) * (q.Y + q.X) % prime
  let c := 2 * coefficient * p.T % prime * q.T % prime
  let d := 2 * p.Z * q.Z % prime
  let e := sub b a
  let f := sub d c
  let g := (d + c) % prime
  let h := (b + a) % prime
  ⟨e * f % prime, g * h % prime, f * g % prime, e * h % prime⟩

/-- The opposite point. -/
def neg (p : Point) : Point := ⟨sub 0 p.X, p.Y, p.Z, sub 0 p.T⟩

/-- A multiple of a point, with a factor of at most 256 binary digits. -/
def mul (n : Nat) (p : Point) : Point :=
  (bits 256 n).foldl
    (fun acc bit => if bit then (acc.add acc).add p else acc.add acc) zero

/-- Whether a point is the neutral one. -/
def isZero (p : Point) : Bool := p.X % prime = 0 && sub p.Y p.Z = 0

/-- The thirty-two bytes of a point: `y`, and in the highest bit the lowest bit of `x`. -/
def compress (p : Point) : Bytes :=
  let scale := inverse p.Z
  let x := p.X * scale % prime
  let y := p.Y * scale % prime
  Bytes.ofNatLE 32 (y + (x % 2) <<< 255)

/-- The square root of `u / v`, if there is one; the even one of the two. -/
def rootOfQuotient? (u v : Nat) : Option Nat :=
  let v3 := v * v % prime * v % prime
  let v7 := v3 * v3 % prime * v % prime
  let candidate := u * v3 % prime * power (u * v7 % prime) ((prime - 5) / 8) % prime
  let square := v * (candidate * candidate % prime) % prime
  let root? :=
    if square = u then some candidate
    else if square = sub 0 u then some (candidate * rootOfMinusOne % prime)
    else none
  root?.map fun x => if x % 2 = 1 then sub 0 x else x

/-- The point that thirty-two bytes spell.  The spelling need not be the one that `compress` gives:
`y` may be larger than the prime, and a zero `x` may be marked as odd. -/
def decompress? (bytes : Bytes) : Option Point :=
  let n := Bytes.toNatLE bytes
  let odd := n >>> 255 % 2 = 1
  let y := n % (1 <<< 255) % prime
  let y2 := y * y % prime
  match rootOfQuotient? (sub y2 1) ((coefficient * y2 + 1) % prime) with
  | none => none
  | some root =>
    let x := if odd then sub 0 root else root
    some ⟨x, y, 1, x * y % prime⟩

@[simp]
theorem length_compress (p : Point) : p.compress.length = 32 := by simp [compress]

end Point

end Eutxo.Ed25519

import Eutxo.Ed25519.Curve
import Eutxo.Hash.Sha512

/-!
# Ed25519 signatures

Signing is deterministic.  Verification accepts every spelling of a point,
points of small order included, requires the scalar of the signature to be
below the order of the base point, and checks the equation multiplied by the
cofactor, so that all verifiers of this kind agree.
-/

namespace Eutxo.Ed25519

/-- The number that a digest spells, modulo the order of the base point. -/
def scalarOfDigest (digest : Bytes) : Nat := Bytes.toNatLE digest % order

/-- The secret scalar of a seed: the first half of its digest with the lowest three bits and the
highest bit cleared and the second highest bit set. -/
def secretScalar (seed : Bytes) : Nat :=
  let n := Bytes.toNatLE ((Sha512.digest seed).take 32)
  n % (1 <<< 254) / 8 * 8 + (1 <<< 254)

/-- The public key of a seed. -/
def publicKey (seed : Bytes) : Bytes := (Point.mul (secretScalar seed) Point.base).compress

/-- The signature of a message under a seed. -/
def sign (seed message : Bytes) : Bytes :=
  let nonceKey := (Sha512.digest seed).drop 32
  let nonce := scalarOfDigest (Sha512.digest (nonceKey ++ message))
  let commitment := (Point.mul nonce Point.base).compress
  let challenge := scalarOfDigest (Sha512.digest (commitment ++ publicKey seed ++ message))
  commitment ++ Bytes.ofNatLE 32 ((nonce + challenge * secretScalar seed) % order)

/-- Whether a signature of sixty-four bytes is one of the message under a public key of thirty-two
bytes.  The challenge is taken over the points as they are written, not as they were spelled. -/
def verify (key message signature : Bytes) : Bool :=
  match Point.decompress? key, Point.decompress? (signature.take 32) with
  | some a, some r =>
    let s := Bytes.toNatLE (signature.drop 32)
    if order ≤ s then false
    else
      let challenge := scalarOfDigest (Sha512.digest (r.compress ++ a.compress ++ message))
      let difference := (r.add (Point.mul challenge a)).add (Point.mul s Point.base).neg
      (Point.mul 8 difference).isZero
  | _, _ => false

@[simp]
theorem length_publicKey (seed : Bytes) : (publicKey seed).length = 32 := by simp [publicKey]

@[simp]
theorem length_sign (seed message : Bytes) : (sign seed message).length = 64 := by simp [sign]

end Eutxo.Ed25519

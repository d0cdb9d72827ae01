import Eutxo.Ledger.Identifier

/-!
# Addresses

The first byte of an address holds its type in the high half and the network in
the low half.  Addresses of the types below eight carry a payment credential in
the twenty-eight bytes behind it, which is a key hash iff the type is even.
-/

namespace Eutxo.Address

/-- The type of an address that pays to a key and delegates nothing. -/
def enterpriseType : Nat := 6

/-- The address that pays to a key and delegates nothing. -/
def enterprise (hash : VerificationKeyHash) (network : Number) : Except Fault Bytes :=
  match network.integer? with
  | some n =>
    if 0 ≤ n ∧ n < 16 then .ok (UInt8.ofNat (16 * enterpriseType + n.toNat) :: hash.bytes)
    else .error (.networkNibble network)
  | none => .error (.networkNibble network)

/-- The network id of an address. -/
def network? : Bytes → Option Nat
  | [] => none
  | b :: _ => some (b.toNat % 16)

/-- The hash of the key that an address pays to; none for addresses that pay to a script, for reward
addresses and for addresses of other forms. -/
def paymentKeyHash? : Bytes → Option VerificationKeyHash
  | [] => none
  | b :: rest =>
    let type := b.toNat / 16
    if type < 8 ∧ type % 2 = 0 then (Identifier.ofBytes (rest.take 28)).toOption else none

end Eutxo.Address

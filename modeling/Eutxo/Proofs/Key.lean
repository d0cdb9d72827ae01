import Eutxo.Key.Basic
import Eutxo.Proofs.Ledger.Exact
import Eutxo.Proofs.Ledger.SameContent

/-!
# Terms of keys and signatures

Keys and signatures are written as byte strings, and no other byte string is
read as the same key or signature.
-/

namespace Eutxo

open Traversal

instance : Codec.Rigid VerificationKey where
  eq_toTerm := Term.Reordered.bytes_left_iff.1
  ofTerm_toTerm _ k := dif_pos k.length_bytes

instance : Codec.Rigid Signature where
  eq_toTerm := Term.Reordered.bytes_left_iff.1
  ofTerm_toTerm _ s := dif_pos s.length_bytes

instance : Codec.Exact VerificationKey where
  toTerm_eq {path t k} h := by
    obtain ⟨bs, hbs, hof⟩ := bind_eq_ok.1 h
    rw [VerificationKey.ofBytes] at hof
    split_ifs at hof
    cases hof
    exact (Term.asBytes_eq_ok_iff.1 hbs).symm

instance : Codec.Exact SigningKey where
  toTerm_eq {path t k} h := by
    obtain ⟨bs, hbs, hof⟩ := bind_eq_ok.1 h
    rw [SigningKey.ofBytes] at hof
    split_ifs at hof
    cases hof
    exact (Term.asBytes_eq_ok_iff.1 hbs).symm

instance : Codec.Exact Signature where
  toTerm_eq {path t s} h := by
    obtain ⟨bs, hbs, hof⟩ := bind_eq_ok.1 h
    rw [Signature.ofBytes] at hof
    split_ifs at hof
    cases hof
    exact (Term.asBytes_eq_ok_iff.1 hbs).symm

namespace Codec

/-- A term that spells one value alone is the one that the value is written as. -/
theorem ofTerm_eq_ok_iff {α : Type} [Codec α] [Codec.Exact α] [Codec.Rigid α] {path : Path}
    {t : Term} {a : α} : ofTerm path t = .ok a ↔ t = toTerm a := by
  constructor
  · intro h
    exact (Codec.Exact.toTerm_eq h).symm
  · rintro rfl
    exact Codec.Rigid.ofTerm_toTerm path a

end Codec

/-- Verification accepts the signature that the key makes of a message. -/
def SigningKey.Accepted (k : SigningKey) (message : Bytes) : Prop :=
  k.verificationKey.verify message (k.sign message) = true

instance (k : SigningKey) (message : Bytes) : Decidable (k.Accepted message) :=
  inferInstanceAs (Decidable (_ = true))

/-- The key of a seed of nines. -/
def SigningKey.nines : SigningKey := ⟨List.replicate 32 9, rfl⟩

end Eutxo

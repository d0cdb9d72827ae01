import Eutxo.Ledger.Value

/-!
# Outputs

An output holds a value at an address, and may carry the hash of a datum.
-/

namespace Eutxo

/-- A value at an address. -/
structure TxOutput where
  address : Bytes
  amount : Value
  datumHash : Option DatumHash := none
  deriving DecidableEq, Repr

namespace TxOutput

/-- The term of an output: address, amount and the hash of a datum if there is one. -/
def toTerm (o : TxOutput) : Term :=
  .seq ([.bytes o.address, o.amount.toAmount] ++ o.datumHash.toList.map Codec.toTerm)

/-- The output that a term spells. -/
def ofTerm (path : Path) (t : Term) : Except Fault TxOutput := do
  match ← t.asFixedSequence path [.integer 2, .integer 3] with
  | [address, amount] =>
    let address ← address.asBytes (.item path 0)
    let amount ← Value.ofAmount (.item path 1) amount
    return ⟨address, amount, none⟩
  | [address, amount, datum] =>
    let address ← address.asBytes (.item path 0)
    let amount ← Value.ofAmount (.item path 1) amount
    let datum : DatumHash ← Codec.ofTerm (.item path 2) datum
    return ⟨address, amount, some datum⟩
  | items => throw (.decode path (.arity [.integer 2, .integer 3] items.length))

instance : Codec TxOutput where
  name := "transaction_output"
  toTerm := toTerm
  ofTerm := ofTerm

end TxOutput

end Eutxo

import Eutxo.Ledger.Identifier

/-!
# Inputs

An input names an output of an earlier transaction by the transaction and the
position of the output.
-/

namespace Eutxo

/-- A reference to an output. -/
structure TxInput where
  transaction : TransactionId
  index : Nat
  index_le : index ≤ Number.maxSafe
  deriving DecidableEq, Repr

namespace TxInput

/-- The reference to the output at a position given as a number. -/
def ofNumber (transaction : TransactionId) (index : Number) : Except Fault TxInput :=
  match index.integer? with
  | some (.ofNat n) =>
    if h : n ≤ Number.maxSafe then .ok ⟨transaction, n, h⟩ else .error (.outputIndex index)
  | _ => .error (.outputIndex index)

/-- The term of an input: transaction and position. -/
def toTerm (i : TxInput) : Term := .seq [Codec.toTerm i.transaction, .int i.index]

/-- The input that a term spells. -/
def ofTerm (path : Path) (t : Term) : Except Fault TxInput := do
  match ← t.asFixedSequence path [.integer 2] with
  | [transaction, index] =>
    let transaction : TransactionId ← Codec.ofTerm (.item path 0) transaction
    let index ← index.asSafeUnsigned (.item path 1)
    ofNumber transaction (.ofNat index)
  | items => throw (.decode path (.arity [.integer 2] items.length))

instance : Codec TxInput where
  name := "transaction_input"
  toTerm := toTerm
  ofTerm := ofTerm

/-- The written form of an input. -/
def toText (i : TxInput) : Text := i.transaction.toText ++ "#" ++ Text.ofNat i.index

end TxInput

end Eutxo

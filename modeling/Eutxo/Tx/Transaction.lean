import Eutxo.Metadata.Auxiliary
import Eutxo.Tx.Body
import Eutxo.Tx.WitnessSet

/-!
# Transactions

A transaction is a body with its witnesses, a flag that says whether its
scripts succeed, and auxiliary data.  It is known by the hash of its body.
-/

namespace Eutxo

/-- A transaction. -/
structure Transaction where
  body : TxBody
  witnessSet : WitnessSet
  valid : Bool := true
  auxiliaryData : Option AuxiliaryData := none
  deriving DecidableEq, Repr

namespace Transaction

/-- The term of a transaction; absent auxiliary data is null. -/
def toTerm (tx : Transaction) : Term :=
  .seq [tx.body.toTerm, tx.witnessSet.toTerm, .bool tx.valid,
    match tx.auxiliaryData with
    | some a => a.toTerm
    | none => .null]

/-- The auxiliary data that the last element of a transaction spells. -/
def auxiliaryOfTerm (path : Path) : Term → Except Fault (Option AuxiliaryData)
  | .null => .ok none
  | t => do return some (← AuxiliaryData.ofTerm path t)

/-- The transaction that a term spells.  Without the flag a transaction counts as valid. -/
def ofTerm (path : Path) (t : Term) : Except Fault Transaction := do
  match ← t.asFixedSequence path [.integer 3, .integer 4] with
  | [body, witnessSet, auxiliary] =>
    let body ← TxBody.ofTerm (.item path 0) body
    let witnessSet ← WitnessSet.ofTerm (.item path 1) witnessSet
    let auxiliaryData ← auxiliaryOfTerm (.item path 2) auxiliary
    return ⟨body, witnessSet, true, auxiliaryData⟩
  | [body, witnessSet, valid, auxiliary] =>
    let body ← TxBody.ofTerm (.item path 0) body
    let witnessSet ← WitnessSet.ofTerm (.item path 1) witnessSet
    let valid ← valid.asBool (.item path 2)
    let auxiliaryData ← auxiliaryOfTerm (.item path 3) auxiliary
    return ⟨body, witnessSet, valid, auxiliaryData⟩
  | items => throw (.decode path (.arity [.integer 3, .integer 4] items.length))

instance : Codec Transaction where
  name := "transaction"
  toTerm := toTerm
  ofTerm := ofTerm

/-- The hash by which a transaction is known. -/
def id (tx : Transaction) : Except Fault TransactionId := tx.body.hash

/-- The transaction with other witnesses. -/
def withWitnessSet (tx : Transaction) (w : WitnessSet) : Transaction :=
  ⟨tx.body, w, tx.valid, tx.auxiliaryData⟩

/-- The bytes to hand to a node.  A transaction without a single witness or script is refused, even
if its witness set has empty lists. -/
def submissionBytes (tx : Transaction) : Except Fault Bytes := do
  if tx.witnessSet.count = 0 then throw (.noWitnesses (← tx.id).bytes)
  else Codec.toCbor tx

end Transaction

end Eutxo

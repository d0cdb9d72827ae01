import Eutxo.Ledger.MultiAsset

/-!
# Values

A value is an amount of coin with any bundles of assets.  As the amount of an
output it is written as the bare coin when there are no bundles.
-/

namespace Eutxo

/-- Coin and assets. -/
structure Value where
  coin : Int
  assets : MultiAsset := .empty
  deriving DecidableEq, Repr

namespace Value

/-- A value of coin alone. -/
def ofCoin (coin : Int) : Value := ⟨coin, .empty⟩

/-- Whether there are no bundles. -/
def isCoinOnly (v : Value) : Bool := v.assets.isEmpty

/-- Adds coin and assets. -/
def add (v w : Value) : Value := ⟨v.coin + w.coin, v.assets.add w.assets⟩

/-- Adds coin alone. -/
def addCoin (v : Value) (coin : Int) : Value := ⟨v.coin + coin, v.assets⟩

/-- Subtracts from `v` the value `w`, which `v` has to cover. -/
def subtract (v w : Value) : Except Fault Value :=
  if v.coin < w.coin then .error (.coinShortfall v.coin w.coin)
  else do return ⟨v.coin - w.coin, ← v.assets.subtract w.assets⟩

/-- Whether `w` has at least the coin of `v` and covers its assets. -/
def coveredBy (v w : Value) : Bool := v.coin ≤ w.coin && v.assets.coveredBy w.assets

/-- The term of a value: coin and assets. -/
def toTerm (v : Value) : Term := .seq [.int v.coin, v.assets.toTerm]

/-- The value that a term spells as coin and assets. -/
def ofTerm (path : Path) (t : Term) : Except Fault Value := do
  match ← t.asFixedSequence path [.integer 2] with
  | [coin, assets] =>
    return ⟨← coin.asInt (.item path 0), ← MultiAsset.ofTerm (.item path 1) assets⟩
  | items => throw (.decode path (.arity [.integer 2] items.length))

instance : Codec Value where
  name := "value"
  toTerm := toTerm
  ofTerm := ofTerm

/-- The term of the amount of an output. -/
def toAmount (v : Value) : Term := if v.isCoinOnly then .int v.coin else v.toTerm

/-- The value that a term spells as the amount of an output. -/
def ofAmount (path : Path) : Term → Except Fault Value
  | .int n => .ok (ofCoin n)
  | t => ofTerm path t

/-- The path under which an amount is reported when the caller gives none. -/
def amountPath : Path := .root "amount"

end Value

end Eutxo

import Eutxo.Number.Basic
import Eutxo.Text.Basic

/-!
# JSON values

An object lists its members in a fixed order: names that are array indices
first, by value, then all other names in the order of their first insertion.
A name inserted again keeps its place and takes the new value.
-/

namespace Eutxo

/-- A JSON value. -/
inductive Json where
  | null
  | bool (b : Bool)
  | number (n : Number)
  | string (t : Text)
  | array (items : List Json)
  | object (members : List (Text × Json))
  deriving Repr

namespace Json

instance : Inhabited Json := ⟨.null⟩

/-- The largest name that counts as an array index, `2 ^ 32 - 2`. -/
def maxIndex : Nat := 0xFFFFFFFE

/-- The array index that a member name spells: decimal digits without a needless zero. -/
def index? (name : Text) : Option Nat :=
  let digits := name.units.mapM fun u =>
    if 0x30 ≤ u ∧ u ≤ 0x39 then some (u.toNat - 0x30) else none
  match digits with
  | none => none
  | some [] => none
  | some (0 :: _ :: _) => none
  | some ds =>
    let n := ds.foldl (fun n d => 10 * n + d) 0
    if n ≤ maxIndex then some n else none

/-- Puts a member in place of the one of the same name, or behind all others. -/
def upsert {α : Type} (name : Text) (value : α) : List (Text × α) → List (Text × α)
  | [] => [(name, value)]
  | (n, v) :: ms => if n = name then (n, value) :: ms else (n, v) :: upsert name value ms

/-- Puts a member with an array index before the first member with a larger index. -/
def insertIndexed {α : Type} (i : Nat) (m : Text × α) : List (Text × α) → List (Text × α)
  | [] => [m]
  | n :: ms =>
    match index? n.1 with
    | some j => if i ≤ j then m :: n :: ms else n :: insertIndexed i m ms
    | none => m :: n :: ms

/-- Moves the members whose names are array indices to the front, in increasing order. -/
def orderMembers {α : Type} : List (Text × α) → List (Text × α)
  | [] => []
  | m :: ms =>
    match index? m.1 with
    | some i => insertIndexed i m (orderMembers ms)
    | none =>
      let rest := orderMembers ms
      rest.takeWhile (fun n => (index? n.1).isSome) ++
        m :: rest.dropWhile fun n => (index? n.1).isSome

/-- The members of the object that the insertion of `pairs` one by one builds. -/
def membersOfPairs {α : Type} (pairs : List (Text × α)) : List (Text × α) :=
  orderMembers (pairs.foldl (fun ms p => upsert p.1 p.2 ms) [])

/-- The object that the insertion of `pairs` one by one builds. -/
def ofPairs (pairs : List (Text × Json)) : Json := .object (membersOfPairs pairs)

/-- The value of the member of a name, in an object that has one. -/
def member? (name : Text) : Json → Option Json
  | .object ms => ms.lookup name
  | _ => none

/-- The text of a string. -/
def string? : Json → Option Text
  | .string t => some t
  | _ => none

end Json

end Eutxo

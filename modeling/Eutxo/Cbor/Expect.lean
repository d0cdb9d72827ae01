import Eutxo.Fault

/-!
# Expected shapes

Decoders take terms apart with these functions, each of which names the path
and the shape it expected when a term has another one.
-/

namespace Eutxo.Term

/-- A term has another shape than expected. -/
def mismatch {α : Type} (path : Path) (expected : Shape) (t : Term) : Except Fault α :=
  .error (.decode path (.shape expected t))

/-- The integer that a term is. -/
def asInt (path : Path) : Term → Except Fault Int
  | .int n => .ok n
  | t => mismatch path .integer t

/-- The natural number that a term is. -/
def asUnsigned (path : Path) (t : Term) : Except Fault Nat := do
  match ← t.asInt path with
  | .ofNat n => return n
  | .negSucc _ => mismatch path .unsigned t

/-- The natural number that a term is, if binary64 holds it exactly. -/
def asSafeUnsigned (path : Path) (t : Term) : Except Fault Nat := do
  let n ← t.asUnsigned path
  if n ≤ Number.maxSafe then return n else mismatch path .safeUnsigned t

/-- The byte string that a term is. -/
def asBytes (path : Path) : Term → Except Fault Bytes
  | .bytes bs => .ok bs
  | t => mismatch path .bytes t

/-- The text that a term is. -/
def asText (path : Path) : Term → Except Fault Text
  | .text t => .ok t
  | t => mismatch path .text t

/-- The boolean that a term is. -/
def asBool (path : Path) : Term → Except Fault Bool
  | .bool b => .ok b
  | t => mismatch path .bool t

/-- The items of a sequence. -/
def asSequence (path : Path) : Term → Except Fault (List Term)
  | .seq items => .ok items
  | t => mismatch path .sequence t

/-- The items of a sequence of one of the allowed lengths; a number that is no natural number is the
length of none. -/
def asFixedSequence (path : Path) (allowed : List Number) (t : Term) :
    Except Fault (List Term) := do
  let items ← t.asSequence path
  if allowed.any fun n => n.integer? = some (items.length : Int) then return items
  else throw (.decode path (.arity allowed items.length))

/-- The entries of a map. -/
def asMap (path : Path) : Term → Except Fault (List (Term × Term))
  | .map entries => .ok entries
  | t => mismatch path .map t

/-- The tag that marks a sequence as a set. -/
def setTag : Nat := 258

/-- A sequence that may be marked as a set.  The mark is kept, so that the sequence is written the
way it was read. -/
structure SetLike (α : Type) where
  items : List α
  tagged : Bool
  deriving Repr

/-- The sequence that a term is, with or without the mark of a set. -/
def asSetLike (path : Path) : Term → Except Fault (SetLike Term)
  | .tag number content =>
    if number = setTag then return ⟨← content.asSequence path, true⟩
    else mismatch path .sequence (.tag number content)
  | t => return ⟨← t.asSequence path, false⟩

/-- The sequence of some items, marked as a set or not. -/
def setLike (items : List Term) (tagged : Bool) : Term :=
  if tagged then .tag setTag (.seq items) else .seq items

/-- Decodes the items of a sequence, each at its own path. -/
def decodeItems {α : Type} (path : Path) (f : Path → Term → Except Fault α) (items : List Term) :
    Except Fault (List α) :=
  items.zipIdx.mapM fun (t, i) => f (.item path i) t

end Eutxo.Term

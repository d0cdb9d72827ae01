import Eutxo.Ledger.Identifier
import Eutxo.Table

/-!
# Auxiliary data

Transaction metadata puts a metadatum under each of some labels.  A metadatum
is built from integers, byte strings and texts of limited length, sequences and
maps.  The hash of auxiliary data goes into the body of its transaction.
-/

namespace Eutxo

namespace Metadatum

mutual

/-- The first reason, in document order, why a term is no metadatum. -/
def problem? : Term → Option MetadatumProblem
  | .int _ => none
  | .bytes bs => if maxMetadatumSize < bs.length then some .longBytes else none
  | .text t => if maxMetadatumSize < t.toUtf8.length then some .longText else none
  | .seq items => itemsProblem? items
  | .map entries => entriesProblem? entries
  | .bool b => some (.form (.bool b))
  | .null => some (.form .null)
  | .tag number content => some (.form (.tag number content))

/-- The first reason why one of some terms is no metadatum. -/
def itemsProblem? : List Term → Option MetadatumProblem
  | [] => none
  | t :: ts => (problem? t).or (itemsProblem? ts)

/-- The first reason why a key or a value of some entries is no metadatum. -/
def entriesProblem? : List (Term × Term) → Option MetadatumProblem
  | [] => none
  | (k, v) :: es => ((problem? k).or (problem? v)).or (entriesProblem? es)

end

end Metadatum

/-- Metadata by label. -/
structure AuxiliaryData where
  table : Table Nat Term
  problem?_eq_none : ∀ e ∈ table.entries, Metadatum.problem? e.2 = none := by simp
  deriving DecidableEq, Repr

namespace AuxiliaryData

/-- No metadata. -/
def empty : AuxiliaryData := ⟨.empty, by simp [Table.empty]⟩

/-- The labels and their metadata in order. -/
def entries (a : AuxiliaryData) : List (Nat × Term) := a.table.entries

/-- The number of labels. -/
def size (a : AuxiliaryData) : Nat := a.table.size

/-- The metadatum under a label. -/
def get? (a : AuxiliaryData) (label : Int) : Option Term :=
  match label with
  | .ofNat n => a.table.get? n
  | .negSucc _ => none

/-- The labels in increasing order. -/
def labels (a : AuxiliaryData) : List Nat := a.table.keys.mergeSort

/-- Puts a metadatum under a label that is not in use. -/
def insertNew (a : AuxiliaryData) (label : Int) (t : Term) : Except Fault AuxiliaryData :=
  match label with
  | .negSucc _ => .error (.negativeLabel label)
  | .ofNat n =>
    if (a.table.get? n).isSome then .error (.duplicateLabel label)
    else
      match h : Metadatum.problem? t with
      | some problem => .error (.metadatum label problem)
      | none => .ok ⟨a.table.insert n t, by
          intro e he
          rcases Table.mem_insertEntry he with rfl | he
          · exact h
          · exact a.problem?_eq_none e he⟩

/-- Removes a label. -/
def erase (a : AuxiliaryData) (label : Int) : AuxiliaryData :=
  match label with
  | .negSucc _ => a
  | .ofNat n => ⟨a.table.erase n, fun e he => a.problem?_eq_none e (List.mem_filter.1 he).1⟩

/-- Puts a metadatum under a label, behind all others and in place of what the label held. -/
def insert (a : AuxiliaryData) (label : Int) (t : Term) : Except Fault AuxiliaryData :=
  (a.erase label).insertNew label t

/-- The auxiliary data of a list, in which no label may occur twice. -/
def ofEntries (entries : List (Int × Term)) : Except Fault AuxiliaryData :=
  entries.foldlM (fun a e => a.insertNew e.1 e.2) empty

/-- The term of auxiliary data: a map from labels to metadata. -/
def toTerm (a : AuxiliaryData) : Term := .map (a.entries.map fun e => (.int e.1, e.2))

/-- The auxiliary data that a term spells. -/
def ofTerm (path : Path) (t : Term) : Except Fault AuxiliaryData := do
  let entries ← (← t.asMap path).zipIdx.mapM fun ((k, v), i) => do
    let label ← k.asUnsigned (.keyAt path i)
    match Metadatum.problem? v with
    | some problem => throw (.decode (.entry path (Text.ofNat label)) (.metadatum problem))
    | none => return ((label : Int), v)
  ofEntries entries

instance : Codec AuxiliaryData where
  name := "auxiliary_data"
  toTerm := toTerm
  ofTerm := ofTerm

/-- The hash of auxiliary data, by which a body commits to it. -/
def hash (a : AuxiliaryData) : Except Fault AuxiliaryDataHash := do
  return .hash (← Codec.toCbor a)

end AuxiliaryData

end Eutxo

import Eutxo.Cbor.Item
import Eutxo.Fault

/-!
# Canonical encoding

A term is encoded by first putting the entries of every map, inside keys too,
in the bytewise order of their encoded keys and then writing it.  The bytes so
depend on what a term says and not on the order in which its maps were built.
-/

namespace Eutxo.Cbor

/-- A map entry on its way into canonical order, with the bytes of its key. -/
structure KeyedEntry where
  keyBytes : Bytes
  key : Term
  /-- The value in canonical order, or what keeps it from being ordered. -/
  value : Except Fault Term

/-- Writes a term with the entries of its maps in the order given. -/
def writeTerm (t : Term) : Except Fault Bytes :=
  match (Item.ofTerm t).write? with
  | some bs => .ok bs
  | none => .error .unwritable

/-- Puts an entry before the first one with a larger or equal key. -/
def insertByKey (e : KeyedEntry) : List KeyedEntry → List KeyedEntry
  | [] => [e]
  | f :: fs => if Bytes.le e.keyBytes f.keyBytes then e :: f :: fs else f :: insertByKey e fs

/-- The entries in the bytewise order of their encoded keys. -/
def sortByKey : List KeyedEntry → List KeyedEntry
  | [] => []
  | e :: es => insertByKey e (sortByKey es)

/-- The first key that occurs twice in a row. -/
def repeatedKey? : List KeyedEntry → Option Bytes
  | [] => none
  | [_] => none
  | e :: f :: es => if e.keyBytes = f.keyBytes then some f.keyBytes else repeatedKey? (f :: es)

/-- A map of entries in canonical order, unless two keys have one encoding or a value cannot be
ordered. -/
def mapOfSorted (entries : List KeyedEntry) : Except Fault Term :=
  match repeatedKey? entries with
  | some key => .error (.repeatedKey key)
  | none => .map <$> entries.mapM fun e => (e.key, ·) <$> e.value

mutual

/-- The same data with the entries of every map in the bytewise order of their encoded keys. -/
def canonical : Term → Except Fault Term
  | .seq items => .seq <$> canonicalItems items
  | .map entries => do mapOfSorted (sortByKey (← keyedEntries entries))
  | .tag number content => .tag number <$> canonical content
  | t => .ok t

/-- The terms of a list, each in canonical order. -/
def canonicalItems : List Term → Except Fault (List Term)
  | [] => .ok []
  | t :: ts => do return (← canonical t) :: (← canonicalItems ts)

/-- The entries of a map with their encoded keys, in the order given. -/
def keyedEntries : List (Term × Term) → Except Fault (List KeyedEntry)
  | [] => .ok []
  | (k, v) :: es => do
    let key ← canonical k
    let keyBytes ← writeTerm key
    return ⟨keyBytes, key, canonical v⟩ :: (← keyedEntries es)

end

/-- The canonical bytes of a term. -/
def encode (t : Term) : Except Fault Bytes := do writeTerm (← canonical t)

end Eutxo.Cbor

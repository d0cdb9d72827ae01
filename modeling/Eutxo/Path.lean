import Eutxo.Text.Basic

/-!
# Paths

A path names a node of a tree of data in an error report, starting from the
name of what is being read.
-/

namespace Eutxo

/-- A node of a tree of data. -/
inductive Path where
  | root (name : Text)
  /-- An item of a sequence. -/
  | item (owner : Path) (index : Nat)
  /-- A key of a map. -/
  | key (owner : Path)
  /-- The key of a map entry, by the position of the entry. -/
  | keyAt (owner : Path) (index : Nat)
  /-- The value of a map entry, by its key. -/
  | entry (owner : Path) (label : Text)
  deriving DecidableEq, Repr

namespace Path

/-- The written form of a path. -/
def toText : Path → Text
  | .root name => name
  | .item owner i => owner.toText ++ "[" ++ Text.ofNat i ++ "]"
  | .key owner => owner.toText ++ ".<key>"
  | .keyAt owner i => owner.toText ++ ".<key " ++ Text.ofNat i ++ ">"
  | .entry owner label => owner.toText ++ "\x7b" ++ label ++ "\x7d"

end Path

end Eutxo

import Eutxo.Number.Basic
import Eutxo.Text.Basic

/-!
# Chunks

A text is cut into consecutive chunks of one size, the last of which may be
shorter.  The size is usually a number of code units; a fractional one is added
up from chunk to chunk, and each sum is rounded down to a place to cut.
-/

namespace Eutxo.Text

/-- The number of chunks of `size` code units that a text of `length` code units needs. -/
def chunkCount (length size : Nat) : Nat := (length + size - 1) / size

/-- Consecutive chunks of `size` code units; only the last may be shorter. -/
def chunks (size : Nat) (t : Text) : List Text :=
  (List.range (chunkCount t.length size)).map fun i => (t.drop (i * size)).take size

/-- At most `fuel` chunks of a fractional size, the first of which begins at `start`; sums are
binary64 numbers. -/
def unevenChunks (size : Rat) (t : Text) : Nat → Rat → List Text
  | 0, _ => []
  | fuel + 1, start =>
    if t.length ≤ start then []
    else
      let stop := (Number.ofRat (start + size)).toRat?.getD t.length
      let first := start.floor.toNat
      (t.drop first).take (stop.floor.toNat - first) :: unevenChunks size t fuel stop

/-- Consecutive chunks of a positive size of any kind.  The rounding of the sums is far too small to
double the number of chunks. -/
def chunksBy (size : Number) (t : Text) : List Text :=
  match size with
  | .integer n => t.chunks n.toNat
  | .fraction q => unevenChunks q t ((2 * t.length / q).ceil.toNat + 1) 0
  | .infinite false => t.chunks t.length
  | _ => []

end Eutxo.Text

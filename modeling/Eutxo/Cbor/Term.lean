import Eutxo.Bytes
import Eutxo.Json.Printer
import Eutxo.Text.Hex
import Eutxo.Text.Utf8

/-!
# Terms

A term is the tree of data that every ledger type converts to before it is
written as CBOR.  Integers are unbounded, the entries of a map stand in a list
and may repeat a key, and a tag carries any natural number: whether a term can
be written is decided when it is.
-/

namespace Eutxo

/-- A tree of CBOR data. -/
inductive Term where
  | int (n : Int)
  | bytes (bs : Bytes)
  | text (t : Text)
  | bool (b : Bool)
  | null
  | seq (items : List Term)
  | map (entries : List (Term × Term))
  | tag (number : Nat) (content : Term)
  deriving Repr

namespace Term

instance : Inhabited Term := ⟨.null⟩

mutual

/-- Whether two terms are the same tree, entry order included. -/
def same : Term → Term → Bool
  | .int m, .int n => m = n
  | .bytes a, .bytes b => a = b
  | .text a, .text b => a = b
  | .bool a, .bool b => a = b
  | .null, .null => true
  | .seq xs, .seq ys => sameItems xs ys
  | .map xs, .map ys => sameEntries xs ys
  | .tag m a, .tag n b => m = n && same a b
  | _, _ => false

/-- Whether two lists hold the same terms. -/
def sameItems : List Term → List Term → Bool
  | [], [] => true
  | x :: xs, y :: ys => same x y && sameItems xs ys
  | _, _ => false

/-- Whether two lists hold the same entries. -/
def sameEntries : List (Term × Term) → List (Term × Term) → Bool
  | [], [] => true
  | (k, v) :: xs, (l, w) :: ys => same k l && same v w && sameEntries xs ys
  | _, _ => false

end

mutual

theorem eq_of_same : (a b : Term) → same a b = true → a = b
  | .int _, b, h => by cases b <;> simp_all [same]
  | .bytes _, b, h => by cases b <;> simp_all [same]
  | .text _, b, h => by cases b <;> simp_all [same]
  | .bool _, b, h => by cases b <;> simp_all [same]
  | .null, b, h => by cases b <;> simp_all [same]
  | .seq xs, b, h => by
    cases b with
    | seq ys => exact congrArg Term.seq (eq_of_sameItems xs ys (by simpa [same] using h))
    | _ => simp [same] at h
  | .map xs, b, h => by
    cases b with
    | map ys => exact congrArg Term.map (eq_of_sameEntries xs ys (by simpa [same] using h))
    | _ => simp [same] at h
  | .tag m a, b, h => by
    cases b with
    | tag n b =>
      simp only [same, Bool.and_eq_true, decide_eq_true_eq] at h
      rw [h.1, eq_of_same a b h.2]
    | _ => simp [same] at h

theorem eq_of_sameItems : (xs ys : List Term) → sameItems xs ys = true → xs = ys
  | [], ys, h => by cases ys <;> simp_all [sameItems]
  | x :: xs, ys, h => by
    cases ys with
    | nil => simp [sameItems] at h
    | cons y ys =>
      simp only [sameItems, Bool.and_eq_true] at h
      rw [eq_of_same x y h.1, eq_of_sameItems xs ys h.2]

theorem eq_of_sameEntries : (xs ys : List (Term × Term)) → sameEntries xs ys = true → xs = ys
  | [], ys, h => by cases ys <;> simp_all [sameEntries]
  | (k, v) :: xs, ys, h => by
    cases ys with
    | nil => simp [sameEntries] at h
    | cons y ys =>
      obtain ⟨l, w⟩ := y
      simp only [sameEntries, Bool.and_eq_true] at h
      rw [eq_of_same k l h.1.1, eq_of_same v w h.1.2, eq_of_sameEntries xs ys h.2]

end

mutual

theorem same_self : (a : Term) → same a a = true
  | .int _ => by simp [same]
  | .bytes _ => by simp [same]
  | .text _ => by simp [same]
  | .bool _ => by simp [same]
  | .null => by simp [same]
  | .seq xs => by simp [same, sameItems_self xs]
  | .map xs => by simp [same, sameEntries_self xs]
  | .tag _ a => by simp [same, same_self a]

theorem sameItems_self : (xs : List Term) → sameItems xs xs = true
  | [] => rfl
  | x :: xs => by simp [sameItems, same_self x, sameItems_self xs]

theorem sameEntries_self : (xs : List (Term × Term)) → sameEntries xs xs = true
  | [] => rfl
  | (k, v) :: xs => by simp [sameEntries, same_self k, same_self v, sameEntries_self xs]

end

theorem same_iff (a b : Term) : same a b = true ↔ a = b :=
  ⟨eq_of_same a b, fun h => h ▸ same_self a⟩

instance : DecidableEq Term := fun a b => decidable_of_iff _ (same_iff a b)

/-- The kinds of terms, by the names under which they are reported. -/
def formName : Term → Text
  | .int _ => "Int"
  | .bytes _ => "Bytes"
  | .text _ => "Text"
  | .bool _ => "Bool"
  | .null => "Null"
  | .seq _ => "Sequence"
  | .map _ => "Map"
  | .tag _ _ => "Tagged"

/-- A short rendering of a term for error reports: at most sixteen bytes of a byte string and
thirty-two code units of a text are shown, of a composite only its size, and of a tag its number in
the shortest text. -/
def describe : Term → Text
  | .int n => "int(" ++ Text.ofInt n ++ ")"
  | .bytes bs =>
    "bytes(" ++ Text.ofNat bs.length ++ "):" ++ Bytes.toHex (bs.take 16)
      ++ (if 16 < bs.length then "…" else "" : String)
  | .text t => "text(" ++ (t.take 32).quote ++ ")"
  | .bool b => if b then "bool(true)" else "bool(false)"
  | .null => "null"
  | .seq items => "sequence(" ++ Text.ofNat items.length ++ ")"
  | .map entries => "map(" ++ Text.ofNat entries.length ++ ")"
  | .tag number _ => "tag(" ++ (Number.ofNat number).toText ++ ")"

end Term

end Eutxo

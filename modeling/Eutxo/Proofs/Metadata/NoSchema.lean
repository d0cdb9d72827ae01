import Eutxo.Metadata.NoSchema
import Eutxo.Proofs.Traversal

/-!
# Metadata shown as JSON

A sequence is shown item by item, and a map of one entry as an object of one
member, whatever its name looks like.
-/

namespace Eutxo

open Traversal

namespace Json

theorem membersOfPairs_singleton {α : Type} (name : Text) (value : α) :
    membersOfPairs [(name, value)] = [(name, value)] := by
  rw [membersOfPairs, List.foldl_cons, List.foldl_nil, upsert, orderMembers]
  cases index? name <;> rfl

theorem member?_singleton (name : Text) (j : Json) :
    (object [(name, j)]).member? name = some j := by
  rw [member?, List.lookup_cons_self]

end Json

namespace NoSchema

theorem itemsToJson_eq_map (js : List NoSchema) : itemsToJson js = js.map toJson := by
  induction js with
  | nil => rfl
  | cons j js ih => rw [itemsToJson, ih, List.map_cons]

theorem membersToJson_eq_map (ms : List (Text × NoSchema)) :
    membersToJson ms = ms.map fun m => (m.1, m.2.toJson) := by
  induction ms with
  | nil => rfl
  | cons m ms ih => rw [membersToJson, ih, List.map_cons]

theorem toJson_list (js : List NoSchema) : (list js).toJson = .array (js.map toJson) := by
  rw [toJson, itemsToJson_eq_map]

theorem toJson_object (ms : List (Text × NoSchema)) :
    (object ms).toJson = .object (ms.map fun m => (m.1, m.2.toJson)) := by
  rw [toJson, membersToJson_eq_map]

theorem toJson_named (name : Text) (j : NoSchema) :
    (object [(name, j)]).toJson = .object [(name, j.toJson)] :=
  toJson_object [(name, j)]

theorem toJson_texts (ts : List Text) : (list (ts.map .text)).toJson = .array (ts.map .string) := by
  rw [toJson_list, List.map_map]
  exact congrArg Json.array (List.map_congr_left fun t _ => by rw [Function.comp, toJson])

/-- A sequence of texts is shown as the list of the same texts. -/
theorem ofTerm_texts (ts : List Text) :
    ofTerm (.seq (ts.map .text)) = .ok (.list (ts.map .text)) := by
  have hitems : ofItems (ts.map .text) = .ok (ts.map .text) := by
    induction ts with
    | nil => rfl
    | cons t ts ih => rw [List.map_cons, ofItems, ih]; rfl
  rw [ofTerm, hitems]
  rfl

/-- A map of one named entry is shown as an object of one member. -/
theorem ofTerm_named {name : Text} {t : Term} {j : NoSchema} (h : ofTerm t = .ok j) :
    ofTerm (.map [(.text name, t)]) = .ok (.object [(name, j)]) := by
  have hentries : ofEntries [(.text name, t)] = .ok [(name, j)] := by
    rw [ofEntries, h]
    rfl
  rw [ofTerm, hentries]
  exact congrArg (fun ms => Except.ok (object ms)) (Json.membersOfPairs_singleton name j)

end NoSchema

end Eutxo

import Eutxo.Number.Basic

/-!
# Fields of keyed maps

Bodies and witness sets are written as maps from field keys to contents.  Of two
entries of one field the later one counts.  Which list fields were marked as
sets is recorded as a list of field keys in the order in which they were first
recorded, without repeats.  Any number may be recorded; one that is the key of no
list field marks nothing.
-/

namespace Eutxo

/-- What the last entry of one kind holds; `content?` tells the entries of that kind. -/
def lastOf {ε α : Type} (content? : ε → Option α) (entries : List ε) : Option α :=
  entries.reverse.findSome? content?

/-- The elements of a list in the order of their first occurrences, without repeats. -/
def firstOccurrences {α : Type} [DecidableEq α] (xs : List α) : List α :=
  xs.foldl (fun seen x => if x ∈ seen then seen else seen ++ [x]) []

theorem nodup_firstOccurrences {α : Type} [DecidableEq α] (xs : List α) :
    (firstOccurrences xs).Nodup := by
  suffices general : ∀ (xs seen : List α), seen.Nodup →
      (xs.foldl (fun seen x => if x ∈ seen then seen else seen ++ [x]) seen).Nodup from
    general xs [] List.nodup_nil
  intro xs
  induction xs with
  | nil => exact fun _ h => h
  | cons x xs ih =>
    intro seen h
    simp only [List.foldl_cons]
    by_cases hx : x ∈ seen
    · simpa [hx] using ih seen h
    · simp only [hx, if_false]
      refine ih _ (List.nodup_append.2 ⟨h, by simp, ?_⟩)
      intro y hy z hz hyz
      rw [List.mem_singleton] at hz
      exact hx (hz ▸ hyz ▸ hy)

theorem mem_firstOccurrences {α : Type} [DecidableEq α] {xs : List α} {x : α} :
    x ∈ firstOccurrences xs ↔ x ∈ xs := by
  suffices general : ∀ seen,
      x ∈ xs.foldl (fun seen y => if y ∈ seen then seen else seen ++ [y]) seen ↔
        x ∈ seen ∨ x ∈ xs by
    rw [firstOccurrences, general]
    simp
  induction xs with
  | nil => simp
  | cons y ys ih =>
    intro seen
    rw [List.foldl_cons, ih]
    by_cases hy : y ∈ seen
    · simp only [if_pos hy, List.mem_cons]
      constructor
      · rintro (h | h)
        · exact .inl h
        · exact .inr (.inr h)
      · rintro (h | rfl | h)
        · exact .inl h
        · exact .inl hy
        · exact .inr h
    · simp only [if_neg hy, List.mem_append, List.mem_cons, List.not_mem_nil, false_or,
        or_assoc]

theorem firstOccurrences_of_nodup {α : Type} [DecidableEq α] {xs : List α} (h : xs.Nodup) :
    firstOccurrences xs = xs := by
  suffices general : ∀ seen, (seen ++ xs).Nodup →
      xs.foldl (fun seen x => if x ∈ seen then seen else seen ++ [x]) seen = seen ++ xs from
    general [] h
  clear h
  induction xs with
  | nil => exact fun seen _ => (List.append_nil seen).symm
  | cons x xs ih =>
    intro seen hseen
    have hnew : x ∉ seen := fun hx =>
      (List.nodup_append.1 hseen).2.2 x hx x List.mem_cons_self rfl
    have hsame : seen ++ x :: xs = seen ++ [x] ++ xs := List.append_cons seen x xs
    rw [hsame] at hseen
    rw [List.foldl_cons, if_neg hnew, ih _ hseen, hsame]

/-- What is recorded of a list of field keys: the first of each, either zero being the key `0`. -/
def recorded (keys : List Number) : List Number :=
  firstOccurrences (keys.map Number.withoutZeroSign)

theorem recorded_recorded (keys : List Number) : recorded (recorded keys) = recorded keys := by
  have hplain : ∀ n ∈ recorded keys, n.withoutZeroSign = n := by
    intro n hn
    obtain ⟨m, -, rfl⟩ := List.mem_map.1 (mem_firstOccurrences.1 hn)
    cases m <;> rfl
  have hmap : (recorded keys).map Number.withoutZeroSign = recorded keys := by
    rw [List.map_congr_left hplain, List.map_id']
  rw [recorded, hmap, recorded, firstOccurrences_of_nodup (nodup_firstOccurrences _)]

/-- A set of field keys that remembers the order in which they were recorded. -/
structure FieldSet where
  keys : List Number
  recorded_keys : recorded keys = keys
  deriving DecidableEq, Repr

namespace FieldSet

/-- The set of the keys of a list. -/
def ofList (keys : List Number) : FieldSet := ⟨recorded keys, recorded_recorded keys⟩

/-- The set without keys. -/
def empty : FieldSet := ⟨[], rfl⟩

/-- Whether the key of a field is in the set. -/
def contains (s : FieldSet) (key : Nat) : Bool := s.keys.contains (.integer key)

/-- A set is made of its own keys again. -/
theorem ofList_keys (s : FieldSet) : ofList s.keys = s := by
  obtain ⟨keys, hkeys⟩ := s
  simp only [ofList, hkeys]

end FieldSet

end Eutxo

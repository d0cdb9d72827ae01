/-!
# Tables

A table is a finite map that remembers the order in which its keys were first
inserted.  Writing to a key that is present keeps its place.
-/

namespace Eutxo

/-- A finite map with its keys in the order of their first insertion. -/
structure Table (κ α : Type) where
  entries : List (κ × α)
  nodup_keys : (entries.map Prod.fst).Nodup := by simp
  deriving DecidableEq, Repr

namespace Table

variable {κ α : Type}

/-- The table without keys. -/
def empty : Table κ α := ⟨[], List.nodup_nil⟩

/-- The keys in order. -/
def keys (t : Table κ α) : List κ := t.entries.map Prod.fst

/-- The number of keys. -/
def size (t : Table κ α) : Nat := t.entries.length

/-- Whether there are no keys. -/
def isEmpty (t : Table κ α) : Bool := t.entries.isEmpty

variable [DecidableEq κ]

/-- The value under a key. -/
def get? (t : Table κ α) (k : κ) : Option α := (t.entries.find? fun e => e.1 = k).map Prod.snd

/-- Writes a value in place of the one under its key, or behind all entries. -/
def insertEntry (k : κ) (a : α) : List (κ × α) → List (κ × α)
  | [] => [(k, a)]
  | e :: es => if e.1 = k then (k, a) :: es else e :: insertEntry k a es

theorem keys_insertEntry (k : κ) (a : α) (es : List (κ × α)) :
    (insertEntry k a es).map Prod.fst =
      if k ∈ es.map Prod.fst then es.map Prod.fst else es.map Prod.fst ++ [k] := by
  induction es with
  | nil => simp [insertEntry]
  | cons e es ih =>
    by_cases h : e.1 = k
    · simp [insertEntry, h]
    · have hk : ¬ k = e.1 := fun g => h g.symm
      simp only [insertEntry, h, if_false, List.map_cons, ih, List.mem_cons, hk, false_or]
      split <;> simp

theorem mem_insertEntry {k : κ} {a : α} {es : List (κ × α)} {e : κ × α}
    (h : e ∈ insertEntry k a es) : e = (k, a) ∨ e ∈ es := by
  induction es with
  | nil => simpa [insertEntry] using h
  | cons f fs ih =>
    by_cases hf : f.1 = k
    · simp only [insertEntry, hf, if_true, List.mem_cons] at h
      exact h.imp id fun g => List.mem_cons_of_mem _ g
    · simp only [insertEntry, hf, if_false, List.mem_cons] at h
      rcases h with rfl | h
      · exact .inr List.mem_cons_self
      · exact (ih h).imp id fun g => List.mem_cons_of_mem _ g

/-- Writes a value under a key; a key that is present keeps its place. -/
def insert (t : Table κ α) (k : κ) (a : α) : Table κ α where
  entries := insertEntry k a t.entries
  nodup_keys := by
    rw [keys_insertEntry]
    split
    · exact t.nodup_keys
    · next h =>
      rw [List.nodup_append]
      refine ⟨t.nodup_keys, by simp, ?_⟩
      intro x hx y hy hxy
      rw [List.mem_singleton] at hy
      exact h (hy ▸ hxy ▸ hx)

/-- Removes a key. -/
def erase (t : Table κ α) (k : κ) : Table κ α where
  entries := t.entries.filter fun e => e.1 ≠ k
  nodup_keys := List.Nodup.sublist ((List.filter_sublist).map Prod.fst) t.nodup_keys

/-- The table of a list of entries, or the first key that occurs in it again. -/
def ofEntries : List (κ × α) → Except κ (Table κ α) :=
  List.foldlM (fun t e => if (t.get? e.1).isSome then .error e.1 else .ok (t.insert e.1 e.2)) empty

end Table

end Eutxo

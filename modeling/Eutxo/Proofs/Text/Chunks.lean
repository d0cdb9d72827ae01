import Mathlib.Algebra.Order.Floor.Div
import Mathlib.Data.Rat.Floor
import Eutxo.Proofs.Text.Utf8
import Eutxo.Text.Chunks

/-!
# Chunks put together again

No unit is lost or moved when a text is cut into chunks.  The cutting is also
described as a loop over places in the text, which stops behind the last unit,
and a run of the loop is what the chunks are.  A chunk of a text in ASCII takes
no more bytes than its size.
-/

namespace Eutxo.Text

variable {size start : Nat} {t c : Text} {cs : List Text}

theorem drop_drop (t : Text) (m n : Nat) : (t.drop m).drop n = t.drop (m + n) :=
  congrArg mk List.drop_drop

theorem length_drop (t : Text) (n : Nat) : (t.drop n).length = t.length - n := List.length_drop

theorem length_take (t : Text) (n : Nat) : (t.take n).length = min n t.length := List.length_take

/-! ## The loop -/

/-- The runs of the loop that cuts a text: from a place inside the text a window of `size` units is
cut off, and the loop goes on `size` units further; behind the last unit it stops. -/
inductive Cuts (size : Nat) (t : Text) : Nat → List Text → Prop
  | done {start : Nat} (h : t.length ≤ start) : Cuts size t start []
  | cut {start : Nat} {cs : List Text} (h : start < t.length)
      (rest : Cuts size t (start + size) cs) :
      Cuts size t start ((t.drop start).take size :: cs)

/-- What it means that texts are the chunks of a text: nothing is lost, all but the last have the
full size, the last is not empty, and there are as many as are needed. -/
structure Chunking (size : Nat) (t : Text) (cs : List Text) : Prop where
  concat_eq : concat cs = t
  length_eq : ∀ c ∈ cs.dropLast, c.length = size
  length_last : ∀ c ∈ cs.getLast?, 1 ≤ c.length ∧ c.length ≤ size
  count_eq : cs.length = ⌈(t.length / size : ℚ)⌉₊

theorem chunkCount_eq_ceil (length : Nat) (hsize : 0 < size) :
    chunkCount length size = ⌈(length / size : ℚ)⌉₊ := by
  have hpositive : (0 : ℚ) < size := Nat.cast_pos.2 hsize
  refine eq_of_forall_ge_iff fun k => ?_
  calc chunkCount length size ≤ k
      ↔ length ≤ size * k := ceilDiv_le_iff_le_mul hsize
    _ ↔ (length : ℚ) ≤ k * size := by rw [mul_comm]; exact_mod_cast Iff.rfl
    _ ↔ ⌈(length / size : ℚ)⌉₊ ≤ k := by rw [Nat.ceil_le, div_le_iff₀ hpositive]

/-- The window at the beginning of a text that is not empty is one chunk more than the rest has. -/
theorem chunkCount_sub (hsize : 0 < size) {length : Nat} (hlength : 0 < length) :
    chunkCount length size = chunkCount (length - size) size + 1 := by
  rw [chunkCount, chunkCount]
  rcases le_total length size with hshort | hlong
  · have hone : (length + size - 1) / size = 1 :=
      (Nat.div_eq_iff hsize).2 (by omega)
    have hnone : (length - size + size - 1) / size = 0 := Nat.div_eq_of_lt (by omega)
    rw [hone, hnone]
  · have hlast : length + size - 1 = length - size + size - 1 + size := by omega
    rw [hlast, Nat.add_div_right _ hsize]

theorem Chunking.nil : Chunking size empty [] where
  concat_eq := rfl
  length_eq := nofun
  length_last := nofun
  count_eq := by simp [length, empty]

/-- One step of the loop: the first window before the chunks of the rest. -/
theorem Chunking.cons (hsize : 0 < size) (ht : 0 < t.length) (h : Chunking size (t.drop size) cs) :
    Chunking size t (t.take size :: cs) where
  concat_eq := by
    have hrest : cs.flatMap units = t.units.drop size := congrArg units h.concat_eq
    have hwhole : (t.take size :: cs).flatMap units = t.units := by
      rw [List.flatMap_cons, hrest]
      exact List.take_append_drop size t.units
    exact congrArg Text.mk hwhole
  length_eq := by
    cases cs with
    | nil => exact nofun
    | cons d ds =>
      -- A chunk after the first window shows that the window is full.
      have hcount := h.count_eq
      rw [← chunkCount_eq_ceil _ hsize, length_drop, List.length_cons] at hcount
      have hlong : size ≤ t.length := by
        by_contra hshort
        rw [Nat.sub_eq_zero_of_le (by omega), chunkCount, Nat.div_eq_of_lt (by omega)] at hcount
        omega
      rw [List.dropLast_cons_cons, List.forall_mem_cons]
      exact ⟨by rw [length_take]; omega, h.length_eq⟩
  length_last := by
    cases cs with
    | nil =>
      rw [List.getLast?_singleton]
      rintro c hc
      obtain rfl := Option.mem_some_iff.1 hc
      rw [length_take]
      omega
    | cons d ds =>
      rw [List.getLast?_cons_cons]
      exact h.length_last
  count_eq := by
    have hrest := h.count_eq
    rw [← chunkCount_eq_ceil _ hsize, length_drop] at hrest
    rw [List.length_cons, hrest, ← chunkCount_sub hsize ht, chunkCount_eq_ceil _ hsize]

/-- What a run of the loop leaves are chunks of the text behind the place where it begins. -/
theorem Cuts.chunking (hsize : 0 < size) (h : Cuts size t start cs) :
    Chunking size (t.drop start) cs := by
  induction h with
  | done h =>
    have hempty : t.drop _ = empty := congrArg mk (List.drop_eq_nil_of_le h)
    rw [hempty]
    exact .nil
  | cut h rest ih =>
    refine .cons hsize (by rw [length_drop]; omega) ?_
    rw [drop_drop]
    exact ih

theorem chunks_of_length_eq_zero (ht : t.length = 0) (hsize : 0 < size) : t.chunks size = [] := by
  rw [chunks, ht, chunkCount, Nat.div_eq_of_lt (by omega)]
  rfl

/-- The first chunk, and the chunks of the rest. -/
theorem chunks_eq_cons (hsize : 0 < size) (ht : 0 < t.length) :
    t.chunks size = t.take size :: (t.drop size).chunks size := by
  rw [chunks, chunkCount_sub hsize ht, List.range_succ_eq_map, List.map_cons, List.map_map, chunks,
    length_drop]
  refine congrArg₂ List.cons ?_ (List.map_congr_left fun i _ => ?_)
  · rw [Nat.zero_mul]
    rfl
  · rw [Function.comp_apply, drop_drop, Nat.succ_mul, Nat.add_comm]

/-- The loop stops wherever it begins, and leaves the chunks of what is behind that place. -/
theorem cuts_iff (hsize : 0 < size) : Cuts size t start cs ↔ cs = (t.drop start).chunks size := by
  constructor
  · intro h
    induction h with
    | done h => rw [chunks_of_length_eq_zero (by rw [length_drop]; omega) hsize]
    | cut h rest ih =>
      rw [ih, ← drop_drop]
      exact (chunks_eq_cons hsize (by rw [length_drop]; omega)).symm
  · rintro rfl
    -- The induction is on how many units the loop still has before it.
    induction hrest : t.length - start using Nat.strong_induction_on generalizing start with
    | _ rest ih =>
      by_cases hinside : start < t.length
      · rw [chunks_eq_cons hsize (by rw [length_drop]; omega), drop_drop]
        exact .cut hinside (ih (t.length - (start + size)) (by omega) rfl)
      · rw [chunks_of_length_eq_zero (by rw [length_drop]; omega) hsize]
        exact .done (by omega)

theorem chunking_chunks (hsize : 0 < size) (t : Text) : Chunking size t (t.chunks size) := by
  have hrun : Cuts size t 0 (t.chunks size) := (cuts_iff hsize).2 rfl
  exact hrun.chunking hsize

theorem concat_chunks (hsize : 0 < size) (t : Text) : concat (t.chunks size) = t :=
  (chunking_chunks hsize t).concat_eq

/-! ## Single chunks -/

theorem length_le_of_mem_chunks (h : c ∈ t.chunks size) : c.length ≤ size := by
  obtain ⟨i, -, rfl⟩ := List.mem_map.1 h
  exact List.length_take_le _ _

theorem units_subset_of_mem_chunks (h : c ∈ t.chunks size) : c.units ⊆ t.units := by
  obtain ⟨i, -, rfl⟩ := List.mem_map.1 h
  exact fun u hu => List.mem_of_mem_drop (List.mem_of_mem_take hu)

theorem length_toUtf8_le_of_mem_chunks (ht : ∀ u ∈ t.units, u.toNat < 0x80)
    (h : c ∈ t.chunks size) : c.toUtf8.length ≤ size := by
  have hc : ∀ u ∈ c.units, u.toNat < 0x80 := fun u hu => ht u (units_subset_of_mem_chunks h hu)
  rw [length_toUtf8_of_ascii hc]
  exact length_le_of_mem_chunks h

end Eutxo.Text

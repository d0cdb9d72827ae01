import Eutxo.Proofs.Cbor.Spelling

/-!
# Data items in the input

A data item of definite length stands in the input as its head, its content if it
is a string, and the items right below it, one behind the other.  Read from left
to right its heads are in document order.
-/

namespace Eutxo.Cbor

/-- A data item as it stands in the input.  Its head may be longer than necessary, and its content
is empty unless it is a string. -/
inductive WireItem where
  | node (head : Head) (content : Bytes) (below : List WireItem)

namespace WireItem

instance : Tree WireItem where
  children
    | .node _ _ below => below

/-- The head of an item. -/
def head : WireItem → Head
  | .node head _ _ => head

/-- The content right behind the head of an item. -/
def content : WireItem → Bytes
  | .node _ content _ => content

/-- The head of an item announces its content and the items right below it. -/
structure WellFormedAt (x : WireItem) : Prop where
  fits : x.head.Fits
  content : x.content.length = x.head.major.contentLength x.head.argument
  below : (Tree.children x).length = x.head.major.itemsBelow x.head.argument

mutual

/-- The bytes of an item. -/
def bytes : WireItem → Bytes
  | .node head content below => head.spell ++ (content ++ bytesOfAll below)

/-- The bytes of the items of a list, one after the other. -/
def bytesOfAll : List WireItem → Bytes
  | [] => []
  | x :: xs => bytes x ++ bytesOfAll xs

end

mutual

/-- The head of an item and of every item below it, in document order, each with its offset. -/
def heads (offset : Nat) : WireItem → List (Nat × Head)
  | .node head content below =>
    (offset, head) :: headsOfAll (offset + (head.spell.length + content.length)) below

/-- The heads of the items of a list that begins at an offset. -/
def headsOfAll (offset : Nat) : List WireItem → List (Nat × Head)
  | [] => []
  | x :: xs => heads offset x ++ headsOfAll (offset + (bytes x).length) xs

end

/-! ## What is still to come

Behind a head the items below it come in front of those that were to come before.
-/

theorem bytesOfAll_append (xs ys : List WireItem) :
    bytesOfAll (xs ++ ys) = bytesOfAll xs ++ bytesOfAll ys := by
  induction xs with
  | nil => rfl
  | cons x xs ih => rw [List.cons_append, bytesOfAll, bytesOfAll, ih, List.append_assoc]

theorem bytesOfAll_node (head : Head) (content : Bytes) (below xs : List WireItem) :
    bytesOfAll (.node head content below :: xs) =
      head.spell ++ (content ++ bytesOfAll (below ++ xs)) := by
  rw [bytesOfAll, bytes, bytesOfAll_append, List.append_assoc, List.append_assoc]

theorem headsOfAll_append (offset : Nat) (xs ys : List WireItem) :
    headsOfAll offset (xs ++ ys) =
      headsOfAll offset xs ++ headsOfAll (offset + (bytesOfAll xs).length) ys := by
  induction xs generalizing offset with
  | nil => rfl
  | cons x xs ih =>
    rw [List.cons_append, headsOfAll, headsOfAll, bytesOfAll, ih, List.append_assoc,
      List.length_append, Nat.add_assoc]

theorem headsOfAll_node (offset : Nat) (head : Head) (content : Bytes)
    (below xs : List WireItem) :
    headsOfAll offset (.node head content below :: xs) =
      (offset, head) :: headsOfAll (offset + (head.spell.length + content.length))
        (below ++ xs) := by
  rw [headsOfAll, heads, bytes, headsOfAll_append, List.cons_append, List.length_append,
    List.length_append]
  simp only [Nat.add_assoc]

theorem forall_mem_node_iff {P : WireItem → Prop} {head : Head} {content : Bytes}
    {below xs : List WireItem} :
    (∀ x ∈ WireItem.node head content below :: xs, Everywhere P x) ↔
      P (.node head content below) ∧ ∀ x ∈ below ++ xs, Everywhere P x := by
  rw [List.forall_mem_cons, List.forall_mem_append, ← and_assoc]
  exact and_congr_left fun _ => ⟨fun h => ⟨h.here, h.children⟩, fun h => .intro h.1 h.2⟩

/-- A list of items is empty, or begins with a head in front of the items that then are to come. -/
@[elab_as_elim]
theorem induct {motive : Nat → List WireItem → Prop} (nil : ∀ offset, motive offset [])
    (node : ∀ offset head content below xs,
      motive (offset + (head.spell.length + content.length)) (below ++ xs) →
        motive offset (.node head content below :: xs))
    (offset : Nat) (xs : List WireItem) : motive offset xs := by
  induction hheads : headsOfAll offset xs generalizing offset xs with
  | nil =>
    cases xs with
    | nil => exact nil offset
    | cons x xs =>
      obtain ⟨head, content, below⟩ := x
      rw [headsOfAll_node] at hheads
      cases hheads
  | cons v vs ih =>
    cases xs with
    | nil => cases hheads
    | cons x xs =>
      obtain ⟨head, content, below⟩ := x
      rw [headsOfAll_node] at hheads
      exact node offset head content below xs (ih _ _ (List.cons.inj hheads).2)

/-! ## Heads -/

/-- What holds of all heads holds of the head of every item. -/
theorem forall_mem_headsOfAll_iff {P : Head → Prop} {offset : Nat} {xs : List WireItem} :
    (∀ v ∈ headsOfAll offset xs, P v.2) ↔ ∀ x ∈ xs, Everywhere (fun y => P y.head) x := by
  induction offset, xs using induct with
  | nil offset => exact iff_of_true nofun nofun
  | node offset head content below xs ih =>
    rw [headsOfAll_node, List.forall_mem_cons, ih, forall_mem_node_iff]
    rfl

theorem le_of_mem_headsOfAll {offset : Nat} {xs : List WireItem} :
    ∀ v ∈ headsOfAll offset xs, offset ≤ v.1 := by
  induction offset, xs using induct with
  | nil offset => exact nofun
  | node offset head content below xs ih =>
    rw [headsOfAll_node]
    refine List.forall_mem_cons.2 ⟨le_rfl, fun v hv => ?_⟩
    have hle := ih v hv
    omega

/-- The item that begins with the one head ends, but for the items below it, before the other
begins. -/
def EndsBefore (v w : Nat × Head) : Prop :=
  v.1 + (v.2.spell.length + v.2.major.contentLength v.2.argument) ≤ w.1

theorem pairwise_headsOfAll {offset : Nat} {xs : List WireItem}
    (h : ∀ x ∈ xs, Everywhere WellFormedAt x) :
    (headsOfAll offset xs).Pairwise EndsBefore := by
  induction offset, xs using induct with
  | nil offset => exact .nil
  | node offset head content below xs ih =>
    obtain ⟨hhere, hrest⟩ := forall_mem_node_iff.1 h
    rw [headsOfAll_node]
    refine List.pairwise_cons.2 ⟨fun w hw => ?_, ih hrest⟩
    have hcontent : content.length = head.major.contentLength head.argument := hhere.content
    have hle := le_of_mem_headsOfAll w hw
    rw [hcontent] at hle
    exact hle

/-- The bytes of a head stand at its offset. -/
theorem exists_spell_of_mem_headsOfAll {offset : Nat} {xs : List WireItem} :
    ∀ v ∈ headsOfAll offset xs, ∃ before after,
      bytesOfAll xs = before ++ (v.2.spell ++ after) ∧ v.1 = offset + before.length := by
  induction offset, xs using induct with
  | nil offset => exact nofun
  | node offset head content below xs ih =>
    rw [headsOfAll_node, bytesOfAll_node]
    refine List.forall_mem_cons.2 ⟨⟨[], _, rfl, rfl⟩, fun v hv => ?_⟩
    obtain ⟨before, after, hbytes, hoffset⟩ := ih v hv
    refine ⟨head.spell ++ (content ++ before), after, ?_, ?_⟩
    · rw [hbytes, List.append_assoc, List.append_assoc]
    · rw [hoffset, List.length_append, List.length_append]
      omega

theorem length_headsOfAll_le (offset : Nat) (xs : List WireItem) :
    (headsOfAll offset xs).length ≤ (bytesOfAll xs).length := by
  induction offset, xs using induct with
  | nil offset => exact Nat.zero_le _
  | node offset head content below xs ih =>
    have hpos : 0 < head.spell.length := by
      rw [Head.spell_eq_cons]
      exact Nat.succ_pos _
    rw [headsOfAll_node, bytesOfAll_node, List.length_cons, List.length_append, List.length_append]
    omega

theorem headsOfAll_singleton (offset : Nat) (x : WireItem) :
    headsOfAll offset [x] = x.heads offset := by
  rw [headsOfAll, headsOfAll, List.append_nil]

theorem bytesOfAll_singleton (x : WireItem) : bytesOfAll [x] = x.bytes := by
  rw [bytesOfAll, bytesOfAll, List.append_nil]

end WireItem

end Eutxo.Cbor

import Eutxo.Cbor.Item

/-!
# Terms and items as trees

Terms and items are trees of finite branching.  Their induction principles hand
a proof the claim for every item of a sequence and for every key and value of a
map, and a condition on nodes can be asked for at every depth.
-/

namespace Eutxo

/-- The nodes right below a map with these entries: each key followed by its value. -/
def entryNodes {α : Type} (entries : List (α × α)) : List α :=
  entries.flatMap fun e => [e.1, e.2]

@[simp]
theorem mem_entryNodes {α : Type} {entries : List (α × α)} {x : α} :
    x ∈ entryNodes entries ↔ ∃ e ∈ entries, x = e.1 ∨ x = e.2 := by
  simp [entryNodes]

theorem length_entryNodes {α : Type} (entries : List (α × α)) :
    (entryNodes entries).length = 2 * entries.length := by
  induction entries with
  | nil => rfl
  | cons e es ih =>
    have hnodes : entryNodes (e :: es) = e.1 :: e.2 :: entryNodes es := rfl
    rw [hnodes, List.length_cons, List.length_cons, List.length_cons, ih]
    omega

theorem sizeOf_entry_lt {α : Type} [SizeOf α] {entries : List (α × α)} {e : α × α}
    (he : e ∈ entries) : sizeOf e.1 < sizeOf entries ∧ sizeOf e.2 < sizeOf entries := by
  have hlt := List.sizeOf_lt_of_mem he
  have hpair : sizeOf e = 1 + sizeOf e.1 + sizeOf e.2 := Prod.mk.sizeOf_spec e.1 e.2
  constructor
  · omega
  · omega

theorem forall_mem_entryNodes {α : Type} {entries : List (α × α)} {P : α → Prop} :
    (∀ x ∈ entryNodes entries, P x) ↔ ∀ e ∈ entries, P e.1 ∧ P e.2 := by
  constructor
  · intro h e he
    exact ⟨h e.1 (mem_entryNodes.2 ⟨e, he, .inl rfl⟩), h e.2 (mem_entryNodes.2 ⟨e, he, .inr rfl⟩)⟩
  · intro h x hx
    obtain ⟨e, he, rfl | rfl⟩ := mem_entryNodes.1 hx
    · exact (h e he).1
    · exact (h e he).2

/-- A type of trees, each of which has finitely many nodes right below it. -/
class Tree (α : Type) where
  children : α → List α

/-- A condition holds of a tree and of every node below it, at any depth. -/
inductive Everywhere {α : Type} [Tree α] (P : α → Prop) : α → Prop
  | intro {x : α} (here : P x) (children : ∀ y ∈ Tree.children x, Everywhere P y) :
    Everywhere P x

namespace Everywhere

variable {α : Type} [Tree α] {P Q : α → Prop} {x : α}

theorem here (h : Everywhere P x) : P x := by
  cases h with
  | intro here children => exact here

theorem children (h : Everywhere P x) : ∀ y ∈ Tree.children x, Everywhere P y := by
  cases h with
  | intro here children => exact children

theorem imp (h : Everywhere P x) (himp : ∀ y, P y → Q y) : Everywhere Q x := by
  induction h with
  | intro here children ih => exact .intro (himp _ here) ih

/-- What holds everywhere below holds so at every node. -/
theorem everywhere (h : Everywhere P x) : Everywhere (Everywhere P) x := by
  induction h with
  | intro here children ih => exact .intro (.intro here children) ih

theorem and (hP : Everywhere P x) (hQ : Everywhere Q x) :
    Everywhere (fun y => P y ∧ Q y) x := by
  induction hP with
  | intro here children ih =>
    exact .intro ⟨here, hQ.here⟩ fun y hy => ih y hy (hQ.children y hy)

theorem leaf (here : P x) (hleaf : Tree.children x = []) : Everywhere P x :=
  .intro here (by simp [hleaf])

theorem iff_of_leaf (hleaf : Tree.children x = []) : Everywhere P x ↔ P x :=
  ⟨Everywhere.here, fun h => .leaf h hleaf⟩

end Everywhere

namespace Term

@[elab_as_elim, induction_eliminator]
theorem induct {motive : Term → Prop} (int : ∀ n, motive (.int n))
    (bytes : ∀ bs, motive (.bytes bs)) (text : ∀ t, motive (.text t))
    (bool : ∀ b, motive (.bool b)) (null : motive .null)
    (seq : ∀ items, (∀ t ∈ items, motive t) → motive (.seq items))
    (map : ∀ entries, (∀ e ∈ entries, motive e.1 ∧ motive e.2) → motive (.map entries))
    (tag : ∀ number content, motive content → motive (.tag number content)) (t : Term) :
    motive t := by
  cases t with
  | int n => exact int n
  | bytes bs => exact bytes bs
  | text t => exact text t
  | bool b => exact bool b
  | null => exact null
  | seq items => exact seq items fun t _ => induct int bytes text bool null seq map tag t
  | map entries =>
    exact map entries fun e _ =>
      ⟨induct int bytes text bool null seq map tag e.1,
        induct int bytes text bool null seq map tag e.2⟩
  | tag number content =>
    exact tag number content (induct int bytes text bool null seq map tag content)
termination_by sizeOf t
decreasing_by
  · have hlt := List.sizeOf_lt_of_mem ‹_›
    rw [Term.seq.sizeOf_spec]
    omega
  · have hlt := sizeOf_entry_lt ‹_›
    rw [Term.map.sizeOf_spec]
    omega
  · have hlt := sizeOf_entry_lt ‹_›
    rw [Term.map.sizeOf_spec]
    omega
  · rw [Term.tag.sizeOf_spec]
    omega

instance : Tree Term where
  children
    | .seq items => items
    | .map entries => entryNodes entries
    | .tag _ content => [content]
    | _ => []

variable {P : Term → Prop}

theorem everywhere_seq_iff {items : List Term} :
    Everywhere P (.seq items) ↔ P (.seq items) ∧ ∀ t ∈ items, Everywhere P t :=
  ⟨fun h => ⟨h.here, h.children⟩, fun h => .intro h.1 h.2⟩

theorem everywhere_map_iff {entries : List (Term × Term)} :
    Everywhere P (.map entries) ↔
      P (.map entries) ∧ ∀ e ∈ entries, Everywhere P e.1 ∧ Everywhere P e.2 :=
  ⟨fun h => ⟨h.here, forall_mem_entryNodes.1 h.children⟩,
    fun h => .intro h.1 (forall_mem_entryNodes.2 h.2)⟩

theorem everywhere_tag_iff {number : Nat} {content : Term} :
    Everywhere P (.tag number content) ↔ P (.tag number content) ∧ Everywhere P content :=
  ⟨fun h => ⟨h.here, h.children content List.mem_cons_self⟩,
    fun h => .intro h.1 fun _ hs => List.mem_singleton.1 hs ▸ h.2⟩

theorem everywhere_true (t : Term) : Everywhere (fun _ => True) t := by
  induction t with
  | seq items ih => exact everywhere_seq_iff.2 ⟨trivial, ih⟩
  | map entries ih => exact everywhere_map_iff.2 ⟨trivial, ih⟩
  | tag number content ih => exact everywhere_tag_iff.2 ⟨trivial, ih⟩
  | _ => exact .leaf trivial rfl

/-! ### Checking every node -/

mutual

/-- Whether a condition holds of a term and of every term below it. -/
def holdsBelow (p : Term → Bool) : Term → Bool
  | .seq items => p (.seq items) && holdsInItems p items
  | .map entries => p (.map entries) && holdsInEntries p entries
  | .tag number content => p (.tag number content) && holdsBelow p content
  | t => p t

/-- Whether a condition holds at every depth of the terms of a list. -/
def holdsInItems (p : Term → Bool) : List Term → Bool
  | [] => true
  | t :: ts => holdsBelow p t && holdsInItems p ts

/-- Whether a condition holds at every depth of the keys and values of a list of entries. -/
def holdsInEntries (p : Term → Bool) : List (Term × Term) → Bool
  | [] => true
  | (k, v) :: es => holdsBelow p k && holdsBelow p v && holdsInEntries p es

end

theorem holdsInItems_eq_all (p : Term → Bool) (ts : List Term) :
    holdsInItems p ts = ts.all (holdsBelow p) := by
  induction ts with
  | nil => rfl
  | cons t ts ih => rw [holdsInItems, ih, List.all_cons]

theorem holdsInEntries_eq_all (p : Term → Bool) (es : List (Term × Term)) :
    holdsInEntries p es = es.all fun e => holdsBelow p e.1 && holdsBelow p e.2 := by
  induction es with
  | nil => rfl
  | cons e es ih => rw [holdsInEntries, ih, List.all_cons]

theorem holdsBelow_iff [DecidablePred P] {t : Term} :
    holdsBelow (fun u => decide (P u)) t = true ↔ Everywhere P t := by
  induction t with
  | seq items ih =>
    rw [holdsBelow, everywhere_seq_iff, holdsInItems_eq_all, Bool.and_eq_true, decide_eq_true_iff,
      List.all_eq_true]
    exact and_congr_right fun _ => forall₂_congr ih
  | map entries ih =>
    rw [holdsBelow, everywhere_map_iff, holdsInEntries_eq_all, Bool.and_eq_true,
      decide_eq_true_iff, List.all_eq_true]
    refine and_congr_right fun _ => forall₂_congr fun e he => ?_
    rw [Bool.and_eq_true]
    exact and_congr (ih e he).1 (ih e he).2
  | tag number content ih =>
    rw [holdsBelow, everywhere_tag_iff, Bool.and_eq_true, decide_eq_true_iff]
    exact and_congr_right fun _ => ih
  | _ => exact decide_eq_true_iff.trans (Everywhere.iff_of_leaf rfl).symm

instance [DecidablePred P] : DecidablePred (Everywhere P : Term → Prop) :=
  fun _ => decidable_of_iff _ holdsBelow_iff

end Term

namespace Cbor.Item

@[elab_as_elim, induction_eliminator]
theorem induct {motive : Item → Prop} (unsigned : ∀ n, motive (.unsigned n))
    (negative : ∀ n, motive (.negative n)) (bytes : ∀ content, motive (.bytes content))
    (text : ∀ content, motive (.text content))
    (array : ∀ items, (∀ x ∈ items, motive x) → motive (.array items))
    (map : ∀ entries, (∀ e ∈ entries, motive e.1 ∧ motive e.2) → motive (.map entries))
    (tag : ∀ number content, motive content → motive (.tag number content))
    (bareTag : ∀ number, motive (.bareTag number)) (bool : ∀ b, motive (.bool b))
    (null : motive .null) (float : ∀ width bits, motive (.float width bits)) (x : Item) :
    motive x :=
  match x with
  | .unsigned n => unsigned n
  | .negative n => negative n
  | .bytes content => bytes content
  | .text content => text content
  | .array items => array items fun x _ =>
    induct unsigned negative bytes text array map tag bareTag bool null float x
  | .map entries => map entries fun e _ =>
    ⟨induct unsigned negative bytes text array map tag bareTag bool null float e.1,
      induct unsigned negative bytes text array map tag bareTag bool null float e.2⟩
  | .tag number content => tag number content
    (induct unsigned negative bytes text array map tag bareTag bool null float content)
  | .bareTag number => bareTag number
  | .bool b => bool b
  | .null => null
  | .float width bits => float width bits
termination_by sizeOf x
decreasing_by
  · have hlt := List.sizeOf_lt_of_mem ‹_›
    rw [Item.array.sizeOf_spec]
    omega
  · have hlt := sizeOf_entry_lt ‹_›
    rw [Item.map.sizeOf_spec]
    omega
  · have hlt := sizeOf_entry_lt ‹_›
    rw [Item.map.sizeOf_spec]
    omega
  · rw [Item.tag.sizeOf_spec]
    omega

instance : Tree Item where
  children
    | .array items => items
    | .map entries => entryNodes entries
    | .tag _ content => [content]
    | _ => []

variable {P : Item → Prop}

theorem everywhere_array_iff {items : List Item} :
    Everywhere P (.array items) ↔ P (.array items) ∧ ∀ x ∈ items, Everywhere P x :=
  ⟨fun h => ⟨h.here, h.children⟩, fun h => .intro h.1 h.2⟩

theorem everywhere_map_iff {entries : List (Item × Item)} :
    Everywhere P (.map entries) ↔
      P (.map entries) ∧ ∀ e ∈ entries, Everywhere P e.1 ∧ Everywhere P e.2 :=
  ⟨fun h => ⟨h.here, forall_mem_entryNodes.1 h.children⟩,
    fun h => .intro h.1 (forall_mem_entryNodes.2 h.2)⟩

theorem everywhere_tag_iff {number : Nat} {content : Item} :
    Everywhere P (.tag number content) ↔ P (.tag number content) ∧ Everywhere P content :=
  ⟨fun h => ⟨h.here, h.children content List.mem_cons_self⟩,
    fun h => .intro h.1 fun _ hs => List.mem_singleton.1 hs ▸ h.2⟩

end Cbor.Item

end Eutxo

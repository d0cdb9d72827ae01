import Eutxo.Proofs.Cbor.Spelling

/-!
# No spelling begins another

The head in front of an item tells how far the item reaches, so an item can be
told from its bytes even where others follow it.
-/

namespace Eutxo.Cbor.Item

theorem headOf_eq_of_opening? {x y : Item} (hx : PlainAt x) (hy : PlainAt y) {a b r s : Bytes}
    (ha : x.opening? = some a) (hb : y.opening? = some b) (h : a ++ r = b ++ s) :
    x.headOf = y.headOf ∧ x.contentOf ++ r = y.contentOf ++ s := by
  obtain ⟨headx, hheadx, rfl⟩ := (opening?_eq_some_iff hx).1 ha
  obtain ⟨heady, hheady, rfl⟩ := (opening?_eq_some_iff hy).1 hb
  obtain ⟨widthx, -, hreadx⟩ := Head.read?_of_write? hheadx (x.contentOf ++ r)
  obtain ⟨widthy, -, hready⟩ := Head.read?_of_write? hheady (y.contentOf ++ s)
  rw [List.append_assoc, List.append_assoc] at h
  rw [h, hready] at hreadx
  simp only [Option.some.injEq, Prod.mk.injEq, Head.mk.injEq] at hreadx
  obtain ⟨⟨hmajor, -, hargument⟩, hrest⟩ := hreadx
  exact ⟨Prod.ext hmajor.symm hargument.symm, hrest.symm⟩

/-- The item can be told from its bytes, whatever follows them. -/
def ToldApart (x : Item) : Prop :=
  ∀ {y : Item} {a b r s : Bytes}, Plain y → x.write? = some a → y.write? = some b →
    a ++ r = b ++ s → x = y ∧ r = s

theorem writeItems?_append_inj {xs ys : List Item} (hxs : ∀ x ∈ xs, ToldApart x)
    (hys : ∀ y ∈ ys, Plain y) (hlength : xs.length = ys.length) {a b r s : Bytes}
    (ha : writeItems? xs = some a) (hb : writeItems? ys = some b) (h : a ++ r = b ++ s) :
    xs = ys ∧ r = s := by
  induction xs generalizing ys a b with
  | nil =>
    cases ys with
    | nil =>
      cases ha
      cases hb
      exact ⟨rfl, h⟩
    | cons y ys => cases hlength
  | cons x xs ih =>
    cases ys with
    | nil => cases hlength
    | cons y ys =>
      obtain ⟨hx, hxs⟩ := List.forall_mem_cons.1 hxs
      obtain ⟨hy, hys⟩ := List.forall_mem_cons.1 hys
      obtain ⟨ax, axs, hax, haxs, rfl⟩ := writeItems?_cons_eq_some_iff.1 ha
      obtain ⟨front, bys, hfront, hbys, rfl⟩ := writeItems?_cons_eq_some_iff.1 hb
      rw [List.append_assoc, List.append_assoc] at h
      obtain ⟨hxy, hrest⟩ := hx hy hax hfront h
      obtain ⟨htail, hrs⟩ := ih hxs hys (Nat.succ.inj hlength) haxs hbys hrest
      exact ⟨by rw [hxy, htail], hrs⟩

theorem entryNodes_injective {α : Type} {es fs : List (α × α)}
    (h : entryNodes es = entryNodes fs) : es = fs := by
  induction es generalizing fs with
  | nil =>
    cases fs with
    | nil => rfl
    | cons f fs => cases h
  | cons e es ih =>
    cases fs with
    | nil => cases h
    | cons f fs =>
      obtain ⟨k, v⟩ := e
      obtain ⟨l, w⟩ := f
      have hnodes : k :: v :: entryNodes es = l :: w :: entryNodes fs := h
      injection hnodes with hkey hrest
      injection hrest with hvalue htail
      rw [hkey, hvalue, ih htail]

/-- An item is its head, its content and the items below it. -/
theorem eq_of_parts {x y : Item} (hx : PlainAt x) (hy : PlainAt y) (hhead : x.headOf = y.headOf)
    (hcontent : x.contentOf = y.contentOf) (hchildren : Tree.children x = Tree.children y) :
    x = y := by
  have hmajor : x.headOf.1 = y.headOf.1 := congrArg Prod.fst hhead
  have hargument : x.headOf.2 = y.headOf.2 := congrArg Prod.snd hhead
  -- Only items of one major type are left, and each pair of them by its constructor.
  cases x <;> cases y <;> first | exact absurd hx id | exact absurd hy id | cases hmajor
  case unsigned.unsigned => exact congrArg Item.unsigned hargument
  case negative.negative => exact congrArg Item.negative hargument
  case bytes.bytes => exact congrArg Item.bytes hcontent
  case text.text => exact congrArg Item.text hcontent
  case array.array => exact congrArg Item.array hchildren
  case map.map => exact congrArg Item.map (entryNodes_injective hchildren)
  case tag.tag =>
    have hbelow := List.head_eq_of_cons_eq hchildren
    exact congrArg₂ Item.tag hargument hbelow
  case bool.bool b c => cases b <;> cases c <;> first | rfl | cases hargument
  case bool.null b => cases b <;> cases hargument
  case null.bool b => cases b <;> cases hargument
  case null.null => rfl

theorem toldApart {x : Item} (hx : Plain x) : ToldApart x := by
  induction hx with
  | @intro x here children ih =>
    intro y a b r s hy ha hb h
    obtain ⟨openx, belowx, hopenx, hbelowx, rfl⟩ := write?_eq_some_iff.1 ha
    obtain ⟨openy, belowy, hopeny, hbelowy, rfl⟩ := write?_eq_some_iff.1 hb
    rw [List.append_assoc, List.append_assoc] at h
    obtain ⟨hhead, hrest⟩ := headOf_eq_of_opening? here hy.here hopenx hopeny h
    have hlength : x.contentOf.length = y.contentOf.length := by
      rw [length_contentOf, length_contentOf, hhead]
    obtain ⟨hcontent, hbelow⟩ := List.append_inj hrest hlength
    have hcount : (Tree.children x).length = (Tree.children y).length := by
      rw [length_children here, length_children hy.here, hhead]
    obtain ⟨hchildren, hrs⟩ :=
      writeItems?_append_inj ih hy.children hcount hbelowx hbelowy hbelow
    exact ⟨eq_of_parts here hy.here hhead hcontent hchildren, hrs⟩

/-- Different items have different bytes. -/
theorem eq_of_write?_eq {x y : Item} (hx : Plain x) (hy : Plain y) {bs : Bytes}
    (hwx : x.write? = some bs) (hwy : y.write? = some bs) : x = y :=
  (toldApart hx hy hwx hwy (show bs ++ [] = bs ++ [] from rfl)).1

end Eutxo.Cbor.Item

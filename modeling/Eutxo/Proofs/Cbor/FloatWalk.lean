import Eutxo.Cbor.FloatWalk
import Eutxo.Proofs.Cbor.WireItem

/-!
# The float walk over data items

The cursor always stands in front of the items that are pending.  A step over the
head of the first one brings it in front of the items below that one and then of
the others.  So the walk visits the heads in document order, up to the first one
of a floating point number.
-/

namespace Eutxo.Cbor

namespace Head

theorem majorOf_first {h : Head} (hfits : h.Fits) : Major.ofByte h.first = h.major := by
  rcases hfits with ⟨hwidth, hargument⟩ | ⟨hwidth, -⟩
  · rw [first, if_pos hwidth]
    exact ofByte_first h.major (Nat.lt_trans hargument (by decide))
  · rw [first, if_neg (ne_zero_of_mem_widths hwidth)]
    exact ofByte_first h.major (widthCode_lt h.width)

theorem argumentWidth_first {h : Head} (hfits : h.Fits) :
    Cursor.argumentWidth h.first = h.width := by
  rcases hfits with ⟨hwidth, hargument⟩ | ⟨hwidth, -⟩
  · rw [Cursor.argumentWidth, first, if_pos hwidth, widthOf?_immediate h.major hargument, hwidth]
    rfl
  · rw [Cursor.argumentWidth, first, if_neg (ne_zero_of_mem_widths hwidth),
      widthOf?_first h.major hwidth]
    rfl

/-- The head is that of a floating point number of half, single or double precision. -/
def IsFloat (h : Head) : Prop := h.major = .simple ∧ 1 < h.width

instance (h : Head) : Decidable h.IsFloat :=
  inferInstanceAs (Decidable (h.major = .simple ∧ 1 < h.width))

end Head

namespace Cursor

/-- The walk reads the argument of the head that it steps over. -/
theorem step_spell {h : Head} (hfits : h.Fits) (offset : Nat) (rest : Bytes) (pending : Nat) :
    step ⟨offset, h.spell ++ rest, pending⟩ h.first =
      ⟨offset + (h.spell.length + h.major.contentLength h.argument),
        rest.drop (h.major.contentLength h.argument),
        pending - 1 + h.major.itemsBelow h.argument⟩ := by
  have hlength : h.spell.length = 1 + h.width := by
    rw [Head.spell_eq_cons, List.length_cons, Bytes.length_ofNatBE, Nat.add_comm]
  have hdrop (n : Nat) : (h.spell ++ rest).drop (1 + (h.width + n)) = rest.drop n := by
    rw [← Nat.add_assoc, ← hlength, ← List.drop_drop, List.drop_left]
  have hargument : (if h.width = 0 then (if h.first.toNat % 32 < 24 then h.first.toNat % 32 else 0)
      else Bytes.toNatBE (((h.spell ++ rest).drop 1).take h.width)) = h.argument := by
    rcases hfits with ⟨hwidth, hlt⟩ | ⟨hwidth, hlt⟩
    · have hfirst : h.first.toNat % 32 = h.argument := by
        rw [Head.first, if_pos hwidth, Head.toNat_first h.major (Nat.lt_trans hlt (by decide))]
        omega
      rw [if_pos hwidth, hfirst, if_pos hlt]
    · have htake : ((h.spell ++ rest).drop 1).take h.width = Bytes.ofNatBE h.width h.argument := by
        rw [Head.spell_eq_cons, List.cons_append, List.drop_succ_cons, List.drop_zero]
        exact List.take_left' (Bytes.length_ofNatBE _ _)
      rw [if_neg (Head.ne_zero_of_mem_widths hwidth), htake, Bytes.toNatBE_ofNatBE hlt]
  have hzero := hdrop 0
  rw [Nat.add_zero, List.drop_zero] at hzero
  simp only [step, skip, Head.majorOf_first hfits, Head.argumentWidth_first hfits, hargument,
    hlength]
  cases h.major <;>
    simp [Major.contentLength, Major.itemsBelow, hdrop, hzero, Nat.add_assoc]

theorem beginsFloat_first {h : Head} (hfits : h.Fits) :
    beginsFloat h.first = true ↔ h.IsFloat := by
  rw [beginsFloat, Head.majorOf_first hfits, Head.argumentWidth_first hfits]
  simp [Head.IsFloat]

/-! ## Walks -/

/-- The walk from a cursor steps over these heads, each given with its offset, and ends so.  At each
of them it has the whole head in front of it, and it never moves beyond the input. -/
inductive Walks : Cursor → List (Nat × Head) → Except Nat Cursor → Prop
  | done {c : Cursor} (hpending : c.pending = 0) : Walks c [] (.ok c)
  | float {c : Cursor} {h : Head} {rest : Bytes} (hpending : c.pending ≠ 0)
    (hread : Head.read? c.rest = some (h, rest)) (hfloat : h.IsFloat) :
    Walks c [(c.offset, h)] (.error c.offset)
  | step {c : Cursor} {h : Head} {rest : Bytes} {visited : List (Nat × Head)}
    {outcome : Except Nat Cursor} (hpending : c.pending ≠ 0)
    (hread : Head.read? c.rest = some (h, rest)) (hfloat : ¬ h.IsFloat)
    (hwithin : (c.step h.first).offset + (c.step h.first).rest.length = c.offset + c.rest.length)
    (hrest : Walks (c.step h.first) visited outcome) :
    Walks c ((c.offset, h) :: visited) outcome

/-- A walk ends as it does with any fuel that is enough for the heads. -/
theorem Walks.walk_eq {c : Cursor} {visited : List (Nat × Head)} {outcome : Except Nat Cursor}
    (h : Walks c visited outcome) {fuel : Nat} (hfuel : visited.length ≤ fuel) :
    walk fuel c = outcome := by
  induction h generalizing fuel with
  | done hpending =>
    cases fuel with
    | zero => rfl
    | succ fuel => rw [walk, if_pos hpending]
  | float hpending hread hfloat =>
    obtain ⟨hfits, hrest⟩ := Head.eq_spell_of_read? hread
    rw [Head.spell_eq_cons, List.cons_append] at hrest
    cases fuel with
    | zero => cases hfuel
    | succ fuel =>
      rw [walk, if_neg hpending, hrest]
      exact if_pos ((beginsFloat_first hfits).2 hfloat)
  | step hpending hread hfloat hwithin _ ih =>
    obtain ⟨hfits, hrest⟩ := Head.eq_spell_of_read? hread
    rw [Head.spell_eq_cons, List.cons_append] at hrest
    cases fuel with
    | zero => cases hfuel
    | succ fuel =>
      have hnot := mt (beginsFloat_first hfits).1 hfloat
      rw [walk, if_neg hpending, hrest]
      simp only [if_neg hnot]
      exact ih (Nat.le_of_succ_le_succ hfuel)

open WireItem

/-- The cursor in front of some items, with nothing behind them. -/
def before (offset : Nat) (xs : List WireItem) : Cursor := ⟨offset, bytesOfAll xs, xs.length⟩

/-- In front of an item the cursor reads its head, and a step brings it in front of the items that
then are to come. -/
theorem step_before {head : Head} {content : Bytes} {below : List WireItem}
    (h : WellFormedAt (.node head content below)) (offset : Nat) (xs : List WireItem) :
    Head.read? (before offset (.node head content below :: xs)).rest =
        some (head, content ++ bytesOfAll (below ++ xs)) ∧
      (before offset (.node head content below :: xs)).step head.first =
        before (offset + (head.spell.length + content.length)) (below ++ xs) := by
  have hfits : head.Fits := h.fits
  have hcontent : content.length = head.major.contentLength head.argument := h.content
  have hbelow : below.length = head.major.itemsBelow head.argument := h.below
  rw [before, before, bytesOfAll_node]
  refine ⟨Head.read?_spell hfits _, ?_⟩
  rw [step_spell hfits, ← hcontent, ← hbelow, List.drop_left, List.length_cons,
    List.length_append, Nat.add_sub_cancel, Nat.add_comm xs.length]

/-- Over an item that is no floating point number the walk goes on with the items that then are to
come. -/
theorem walks_node {head : Head} {content : Bytes} {below xs : List WireItem}
    (h : WellFormedAt (.node head content below)) (hfloat : ¬ head.IsFloat) {offset : Nat}
    {visited : List (Nat × Head)} {outcome : Except Nat Cursor}
    (hrest : Walks (before (offset + (head.spell.length + content.length)) (below ++ xs))
      visited outcome) :
    Walks (before offset (.node head content below :: xs)) ((offset, head) :: visited)
      outcome := by
  obtain ⟨hread, hstep⟩ := step_before h offset xs
  refine .step (Nat.succ_ne_zero _) hread hfloat ?_ (hstep ▸ hrest)
  rw [hstep]
  simp only [before, bytesOfAll_node, List.length_append]
  omega

/-- Without a floating point number the walk visits all heads, and ends behind the last item. -/
theorem walks_of_forall_not_isFloat {offset : Nat} {xs : List WireItem}
    (h : ∀ x ∈ xs, Everywhere WellFormedAt x)
    (hfloats : ∀ v ∈ headsOfAll offset xs, ¬ v.2.IsFloat) :
    Walks (before offset xs) (headsOfAll offset xs)
      (.ok ⟨offset + (bytesOfAll xs).length, [], 0⟩) := by
  induction offset, xs using WireItem.induct with
  | nil offset => exact .done rfl
  | node offset head content below xs ih =>
    obtain ⟨hhere, hforest⟩ := forall_mem_node_iff.1 h
    rw [headsOfAll_node] at hfloats ⊢
    obtain ⟨hfloat, hfloats⟩ := List.forall_mem_cons.1 hfloats
    have hend : offset + (bytesOfAll (.node head content below :: xs)).length =
        offset + (head.spell.length + content.length) + (bytesOfAll (below ++ xs)).length := by
      rw [bytesOfAll_node, List.length_append, List.length_append]
      omega
    rw [hend]
    exact walks_node hhere hfloat (ih hforest hfloats)

/-- The walk visits the heads up to the first one of a floating point number, and reports its
offset. -/
theorem walks_of_isFloat {offset : Nat} {xs : List WireItem}
    (h : ∀ x ∈ xs, Everywhere WellFormedAt x) {vs ws : List (Nat × Head)} {v : Nat × Head}
    (hheads : headsOfAll offset xs = vs ++ v :: ws) (hvs : ∀ u ∈ vs, ¬ u.2.IsFloat)
    (hv : v.2.IsFloat) : Walks (before offset xs) (vs ++ [v]) (.error v.1) := by
  induction offset, xs using WireItem.induct generalizing vs with
  | nil offset => simp [headsOfAll] at hheads
  | node offset head content below xs ih =>
    obtain ⟨hhere, hforest⟩ := forall_mem_node_iff.1 h
    rw [headsOfAll_node] at hheads
    cases vs with
    | nil =>
      obtain ⟨rfl, -⟩ := List.cons.inj hheads
      exact .float (Nat.succ_ne_zero _) (step_before hhere offset xs).1 hv
    | cons u vs =>
      obtain ⟨rfl, hrest⟩ := List.cons.inj hheads
      obtain ⟨hu, hvs⟩ := List.forall_mem_cons.1 hvs
      exact walks_node hhere hu (ih hforest hrest hvs)

/-- Over this input, with fuel for each of its bytes or more, the walk visits these heads and ends
so. -/
def WalksOver (bs : Bytes) (visited : List (Nat × Head)) (outcome : Except Nat Cursor) : Prop :=
  Walks ⟨0, bs, 1⟩ visited outcome ∧
    ∀ fuel, bs.length ≤ fuel → walk fuel ⟨0, bs, 1⟩ = outcome

theorem WalksOver.of_before {x : WireItem} {visited : List (Nat × Head)}
    {outcome : Except Nat Cursor} (h : Walks (before 0 [x]) visited outcome)
    (hvisited : visited.length ≤ (x.heads 0).length) : WalksOver x.bytes visited outcome := by
  have hlength := length_headsOfAll_le 0 [x]
  rw [headsOfAll_singleton, bytesOfAll_singleton] at hlength
  rw [before, bytesOfAll_singleton] at h
  exact ⟨h, fun fuel hfuel => h.walk_eq (hvisited.trans (hlength.trans hfuel))⟩

theorem walksOver_of_forall_not_isFloat {x : WireItem} (h : Everywhere WellFormedAt x)
    (hfloats : ∀ v ∈ x.heads 0, ¬ v.2.IsFloat) :
    WalksOver x.bytes (x.heads 0) (.ok ⟨x.bytes.length, [], 0⟩) := by
  rw [← headsOfAll_singleton] at hfloats
  have hwalks := walks_of_forall_not_isFloat (List.forall_mem_singleton.2 h) hfloats
  rw [headsOfAll_singleton, bytesOfAll_singleton, Nat.zero_add] at hwalks
  exact .of_before hwalks le_rfl

theorem walksOver_of_isFloat {x : WireItem} (h : Everywhere WellFormedAt x)
    {vs ws : List (Nat × Head)} {v : Nat × Head} (hheads : x.heads 0 = vs ++ v :: ws)
    (hvs : ∀ u ∈ vs, ¬ u.2.IsFloat) (hv : v.2.IsFloat) :
    WalksOver x.bytes (vs ++ [v]) (.error v.1) := by
  have hlength : (vs ++ [v]).length ≤ (x.heads 0).length := by
    rw [hheads, List.length_append, List.length_append]
    exact Nat.add_le_add_left (Nat.succ_le_succ (Nat.zero_le _)) _
  rw [← headsOfAll_singleton] at hheads
  exact .of_before (walks_of_isFloat (List.forall_mem_singleton.2 h) hheads hvs hv) hlength

end Cursor

open Cursor WireItem

theorem firstFloat?_eq_none_of_walksOver {bs : Bytes} {visited : List (Nat × Head)} {c : Cursor}
    (h : WalksOver bs visited (.ok c)) : firstFloat? bs = none := by
  rw [firstFloat?, h.2 _ le_rfl]

theorem firstFloat?_eq_some_of_walksOver {bs : Bytes} {visited : List (Nat × Head)}
    {offset : Nat} (h : WalksOver bs visited (.error offset)) : firstFloat? bs = some offset := by
  rw [firstFloat?, h.2 _ le_rfl]

/-- A floating point number is found exactly if one of the items is one. -/
theorem firstFloat?_eq_none_iff {x : WireItem} (h : Everywhere WellFormedAt x) :
    firstFloat? x.bytes = none ↔ Everywhere (fun y => ¬ y.head.IsFloat) x := by
  have hheads : (∀ v ∈ x.heads 0, ¬ v.2.IsFloat) ↔ Everywhere (fun y => ¬ y.head.IsFloat) x := by
    rw [← headsOfAll_singleton]
    exact (forall_mem_headsOfAll_iff (P := fun h => ¬ h.IsFloat)).trans List.forall_mem_singleton
  rw [← hheads]
  constructor
  · intro hnone
    cases hfirst : (x.heads 0).find? (fun v => v.2.IsFloat) with
    | none => simpa using List.find?_eq_none.1 hfirst
    | some v =>
      obtain ⟨hv, vs, ws, hsplit, hvs⟩ := List.find?_eq_some_iff_append.1 hfirst
      have hover := walksOver_of_isFloat h hsplit (by simpa using hvs) (of_decide_eq_true hv)
      rw [firstFloat?_eq_some_of_walksOver hover] at hnone
      cases hnone
  · intro hfloats
    exact firstFloat?_eq_none_of_walksOver (walksOver_of_forall_not_isFloat h hfloats)

/-! ## What is read as an item -/

namespace Item

/-- The item is no tag without content, and if it is a floating point number, it has one of the
three widths. -/
def HeadedAt : Item → Prop
  | .bareTag _ => False
  | .float width bits => width ∈ [2, 4, 8] ∧ bits < 256 ^ width
  | _ => True

/-- The item has its content: it is no tag behind which the input ends. -/
def CompleteAt : Item → Prop
  | .bareTag _ => False
  | _ => True

theorem HeadedAt.of_plainAt (x : Item) (h : PlainAt x) : HeadedAt x := by
  cases x with
  | bareTag number => exact h
  | float width bits => exact h.elim
  | _ => exact trivial

theorem HeadedAt.of_readableAt (x : Item) (h : ReadableAt x ∧ CompleteAt x) : HeadedAt x := by
  cases x with
  | bareTag number => exact h.2
  | float width bits => exact h.1
  | _ => exact trivial

/-- Simple values stand in the first byte. -/
theorem minimalWidth?_of_simple {x : Item} (hx : PlainAt x) (hmajor : x.headOf.1 = .simple) :
    Head.minimalWidth? x.headOf.2 = some 0 := by
  cases x with
  | bool b => cases b <;> rfl
  | null => rfl
  | float width bits => exact absurd hx id
  | _ => cases hmajor

/-- The opening of an item is a head with what that head announces. -/
theorem exists_node_of_opening? {x : Item} (hx : HeadedAt x) {a : Bytes}
    (ha : x.opening? = some a) : ∃ head content, a = head.spell ++ content ∧
      (head.IsFloat ↔ ¬ PlainAt x) ∧ ∀ below : List WireItem,
        below.length = (Tree.children x).length → WellFormedAt (.node head content below) := by
  by_cases hplain : PlainAt x
  · obtain ⟨spelled, hwrite, rfl⟩ := (opening?_eq_some_iff hplain).1 ha
    obtain ⟨width, hwidth, rfl⟩ := Head.write?_eq_some_iff.1 hwrite
    refine ⟨⟨x.headOf.1, width, x.headOf.2⟩, x.contentOf, rfl,
      iff_of_false ?_ (not_not_intro hplain), fun below hbelow => ⟨?_, length_contentOf x, ?_⟩⟩
    · rintro ⟨hmajor, hlong⟩
      have hshort := minimalWidth?_of_simple hplain hmajor
      rw [hwidth] at hshort
      cases hshort
      exact Nat.not_lt_zero 1 hlong
    · exact Head.fits_of_minimalWidth? x.headOf.1 hwidth
    · exact hbelow.trans (length_children hplain)
  · cases x with
    | float width bits =>
      obtain ⟨hwidth, hbits⟩ := hx
      have hlong : 1 < width := by
        simp only [List.mem_cons, List.not_mem_nil, or_false] at hwidth
        omega
      refine ⟨⟨.simple, width, bits⟩, [], ?_, iff_of_true ⟨rfl, hlong⟩ hplain,
        fun below hbelow => ⟨.inr ⟨List.mem_cons_of_mem 1 hwidth, hbits⟩, rfl, hbelow⟩⟩
      have hpos : ¬ width = 0 := by omega
      cases ha
      rw [Head.spell, if_neg hpos, List.append_nil]
      rfl
    | bareTag number => exact hx.elim
    | _ => exact absurd trivial hplain

/-- The bytes are those of some data items in the input, which spell these items. -/
structure Spelled (ws : List WireItem) (bs : Bytes) (xs : List Item) : Prop where
  length_eq : ws.length = xs.length
  wellFormed : ∀ w ∈ ws, Everywhere WellFormedAt w
  bytes_eq : bytesOfAll ws = bs
  plain_iff : (∀ w ∈ ws, Everywhere (fun y => ¬ y.head.IsFloat) w) ↔ ∀ x ∈ xs, Plain x

theorem exists_spelled {xs : List Item}
    (h : ∀ x ∈ xs, ∀ {a}, x.write? = some a → ∃ w, Spelled [w] a [x]) {bs : Bytes}
    (hwrite : writeItems? xs = some bs) : ∃ ws, Spelled ws bs xs := by
  induction xs generalizing bs with
  | nil =>
    cases hwrite
    exact ⟨[], rfl, nofun, rfl, iff_of_true nofun nofun⟩
  | cons x xs ih =>
    obtain ⟨hx, hxs⟩ := List.forall_mem_cons.1 h
    obtain ⟨a, b, ha, hb, rfl⟩ := writeItems?_cons_eq_some_iff.1 hwrite
    obtain ⟨w, hw⟩ := hx ha
    obtain ⟨ws, hws⟩ := ih hxs hb
    refine ⟨w :: ws, congrArg Nat.succ hws.length_eq,
      List.forall_mem_cons.2 ⟨hw.wellFormed w List.mem_cons_self, hws.wellFormed⟩, ?_, ?_⟩
    · rw [bytesOfAll, hws.bytes_eq, ← bytesOfAll_singleton, hw.bytes_eq]
    · have hfirst := hw.plain_iff
      rw [List.forall_mem_singleton, List.forall_mem_singleton] at hfirst
      rw [List.forall_mem_cons, List.forall_mem_cons, hfirst, hws.plain_iff]

/-- What is written for an item is a data item in the input. -/
theorem exists_spelled_singleton {x : Item} (hx : Everywhere HeadedAt x) {bs : Bytes}
    (h : x.write? = some bs) : ∃ w, Spelled [w] bs [x] := by
  induction hx generalizing bs with
  | @intro x here _ ih =>
    obtain ⟨a, b, ha, hb, rfl⟩ := write?_eq_some_iff.1 h
    obtain ⟨head, content, rfl, hfloat, hnode⟩ := exists_node_of_opening? here ha
    obtain ⟨below, hbelow⟩ := exists_spelled (fun y hy => ih y hy) hb
    have hplain : (∀ w ∈ [WireItem.node head content below],
        Everywhere (fun y => ¬ y.head.IsFloat) w) ↔ ∀ x' ∈ [x], Plain x' := by
      rw [forall_mem_node_iff, List.append_nil, hbelow.plain_iff, List.forall_mem_singleton]
      show ¬ head.IsFloat ∧ _ ↔ _
      rw [hfloat, not_not]
      exact ⟨fun h => .intro h.1 h.2, fun h => ⟨h.here, h.children⟩⟩
    refine ⟨.node head content below, rfl, ?_, ?_, hplain⟩
    · rw [forall_mem_node_iff, List.append_nil]
      exact ⟨hnode below hbelow.length_eq, hbelow.wellFormed⟩
    · rw [bytesOfAll_node, List.append_nil, hbelow.bytes_eq, List.append_assoc]

end Item

/-- There is no floating point number in an item that has none. -/
theorem firstFloat?_of_write? {x : Item} (h : Item.Plain x) {bs : Bytes}
    (hwrite : x.write? = some bs) : firstFloat? bs = none := by
  obtain ⟨w, hw⟩ := Item.exists_spelled_singleton (h.imp Item.HeadedAt.of_plainAt) hwrite
  have hwell := hw.wellFormed w List.mem_cons_self
  have hplain := hw.plain_iff.2 (List.forall_mem_singleton.2 h) w List.mem_cons_self
  rw [← hw.bytes_eq, bytesOfAll_singleton]
  exact (firstFloat?_eq_none_iff hwell).2 hplain

/-- Whatever the reader takes for one item, each tag with its content, is a data item in the
input. -/
theorem exists_wireItem_of_ofBytes? {bs : Bytes} {item : Item}
    (h : Item.ofBytes? bs = some (item, [])) (hcomplete : Everywhere Item.CompleteAt item) :
    ∃ x : WireItem, Everywhere WellFormedAt x ∧ x.bytes = bs := by
  obtain ⟨hreadable, spelled, hwrite, rfl⟩ := Item.begins_of_ofBytes? h
  obtain ⟨x, hx⟩ := Item.exists_spelled_singleton
    ((hreadable.and hcomplete).imp Item.HeadedAt.of_readableAt) hwrite
  refine ⟨x, hx.wellFormed x List.mem_cons_self, ?_⟩
  rw [← bytesOfAll_singleton, hx.bytes_eq, List.append_nil]

/-- The walk over one data item is exact.  Its heads stand one behind the other, each at its offset
and behind the content of the one before it.  If none is that of a floating point number, the walk
visits all of them and ends behind the input with nothing pending; otherwise it visits those up to
the first one that is, and reports the offset of that one.  Whatever the reader takes for one item,
each tag with its content, is such an input. -/
theorem floatWalk_exact :
    (∀ x : WireItem, Everywhere WellFormedAt x →
      (x.heads 0).Pairwise EndsBefore ∧
      (∀ v ∈ x.heads 0, ∃ before after,
        x.bytes = before ++ (v.2.spell ++ after) ∧ v.1 = before.length) ∧
      (Everywhere (fun y => ¬ y.head.IsFloat) x →
        WalksOver x.bytes (x.heads 0) (.ok ⟨x.bytes.length, [], 0⟩)) ∧
      (∀ vs v ws, x.heads 0 = vs ++ v :: ws → (∀ u ∈ vs, ¬ u.2.IsFloat) → v.2.IsFloat →
        WalksOver x.bytes (vs ++ [v]) (.error v.1) ∧ firstFloat? x.bytes = some v.1) ∧
      (firstFloat? x.bytes = none ↔ Everywhere (fun y => ¬ y.head.IsFloat) x)) ∧
    ∀ (bs : Bytes) (item : Item), Item.ofBytes? bs = some (item, []) →
      Everywhere Item.CompleteAt item →
      ∃ x : WireItem, Everywhere WellFormedAt x ∧ x.bytes = bs := by
  refine ⟨fun x hx => ⟨?_, ?_, fun hfloats => ?_, fun vs v ws hheads hvs hv => ?_,
    firstFloat?_eq_none_iff hx⟩, fun _ _ => exists_wireItem_of_ofBytes?⟩
  · rw [← headsOfAll_singleton]
    exact pairwise_headsOfAll (List.forall_mem_singleton.2 hx)
  · intro v hv
    rw [← headsOfAll_singleton] at hv
    obtain ⟨before, after, hbytes, hoffset⟩ := exists_spell_of_mem_headsOfAll v hv
    rw [bytesOfAll_singleton] at hbytes
    rw [Nat.zero_add] at hoffset
    exact ⟨before, after, hbytes, hoffset⟩
  · refine walksOver_of_forall_not_isFloat hx ?_
    rw [← headsOfAll_singleton]
    exact (forall_mem_headsOfAll_iff (P := fun h => ¬ h.IsFloat)).2
      (List.forall_mem_singleton.2 hfloats)
  · have hover := walksOver_of_isFloat hx hheads hvs hv
    exact ⟨hover, firstFloat?_eq_some_of_walksOver hover⟩

/-- A byte string whose content looks like the head of a number, and a number of half precision. -/
def decoyThenFloat : WireItem :=
  .node ⟨.array, 0, 2⟩ [] [.node ⟨.bytes, 0, 1⟩ [0xFB] [], .node ⟨.simple, 2, 0x3E00⟩ [] []]

theorem floatWalk_exact_decoyThenFloat : Everywhere WellFormedAt decoyThenFloat ∧
    decoyThenFloat.bytes = [0x82, 0x41, 0xFB, 0xF9, 0x3E, 0x00] ∧
    firstFloat? decoyThenFloat.bytes = some 3 ∧
    ∃ x : WireItem, Everywhere WellFormedAt x ∧ x.bytes = [0x82, 0xC2, 0x20, 0xF6] := by
  have hwell : Everywhere WellFormedAt decoyThenFloat := by
    refine .intro ⟨.inl ⟨rfl, by decide⟩, rfl, rfl⟩ ?_
    refine List.forall_mem_cons.2 ⟨.leaf ⟨.inl ⟨rfl, by decide⟩, rfl, rfl⟩ rfl, ?_⟩
    exact List.forall_mem_singleton.2 (.leaf ⟨.inr ⟨by decide, by decide⟩, rfl, rfl⟩ rfl)
  have hread : Item.ofBytes? [0x82, 0xC2, 0x20, 0xF6] =
      some (.array [.tag 2 (.negative 0), .null], []) := rfl
  have hcomplete : Everywhere Item.CompleteAt (.array [.tag 2 (.negative 0), .null]) := by
    refine Item.everywhere_array_iff.2 ⟨trivial, ?_⟩
    refine List.forall_mem_cons.2 ⟨Item.everywhere_tag_iff.2 ⟨trivial, .leaf trivial rfl⟩, ?_⟩
    exact List.forall_mem_singleton.2 (.leaf trivial rfl)
  obtain ⟨hwalk, hitems⟩ := floatWalk_exact
  obtain ⟨-, -, -, hfirst, -⟩ := hwalk decoyThenFloat hwell
  have hheads : decoyThenFloat.heads 0 =
      [(0, ⟨.array, 0, 2⟩), (1, ⟨.bytes, 0, 1⟩)] ++ (3, ⟨.simple, 2, 0x3E00⟩) :: [] := by rfl
  exact ⟨hwell, rfl, (hfirst _ _ _ hheads (by decide) (by decide)).2, hitems _ _ hread hcomplete⟩

end Eutxo.Cbor

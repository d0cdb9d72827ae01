import Eutxo.Cbor.Reader
import Eutxo.Proofs.Cbor.Head
import Eutxo.Proofs.Cbor.Tree

/-!
# Reading undoes writing

An item is its opening, which is a head with the content of a string, followed
by the items right below it.  The reader returns exactly the readable item that
is spelled in front of the rest of the input.
-/

namespace Eutxo.Cbor

namespace Major

/-- The length of the content right behind a head. -/
def contentLength (n : Nat) : Major → Nat
  | .bytes => n
  | .text => n
  | _ => 0

/-- The number of items right below a head. -/
def itemsBelow (n : Nat) : Major → Nat
  | .array => n
  | .map => 2 * n
  | .tag => 1
  | _ => 0

end Major

namespace Item

/-! ## Openings -/

/-- The item is no floating point number, and no tag without content. -/
def PlainAt : Item → Prop
  | .float _ _ => False
  | .bareTag _ => False
  | _ => True

/-- There are no floating point numbers and empty tags in an item. -/
def Plain (x : Item) : Prop := Everywhere PlainAt x

/-- The major type and argument that an item begins with. -/
def headOf : Item → Major × Nat
  | .unsigned n => (.unsigned, n)
  | .negative n => (.negative, n)
  | .bytes content => (.bytes, content.length)
  | .text content => (.text, content.length)
  | .array items => (.array, items.length)
  | .map entries => (.map, entries.length)
  | .tag number _ => (.tag, number)
  | .bareTag number => (.tag, number)
  | .bool b => (.simple, if b then 21 else 20)
  | .null => (.simple, 22)
  | .float _ bits => (.simple, bits)

/-- The content of a string. -/
def contentOf : Item → Bytes
  | .bytes content => content
  | .text content => content
  | _ => []

theorem length_contentOf (x : Item) :
    x.contentOf.length = x.headOf.1.contentLength x.headOf.2 := by
  cases x <;> rfl

theorem length_children {x : Item} (hx : PlainAt x) :
    (Tree.children x).length = x.headOf.1.itemsBelow x.headOf.2 := by
  cases x with
  | map entries => exact length_entryNodes entries
  | bareTag number => exact absurd hx id
  | _ => rfl

/-- The bytes of an item in front of the items below it. -/
def opening? : Item → Option Bytes
  | .unsigned n => Head.write? .unsigned n
  | .negative n => Head.write? .negative n
  | .bytes content => (· ++ content) <$> Head.write? .bytes content.length
  | .text content => (· ++ content) <$> Head.write? .text content.length
  | .array items => Head.write? .array items.length
  | .map entries => Head.write? .map entries.length
  | .tag number _ => Head.write? .tag number
  | .bareTag number => Head.write? .tag number
  | .bool b => some [if b then 0xF5 else 0xF4]
  | .null => some [0xF6]
  | .float width bits =>
    some (UInt8.ofNat (0xE0 + Head.widthCode width) :: Bytes.ofNatBE width bits)

theorem opening?_eq_some_iff {x : Item} (hx : PlainAt x) {a : Bytes} :
    x.opening? = some a ↔
      ∃ head, Head.write? x.headOf.1 x.headOf.2 = some head ∧ a = head ++ x.contentOf := by
  have hstring {head : Option Bytes} {content : Bytes} :
      (· ++ content) <$> head = some a ↔ ∃ h, head = some h ∧ a = h ++ content := by
    cases head <;> simp [eq_comm]
  have hbare {head : Option Bytes} : head = some a ↔ ∃ h, head = some h ∧ a = h ++ [] := by
    simp
  cases x with
  | bytes content => exact hstring
  | text content => exact hstring
  | bool b => cases b <;> exact hbare
  | float width bits => exact absurd hx id
  | _ => exact hbare

theorem writeItems?_cons_eq_some_iff {x : Item} {xs : List Item} {bs : Bytes} :
    writeItems? (x :: xs) = some bs ↔
      ∃ a b, x.write? = some a ∧ writeItems? xs = some b ∧ bs = a ++ b := by
  rw [writeItems?]
  simp only [Option.bind_eq_bind, Option.bind_eq_some_iff, Option.pure_def, Option.some.injEq]
  constructor
  · rintro ⟨a, ha, b, hb, rfl⟩
    exact ⟨a, b, ha, hb, rfl⟩
  · rintro ⟨a, b, ha, hb, rfl⟩
    exact ⟨a, ha, b, hb, rfl⟩

theorem writeEntries?_eq_writeItems? (entries : List (Item × Item)) :
    writeEntries? entries = writeItems? (entryNodes entries) := by
  induction entries with
  | nil => rfl
  | cons e es ih =>
    obtain ⟨k, v⟩ := e
    have hnodes : entryNodes ((k, v) :: es) = k :: v :: entryNodes es := rfl
    rw [hnodes, writeEntries?, writeItems?, writeItems?, ih]
    cases k.write? <;> cases v.write? <;> cases writeItems? (entryNodes es) <;> simp

theorem writeItems?_singleton (x : Item) : writeItems? [x] = x.write? := by
  rw [writeItems?, writeItems?]
  cases x.write? <;> simp

/-- The bytes of an item are its opening and the bytes of the items below it. -/
theorem write?_eq_some_iff {x : Item} {bs : Bytes} :
    x.write? = some bs ↔
      ∃ a b, x.opening? = some a ∧ writeItems? (Tree.children x) = some b ∧ bs = a ++ b := by
  have hjoin {head below : Option Bytes} :
      (do return (← head) ++ (← below)) = some bs ↔
        ∃ a b, head = some a ∧ below = some b ∧ bs = a ++ b := by
    cases head <;> cases below <;> simp [eq_comm]
  have hleaf (h : x.write? = x.opening?) (hchildren : Tree.children x = []) :
      x.write? = some bs ↔
        ∃ a b, x.opening? = some a ∧ writeItems? (Tree.children x) = some b ∧ bs = a ++ b := by
    rw [h, hchildren, writeItems?]
    simp [eq_comm]
  cases x with
  | array items =>
    rw [write?]
    exact hjoin
  | map entries =>
    rw [write?, writeEntries?_eq_writeItems?]
    exact hjoin
  | tag number content =>
    have hbelow : writeItems? (Tree.children (Item.tag number content)) = content.write? :=
      writeItems?_singleton content
    rw [write?, hbelow]
    exact hjoin
  | bytes content =>
    refine hleaf ?_ rfl
    rw [write?, opening?]
    cases Head.write? .bytes content.length <;> rfl
  | text content =>
    refine hleaf ?_ rfl
    rw [write?, opening?]
    cases Head.write? .text content.length <;> rfl
  | _ =>
    refine hleaf ?_ rfl
    rw [write?, opening?]

/-! ## What is read -/

/-- What the reader checks of an item, the items below it apart. -/
def ReadableAt : Item → Prop
  | .unsigned n => n ≤ maxArgument
  | .negative n => n ≤ maxArgument
  | .bytes content => content.length ≤ maxLength
  | .text content => content.length ≤ maxLength
  | .array items => items.length ≤ maxLength
  | .map entries => entries.length ≤ maxLength
  | .tag number _ => supportsTag number = true
  | .bareTag number => supportsTag number = true
  | .float width bits => width ∈ [2, 4, 8] ∧ bits < 256 ^ width
  | _ => True

theorem eq_append_of_split? {n : Nat} {bs content rest : Bytes}
    (h : split? n bs = some (content, rest)) :
    bs = content ++ rest ∧ content.length = n ∧ n ≤ maxLength := by
  rw [split?] at h
  split_ifs at h with hn
  injection h with h
  injection h with hcontent hrest
  subst hcontent hrest
  refine ⟨(List.take_append_drop n bs).symm, ?_, hn.1⟩
  rw [List.length_take]
  exact Nat.min_eq_left hn.2

theorem split?_append {content : Bytes} (hlength : content.length ≤ maxLength) (rest : Bytes) :
    split? content.length (content ++ rest) = some (content, rest) := by
  have hle : content.length ≤ (content ++ rest).length := by
    rw [List.length_append]
    exact Nat.le_add_right _ _
  rw [split?, if_pos ⟨hlength, hle⟩, List.take_left, List.drop_left]

/-- A simple value or floating point number is spelled by its head. -/
theorem write?_of_ofSimple? {h : Head} {x : Item} (hmajor : h.major = .simple) (hfits : h.Fits)
    (hx : ofSimple? h = some x) : x.write? = some h.spell ∧ Everywhere ReadableAt x := by
  obtain ⟨major, width, argument⟩ := h
  simp only at hmajor
  subst hmajor
  simp only [ofSimple?] at hx
  split_ifs at hx with h0 hfalse htrue hnull h1 <;> injection hx with hx <;> subst hx
  · subst h0 hfalse
    exact ⟨rfl, .leaf trivial rfl⟩
  · subst h0 htrue
    exact ⟨rfl, .leaf trivial rfl⟩
  · subst h0 hnull
    exact ⟨rfl, .leaf trivial rfl⟩
  · rcases hfits with ⟨hwidth, -⟩ | ⟨hwidth, hlt⟩
    · exact absurd hwidth h0
    · refine ⟨?_, .intro ⟨?_, hlt⟩ nofun⟩
      · rw [write?, Head.spell, if_neg h0]
        rfl
      · simpa [h1] using hwidth

/-- The bytes `bs` begin with a readable item `x`, and `rest` follows it. -/
def Begins (bs : Bytes) (x : Item) (rest : Bytes) : Prop :=
  Everywhere ReadableAt x ∧ ∃ spelled, x.write? = some spelled ∧ bs = spelled ++ rest

/-- The bytes `bs` begin with readable items, and `rest` follows them. -/
def BeginsAll (bs : Bytes) (xs : List Item) (rest : Bytes) : Prop :=
  (∀ x ∈ xs, Everywhere ReadableAt x) ∧
    ∃ spelled, writeItems? xs = some spelled ∧ bs = spelled ++ rest

theorem BeginsAll.nil (bs : Bytes) : BeginsAll bs [] bs :=
  ⟨nofun, [], rfl, rfl⟩

theorem BeginsAll.cons {bs mid rest : Bytes} {x : Item} {xs : List Item} (hx : Begins bs x mid)
    (hxs : BeginsAll mid xs rest) : BeginsAll bs (x :: xs) rest := by
  obtain ⟨hreadable, a, ha, rfl⟩ := hx
  obtain ⟨hreadables, b, hb, rfl⟩ := hxs
  refine ⟨List.forall_mem_cons.2 ⟨hreadable, hreadables⟩, a ++ b, ?_, ?_⟩
  · exact writeItems?_cons_eq_some_iff.2 ⟨a, b, ha, hb, rfl⟩
  · exact (List.append_assoc a b rest).symm

/-- An opening in front of the items below it begins the whole item. -/
theorem Begins.of_opening {bs opening mid rest : Bytes} {x : Item}
    (hopening : x.opening? = some opening) (hbs : bs = opening ++ mid) (hx : ReadableAt x)
    (hbelow : BeginsAll mid (Tree.children x) rest) : Begins bs x rest := by
  obtain ⟨hreadable, b, hb, rfl⟩ := hbelow
  refine ⟨.intro hx hreadable, opening ++ b, ?_, ?_⟩
  · exact write?_eq_some_iff.2 ⟨opening, b, hopening, hb, rfl⟩
  · rw [hbs, List.append_assoc]

theorem Begins.of_split? {bs head mid content rest : Bytes} {x : Item} {major : Major} {n : Nat}
    (hopening : x.opening? = (· ++ content) <$> Head.write? major content.length)
    (hwrite : Head.write? major n = some head) (hbs : bs = head ++ mid)
    (hsplit : split? n mid = some (content, rest))
    (hx : content.length ≤ maxLength → ReadableAt x) (hleaf : Tree.children x = []) :
    Begins bs x rest := by
  obtain ⟨hmid, hlength, hmax⟩ := eq_append_of_split? hsplit
  subst hlength
  have hopens : x.opening? = some (head ++ content) := by
    rw [hopening, hwrite]
    rfl
  have hbelow : BeginsAll rest (Tree.children x) rest := by
    rw [hleaf]
    exact .nil rest
  exact .of_opening hopens (by rw [hbs, hmid, List.append_assoc]) (hx hmax) hbelow

/-- With this much fuel, what is read stands in front of the rest. -/
structure Sound (fuel : Nat) : Prop where
  item : ∀ {bs x rest}, read? fuel bs = some (x, rest) → Begins bs x rest
  items : ∀ {count bs xs rest}, readItems? fuel count bs = some (xs, rest) →
    xs.length = count ∧ BeginsAll bs xs rest
  entries : ∀ {count bs entries rest}, readEntries? fuel count bs = some (entries, rest) →
    entries.length = count ∧ BeginsAll bs (entryNodes entries) rest

theorem begins_of_read?_succ {fuel : Nat} (ih : Sound fuel) {bs : Bytes} {x : Item} {rest : Bytes}
    (hread : read? (fuel + 1) bs = some (x, rest)) : Begins bs x rest := by
  rw [read?] at hread
  obtain ⟨⟨h, mid⟩, hhead, hread⟩ := Option.bind_eq_some_iff.1 hread
  obtain ⟨hfits, hspell⟩ := Head.eq_spell_of_read? hhead
  simp only at hread
  by_cases hlong : h.major ≠ .simple ∧ !h.isMinimal
  · rw [if_pos hlong] at hread
    cases hread
  rw [if_neg hlong] at hread
  by_cases hsimple : h.major = .simple
  · rw [hsimple] at hread
    simp only [Option.map_eq_map, Option.map_eq_some_iff] at hread
    obtain ⟨y, hy, hread⟩ := hread
    injection hread with hyx hmid
    subst hyx hmid
    obtain ⟨hwrite, hreadable⟩ := write?_of_ofSimple? hsimple hfits hy
    exact ⟨hreadable, h.spell, hwrite, hspell⟩
  have hshortest : h.isMinimal = true := by
    by_contra hnot
    exact hlong ⟨hsimple, by simpa using hnot⟩
  obtain ⟨head, hwrite, hbs⟩ := Head.write?_of_read? hhead hshortest
  obtain ⟨major, width, argument⟩ := h
  cases major with
  | unsigned =>
    injection hread with hread
    injection hread with hx hrest
    subst hx hrest
    exact .of_opening hwrite hbs (Nat.le_pred_of_lt (Head.lt_of_write? hwrite)) (.nil mid)
  | negative =>
    injection hread with hread
    injection hread with hx hrest
    subst hx hrest
    exact .of_opening hwrite hbs (Nat.le_pred_of_lt (Head.lt_of_write? hwrite)) (.nil mid)
  | bytes =>
    obtain ⟨⟨content, after⟩, hsplit, hread⟩ := Option.bind_eq_some_iff.1 hread
    injection hread with hread
    injection hread with hx hrest
    subst hx hrest
    exact .of_split? rfl hwrite hbs hsplit id rfl
  | text =>
    obtain ⟨⟨content, after⟩, hsplit, hread⟩ := Option.bind_eq_some_iff.1 hread
    injection hread with hread
    injection hread with hx hrest
    subst hx hrest
    exact .of_split? rfl hwrite hbs hsplit id rfl
  | array =>
    simp only at hread hwrite
    by_cases hmax : maxLength < argument
    · rw [if_pos hmax] at hread
      cases hread
    rw [if_neg hmax] at hread
    obtain ⟨⟨items, after⟩, hitems, hread⟩ := Option.bind_eq_some_iff.1 hread
    injection hread with hread
    injection hread with hx hrest
    subst hx hrest
    obtain ⟨hlength, hbelow⟩ := ih.items hitems
    subst hlength
    exact .of_opening hwrite hbs (Nat.not_lt.1 hmax) hbelow
  | map =>
    simp only at hread hwrite
    by_cases hmax : maxLength < argument
    · rw [if_pos hmax] at hread
      cases hread
    rw [if_neg hmax] at hread
    obtain ⟨⟨entries, after⟩, hentries, hread⟩ := Option.bind_eq_some_iff.1 hread
    injection hread with hread
    injection hread with hx hrest
    subst hx hrest
    obtain ⟨hlength, hbelow⟩ := ih.entries hentries
    subst hlength
    exact .of_opening hwrite hbs (Nat.not_lt.1 hmax) hbelow
  | tag =>
    simp only at hread hwrite
    split_ifs at hread with htag hend
    all_goals have hsupported : supportsTag argument = true := by simpa using htag
    · injection hread with hread
      injection hread with hx hrest
      subst hx hrest
      rw [List.isEmpty_iff.1 hend] at hbs
      exact .of_opening hwrite hbs hsupported (.nil [])
    · obtain ⟨⟨content, after⟩, hcontent, hread⟩ := Option.bind_eq_some_iff.1 hread
      injection hread with hread
      injection hread with hx hrest
      subst hx hrest
      have hbelow : BeginsAll mid [content] after := .cons (ih.item hcontent) (.nil after)
      exact .of_opening hwrite hbs hsupported hbelow
  | simple => exact absurd rfl hsimple

theorem beginsAll_of_readItems?_succ {fuel : Nat} (ih : Sound fuel) {count : Nat} {bs : Bytes}
    {xs : List Item} {rest : Bytes} (hread : readItems? (fuel + 1) count bs = some (xs, rest)) :
    xs.length = count ∧ BeginsAll bs xs rest := by
  cases count with
  | zero =>
    rw [readItems?] at hread
    cases hread
    exact ⟨rfl, .nil bs⟩
  | succ count =>
    rw [readItems?] at hread
    obtain ⟨⟨x, mid⟩, hx, hread⟩ := Option.bind_eq_some_iff.1 hread
    obtain ⟨⟨ys, after⟩, hys, hread⟩ := Option.bind_eq_some_iff.1 hread
    injection hread with hread
    injection hread with hxs hrest
    subst hxs hrest
    obtain ⟨hlength, hbelow⟩ := ih.items hys
    exact ⟨congrArg Nat.succ hlength, .cons (ih.item hx) hbelow⟩

theorem beginsAll_of_readEntries?_succ {fuel : Nat} (ih : Sound fuel) {count : Nat} {bs : Bytes}
    {entries : List (Item × Item)} {rest : Bytes}
    (hread : readEntries? (fuel + 1) count bs = some (entries, rest)) :
    entries.length = count ∧ BeginsAll bs (entryNodes entries) rest := by
  cases count with
  | zero =>
    rw [readEntries?] at hread
    cases hread
    exact ⟨rfl, .nil bs⟩
  | succ count =>
    rw [readEntries?] at hread
    obtain ⟨⟨k, mid⟩, hk, hread⟩ := Option.bind_eq_some_iff.1 hread
    obtain ⟨⟨v, late⟩, hv, hread⟩ := Option.bind_eq_some_iff.1 hread
    obtain ⟨⟨es, after⟩, hes, hread⟩ := Option.bind_eq_some_iff.1 hread
    injection hread with hread
    injection hread with hentries hrest
    subst hentries hrest
    obtain ⟨hlength, hbelow⟩ := ih.entries hes
    exact ⟨congrArg Nat.succ hlength, .cons (ih.item hk) (.cons (ih.item hv) hbelow)⟩

theorem sound (fuel : Nat) : Sound fuel := by
  induction fuel with
  | zero =>
    refine ⟨?_, ?_, ?_⟩
    · intro bs x rest hread
      cases hread
    · intro count bs xs rest hread
      cases count with
      | zero =>
        rw [readItems?] at hread
        cases hread
        exact ⟨rfl, .nil bs⟩
      | succ count => cases hread
    · intro count bs entries rest hread
      cases count with
      | zero =>
        rw [readEntries?] at hread
        cases hread
        exact ⟨rfl, .nil bs⟩
      | succ count => cases hread
  | succ fuel ih =>
    exact ⟨begins_of_read?_succ ih, beginsAll_of_readItems?_succ ih,
      beginsAll_of_readEntries?_succ ih⟩

/-! ## What is spelled is read -/

theorem length_pos_of_opening? {x : Item} {bs : Bytes} (h : x.opening? = some bs) :
    0 < bs.length := by
  have hhead {major : Major} {n : Nat} {head : Bytes} (h : Head.write? major n = some head) :
      0 < head.length := by
    obtain ⟨width, -, rfl⟩ := Head.write?_eq_some_iff.1 h
    rw [Head.spell]
    split_ifs <;> simp
  have hstring {major : Major} {n : Nat} {content : Bytes}
      (h : (· ++ content) <$> Head.write? major n = some bs) : 0 < bs.length := by
    obtain ⟨head, hwrite, rfl⟩ := Option.map_eq_some_iff.1 h
    rw [List.length_append]
    exact Nat.add_pos_left (hhead hwrite) _
  cases x with
  | bytes content => exact hstring h
  | text content => exact hstring h
  | bool b => cases h; exact Nat.one_pos
  | null => cases h; exact Nat.one_pos
  | float width bits => cases h; exact Nat.succ_pos _
  | _ => exact hhead h

theorem length_pos_of_write? {x : Item} {bs : Bytes} (h : x.write? = some bs) :
    0 < bs.length := by
  obtain ⟨a, b, ha, -, rfl⟩ := write?_eq_some_iff.1 h
  rw [List.length_append]
  exact Nat.add_pos_left (length_pos_of_opening? ha) _

/-- An item that the reader can be given: readable at every node, and complete. -/
def Readable (x : Item) : Prop := Everywhere (fun y => ReadableAt y ∧ PlainAt y) x

/-- With fuel for two calls a byte, the item is read back from its bytes. -/
def ReadsBack (x : Item) : Prop :=
  ∀ {spelled : Bytes}, x.write? = some spelled → ∀ {fuel : Nat}, 2 * spelled.length ≤ fuel →
    ∀ rest, read? fuel (spelled ++ rest) = some (x, rest)

theorem readItems?_of_readsBack {xs : List Item} (h : ∀ x ∈ xs, ReadsBack x) {spelled : Bytes}
    (hwrite : writeItems? xs = some spelled) {fuel : Nat} (hfuel : 2 * spelled.length + 1 ≤ fuel)
    (rest : Bytes) : readItems? fuel xs.length (spelled ++ rest) = some (xs, rest) := by
  induction xs generalizing spelled fuel with
  | nil =>
    rw [writeItems?] at hwrite
    cases hwrite
    rw [List.length_nil, readItems?, List.nil_append]
  | cons x xs ih =>
    obtain ⟨hx, hxs⟩ := List.forall_mem_cons.1 h
    obtain ⟨a, b, ha, hb, rfl⟩ := writeItems?_cons_eq_some_iff.1 hwrite
    have hpos := length_pos_of_write? ha
    rw [List.length_append] at hfuel
    obtain ⟨fuel, rfl⟩ : ∃ n, fuel = n + 1 := ⟨fuel - 1, by omega⟩
    have hitem := hx ha (show 2 * a.length ≤ fuel by omega) (b ++ rest)
    have hitems := ih hxs hb (show 2 * b.length + 1 ≤ fuel by omega)
    rw [List.length_cons, readItems?, List.append_assoc, hitem]
    simp only [Option.bind_eq_bind, Option.bind_some, hitems]
    rfl

theorem readEntries?_of_readsBack {entries : List (Item × Item)}
    (h : ∀ e ∈ entries, ReadsBack e.1 ∧ ReadsBack e.2) {spelled : Bytes}
    (hwrite : writeItems? (entryNodes entries) = some spelled) {fuel : Nat}
    (hfuel : 2 * spelled.length + 1 ≤ fuel) (rest : Bytes) :
    readEntries? fuel entries.length (spelled ++ rest) = some (entries, rest) := by
  induction entries generalizing spelled fuel with
  | nil =>
    cases hwrite
    rw [List.length_nil, readEntries?, List.nil_append]
  | cons e es ih =>
    obtain ⟨⟨hk, hv⟩, hes⟩ := List.forall_mem_cons.1 h
    obtain ⟨a, bc, ha, hbc, rfl⟩ := writeItems?_cons_eq_some_iff.1 hwrite
    obtain ⟨b, c, hb, hc, rfl⟩ := writeItems?_cons_eq_some_iff.1 hbc
    have hapos := length_pos_of_write? ha
    rw [List.length_append, List.length_append] at hfuel
    obtain ⟨fuel, rfl⟩ : ∃ n, fuel = n + 1 := ⟨fuel - 1, by omega⟩
    have hkey := hk ha (show 2 * a.length ≤ fuel by omega) (b ++ c ++ rest)
    have hvalue := hv hb (show 2 * b.length ≤ fuel by omega) (c ++ rest)
    have hentries := ih hes hc (show 2 * c.length + 1 ≤ fuel by omega)
    rw [List.length_cons, readEntries?, List.append_assoc, hkey]
    simp only [Option.bind_eq_bind, Option.bind_some, List.append_assoc, hvalue, hentries]
    rfl

/-- It is enough to read the item from its opening in front of the items below it. -/
theorem readsBack_of_opening {x : Item}
    (h : ∀ {a b : Bytes} {fuel : Nat}, x.opening? = some a →
      writeItems? (Tree.children x) = some b → 2 * b.length + 1 ≤ fuel →
      ∀ rest, read? (fuel + 1) (a ++ (b ++ rest)) = some (x, rest)) : ReadsBack x := by
  intro spelled hwrite fuel hfuel rest
  obtain ⟨a, b, ha, hb, rfl⟩ := write?_eq_some_iff.1 hwrite
  have hpos := length_pos_of_opening? ha
  rw [List.length_append] at hfuel
  obtain ⟨fuel, rfl⟩ : ∃ n, fuel = n + 1 := ⟨fuel - 1, by omega⟩
  rw [List.append_assoc]
  exact h ha hb (by omega) rest

/-- A shortest head is read, and accepted. -/
theorem exists_read?_of_write? {major : Major} {n : Nat} {head : Bytes}
    (h : Head.write? major n = some head) (rest : Bytes) :
    ∃ width, Head.read? (head ++ rest) = some (⟨major, width, n⟩, rest) ∧
      Head.isMinimal ⟨major, width, n⟩ = true := by
  obtain ⟨width, hminimal, hread⟩ := Head.read?_of_write? h rest
  exact ⟨width, hread, by simp [Head.isMinimal, hminimal]⟩

theorem readsBack_bytes {content : Bytes} (hlength : content.length ≤ maxLength) :
    ReadsBack (.bytes content) := by
  refine readsBack_of_opening fun {a b fuel} ha hb _ rest => ?_
  cases hb
  obtain ⟨head, hhead, rfl⟩ := Option.map_eq_some_iff.1 ha
  obtain ⟨width, hread, hminimal⟩ := exists_read?_of_write? hhead (content ++ rest)
  rw [List.nil_append, List.append_assoc, read?, hread]
  simp [hminimal, split?_append hlength]

theorem readsBack_text {content : Bytes} (hlength : content.length ≤ maxLength) :
    ReadsBack (.text content) := by
  refine readsBack_of_opening fun {a b fuel} ha hb _ rest => ?_
  cases hb
  obtain ⟨head, hhead, rfl⟩ := Option.map_eq_some_iff.1 ha
  obtain ⟨width, hread, hminimal⟩ := exists_read?_of_write? hhead (content ++ rest)
  rw [List.nil_append, List.append_assoc, read?, hread]
  simp [hminimal, split?_append hlength]

theorem readsBack_array {items : List Item} (hlength : items.length ≤ maxLength)
    (h : ∀ x ∈ items, ReadsBack x) : ReadsBack (.array items) := by
  refine readsBack_of_opening fun {a b fuel} ha hb hfuel rest => ?_
  obtain ⟨width, hread, hminimal⟩ := exists_read?_of_write? ha (b ++ rest)
  have hitems := readItems?_of_readsBack h hb hfuel rest
  rw [read?, hread]
  simp [hminimal, Nat.not_lt.2 hlength, hitems]

theorem readsBack_map {entries : List (Item × Item)} (hlength : entries.length ≤ maxLength)
    (h : ∀ e ∈ entries, ReadsBack e.1 ∧ ReadsBack e.2) : ReadsBack (.map entries) := by
  refine readsBack_of_opening fun {a b fuel} ha hb hfuel rest => ?_
  obtain ⟨width, hread, hminimal⟩ := exists_read?_of_write? ha (b ++ rest)
  have hentries := readEntries?_of_readsBack h hb hfuel rest
  rw [read?, hread]
  simp [hminimal, Nat.not_lt.2 hlength, hentries]

theorem readsBack_tag {number : Nat} {content : Item} (hnumber : supportsTag number = true)
    (h : ReadsBack content) : ReadsBack (.tag number content) := by
  refine readsBack_of_opening fun {a b fuel} ha hb hfuel rest => ?_
  have hcontent : content.write? = some b := by
    rw [← writeItems?_singleton]
    exact hb
  have hpos := length_pos_of_write? hcontent
  obtain ⟨width, hread, hminimal⟩ := exists_read?_of_write? ha (b ++ rest)
  have hmore : (b ++ rest).isEmpty = false := by
    cases b with
    | nil => exact absurd hpos (Nat.lt_irrefl 0)
    | cons _ _ => rfl
  have hbelow := h hcontent (show 2 * b.length ≤ fuel by omega) rest
  rw [read?, hread]
  simp only [Option.bind_eq_bind, Option.bind_some, hminimal, hnumber, hmore, hbelow]
  rfl

/-- A readable item is read back from its bytes, whatever follows them. -/
theorem readsBack_of_readable {x : Item} (h : Readable x) : ReadsBack x := by
  induction x with
  | unsigned n =>
    refine readsBack_of_opening fun {a b fuel} ha hb _ rest => ?_
    cases hb
    obtain ⟨width, hread, hminimal⟩ := exists_read?_of_write? ha rest
    rw [List.nil_append, read?, hread]
    simp [hminimal]
  | negative n =>
    refine readsBack_of_opening fun {a b fuel} ha hb _ rest => ?_
    cases hb
    obtain ⟨width, hread, hminimal⟩ := exists_read?_of_write? ha rest
    rw [List.nil_append, read?, hread]
    simp [hminimal]
  | bytes content => exact readsBack_bytes h.here.1
  | text content => exact readsBack_text h.here.1
  | array items ih =>
    exact readsBack_array h.here.1 fun x hx => ih x hx (h.children x hx)
  | map entries ih =>
    obtain ⟨hhere, hentries⟩ := everywhere_map_iff.1 h
    exact readsBack_map hhere.1 fun e he =>
      ⟨(ih e he).1 (hentries e he).1, (ih e he).2 (hentries e he).2⟩
  | tag number content ih =>
    obtain ⟨hhere, hcontent⟩ := everywhere_tag_iff.1 h
    exact readsBack_tag hhere.1 (ih hcontent)
  | bareTag number => exact absurd h.here.2 id
  | bool b =>
    refine readsBack_of_opening fun {a c fuel} ha hb _ rest => ?_
    cases hb
    cases ha
    cases b <;> rfl
  | null =>
    refine readsBack_of_opening fun {a b fuel} ha hb _ rest => ?_
    cases hb
    cases ha
    rfl
  | float width bits => exact absurd h.here.2 id

theorem begins_of_ofBytes? {bs : Bytes} {x : Item} {rest : Bytes}
    (h : ofBytes? bs = some (x, rest)) : Begins bs x rest :=
  (sound _).item h

theorem ofBytes?_of_write? {x : Item} (hx : Readable x) {spelled : Bytes}
    (hwrite : x.write? = some spelled) : ofBytes? spelled = some (x, []) := by
  have hread := readsBack_of_readable hx hwrite (Nat.le_add_right (2 * spelled.length) 2) []
  rw [List.append_nil] at hread
  exact hread

end Item

end Eutxo.Cbor

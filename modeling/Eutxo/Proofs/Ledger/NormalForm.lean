import Eutxo.Proofs.Ledger.Cancellation

/-!
# Normal forms

A bundle is in normal form if it holds positive quantities alone and nothing that
is empty.  Sums and differences of such bundles are in normal form.  One of them
covers another exactly if it is the other with something added, and taking away a
sum is the same as taking away its parts one after the other.
-/

namespace Eutxo

open Traversal Term

/-! ## Tables -/

namespace Table

variable {κ α β : Type} [DecidableEq κ] {leaves : α → β → Option α → Prop}
  {t d e : Table κ α} {u v s : Table κ β}

/-- There is one difference if there is one under each key. -/
theorem IsDifference.eq (hd : IsDifference leaves t u d) (he : IsDifference leaves t u e)
    (hleaves : ∀ a b o p, leaves a b o → leaves a b p → o = p) : d = e := by
  have hget : ∀ k, d.get? k = e.get? k := by
    intro k
    cases hu : u.get? k with
    | none => exact (hd.kept k hu).trans (he.kept k hu).symm
    | some b =>
      obtain ⟨a, ha, hdk⟩ := hd.shared k b hu
      obtain ⟨a', ha', hek⟩ := he.shared k b hu
      cases ha.symm.trans ha'
      exact hleaves a b _ _ hdk hek
  apply eq_of_keys_eq _ hget
  apply eq_of_sublist t.nodup_keys hd.order he.order
  intro k
  show k ∈ d.keys ↔ k ∈ e.keys
  rw [mem_keys_iff, mem_keys_iff, hget]

theorem IsDifference.forall_get? {P : α → Prop} (hd : IsDifference leaves t u d)
    (ht : ∀ k a, t.get? k = some a → P a) (hleaves : ∀ a b c, P a → leaves a b (some c) → P c) :
    ∀ k c, d.get? k = some c → P c := by
  intro k c hc
  cases hu : u.get? k with
  | none => exact ht k c ((hd.kept k hu).symm.trans hc)
  | some b =>
    obtain ⟨a, ha, hab⟩ := hd.shared k b hu
    exact hleaves a b c (ht k a ha) (hc ▸ hab)

variable {f : β → β → β}

/-- What is left when one table is taken away and then another one is what is left when both
together are. -/
theorem IsDifference.union (hd : IsDifference leaves t u d) (he : IsDifference leaves d v e)
    (hs : IsUnion f u v s)
    (hleaves : ∀ a b c a' o, leaves a b (some a') → leaves a' c o → leaves a (f b c) o) :
    IsDifference leaves t s e where
  kept k hk := by
    rw [hs.get?_eq, Option.merge_eq_none_iff] at hk
    exact (he.kept k hk.2).trans (hd.kept k hk.1)
  shared k x hx := by
    rw [hs.get?_eq] at hx
    cases hb : u.get? k with
    | none =>
      rw [hb, Option.merge_none_left] at hx
      obtain ⟨a, ha, hax⟩ := he.shared k x hx
      exact ⟨a, (hd.kept k hb).symm.trans ha, hax⟩
    | some b =>
      obtain ⟨a, ha, hab⟩ := hd.shared k b hb
      rw [hb] at hx
      cases hc : v.get? k with
      | none =>
        rw [hc] at hx
        cases hx
        exact ⟨a, ha, he.kept k hc ▸ hab⟩
      | some c =>
        rw [hc] at hx
        cases hx
        obtain ⟨a', ha', hac⟩ := he.shared k c hc
        exact ⟨a, ha, hleaves a b c a' _ (ha' ▸ hab) hac⟩
  order := he.order.trans hd.order

/-- If two tables together are below a third one, the second of them is below what the first one
leaves of that. -/
theorem IsDifference.below {le : β → α → Prop} {P : β → Prop} (hd : IsDifference leaves t u d)
    (hs : IsUnion f u v s) (hle : ∀ k b, s.get? k = some b → ∃ a, t.get? k = some a ∧ le b a)
    (hv : ∀ k c, v.get? k = some c → P c)
    (hleaves : ∀ a b c o, P c → le (f b c) a → leaves a b o → ∃ a', o = some a' ∧ le c a') :
    ∀ k c, v.get? k = some c → ∃ a, d.get? k = some a ∧ le c a := by
  intro k c hc
  have hsum := hs.get?_eq k
  rw [hc] at hsum
  cases hb : u.get? k with
  | none =>
    rw [hb, Option.merge_none_left] at hsum
    rw [hd.kept k hb]
    exact hle k c hsum
  | some b =>
    rw [hb, Option.merge_some_some] at hsum
    obtain ⟨a, ha, hab⟩ := hd.shared k b hb
    obtain ⟨a', ha', hbound⟩ := hle k (f b c) hsum
    cases ha.symm.trans ha'
    exact hleaves a b c _ (hv k c hc) hbound hab

end Table

/-! ## One policy -/

namespace Asset

variable {a b c d x : Asset}

theorem Leaves.eq {q p : Int} {o r : Option Int} (ho : Leaves q p o) (hr : Leaves q p r) : o = r :=
  ho.2.trans hr.2.symm

theorem Leaves.pos {q p r : Int} (h : Leaves q p (some r)) : r = q - p ∧ 0 < r := by
  obtain ⟨hle, hsome⟩ := h
  split_ifs at hsome with hpq
  cases hsome
  omega

/-- What two quantities leave one after the other is what their sum leaves. -/
theorem Leaves.add {q p r s : Int} {o : Option Int} (h : Leaves q p (some s))
    (hs : Leaves s r o) : Leaves q (p + r) o := by
  obtain ⟨rfl, hpos⟩ := h.pos
  obtain ⟨hle, rfl⟩ := hs
  have hnothing : r = q - p ↔ p + r = q := by omega
  have hrest : q - p - r = q - (p + r) := by omega
  refine ⟨by omega, ?_⟩
  rw [hrest]
  simp only [hnothing]

theorem Leaves.exists_le {q p r : Int} {o : Option Int} (h : Leaves q p o) (hr : 0 < r)
    (hle : p + r ≤ q) : ∃ s, o = some s ∧ r ≤ s := by
  obtain ⟨-, rfl⟩ := h
  have hsome : p ≠ q := by omega
  exact ⟨q - p, if_neg hsome, by omega⟩

theorem coveredBy_of_isDifference (h : b.IsDifference a d) : a.coveredBy b = true := by
  apply coveredBy_iff.2
  intro name p hp
  obtain ⟨q, hq, hle, -⟩ := h.get?_of_present hp
  exact ⟨q, hq, hle⟩

theorem IsDifference.eq (hd : b.IsDifference a d) (hx : b.IsDifference a x) : d = x :=
  congrArg Asset.mk (Table.IsDifference.eq hd hx fun _ _ _ _ => Leaves.eq)

/-- Subtraction gives the difference, and gives it whenever there is one. -/
theorem subtract_eq_ok_iff : b.subtract a = .ok d ↔ b.IsDifference a d :=
  (guarded_subtract a b).eq_ok_iff (fun _ => coveredBy_of_isDifference) fun _ _ => IsDifference.eq

theorem subtract_add (hd : b.subtract a = .ok d) (hx : d.subtract c = .ok x) :
    b.subtract (a.add c) = .ok x := by
  apply subtract_eq_ok_iff.2
  apply (subtract_eq_ok_iff.1 hd).union (subtract_eq_ok_iff.1 hx) (isUnion_add a c)
  intro q p r s o
  exact Leaves.add

theorem coveredBy_of_subtract (hc : c.Normal) (h : (a.add c).coveredBy b = true)
    (hd : b.subtract a = .ok d) : c.coveredBy d = true := by
  apply coveredBy_iff.2
  apply (subtract_eq_ok_iff.1 hd).below (isUnion_add a c) (coveredBy_iff.1 h) (normal_iff.1 hc)
  intro q p r o hr hle hleaves
  exact hleaves.exists_le hr hle

-- A zero quantity can be taken away together with what there is, but not after it.
example :
    let five : Asset := ⟨[(nameOf 0x61, 5)], by decide⟩
    let zero : Asset := ⟨[(nameOf 0x61, 0)], by decide⟩
    (five.add zero).coveredBy five = true ∧ five.subtract five = .ok .empty ∧
      zero.coveredBy .empty = false :=
  ⟨rfl, rfl, rfl⟩

/-- What covers names has names. -/
theorem isEmpty_of_coveredBy (h : a.coveredBy b = true) (ha : a.isEmpty = false) :
    b.isEmpty = false := by
  apply Bool.eq_false_iff.2
  intro hb
  apply Bool.eq_false_iff.1 ha
  apply isEmpty_iff.2
  intro name
  apply Option.eq_none_iff_forall_ne_some.2
  intro p hp
  obtain ⟨q, hq, -⟩ := coveredBy_iff.1 h name p hp
  cases (isEmpty_iff.1 hb name).symm.trans hq

theorem Normal.positiveOn (ha : a.Normal) (b : Asset) : a.PositiveOn b := by
  intro name p q hp _
  exact normal_iff.1 ha name p hp

theorem isEmpty_add (hb : b.isEmpty = false) (ha : a.Normal) : (a.add b).isEmpty = false :=
  isEmpty_of_coveredBy (coveredBy_add (ha.positiveOn b)) hb

theorem normal_add (ha : a.Normal) (hb : b.Normal) : (a.add b).Normal := by
  apply normal_iff.2
  apply (isUnion_add a b).forall_get? (normal_iff.1 ha) (normal_iff.1 hb)
  intro p q
  exact Int.add_pos

theorem IsDifference.normal (h : b.IsDifference a d) (hb : b.Normal) : d.Normal := by
  apply normal_iff.2
  apply Table.IsDifference.forall_get? h (normal_iff.1 hb)
  intro p q r _ hleaves
  exact hleaves.pos.2

theorem Normal.nonNegative (ha : a.Normal) : a.NonNegative := fun e he => Int.le_of_lt (ha e he)

end Asset

/-! ## Several policies -/

namespace MultiAsset

variable {m n o d x : MultiAsset}

theorem Leaves.eq {b a : Asset} {o r : Option Asset} (ho : Leaves b a o) (hr : Leaves b a r) :
    o = r := by
  obtain ⟨d, hd, -, rfl⟩ := ho
  obtain ⟨d', hd', -, rfl⟩ := hr
  cases hd.symm.trans hd'
  rfl

theorem leaves_some_iff {b a c : Asset} :
    Leaves b a (some c) ↔ b.subtract a = .ok c ∧ c.isEmpty = false := by
  constructor
  · intro h
    obtain ⟨d, hd, -, hsome⟩ := h
    split_ifs at hsome with hempty
    cases hsome
    exact ⟨hd, Bool.eq_false_iff.2 hempty⟩
  · intro ⟨hc, hempty⟩
    exact ⟨c, hc, Asset.subtract_eq_ok_iff.1 hc, by rw [hempty]; rfl⟩

/-- What two bundles leave one after the other is what their sum leaves. -/
theorem Leaves.add {b a c s : Asset} {o : Option Asset} (h : Leaves b a (some s))
    (hs : Leaves s c o) : Leaves b (a.add c) o := by
  obtain ⟨d, hd, -, rfl⟩ := hs
  have hsum := Asset.subtract_add (leaves_some_iff.1 h).1 hd
  exact ⟨d, hsum, Asset.subtract_eq_ok_iff.1 hsum, rfl⟩

theorem Leaves.exists_covered {b a c : Asset} {o : Option Asset} (h : Leaves b a o)
    (hnames : c.isEmpty = false) (hc : c.Normal) (hle : (a.add c).coveredBy b = true) :
    ∃ s, o = some s ∧ c.coveredBy s = true := by
  obtain ⟨d, hd, -, rfl⟩ := h
  have hcovered := Asset.coveredBy_of_subtract hc hle hd
  have hrest : d.isEmpty = false := Asset.isEmpty_of_coveredBy hcovered hnames
  exact ⟨d, by rw [hrest]; rfl, hcovered⟩

theorem coveredBy_of_isDifference (h : m.IsDifference n d) : n.coveredBy m = true := by
  apply coveredBy_iff.2
  intro policy a ha
  obtain ⟨b, hb, c, hc, -⟩ := h.get?_of_present ha
  exact ⟨b, hb, (Asset.guarded_subtract a b).exists_ok_iff.1 ⟨c, hc⟩⟩

theorem IsDifference.eq (hd : m.IsDifference n d) (hx : m.IsDifference n x) : d = x :=
  congrArg MultiAsset.mk (Table.IsDifference.eq hd hx fun _ _ _ _ => Leaves.eq)

/-- Subtraction gives the difference, and gives it whenever there is one. -/
theorem subtract_eq_ok_iff : m.subtract n = .ok d ↔ m.IsDifference n d :=
  (guarded_subtract n m).eq_ok_iff (fun _ => coveredBy_of_isDifference) fun _ _ => IsDifference.eq

theorem subtract_add (hd : m.subtract n = .ok d) (hx : d.subtract o = .ok x) :
    m.subtract (n.add o) = .ok x := by
  apply subtract_eq_ok_iff.2
  apply (subtract_eq_ok_iff.1 hd).union (subtract_eq_ok_iff.1 hx) (isUnion_add n o)
  intro b a c s r
  exact Leaves.add

theorem coveredBy_of_subtract (ho : o.Normal) (h : (n.add o).coveredBy m = true)
    (hd : m.subtract n = .ok d) : o.coveredBy d = true := by
  apply coveredBy_iff.2
  apply (subtract_eq_ok_iff.1 hd).below (isUnion_add n o) (coveredBy_iff.1 h) (normal_iff.1 ho)
  intro b a c r hc hle hleaves
  exact hleaves.exists_covered hc.1 hc.2 hle

theorem normal_add (hm : m.Normal) (hn : n.Normal) : (m.add n).Normal := by
  apply normal_iff.2
  apply (isUnion_add m n).forall_get? (normal_iff.1 hm) (normal_iff.1 hn)
  intro a b ha hb
  exact ⟨Asset.isEmpty_add hb.1 ha.2, Asset.normal_add ha.2 hb.2⟩

theorem IsDifference.normal (h : m.IsDifference n d) (hm : m.Normal) : d.Normal := by
  apply normal_iff.2
  apply Table.IsDifference.forall_get? h (normal_iff.1 hm)
  intro b a c hb hleaves
  obtain ⟨hc, hnames⟩ := leaves_some_iff.1 hleaves
  exact ⟨hnames, (Asset.subtract_eq_ok_iff.1 hc).normal hb.2⟩

theorem Normal.nonNegative (hm : m.Normal) : m.NonNegative := fun e he => (hm e he).2.nonNegative

theorem empty_coveredBy (m : MultiAsset) : empty.coveredBy m = true := rfl

end MultiAsset

/-! ## Values -/

namespace Value

variable {v w d x y : Value}

/-- Values are subtracted coin from coin and assets from assets. -/
theorem subtract_eq_ok_iff :
    w.subtract v = .ok d ↔ v.coin ≤ w.coin ∧ d.coin = w.coin - v.coin ∧
      w.assets.subtract v.assets = .ok d.assets := by
  by_cases hcoin : w.coin < v.coin
  · have hresult : w.subtract v = .error (.coinShortfall w.coin v.coin) := if_pos hcoin
    constructor
    · intro h
      cases hresult.symm.trans h
    · intro h
      exact absurd h.1 (Int.not_le.2 hcoin)
  · have hresult : w.subtract v =
        (fun assets => ⟨w.coin - v.coin, assets⟩) <$> w.assets.subtract v.assets := by
      rw [subtract, if_neg hcoin]
      rfl
    rw [hresult, map_eq_ok, and_iff_right (Int.not_lt.1 hcoin)]
    constructor
    · intro h
      obtain ⟨assets, hassets, rfl⟩ := h
      exact ⟨rfl, hassets⟩
    · intro h
      exact ⟨d.assets, h.2, by rw [← h.1]⟩

theorem subtract_add (hd : w.subtract v = .ok d) (hy : d.subtract x = .ok y) :
    w.subtract (v.add x) = .ok y := by
  obtain ⟨hle, hcoin, hassets⟩ := subtract_eq_ok_iff.1 hd
  obtain ⟨hle', hcoin', hassets'⟩ := subtract_eq_ok_iff.1 hy
  apply subtract_eq_ok_iff.2
  have hsum : (v.add x).coin = v.coin + x.coin := rfl
  rw [hsum]
  exact ⟨by omega, by omega, MultiAsset.subtract_add hassets hassets'⟩

theorem coveredBy_of_subtract (hx : x.Normal) (h : (v.add x).coveredBy w = true)
    (hd : w.subtract v = .ok d) : x.coveredBy d = true := by
  obtain ⟨hcoin, hassets⟩ := coveredBy_iff.1 h
  obtain ⟨-, hrest, hremaining⟩ := subtract_eq_ok_iff.1 hd
  apply coveredBy_iff.2
  have hsum : (v.add x).coin = v.coin + x.coin := rfl
  exact ⟨by omega, MultiAsset.coveredBy_of_subtract hx.2 hassets hremaining⟩

theorem normal_add (hv : v.Normal) (hw : w.Normal) : (v.add w).Normal :=
  ⟨Int.add_nonneg hv.1 hw.1, MultiAsset.normal_add hv.2 hw.2⟩

theorem IsDifference.normal (h : w.IsDifference v d) (hle : v.coin ≤ w.coin) (hw : w.Normal) :
    d.Normal :=
  ⟨h.coin ▸ Int.sub_nonneg_of_le hle, h.assets.normal hw.2⟩

theorem empty_coveredBy (hv : v.Normal) : (ofCoin 0).coveredBy v = true :=
  coveredBy_iff.2 ⟨hv.1, v.assets.empty_coveredBy⟩

end Value

/-! ## Bundles of each type -/

/-- Bundles whose subtraction is guarded by coverage and undone by addition, and goes together with
the sums of bundles in normal form. -/
class SubtractiveBundle (α : Type) [Codec α] [Bundle α] : Prop extends AdditiveBundle α where
  exists_subtract_iff {a b : α} : (∃ d, Bundle.subtract b a = .ok d) ↔ Bundle.coveredBy a b = true
  add_same_of_subtract {a b d : α} : Bundle.subtract b a = .ok d → Bundle.Same (Bundle.add d a) b
  subtract_add {a b c d x : α} : Bundle.subtract b a = .ok d → Bundle.subtract d c = .ok x →
    Bundle.subtract b (Bundle.add a c) = .ok x
  coveredBy_of_subtract {a b c d : α} : Bundle.Normal c →
    Bundle.coveredBy (Bundle.add a c) b = true → Bundle.subtract b a = .ok d →
    Bundle.coveredBy c d = true
  normal_add {a b : α} : Bundle.Normal a → Bundle.Normal b → Bundle.Normal (Bundle.add a b)
  normal_of_subtract {a b d : α} : Bundle.Normal b → Bundle.subtract b a = .ok d →
    Bundle.Normal d
  nonNegative_of_normal {a : α} : Bundle.Normal a → Bundle.NonNegative a
  empty_coveredBy {a : α} : Bundle.Normal a → Bundle.coveredBy Bundle.empty a = true

instance : SubtractiveBundle Asset where
  exists_subtract_iff {a b} := (Asset.guarded_subtract a b).exists_ok_iff
  add_same_of_subtract h := (Asset.subtract_eq_ok_iff.1 h).add_same
  subtract_add := Asset.subtract_add
  coveredBy_of_subtract := Asset.coveredBy_of_subtract
  normal_add := Asset.normal_add
  normal_of_subtract hb h := (Asset.subtract_eq_ok_iff.1 h).normal hb
  nonNegative_of_normal := Asset.Normal.nonNegative
  empty_coveredBy {a} _ := a.empty_coveredBy

instance : SubtractiveBundle MultiAsset where
  exists_subtract_iff {a b} := (MultiAsset.guarded_subtract a b).exists_ok_iff
  add_same_of_subtract h := (MultiAsset.subtract_eq_ok_iff.1 h).add_same
  subtract_add := MultiAsset.subtract_add
  coveredBy_of_subtract := MultiAsset.coveredBy_of_subtract
  normal_add := MultiAsset.normal_add
  normal_of_subtract hb h := (MultiAsset.subtract_eq_ok_iff.1 h).normal hb
  nonNegative_of_normal := MultiAsset.Normal.nonNegative
  empty_coveredBy {a} _ := a.empty_coveredBy

instance : SubtractiveBundle Value where
  exists_subtract_iff {a b} := (Value.guarded_subtract a b).exists_ok_iff
  add_same_of_subtract {a b d} h := ((Value.guarded_subtract a b).of_ok d h).add_same
  subtract_add := Value.subtract_add
  coveredBy_of_subtract := Value.coveredBy_of_subtract
  normal_add := Value.normal_add
  normal_of_subtract {a b d} hb h :=
    ((Value.guarded_subtract a b).of_ok d h).normal (Value.subtract_eq_ok_iff.1 h).1 hb
  nonNegative_of_normal h := h.2.nonNegative
  empty_coveredBy := Value.empty_coveredBy

namespace Bundle

open LawfulBundle AdditiveBundle SubtractiveBundle

/-- The algebra of bundles as a ledger needs it: normal forms are kept, what is covered by a normal
form is that with some normal form taken away, and it does not matter whether a sum of normal forms
is taken away at once or part by part. -/
structure LedgerLaws (α : Type) [Codec α] [Bundle α] : Prop where
  normal_add : ∀ a b : α, Normal a → Normal b → Normal (add a b)
  normal_subtract : ∀ a b d : α, Normal b → subtract b a = .ok d → Normal d
  covered_iff : ∀ a b : α, Normal b → Codec.Fits b →
    (Covered a b ↔ ∃ c, Normal c ∧ Equal (add a c) b)
  subtract_add_iff : ∀ a b c x : α, Normal c →
    (subtract b (add a c) = .ok x ↔ ∃ d, subtract b a = .ok d ∧ subtract d c = .ok x)

variable {α : Type} [Codec α] [Bundle α] [SubtractiveBundle α] {a b c : α}

/-- What is added in normal form makes more of a bundle. -/
theorem coveredBy_add (hc : Normal c) : coveredBy a (add a c) = true := by
  have hsum : coveredBy (add empty a) (add c a) = true :=
    coveredBy_add_add (SubtractiveBundle.empty_coveredBy hc) (nonNegative_of_normal hc) a
  rw [AdditiveBundle.empty_add] at hsum
  have hcomm : coveredBy (add c a) (add a c) = true :=
    (coveredBy_and_coveredBy_iff.2 (add_same_comm c a)).1
  exact coveredBy_trans hsum hcomm

theorem coveredBy_iff_exists_same (hb : Normal b) :
    coveredBy a b = true ↔ ∃ c, Normal c ∧ Same (add a c) b := by
  constructor
  · intro h
    obtain ⟨d, hd⟩ := exists_subtract_iff.2 h
    have hcomm := coveredBy_and_coveredBy_iff.2 (add_same_comm a d)
    have hback := coveredBy_and_coveredBy_iff.2 (add_same_of_subtract hd)
    refine ⟨d, normal_of_subtract hb hd, coveredBy_and_coveredBy_iff.1 ⟨?_, ?_⟩⟩
    · exact coveredBy_trans hcomm.1 hback.1
    · exact coveredBy_trans hback.2 hcomm.2
  · intro ⟨c, hc, hsame⟩
    exact coveredBy_trans (coveredBy_add hc) (coveredBy_and_coveredBy_iff.2 hsame).1

theorem subtract_add_iff (hc : Normal c) (a b x : α) :
    subtract b (add a c) = .ok x ↔ ∃ d, subtract b a = .ok d ∧ subtract d c = .ok x := by
  constructor
  · intro hx
    have hsum : coveredBy (add a c) b = true := exists_subtract_iff.1 ⟨x, hx⟩
    obtain ⟨d, hd⟩ := exists_subtract_iff.2 (coveredBy_trans (coveredBy_add hc) hsum)
    obtain ⟨y, hy⟩ := exists_subtract_iff.2 (coveredBy_of_subtract hc hsum hd)
    have hxy : x = y := Except.ok.inj (hx.symm.trans (subtract_add hd hy))
    exact ⟨d, hd, hxy ▸ hy⟩
  · intro ⟨d, hd, hx⟩
    exact subtract_add hd hx

theorem ledgerLaws : LedgerLaws α where
  normal_add _ _ := SubtractiveBundle.normal_add
  normal_subtract _ _ _ := normal_of_subtract
  covered_iff a b hb hfits := by
    rw [Bundle.covered_iff, coveredBy_iff_exists_same hb]
    simp only [equal_iff, and_iff_right hfits]
  subtract_add_iff a b _ x hc := Bundle.subtract_add_iff hc a b x

end Bundle

/-- On bundles in normal form the algebra behaves as a ledger needs. -/
theorem normalForms_keep_ledger :
    Bundle.LedgerLaws Asset ∧ Bundle.LedgerLaws MultiAsset ∧ Bundle.LedgerLaws Value :=
  ⟨Bundle.ledgerLaws, Bundle.ledgerLaws, Bundle.ledgerLaws⟩

/-- What someone has. -/
def wallet : Value where
  coin := 10
  assets := ⟨[
    (policyOf 1, ⟨[(nameOf 0x61, 5), (nameOf 0x62, 3)], by decide⟩),
    (policyOf 2, ⟨[(nameOf 0x61, 1)], by decide⟩)], by decide⟩

/-- What is paid from `wallet`, all that there is under the second policy among it. -/
def payment : Value where
  coin := 4
  assets := ⟨[
    (policyOf 2, ⟨[(nameOf 0x61, 1)], by decide⟩),
    (policyOf 1, ⟨[(nameOf 0x61, 2)], by decide⟩)], by decide⟩

/-- What is paid besides, all that is left of an asset. -/
def surcharge : Value where
  coin := 1
  assets := ⟨[(policyOf 1, ⟨[(nameOf 0x61, 3)], by decide⟩)], by decide⟩

theorem normalForms_keep_ledger_wallet :
    payment.Normal ∧ surcharge.Normal ∧ (payment.add surcharge).Normal ∧
      wallet.Normal ∧ Codec.Fits wallet ∧ Bundle.Covered payment wallet ∧
      (∃ c : Value, c.Normal ∧ Bundle.Equal (payment.add c) wallet) ∧
      ∃ x d, wallet.subtract (payment.add surcharge) = .ok x ∧ x.Normal ∧
        wallet.subtract payment = .ok d ∧ d.subtract surcharge = .ok x := by
  obtain ⟨hadd, hsubtract, hcovered, hparts⟩ := normalForms_keep_ledger.2.2
  have hpayment : payment.Normal := by decide
  have hsurcharge : surcharge.Normal := by decide
  have hwallet : wallet.Normal := by decide
  have hfits : Codec.Fits wallet := by decide
  have hpaid : Bundle.Covered payment wallet := by rfl
  obtain ⟨x, hx⟩ : ∃ x, wallet.subtract (payment.add surcharge) = .ok x := ⟨_, rfl⟩
  obtain ⟨d, hd, hrest⟩ := (hparts payment wallet surcharge x hsurcharge).1 hx
  exact ⟨hpayment, hsurcharge, hadd payment surcharge hpayment hsurcharge, hwallet, hfits, hpaid,
    (hcovered payment wallet hwallet hfits).1 hpaid, x, d, hx,
    hsubtract (payment.add surcharge) wallet x hwallet hx, hd, hrest⟩

end Eutxo

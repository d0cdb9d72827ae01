import Eutxo.Proofs.Ledger.Order

/-!
# Addition

The sum of two bundles holds what either of them holds, in the order of the first
one with what is new in the second one behind it, and the quantities are added.
Nothing is lost: not a quantity that sums to zero, nor a policy without names.
Addition is associative, and commutative up to order.
-/

namespace Eutxo

open Traversal Term

/-! ## Tables -/

namespace Table

variable {κ α : Type} [DecidableEq κ] {f : α → α → α} {le : α → α → Prop} {P : α → Prop}
  {t u v s r : Table κ α}

theorem IsUnion.of_empty_left (h : IsUnion f .empty u s) : s = u := by
  apply eq_of_keys_eq
  · exact h.keys_eq.trans (List.filter_eq_self.2 fun _ _ => rfl)
  · intro k
    exact (h.get?_eq k).trans Option.merge_none_left

/-- What is added to two tables, one below the other, leaves them so, if what stands in the greater
one does not make less of what is added to it. -/
theorem Below.union (hle : ∀ a, le a a) (hmono : ∀ a b c, le a b → P b → le (f a c) (f b c))
    (hpos : ∀ b c, P b → le c (f b c)) (htu : Below le t u)
    (hu : ∀ k b, u.get? k = some b → P b) (hs : IsUnion f t v s) (hr : IsUnion f u v r) :
    Below le s r := by
  intro k x hx
  rw [hs.get?_eq] at hx
  rw [hr.get?_eq]
  cases ht : t.get? k with
  | none =>
    rw [ht, Option.merge_none_left] at hx
    rw [hx]
    cases hb : u.get? k with
    | none => exact ⟨x, rfl, hle x⟩
    | some b => exact ⟨f b x, rfl, hpos b x (hu k b hb)⟩
  | some a =>
    obtain ⟨b, hb, hab⟩ := htu k a ht
    rw [ht] at hx
    rw [hb]
    cases hc : v.get? k with
    | none =>
      rw [hc] at hx
      cases hx
      exact ⟨b, rfl, hab⟩
    | some c =>
      rw [hc] at hx
      cases hx
      exact ⟨f b c, rfl, hmono a b c hab (hu k b hb)⟩

end Table

/-! ## One policy -/

namespace Asset

variable {a b : Asset}

theorem isUnion_add (a b : Asset) :
    Table.IsUnion (· + ·) a.quantities b.quantities (a.add b).quantities :=
  Table.isUnion_foldl_insert (g := fun o q => o.getD 0 + q) Int.zero_add (fun _ _ => rfl)
    a.quantities b.quantities

theorem get?_add (a b : Asset) (name : AssetName) :
    (a.add b).get? name = Option.merge (· + ·) (a.get? name) (b.get? name) :=
  (isUnion_add a b).get?_eq name

theorem get?_add_of_absent {name : AssetName} (h : b.get? name = none) :
    (a.add b).get? name = a.get? name := by
  rw [get?_add, h, Option.merge_none_right]

theorem get?_add_of_present {name : AssetName} {q : Int} (h : b.get? name = some q) :
    (a.add b).get? name = some ((a.get? name).getD 0 + q) := by
  rw [get?_add, h]
  cases a.get? name with
  | none => rw [Option.merge_none_left, Option.getD_none, Int.zero_add]
  | some p => rfl

/-- The bundle holds the names of `a` and behind them the new ones of `b`, each with what the two
have of it together. -/
structure IsSum (a b s : Asset) : Prop where
  names : s.names = a.names ++ b.names.filter (· ∉ a.names)
  quantity : ∀ name, (s.get? name).getD 0 = (a.get? name).getD 0 + (b.get? name).getD 0

theorem isSum_add (a b : Asset) : a.IsSum b (a.add b) where
  names := (isUnion_add a b).keys_eq
  quantity name := by
    rw [get?_add]
    cases a.get? name <;> cases b.get? name <;> simp

theorem add_same_comm (a b : Asset) : (a.add b).Same (b.add a) := by
  intro name
  have hcomm : Std.Commutative fun p q : Int => p + q := ⟨Int.add_comm⟩
  rw [get?_add, get?_add]
  exact (Option.commutative_merge _).comm _ _

theorem add_assoc (a b c : Asset) : (a.add b).add c = a.add (b.add c) :=
  congrArg Asset.mk ((isUnion_add a b).assoc Int.add_assoc (isUnion_add (a.add b) c)
    (isUnion_add b c) (isUnion_add a (b.add c)))

theorem empty_add (a : Asset) : empty.add a = a :=
  congrArg Asset.mk (isUnion_add empty a).of_empty_left

theorem add_empty (a : Asset) : a.add empty = a := rfl

theorem coveredBy_add_add (h : a.coveredBy b = true) (hb : b.NonNegative) (c : Asset) :
    (a.add c).coveredBy (b.add c) = true := by
  apply coveredBy_iff.2
  apply Table.Below.union (P := (0 ≤ ·)) Int.le_refl _ _ (coveredBy_iff.1 h)
    (nonNegative_iff.1 hb) (isUnion_add a c) (isUnion_add b c)
  · intro p q r hpq _
    exact Int.add_le_add_right hpq r
  · intro q r hq
    exact Int.le_add_of_nonneg_left hq

theorem empty_coveredBy (a : Asset) : empty.coveredBy a = true := rfl

end Asset

/-! ## Several policies -/

namespace MultiAsset

variable {m n : MultiAsset}

theorem isUnion_add (m n : MultiAsset) :
    Table.IsUnion Asset.add m.bundles n.bundles (m.add n).bundles :=
  Table.isUnion_foldl_insert (f := Asset.add) (g := fun o a => (o.getD .empty).add a)
    Asset.empty_add (fun _ _ => rfl) m.bundles n.bundles

theorem get?_add (m n : MultiAsset) (policy : PolicyId) :
    (m.add n).get? policy = Option.merge Asset.add (m.get? policy) (n.get? policy) :=
  (isUnion_add m n).get?_eq policy

theorem get?_add_of_absent {policy : PolicyId} (h : n.get? policy = none) :
    (m.add n).get? policy = m.get? policy := by
  rw [get?_add, h, Option.merge_none_right]

theorem get?_add_of_present {policy : PolicyId} {a : Asset} (h : n.get? policy = some a) :
    (m.add n).get? policy = some (((m.get? policy).getD .empty).add a) := by
  rw [get?_add, h]
  cases m.get? policy with
  | none => rw [Option.merge_none_left, Option.getD_none, Asset.empty_add]
  | some b => rfl

/-- Some quantity of an asset is held, be it zero. -/
def Holds (m : MultiAsset) (policy : PolicyId) (name : AssetName) : Prop :=
  ∃ q, (policy, name, q) ∈ m.flatten

theorem holds_iff {policy : PolicyId} {name : AssetName} :
    m.Holds policy name ↔ name ∈ m.namesUnder policy := by
  simp only [Holds, mem_flatten_iff, namesUnder]
  cases m.get? policy with
  | none => simp
  | some a =>
    rw [Option.map_some, Option.getD_some, Asset.names, Table.mem_keys_iff,
      Option.isSome_iff_exists]
    simp [Asset.get?]

/-- The bundles hold the policies of `m` and behind them the new ones of `n`, under each of them the
names in the same order, and of each asset what the two have of it together. -/
structure IsSum (m n s : MultiAsset) : Prop where
  policies : s.policies = m.policies ++ n.policies.filter (· ∉ m.policies)
  names : ∀ policy, s.namesUnder policy =
    m.namesUnder policy ++ (n.namesUnder policy).filter (· ∉ m.namesUnder policy)
  holds : ∀ policy name, s.Holds policy name ↔ m.Holds policy name ∨ n.Holds policy name
  quantityOf : ∀ policy name,
    s.quantityOf policy name = m.quantityOf policy name + n.quantityOf policy name

theorem namesUnder_add (m n : MultiAsset) (policy : PolicyId) :
    (m.add n).namesUnder policy =
      m.namesUnder policy ++ (n.namesUnder policy).filter (· ∉ m.namesUnder policy) := by
  have hsum := get?_add m n policy
  cases hm : m.get? policy with
  | none =>
    rw [hm, Option.merge_none_left] at hsum
    rw [namesUnder_of_none hm, List.nil_append, namesUnder, hsum, ← namesUnder]
    exact (List.filter_eq_self.2 fun _ _ => rfl).symm
  | some a =>
    rw [namesUnder_of_some hm]
    cases hn : n.get? policy with
    | none =>
      rw [hm, hn, Option.merge_none_right] at hsum
      rw [namesUnder_of_some hsum, namesUnder_of_none hn, List.filter_nil, List.append_nil]
    | some b =>
      rw [hm, hn, Option.merge_some_some] at hsum
      rw [namesUnder_of_some hsum, namesUnder_of_some hn]
      exact (Asset.isSum_add a b).names

theorem quantityOf_add (m n : MultiAsset) (policy : PolicyId) (name : AssetName) :
    (m.add n).quantityOf policy name = m.quantityOf policy name + n.quantityOf policy name := by
  simp only [quantityOf, get?_add]
  cases m.get? policy with
  | none => simp
  | some a =>
    cases n.get? policy with
    | none => simp
    | some b => exact (Asset.isSum_add a b).quantity name

theorem isSum_add (m n : MultiAsset) : m.IsSum n (m.add n) where
  policies := (isUnion_add m n).keys_eq
  names := namesUnder_add m n
  holds policy name := by
    simp only [holds_iff, namesUnder_add, List.mem_append, List.mem_filter, decide_eq_true_iff]
    tauto
  quantityOf := quantityOf_add m n

theorem optionRel_same_refl (o : Option Asset) : Option.Rel Asset.Same o o := by
  cases o with
  | none => exact .none
  | some a => exact .some fun _ => rfl

theorem add_same_comm (m n : MultiAsset) : (m.add n).Same (n.add m) := by
  intro policy
  rw [get?_add, get?_add]
  cases m.get? policy with
  | none =>
    rw [Option.merge_none_left, Option.merge_none_right]
    exact optionRel_same_refl _
  | some a =>
    cases n.get? policy with
    | none => exact optionRel_same_refl _
    | some b => exact .some (Asset.add_same_comm a b)

theorem add_assoc (m n o : MultiAsset) : (m.add n).add o = m.add (n.add o) :=
  congrArg MultiAsset.mk ((isUnion_add m n).assoc Asset.add_assoc (isUnion_add (m.add n) o)
    (isUnion_add n o) (isUnion_add m (n.add o)))

theorem empty_add (m : MultiAsset) : empty.add m = m :=
  congrArg MultiAsset.mk (isUnion_add empty m).of_empty_left

theorem add_empty (m : MultiAsset) : m.add empty = m := rfl

theorem coveredBy_add_add (h : m.coveredBy n = true) (hn : n.NonNegative) (o : MultiAsset) :
    (m.add o).coveredBy (n.add o) = true := by
  apply coveredBy_iff.2
  apply Table.Below.union (P := Asset.NonNegative) Asset.coveredBy_refl _ _ (coveredBy_iff.1 h)
    (nonNegative_iff.1 hn) (isUnion_add m o) (isUnion_add n o)
  · intro a b c hab hb
    exact Asset.coveredBy_add_add hab hb c
  · intro b c hb
    have hsum := Asset.coveredBy_add_add (Asset.empty_coveredBy b) hb c
    rwa [Asset.empty_add] at hsum

end MultiAsset

/-! ## Values -/

namespace Value

variable {v w : Value}

/-- The coins are added, and so are the assets. -/
structure IsSum (v w s : Value) : Prop where
  coin : s.coin = v.coin + w.coin
  assets : v.assets.IsSum w.assets s.assets

theorem isSum_add (v w : Value) : v.IsSum w (v.add w) where
  coin := rfl
  assets := MultiAsset.isSum_add v.assets w.assets

theorem add_same_comm (v w : Value) : (v.add w).Same (w.add v) :=
  ⟨Int.add_comm v.coin w.coin, MultiAsset.add_same_comm v.assets w.assets⟩

theorem add_assoc (v w x : Value) : (v.add w).add x = v.add (w.add x) := by
  rw [add, add, add, add, Int.add_assoc, MultiAsset.add_assoc]

theorem empty_add (v : Value) : (ofCoin 0).add v = v := by
  rw [add, ofCoin, Int.zero_add, MultiAsset.empty_add]

theorem add_empty (v : Value) : v.add (ofCoin 0) = v := by
  rw [add, ofCoin, Int.add_zero, MultiAsset.add_empty]

theorem coveredBy_add_add (h : v.coveredBy w = true) (hw : w.NonNegative) (x : Value) :
    (v.add x).coveredBy (w.add x) = true := by
  obtain ⟨hcoin, hassets⟩ := coveredBy_iff.1 h
  exact coveredBy_iff.2 ⟨Int.add_le_add_right hcoin x.coin,
    MultiAsset.coveredBy_add_add hassets hw x.assets⟩

end Value

/-! ## Bundles of each type -/

/-- Bundles with an addition that is commutative up to order, and in accord with covering. -/
class AdditiveBundle (α : Type) [Codec α] [Bundle α] : Prop extends LawfulBundle α where
  add_same_comm (a b : α) : Bundle.Same (Bundle.add a b) (Bundle.add b a)
  add_assoc (a b c : α) :
    Bundle.add (Bundle.add a b) c = Bundle.add a (Bundle.add b c)
  empty_add (a : α) : Bundle.add Bundle.empty a = a
  add_empty (a : α) : Bundle.add a Bundle.empty = a
  coveredBy_add_add {a b : α} : Bundle.coveredBy a b = true → Bundle.NonNegative b → ∀ c,
    Bundle.coveredBy (Bundle.add a c) (Bundle.add b c) = true

instance : AdditiveBundle Asset where
  add_same_comm := Asset.add_same_comm
  add_assoc := Asset.add_assoc
  empty_add := Asset.empty_add
  add_empty := Asset.add_empty
  coveredBy_add_add := Asset.coveredBy_add_add

instance : AdditiveBundle MultiAsset where
  add_same_comm := MultiAsset.add_same_comm
  add_assoc := MultiAsset.add_assoc
  empty_add := MultiAsset.empty_add
  add_empty := MultiAsset.add_empty
  coveredBy_add_add := MultiAsset.coveredBy_add_add

instance : AdditiveBundle Value where
  add_same_comm := Value.add_same_comm
  add_assoc := Value.add_assoc
  empty_add := Value.empty_add
  add_empty := Value.add_empty
  coveredBy_add_add := Value.coveredBy_add_add

namespace Bundle

open AdditiveBundle

variable {α : Type} [Codec α] [Bundle α]

/-- Addition is commutative and associative and has the empty bundle as its identity, up to equality
by bytes.  What is added to two bundles, one covered by the other, leaves them so if no quantity in
the greater one is negative. -/
structure Additive (α : Type) [Codec α] [Bundle α] : Prop where
  add_comm : ∀ a b : α, Codec.Fits (add a b) → Equal (add a b) (add b a)
  add_assoc : ∀ a b c : α, Codec.Fits (add (add a b) c) →
    Equal (add (add a b) c) (add a (add b c))
  empty_add : ∀ a : α, Codec.Fits a → Equal (add empty a) a
  add_empty : ∀ a : α, Codec.Fits a → Equal (add a empty) a
  covered_add_add : ∀ a b c : α, Covered a b → NonNegative b → Covered (add a c) (add b c)

theorem additive [AdditiveBundle α] : Additive α where
  add_comm a b hfits := by
    have hsame := add_same_comm a b
    exact equal_iff.2 ⟨hsame.fits hfits, hsame⟩
  add_assoc a b c hfits := by
    rw [← AdditiveBundle.add_assoc]
    exact equal_iff.2 ⟨hfits, same_refl _⟩
  empty_add a hfits := by
    rw [AdditiveBundle.empty_add]
    exact equal_iff.2 ⟨hfits, same_refl a⟩
  add_empty a hfits := by
    rw [AdditiveBundle.add_empty]
    exact equal_iff.2 ⟨hfits, same_refl a⟩
  covered_add_add a b c hab hb := covered_iff.2 (coveredBy_add_add (covered_iff.1 hab) hb c)

end Bundle

/-- Addition loses nothing, and makes a commutative monoid of the assets of one policy, of the
assets of several policies and of values.  A sum holds exactly what either side holds, the new keys
of the second behind those of the first, and its quantities are the sums. -/
theorem bundles_add_up :
    (∀ a b : Asset, a.IsSum b (a.add b)) ∧ (∀ m n : MultiAsset, m.IsSum n (m.add n)) ∧
      (∀ v w : Value, v.IsSum w (v.add w)) ∧
      Bundle.Additive Asset ∧ Bundle.Additive MultiAsset ∧ Bundle.Additive Value :=
  ⟨Asset.isSum_add, MultiAsset.isSum_add, Value.isSum_add, Bundle.additive, Bundle.additive,
    Bundle.additive⟩

theorem bundles_add_up_holding :
    holding.IsSum spending (holding.add spending) ∧
      Codec.Fits (holding.add spending) ∧ holding.add spending ≠ spending.add holding ∧
      Bundle.Equal (holding.add spending) (spending.add holding) ∧
      Bundle.Covered (.ofCoin 5) remaining ∧ remaining.NonNegative ∧
      Bundle.Covered ((Value.ofCoin 5).add holding) (remaining.add holding) := by
  obtain ⟨-, -, hsum, -, -, hvalues⟩ := bundles_add_up
  have hfits : Codec.Fits (holding.add spending) := by decide
  have hcovered : Bundle.Covered (.ofCoin 5) remaining := by rfl
  have hnonnegative : remaining.NonNegative := by decide
  exact ⟨hsum holding spending, hfits, by decide, hvalues.add_comm holding spending hfits, hcovered,
    hnonnegative, hvalues.covered_add_add (.ofCoin 5) remaining holding hcovered hnonnegative⟩

end Eutxo

import Eutxo.Proofs.Ledger.Equality

/-!
# Subtraction

A bundle is subtracted from another one only if that covers it.  What is then
left is the difference key by key: a key with nothing left is gone, and a key
that the subtrahend does not name keeps what it had, be it zero, negative or an
empty bundle.
-/

namespace Eutxo

open Traversal

/-- A subtraction is guarded: it has a result exactly if the minuend covers the subtrahend, the
result is the difference, and without one the fault is the shortfall.  The fault shows both sides in
bytes, so it takes two that can be written. -/
structure Guarded {α : Type} [Codec α] (minuend subtrahend : α) (covered : Bool)
    (result : Except Fault α) (difference : α → Prop) (shortfall : Fault → Prop) : Prop where
  exists_ok_iff : (∃ d, result = .ok d) ↔ covered = true
  of_ok : ∀ d, result = .ok d → difference d
  of_error : Codec.Fits minuend → Codec.Fits subtrahend →
    ∀ fault, result = .error fault → shortfall fault

/-- A fault that shows both sides of a subtraction in bytes. -/
def Codec.ShownIn {α : Type} [Codec α] (minuend subtrahend : α) (shown : Bytes → Bytes → Fault)
    (fault : Fault) : Prop :=
  ∃ x y, Codec.toCbor minuend = .ok x ∧ Codec.toCbor subtrahend = .ok y ∧ fault = shown x y

namespace Guarded

variable {α : Type} [Codec α] {minuend subtrahend : α} {covered : Bool} {result : Except Fault α}
  {difference : α → Prop} {shortfall : Fault → Prop}

/-- There is a result of some kind exactly under a condition, if the condition implies coverage and,
under coverage, says of each difference whether it is of that kind. -/
theorem exists_iff (h : Guarded minuend subtrahend covered result difference shortfall)
    {P : Prop} {Q : α → Prop} (hcovered : P → covered = true)
    (hkind : covered = true → ∀ d, difference d → (Q d ↔ P)) :
    (∃ d, result = .ok d ∧ Q d) ↔ P := by
  constructor
  · rintro ⟨d, hd, hQ⟩
    exact (hkind (h.exists_ok_iff.1 ⟨d, hd⟩) d (h.of_ok d hd)).1 hQ
  · intro hP
    obtain ⟨d, hd⟩ := h.exists_ok_iff.2 (hcovered hP)
    exact ⟨d, hd, (hkind (hcovered hP) d (h.of_ok d hd)).2 hP⟩

/-- The result is the difference, if there is a difference only under coverage and never a second
one. -/
theorem eq_ok_iff (h : Guarded minuend subtrahend covered result difference shortfall)
    (hcovered : ∀ d, difference d → covered = true)
    (hunique : ∀ d e, difference d → difference e → d = e) {d : α} :
    result = .ok d ↔ difference d := by
  constructor
  · exact h.of_ok d
  · intro hd
    obtain ⟨e, he⟩ := h.exists_ok_iff.2 (hcovered d hd)
    rw [he, hunique e d (h.of_ok e he) hd]

theorem of_covered (hcovered : covered = true) (h : ∃ d, result = .ok d ∧ difference d) :
    Guarded minuend subtrahend covered result difference shortfall := by
  obtain ⟨d, rfl, hd⟩ := h
  exact ⟨iff_of_true ⟨d, rfl⟩ hcovered, fun _ heq => Except.ok.inj heq ▸ hd, nofun⟩

theorem of_uncovered (huncovered : covered ≠ true) (hnone : ∀ d, result ≠ .ok d)
    (herror : Codec.Fits minuend → Codec.Fits subtrahend →
      ∀ fault, result = .error fault → shortfall fault) :
    Guarded minuend subtrahend covered result difference shortfall where
  exists_ok_iff := iff_of_false (fun ⟨d, hd⟩ => hnone d hd) huncovered
  of_ok d hd := absurd hd (hnone d)
  of_error := herror

/-- Where the two sides are shown instead of subtracted, the fault shows both of them. -/
theorem of_shown [Codec.Regular α] {shown : Bytes → Bytes → Fault} (huncovered : covered ≠ true)
    (hresult : result = do
      let x ← Codec.toCbor minuend
      let y ← Codec.toCbor subtrahend
      throw (shown x y)) :
    Guarded minuend subtrahend covered result difference
      (Codec.ShownIn minuend subtrahend shown) := by
  refine of_uncovered huncovered (fun d hd => ?_) fun hminuend hsubtrahend fault hfault => ?_
  · obtain ⟨x, -, hd⟩ := bind_eq_ok.1 (hresult.symm.trans hd)
    obtain ⟨y, -, hthrow⟩ := bind_eq_ok.1 hd
    cases hthrow
  · obtain ⟨x, hx⟩ := Codec.exists_toCbor_iff.2 hminuend
    obtain ⟨y, hy⟩ := Codec.exists_toCbor_iff.2 hsubtrahend
    rw [hresult, hx, hy] at hfault
    exact ⟨x, y, hx, hy, (Except.error.inj hfault).symm⟩

end Guarded

/-! ## Tables -/

namespace Table

variable {κ α β ε : Type} [DecidableEq κ]

/-- Each key of a table is one of another table, under which something goes together with what
stands here. -/
theorem all_any_iff (p : α → β → Bool) (t : Table κ α) (u : Table κ β) :
    (t.entries.all fun e => (u.get? e.1).any (p e.2)) = true ↔
      ∀ k a, t.get? k = some a → ∃ b, u.get? k = some b ∧ p a b = true := by
  simp only [List.all_eq_true, Option.any_eq_true, get?_eq_some_iff (t := t), Prod.forall]

/-- What is left of a table when another one is taken away from it, key by key and in the same
order.  Of `a` under a key, `leaves a b o` says that taking `b` away leaves `o`, if anything. -/
structure IsDifference (leaves : α → β → Option α → Prop) (t : Table κ α) (u : Table κ β)
    (d : Table κ α) : Prop where
  kept : ∀ k, u.get? k = none → d.get? k = t.get? k
  shared : ∀ k b, u.get? k = some b → ∃ a, t.get? k = some a ∧ leaves a b (d.get? k)
  order : d.keys.Sublist t.keys

theorem Updated.isDifference {f : Option α → β → Except ε (Option α)}
    {leaves : α → β → Option α → Prop} {t d : Table κ α} {u : Table κ β}
    (h : Updated f u.entries t d)
    (hleaves : ∀ k b, u.get? k = some b →
      ∃ a, t.get? k = some a ∧ ∀ o, f (some a) b = .ok o → leaves a b o) :
    IsDifference leaves t u d where
  kept k hk := h.kept k (get?_eq_none_iff.1 hk)
  shared k b hk := by
    obtain ⟨a, ha, hab⟩ := hleaves k b hk
    have hset := h.set (k, b) (get?_eq_some_iff.1 hk)
    rw [ha] at hset
    exact ⟨a, ha, hab _ hset⟩
  order := h.order fun e he => by
    obtain ⟨a, ha, -⟩ := hleaves e.1 e.2 (get?_eq_some_iff.2 he)
    exact List.mem_map_of_mem (f := Prod.fst) (get?_eq_some_iff.1 ha)

end Table

/-! ## One policy -/

namespace Asset

theorem coveredBy_iff {a b : Asset} :
    a.coveredBy b = true ↔ ∀ name p, a.get? name = some p → ∃ q, b.get? name = some q ∧ p ≤ q := by
  have hall : a.coveredBy b = a.entries.all fun e => (b.get? e.1).any fun q => e.2 ≤ q := by
    rw [coveredBy]
    congr
    funext e
    cases b.get? e.1 <;> rfl
  rw [hall]
  refine (Table.all_any_iff (fun p q => decide (p ≤ q)) a.quantities b.quantities).trans ?_
  simp only [decide_eq_true_iff]
  exact Iff.rfl

/-- What taking a quantity away leaves: nothing if the quantities are equal, and else a positive
difference. -/
def Leaves (q p : Int) (o : Option Int) : Prop := p ≤ q ∧ o = if p = q then none else some (q - p)

/-- The bundle is what is left of `b` when `a` is taken away. -/
def IsDifference (b a d : Asset) : Prop :=
  Table.IsDifference Leaves b.quantities a.quantities d.quantities

theorem IsDifference.get?_of_absent {b a d : Asset} (h : b.IsDifference a d) {name : AssetName}
    (ha : a.get? name = none) : d.get? name = b.get? name :=
  h.kept name ha

theorem IsDifference.get?_of_present {b a d : Asset} (h : b.IsDifference a d) {name : AssetName}
    {p : Int} (ha : a.get? name = some p) : ∃ q, b.get? name = some q ∧ Leaves q p (d.get? name) :=
  h.shared name p ha

/-- What comes to stand under a name when a quantity is taken away from what stands there. -/
def remainder (o : Option Int) (q : Int) : Option Int :=
  if o.getD 0 - q = 0 then none else some (o.getD 0 - q)

theorem takeAway_eq_set (t : Table AssetName Int) (name : AssetName) (q : Int) :
    takeAway t name q = t.set name (remainder (t.get? name) q) := by
  rw [takeAway, remainder]
  split_ifs <;> rfl

theorem leaves_remainder {q p : Int} (hle : p ≤ q) : Leaves q p (remainder (some q) p) := by
  refine ⟨hle, ?_⟩
  rw [remainder, Option.getD_some]
  by_cases hpq : p = q
  · rw [if_pos hpq, if_pos (by omega)]
  · rw [if_neg hpq, if_neg (by omega)]

/-- A bundle that is covered is subtracted. -/
theorem exists_subtract {a b : Asset} (h : a.coveredBy b = true) :
    ∃ d, b.subtract a = .ok d ∧ b.IsDifference a d := by
  have hupdated := Table.updated_foldl (ε := Fault) remainder a.quantities.nodup_keys b.quantities
  refine ⟨_, if_pos h, ?_⟩
  simp only [takeAway_eq_set]
  refine hupdated.isDifference fun name p hp => ?_
  obtain ⟨q, hq, hle⟩ := coveredBy_iff.1 h name p hp
  refine ⟨q, hq, fun o ho => ?_⟩
  cases ho
  exact leaves_remainder hle

theorem guarded_subtract (a b : Asset) :
    Guarded b a (a.coveredBy b) (b.subtract a) (b.IsDifference a)
      (Codec.ShownIn b a .assetShortfall) := by
  by_cases h : a.coveredBy b = true
  · exact .of_covered h (exists_subtract h)
  · exact .of_shown h (if_neg h)

end Asset

/-! ## Several policies -/

namespace MultiAsset

theorem coveredBy_iff {m n : MultiAsset} :
    m.coveredBy n = true ↔
      ∀ policy a, m.get? policy = some a → ∃ b, n.get? policy = some b ∧ a.coveredBy b = true := by
  have hall : m.coveredBy n = m.entries.all fun e => (n.get? e.1).any e.2.coveredBy := by
    rw [coveredBy]
    congr
    funext e
    cases n.get? e.1 <;> rfl
  rw [hall]
  exact Table.all_any_iff Asset.coveredBy m.bundles n.bundles

/-- What taking a bundle away leaves: nothing if the difference has no names. -/
def Leaves (b a : Asset) (o : Option Asset) : Prop :=
  ∃ d, b.subtract a = .ok d ∧ b.IsDifference a d ∧ o = if d.isEmpty then none else some d

/-- The bundles are what is left of `m` when `n` is taken away. -/
def IsDifference (m n d : MultiAsset) : Prop :=
  Table.IsDifference Leaves m.bundles n.bundles d.bundles

theorem IsDifference.get?_of_absent {m n d : MultiAsset} (h : m.IsDifference n d)
    {policy : PolicyId} (hn : n.get? policy = none) : d.get? policy = m.get? policy :=
  h.kept policy hn

theorem IsDifference.get?_of_present {m n d : MultiAsset} (h : m.IsDifference n d)
    {policy : PolicyId} {a : Asset} (hn : n.get? policy = some a) :
    ∃ b, m.get? policy = some b ∧ Leaves b a (d.get? policy) :=
  h.shared policy a hn

/-- What comes to stand under a policy when a bundle is taken away from what stands there. -/
def remainder (o : Option Asset) (a : Asset) : Except Fault (Option Asset) := do
  let remaining ← (o.getD .empty).subtract a
  return if remaining.isEmpty then none else some remaining

theorem takeAway_eq_set (t : Table PolicyId Asset) (policy : PolicyId) (a : Asset) :
    takeAway t policy a = do return t.set policy (← remainder (t.get? policy) a) := by
  rw [takeAway, remainder]
  cases ((t.get? policy).getD .empty).subtract a with
  | error fault => rfl
  | ok remaining => cases hempty : remaining.isEmpty <;> simp only [ok_bind, hempty] <;> rfl

/-- Bundles that are covered are subtracted. -/
theorem exists_subtract {m n : MultiAsset} (h : n.coveredBy m = true) :
    ∃ d, m.subtract n = .ok d ∧ m.IsDifference n d := by
  have hcovered : ∀ policy a, n.get? policy = some a → ∃ b, m.get? policy = some b ∧
      ∃ d, b.subtract a = .ok d ∧ b.IsDifference a d := by
    intro policy a ha
    obtain ⟨b, hb, hab⟩ := coveredBy_iff.1 h policy a ha
    exact ⟨b, hb, Asset.exists_subtract hab⟩
  obtain ⟨u, hu, hupdated⟩ := Table.exists_updated (f := remainder) n.bundles.nodup_keys m.bundles
    fun e he => by
      obtain ⟨b, hb, d, hd, -⟩ := hcovered e.1 e.2 (Table.get?_eq_some_iff.2 he)
      have hb : m.bundles.get? e.1 = some b := hb
      rw [hb]
      exact ⟨_, bind_eq_ok.2 ⟨d, hd, rfl⟩⟩
  refine ⟨⟨u⟩, ?_, ?_⟩
  · rw [subtract, if_pos h]
    simp only [takeAway_eq_set]
    exact congrArg (· >>= fun t => pure (MultiAsset.mk t)) hu
  · refine hupdated.isDifference fun policy a ha => ?_
    obtain ⟨b, hb, d, hd, hdifference⟩ := hcovered policy a ha
    refine ⟨b, hb, fun o ho => ⟨d, hd, hdifference, ?_⟩⟩
    rw [remainder, Option.getD_some, hd, ok_bind, pure_eq_ok] at ho
    exact ho.symm

theorem guarded_subtract (n m : MultiAsset) :
    Guarded m n (n.coveredBy m) (m.subtract n) (m.IsDifference n)
      (Codec.ShownIn m n .multiAssetShortfall) := by
  by_cases h : n.coveredBy m = true
  · exact .of_covered h (exists_subtract h)
  · exact .of_shown h (if_neg h)

end MultiAsset

/-! ## Values -/

namespace Value

theorem coveredBy_iff {v w : Value} :
    v.coveredBy w = true ↔ v.coin ≤ w.coin ∧ v.assets.coveredBy w.assets = true := by
  rw [coveredBy, Bool.and_eq_true, decide_eq_true_iff]

/-- The value is what is left of `w` when `v` is taken away. -/
structure IsDifference (w v d : Value) : Prop where
  coin : d.coin = w.coin - v.coin
  assets : w.assets.IsDifference v.assets d.assets

/-- What is reported if `w` does not cover `v`: its coin, and if that suffices its assets. -/
def Shortfall (w v : Value) (fault : Fault) : Prop :=
  if w.coin < v.coin then fault = .coinShortfall w.coin v.coin
  else Codec.ShownIn w.assets v.assets .multiAssetShortfall fault

theorem fits_assets {v : Value} (h : Codec.Fits v) : Codec.Fits v.assets :=
  h.children v.assets.toTerm (List.mem_cons_of_mem _ List.mem_cons_self)

theorem guarded_subtract (v w : Value) :
    Guarded w v (v.coveredBy w) (w.subtract v) (w.IsDifference v) (w.Shortfall v) := by
  by_cases hcoin : w.coin < v.coin
  · have hresult : w.subtract v = .error (.coinShortfall w.coin v.coin) := if_pos hcoin
    refine .of_uncovered (fun h => ?_) (fun d hd => ?_) fun _ _ fault hfault => ?_
    · exact Int.not_le.2 hcoin (coveredBy_iff.1 h).1
    · cases hresult.symm.trans hd
    · rw [Shortfall, if_pos hcoin]
      exact (Except.error.inj (hresult.symm.trans hfault)).symm
  · have hresult : w.subtract v =
        (fun assets => ⟨w.coin - v.coin, assets⟩) <$> w.assets.subtract v.assets := by
      rw [subtract, if_neg hcoin]
      rfl
    have hassets := MultiAsset.guarded_subtract v.assets w.assets
    refine ⟨?_, fun d hd => ?_, fun hw hv fault hfault => ?_⟩
    · rw [coveredBy_iff, and_iff_right (Int.not_lt.1 hcoin), ← hassets.exists_ok_iff, hresult]
      simp only [map_eq_ok]
      exact ⟨fun ⟨_, d, hd, _⟩ => ⟨d, hd⟩, fun ⟨d, hd⟩ => ⟨_, d, hd, rfl⟩⟩
    · obtain ⟨assets, hremaining, rfl⟩ := map_eq_ok.1 (hresult.symm.trans hd)
      exact ⟨rfl, hassets.of_ok assets hremaining⟩
    · rw [Shortfall, if_neg hcoin]
      have hfault := map_eq_error.1 (hresult.symm.trans hfault)
      exact hassets.of_error (fits_assets hw) (fits_assets hv) fault hfault

end Value

/-- Subtraction is the guarded difference, of the assets of one policy, of the assets of several and
of values: it has a result exactly if the minuend covers the subtrahend, what is left is the
difference key by key in the order of the minuend, and the only fault is the shortfall. -/
theorem guarded_subtraction :
    (∀ a b : Asset, Guarded b a (a.coveredBy b) (b.subtract a) (b.IsDifference a)
      (Codec.ShownIn b a .assetShortfall)) ∧
    (∀ n m : MultiAsset, Guarded m n (n.coveredBy m) (m.subtract n) (m.IsDifference n)
      (Codec.ShownIn m n .multiAssetShortfall)) ∧
    ∀ v w : Value, Guarded w v (v.coveredBy w) (w.subtract v) (w.IsDifference v)
      (w.Shortfall v) :=
  ⟨Asset.guarded_subtract, MultiAsset.guarded_subtract, Value.guarded_subtract⟩

/-- A value with a zero and a negative quantity, and with two policies that have no names. -/
def holding : Value where
  coin := 10
  assets := ⟨[
    (⟨List.replicate 28 1, rfl⟩, ⟨[(⟨[0x61], by decide⟩, 5), (⟨[0x62], by decide⟩, 0),
      (⟨[0x63], by decide⟩, -2)], by decide⟩),
    (⟨List.replicate 28 2, rfl⟩, .empty),
    (⟨List.replicate 28 3, rfl⟩, .empty)], by decide⟩

/-- A value that `holding` covers, and that names a part of it. -/
def spending : Value where
  coin := 4
  assets := ⟨[
    (⟨List.replicate 28 2, rfl⟩, .empty),
    (⟨List.replicate 28 1, rfl⟩, ⟨[(⟨[0x63], by decide⟩, -3), (⟨[0x61], by decide⟩, 5)],
      by decide⟩)], by decide⟩

/-- What is left of `holding` when `spending` is taken away. -/
def remaining : Value where
  coin := 6
  assets := ⟨[
    (⟨List.replicate 28 1, rfl⟩, ⟨[(⟨[0x62], by decide⟩, 0), (⟨[0x63], by decide⟩, 1)],
      by decide⟩),
    (⟨List.replicate 28 3, rfl⟩, .empty)], by decide⟩

theorem guarded_subtraction_holding :
    holding.subtract spending = .ok remaining ∧ holding.IsDifference spending remaining ∧
      Codec.Fits spending ∧ Codec.Fits holding ∧
      ∃ fault, spending.subtract holding = .error fault ∧ spending.Shortfall holding fault := by
  have hremaining : holding.subtract spending = .ok remaining := by rfl
  have hshortfall : spending.subtract holding = .error (.coinShortfall 4 10) := by rfl
  have hspending : Codec.Fits spending := by decide
  have hholding : Codec.Fits holding := by decide
  exact ⟨hremaining, (guarded_subtraction.2.2 spending holding).of_ok remaining hremaining,
    hspending, hholding, _, hshortfall,
    (guarded_subtraction.2.2 holding spending).of_error hspending hholding _ hshortfall⟩

end Eutxo

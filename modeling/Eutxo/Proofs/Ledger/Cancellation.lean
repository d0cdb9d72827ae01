import Eutxo.Proofs.Ledger.Addition

/-!
# Addition and subtraction

What was subtracted can be added again: names and policies that the subtraction
removed come back with the subtrahend.  The other way round, a subtraction undoes
an addition unless it removes, or cannot take away from, what was there before.
-/

namespace Eutxo

open Traversal Term

theorem Table.isEmpty_iff {κ α : Type} [DecidableEq κ] {t : Table κ α} :
    t.isEmpty = true ↔ ∀ k, t.get? k = none := by
  rw [isEmpty, List.isEmpty_iff]
  constructor
  · intro h k
    rw [get?, h]
    rfl
  · intro h
    apply List.eq_nil_iff_forall_not_mem.2
    intro e he
    exact get?_eq_none_iff.1 (h e.1) (List.mem_map_of_mem he)

/-! ## One policy -/

namespace Asset

variable {a b d : Asset} {name : AssetName}

theorem isEmpty_iff : a.isEmpty = true ↔ ∀ name, a.get? name = none := Table.isEmpty_iff

theorem eq_empty_of_isEmpty (h : a.isEmpty = true) : a = .empty := by
  obtain ⟨⟨entries, hnodup⟩⟩ := a
  cases List.isEmpty_iff.1 h
  rfl

theorem Same.isEmpty_eq (h : a.Same b) : a.isEmpty = b.isEmpty := by
  rw [Bool.eq_iff_iff, isEmpty_iff, isEmpty_iff]
  exact forall_congr' fun name => by rw [h name]

theorem Leaves.getD_add {q p : Int} {o : Option Int} (h : Leaves q p o) : o.getD 0 + p = q := by
  rw [h.2]
  split_ifs with hpq
  · rw [Option.getD_none, hpq, Int.zero_add]
  · rw [Option.getD_some, Int.sub_add_cancel]

/-- What was taken away comes back when it is added. -/
theorem IsDifference.add_same (h : b.IsDifference a d) : (d.add a).Same b := by
  intro name
  cases ha : a.get? name with
  | none =>
    calc (d.add a).get? name = d.get? name := get?_add_of_absent ha
      _ = b.get? name := h.get?_of_absent ha
  | some p =>
    obtain ⟨q, hq, hleaves⟩ := h.get?_of_present ha
    calc (d.add a).get? name = some ((d.get? name).getD 0 + p) := get?_add_of_present ha
      _ = some q := congrArg some hleaves.getD_add
      _ = b.get? name := hq.symm

/-- The quantities of the names that `b` holds as well are positive. -/
def PositiveOn (a b : Asset) : Prop :=
  ∀ name p q, a.get? name = some p → b.get? name = some q → 0 < p

theorem coveredBy_add (h : a.PositiveOn b) : b.coveredBy (a.add b) = true := by
  refine coveredBy_iff.2 fun name q hq => ⟨_, get?_add_of_present hq, ?_⟩
  cases ha : a.get? name with
  | none => rw [Option.getD_none, Int.zero_add]
  | some p =>
    have hpositive := h name p q ha hq
    rw [Option.getD_some]
    omega

/-- Adding a quantity and taking it away leaves what there was, unless that was not positive. -/
theorem Leaves.eq_iff {o r : Option Int} {q : Int} (h : Leaves (o.getD 0 + q) q r) :
    r = o ↔ ∀ p ∈ o, 0 < p := by
  obtain ⟨hle, rfl⟩ := h
  cases o with
  | none => simp
  | some p =>
    rw [Option.getD_some] at hle
    simp only [Option.getD_some, Int.add_sub_cancel, Option.mem_def, Option.some.injEq,
      forall_eq']
    split_ifs with hzero
    · exact iff_of_false nofun (by omega)
    · exact iff_of_true rfl (by omega)

theorem IsDifference.leaves_of_add {q : Int} (h : (a.add b).IsDifference b d)
    (hb : b.get? name = some q) : Leaves ((a.get? name).getD 0 + q) q (d.get? name) := by
  obtain ⟨s, hs, hleaves⟩ := h.get?_of_present hb
  have hsum : (a.get? name).getD 0 + q = s :=
    Option.some.inj ((get?_add_of_present hb).symm.trans hs)
  exact hsum ▸ hleaves

/-- Taking an addition back gives what was there exactly if what is shared was positive. -/
theorem IsDifference.same_iff (h : (a.add b).IsDifference b d) : d.Same a ↔ a.PositiveOn b := by
  constructor
  · intro hsame name p q hp hq
    exact (h.leaves_of_add hq).eq_iff.1 (hsame name) p hp
  · intro hpositive name
    cases hb : b.get? name with
    | none =>
      calc d.get? name = (a.add b).get? name := h.get?_of_absent hb
        _ = a.get? name := get?_add_of_absent hb
    | some q =>
      apply (h.leaves_of_add hb).eq_iff.2
      intro p hp
      exact hpositive name p q hp hb

end Asset

/-! ## Several policies -/

namespace MultiAsset

variable {m n d : MultiAsset} {policy : PolicyId}

/-- A policy that was removed is one whose bundle was left without names. -/
theorem Leaves.isDifference {b a : Asset} {o : Option Asset} (h : Leaves b a o) :
    b.IsDifference a (o.getD .empty) := by
  obtain ⟨d, -, hd, rfl⟩ := h
  split_ifs with hempty
  · rw [Option.getD_none, ← Asset.eq_empty_of_isEmpty hempty]
    exact hd
  · exact hd

/-- What was taken away comes back when it is added. -/
theorem IsDifference.add_same (h : m.IsDifference n d) : (d.add n).Same m := by
  intro policy
  cases hn : n.get? policy with
  | none =>
    rw [get?_add_of_absent hn, h.get?_of_absent hn]
    exact optionRel_same_refl _
  | some a =>
    obtain ⟨b, hb, hleaves⟩ := h.get?_of_present hn
    rw [get?_add_of_present hn, hb]
    exact .some hleaves.isDifference.add_same

/-- The bundles of the policies that `n` names as well have names, and positive quantities of the
names that are shared. -/
def PositiveOn (m n : MultiAsset) : Prop :=
  ∀ policy a b, m.get? policy = some a → n.get? policy = some b →
    a.isEmpty = false ∧ a.PositiveOn b

theorem positiveOn_getD (h : m.PositiveOn n) {b : Asset} (hb : n.get? policy = some b) :
    ((m.get? policy).getD .empty).PositiveOn b := by
  cases hm : m.get? policy with
  | none => exact fun name p q hp _ => nomatch hp
  | some a => exact (h policy a b hm hb).2

theorem coveredBy_add (h : m.PositiveOn n) : n.coveredBy (m.add n) = true :=
  coveredBy_iff.2 fun _ _ hb =>
    ⟨_, get?_add_of_present hb, Asset.coveredBy_add (positiveOn_getD h hb)⟩

/-- Adding a bundle and taking it away leaves what there was, unless that had no names or what is
shared was not positive. -/
theorem Leaves.rel_iff {o r : Option Asset} {a : Asset} (h : Leaves ((o.getD .empty).add a) a r) :
    Option.Rel Asset.Same r o ↔ ∀ b ∈ o, b.isEmpty = false ∧ b.PositiveOn a := by
  obtain ⟨d, -, hd, rfl⟩ := h
  cases o with
  | none =>
    have hnames : d.Same .empty := hd.same_iff.2 fun _ _ _ hp _ => nomatch hp
    have hempty : d.isEmpty = true := hnames.isEmpty_eq
    rw [if_pos hempty]
    exact iff_of_true .none nofun
  | some b =>
    have hback : d.Same b ↔ b.PositiveOn a := hd.same_iff
    simp only [Option.mem_def, Option.some.injEq, forall_eq']
    rw [← hback]
    split_ifs with hempty
    · refine iff_of_false nofun fun ⟨hb, hsame⟩ => ?_
      rw [← hsame.isEmpty_eq, hempty] at hb
      cases hb
    · rw [Option.rel_some_some, iff_and_self]
      intro hsame
      rw [← hsame.isEmpty_eq]
      exact Bool.eq_false_iff.2 hempty

theorem IsDifference.leaves_of_add {a : Asset} (h : (m.add n).IsDifference n d)
    (hn : n.get? policy = some a) :
    Leaves (((m.get? policy).getD .empty).add a) a (d.get? policy) := by
  obtain ⟨s, hs, hleaves⟩ := h.get?_of_present hn
  have hsum : ((m.get? policy).getD .empty).add a = s :=
    Option.some.inj ((get?_add_of_present hn).symm.trans hs)
  exact hsum ▸ hleaves

/-- Taking an addition back gives what was there exactly if what is shared was positive, and no
policy that is shared was without names. -/
theorem IsDifference.same_iff (h : (m.add n).IsDifference n d) : d.Same m ↔ m.PositiveOn n := by
  constructor
  · intro hsame policy a b ha hb
    exact (h.leaves_of_add hb).rel_iff.1 (hsame policy) a ha
  · intro hpositive policy
    cases hn : n.get? policy with
    | none =>
      rw [h.get?_of_absent hn, get?_add_of_absent hn]
      exact optionRel_same_refl _
    | some b =>
      apply (h.leaves_of_add hn).rel_iff.2
      intro a ha
      exact hpositive policy a b ha hn

end MultiAsset

/-! ## Values -/

namespace Value

variable {v w d : Value}

/-- What was taken away comes back when it is added. -/
theorem IsDifference.add_same (h : w.IsDifference v d) : (d.add v).Same w := by
  have hcoin : d.coin + v.coin = w.coin := by rw [h.coin, Int.sub_add_cancel]
  exact ⟨hcoin, h.assets.add_same⟩

/-- The coin is not negative, and what the assets share is positive. -/
def PositiveOn (v w : Value) : Prop := 0 ≤ v.coin ∧ v.assets.PositiveOn w.assets

theorem coveredBy_add (h : v.PositiveOn w) : w.coveredBy (v.add w) = true := by
  have hcoin : w.coin ≤ v.coin + w.coin := Int.le_add_of_nonneg_left h.1
  exact coveredBy_iff.2 ⟨hcoin, MultiAsset.coveredBy_add h.2⟩

/-- Taking an addition back gives what was there exactly if that is so for the assets. -/
theorem IsDifference.same_iff (h : (v.add w).IsDifference w d) :
    d.Same v ↔ v.assets.PositiveOn w.assets := by
  have hcoin : d.coin = v.coin := h.coin.trans (Int.add_sub_cancel v.coin w.coin)
  exact (and_iff_right hcoin).trans h.assets.same_iff

end Value

/-! ## Both laws -/

/-- Subtracting and then adding restores the minuend: what is covered can be subtracted, and adding
it to the difference gives a bundle or value that is equal to the one before. -/
theorem add_of_subtract :
    (∀ a b : Asset, Codec.Fits b →
      Record.coveredBy? (.asset a) (.record (.asset b)) = some (.ok true) →
      ∃ d, b.subtract a = .ok d ∧ Record.equals (.asset (d.add a)) (.asset b) = .ok true) ∧
    (∀ n m : MultiAsset, Codec.Fits m →
      Record.coveredBy? (.multiAsset n) (.record (.multiAsset m)) = some (.ok true) →
      ∃ d, m.subtract n = .ok d ∧
        Record.equals (.multiAsset (d.add n)) (.multiAsset m) = .ok true) ∧
    ∀ v w : Value, Codec.Fits w →
      Record.coveredBy? (.value v) (.record (.value w)) = some (.ok true) →
      ∃ d, w.subtract v = .ok d ∧ Record.equals (.value (d.add v)) (.value w) = .ok true := by
  refine ⟨fun a b hfits hcovered => ?_, fun n m hfits hcovered => ?_,
    fun v w hfits hcovered => ?_⟩
  · have hcovered : a.coveredBy b = true := Except.ok.inj (Option.some.inj hcovered)
    refine ((Asset.guarded_subtract a b).exists_iff id fun _ d hd => ?_).2 hcovered
    exact iff_of_true (Asset.equals_iff.2 ⟨hfits, hd.add_same⟩) hcovered
  · have hcovered : n.coveredBy m = true := Except.ok.inj (Option.some.inj hcovered)
    refine ((MultiAsset.guarded_subtract n m).exists_iff id fun _ d hd => ?_).2 hcovered
    exact iff_of_true (MultiAsset.equals_iff.2 ⟨hfits, hd.add_same⟩) hcovered
  · have hcovered : v.coveredBy w = true := Except.ok.inj (Option.some.inj hcovered)
    refine ((Value.guarded_subtract v w).exists_iff id fun _ d hd => ?_).2 hcovered
    exact iff_of_true (Value.equals_iff.2 ⟨hfits, hd.add_same⟩) hcovered

theorem add_of_subtract_holding : Codec.Fits holding ∧
    Record.coveredBy? (.value spending) (.record (.value holding)) = some (.ok true) ∧
    ∃ d, holding.subtract spending = .ok d ∧
      Record.equals (.value (d.add spending)) (.value holding) = .ok true := by
  have hfits : Codec.Fits holding := by decide
  have hcovered : Record.coveredBy? (.value spending) (.record (.value holding)) =
      some (.ok true) := by rfl
  exact ⟨hfits, hcovered, add_of_subtract.2.2 spending holding hfits hcovered⟩

/-- Subtraction undoes an addition exactly if what was there before is positive wherever the two
sides share a name, has names wherever they share a policy, and its coin is not negative. -/
theorem subtract_of_add_iff :
    (∀ a b : Asset, Codec.Fits a →
      ((∃ d, (a.add b).subtract b = .ok d ∧ Record.equals (.asset d) (.asset a) = .ok true) ↔
        a.PositiveOn b)) ∧
    (∀ m n : MultiAsset, Codec.Fits m →
      ((∃ d, (m.add n).subtract n = .ok d ∧
          Record.equals (.multiAsset d) (.multiAsset m) = .ok true) ↔ m.PositiveOn n)) ∧
    ∀ v w : Value, Codec.Fits v →
      ((∃ d, (v.add w).subtract w = .ok d ∧ Record.equals (.value d) (.value v) = .ok true) ↔
        v.PositiveOn w) := by
  refine ⟨fun a b hfits => ?_, fun m n hfits => ?_, fun v w hfits => ?_⟩
  · refine (Asset.guarded_subtract b (a.add b)).exists_iff Asset.coveredBy_add fun _ d hd => ?_
    rw [Asset.equals_iff, and_iff_right hfits, hd.same_iff]
  · refine (MultiAsset.guarded_subtract n (m.add n)).exists_iff MultiAsset.coveredBy_add
      fun _ d hd => ?_
    rw [MultiAsset.equals_iff, and_iff_right hfits, hd.same_iff]
  · refine (Value.guarded_subtract w (v.add w)).exists_iff Value.coveredBy_add
      fun hcovered d hd => ?_
    have hcoin : 0 ≤ v.coin := (le_add_iff_nonneg_left w.coin).1 (Value.coveredBy_iff.1 hcovered).1
    rw [Value.equals_iff, and_iff_right hfits, hd.same_iff, Value.PositiveOn, and_iff_right hcoin]

theorem subtract_of_add_iff_holding :
    Codec.Fits remaining ∧ (remaining.add spending).subtract spending = .ok remaining ∧
      Record.equals (.value remaining) (.value remaining) = .ok true ∧
      remaining.PositiveOn spending ∧
    Codec.Fits holding ∧ ¬ holding.PositiveOn spending ∧
      ¬ ∃ d, (holding.add spending).subtract spending = .ok d ∧
        Record.equals (.value d) (.value holding) = .ok true := by
  have hremaining : Codec.Fits remaining := by decide
  have hundone : (remaining.add spending).subtract spending = .ok remaining := by rfl
  have hequal : Record.equals (.value remaining) (.value remaining) = .ok true :=
    Value.equals_iff.2 ⟨hremaining, Value.reordered_iff_same.1 (.refl _)⟩
  have hholding : Codec.Fits holding := by decide
  -- The second policy has no names in `holding`, and `spending` names it too.
  have hpolicy : ¬ holding.PositiveOn spending := fun h =>
    nomatch (h.2 ⟨List.replicate 28 2, rfl⟩ .empty .empty rfl rfl).1
  exact ⟨hremaining, hundone, hequal,
    (subtract_of_add_iff.2.2 remaining spending hremaining).1 ⟨remaining, hundone, hequal⟩,
    hholding, hpolicy, mt (subtract_of_add_iff.2.2 holding spending hholding).1 hpolicy⟩

end Eutxo

import Mathlib.Data.List.Forall2

/-!
# Steps that may fail

Encoders and decoders chain steps that may fail and run one step over a list.
These lemmas take a success apart into the successes of its steps.
-/

namespace Eutxo.Traversal

variable {ε α β γ : Type}

theorem bind_eq_ok {x : Except ε α} {f : α → Except ε β} {b : β} :
    (x >>= f) = .ok b ↔ ∃ a, x = .ok a ∧ f a = .ok b := by
  cases x with
  | error e => simp [bind, Except.bind]
  | ok a => simp [bind, Except.bind]

theorem map_eq_ok {x : Except ε α} {f : α → β} {b : β} :
    f <$> x = .ok b ↔ ∃ a, x = .ok a ∧ f a = b := by
  cases x with
  | error e => simp [Functor.map, Except.map]
  | ok a => simp [Functor.map, Except.map]

@[simp]
theorem pure_eq_ok {a b : α} : (pure a : Except ε α) = .ok b ↔ a = b := by
  simp [pure, Except.pure]

@[simp]
theorem ok_bind {a : α} {f : α → Except ε β} : (Except.ok a >>= f) = f a := rfl

@[simp]
theorem error_bind {e : ε} {f : α → Except ε β} : (Except.error e >>= f) = .error e := rfl

@[simp]
theorem map_ok {a : α} {f : α → β} : f <$> (Except.ok a : Except ε α) = .ok (f a) := rfl

@[simp]
theorem map_error {e : ε} {f : α → β} : f <$> (Except.error e : Except ε α) = .error e := rfl

/-- A chain of two steps fails where its first or its second step fails. -/
theorem bind_eq_error {x : Except ε α} {f : α → Except ε β} {e : ε} :
    (x >>= f) = .error e ↔ x = .error e ∨ ∃ a, x = .ok a ∧ f a = .error e := by
  cases x with
  | error e' => simp
  | ok a => simp

theorem map_eq_error {x : Except ε α} {f : α → β} {e : ε} :
    f <$> x = .error e ↔ x = .error e := by
  cases x with
  | error e' => simp
  | ok a => simp

/-- A chain of two steps has a result if the first step has one, and the second whatever that is. -/
theorem exists_bind_eq_some {x : Option α} {f : α → Option β} (hx : ∃ a, x = some a)
    (hf : ∀ a, ∃ b, f a = some b) : ∃ b, (x >>= f) = some b := by
  obtain ⟨a, rfl⟩ := hx
  exact hf a

/-- A list is traversed with success exactly if the step succeeds on each element. -/
theorem mapM_eq_ok {f : α → Except ε β} {xs : List α} {ys : List β} :
    xs.mapM f = .ok ys ↔ List.Forall₂ (fun x y => f x = .ok y) xs ys := by
  induction xs generalizing ys with
  | nil =>
    rw [List.mapM_nil, pure_eq_ok, List.forall₂_nil_left_iff]
    exact eq_comm
  | cons x xs ih =>
    rw [List.mapM_cons, bind_eq_ok, List.forall₂_cons_left_iff]
    constructor
    · rintro ⟨y, hy, htail⟩
      obtain ⟨ys', hys, hpure⟩ := bind_eq_ok.1 htail
      exact ⟨y, ys', hy, ih.1 hys, (pure_eq_ok.1 hpure).symm⟩
    · rintro ⟨y, ys', hy, hys, rfl⟩
      exact ⟨y, hy, bind_eq_ok.2 ⟨ys', ih.2 hys, rfl⟩⟩

/-- A step that succeeds on each element runs over the list. -/
theorem exists_mapM {f : α → Except ε β} {R : α → β → Prop} {xs : List α}
    (h : ∀ x ∈ xs, ∃ y, f x = .ok y ∧ R x y) :
    ∃ ys, xs.mapM f = .ok ys ∧ List.Forall₂ R xs ys := by
  induction xs with
  | nil => exact ⟨[], rfl, .nil⟩
  | cons x xs ih =>
    obtain ⟨⟨y, hy, hxy⟩, hxs⟩ := List.forall_mem_cons.1 h
    obtain ⟨ys, hys, hmatch⟩ := ih hxs
    refine ⟨y :: ys, ?_, .cons hxy hmatch⟩
    rw [List.mapM_cons, hy, hys]
    rfl

/-- A traversal that fails does so on one of the elements. -/
theorem exists_mem_of_mapM_eq_error {f : α → Except ε β} {xs : List α} {e : ε}
    (h : xs.mapM f = .error e) : ∃ x ∈ xs, f x = .error e := by
  induction xs with
  | nil => cases h
  | cons x xs ih =>
    rw [List.mapM_cons] at h
    rcases bind_eq_error.1 h with hx | ⟨y, -, htail⟩
    · exact ⟨x, List.mem_cons_self, hx⟩
    · rcases bind_eq_error.1 htail with hxs | ⟨ys, -, hpure⟩
      · obtain ⟨z, hz, hze⟩ := ih hxs
        exact ⟨z, List.mem_cons_of_mem x hz, hze⟩
      · cases hpure

/-! ## Lists related element by element -/

theorem forall₂_pair_left_iff {R : α → β → Prop} {a b : α} {ys : List β} :
    List.Forall₂ R [a, b] ys ↔ ∃ x y, ys = [x, y] ∧ R a x ∧ R b y := by
  constructor
  · rintro (_ | ⟨ha, _ | ⟨hb, _ | _⟩⟩)
    exact ⟨_, _, rfl, ha, hb⟩
  · rintro ⟨x, y, rfl, ha, hb⟩
    exact .cons ha (.cons hb .nil)

theorem forall₂_quadruple_left_iff {R : α → β → Prop} {a b c d : α} {ys : List β} :
    List.Forall₂ R [a, b, c, d] ys ↔
      ∃ w x y z, ys = [w, x, y, z] ∧ R a w ∧ R b x ∧ R c y ∧ R d z := by
  constructor
  · rintro (_ | ⟨ha, _ | ⟨hb, _ | ⟨hc, _ | ⟨hd, _ | _⟩⟩⟩⟩)
    exact ⟨_, _, _, _, rfl, ha, hb, hc, hd⟩
  · rintro ⟨w, x, y, z, rfl, ha, hb, hc, hd⟩
    exact .cons ha (.cons hb (.cons hc (.cons hd .nil)))

theorem forall₂_comp {R : α → β → Prop} {S : β → γ → Prop} {T : α → γ → Prop}
    (hcomp : ∀ a b c, R a b → S b c → T a c) {xs : List α} {ys : List β} {zs : List γ}
    (hR : List.Forall₂ R xs ys) (hS : List.Forall₂ S ys zs) : List.Forall₂ T xs zs := by
  induction hR generalizing zs with
  | nil =>
    cases hS
    exact .nil
  | @cons a b xs ys hab _ ih =>
    obtain ⟨c, zs', hbc, htail, rfl⟩ := List.forall₂_cons_left_iff.1 hS
    exact .cons (hcomp a b c hab hbc) (ih htail)

theorem exists_between {R : α → β → Prop} {S : β → γ → Prop} {xs : List α} {zs : List γ}
    (h : List.Forall₂ (fun a c => ∃ b, R a b ∧ S b c) xs zs) :
    ∃ ys, List.Forall₂ R xs ys ∧ List.Forall₂ S ys zs := by
  induction h with
  | nil => exact ⟨[], .nil, .nil⟩
  | cons hac _ ih =>
    obtain ⟨b, hab, hbc⟩ := hac
    obtain ⟨ys, hxs, hzs⟩ := ih
    exact ⟨b :: ys, .cons hab hxs, .cons hbc hzs⟩

theorem exists_forall₂ {R : α → β → Prop} {xs : List α} (h : ∀ x ∈ xs, ∃ y, R x y) :
    ∃ ys, List.Forall₂ R xs ys := by
  induction xs with
  | nil => exact ⟨[], .nil⟩
  | cons x xs ih =>
    obtain ⟨hx, hxs⟩ := List.forall_mem_cons.1 h
    obtain ⟨y, hy⟩ := hx
    obtain ⟨ys, hys⟩ := ih hxs
    exact ⟨y :: ys, .cons hy hys⟩

theorem exists_mem_of_forall₂ {R : α → β → Prop} {xs : List α} {ys : List β}
    (h : List.Forall₂ R xs ys) : ∀ y ∈ ys, ∃ x ∈ xs, R x y := by
  induction h with
  | nil => exact nofun
  | @cons x y xs ys hxy _ ih =>
    intro z hz
    rcases List.mem_cons.1 hz with rfl | hz
    · exact ⟨x, List.mem_cons_self, hxy⟩
    · obtain ⟨w, hw, hwz⟩ := ih z hz
      exact ⟨w, List.mem_cons_of_mem x hw, hwz⟩

theorem forall₂_replace {R : α → β → Prop} {x x' : α} (h : ∀ y, R x y → R x' y)
    {before after : List α} {ys : List β} (hys : List.Forall₂ R (before ++ x :: after) ys) :
    List.Forall₂ R (before ++ x' :: after) ys := by
  induction before generalizing ys with
  | nil =>
    obtain ⟨y, ys', hy, hafter, rfl⟩ := List.forall₂_cons_left_iff.1 hys
    exact .cons (h y hy) hafter
  | cons b before ih =>
    obtain ⟨y, ys', hy, hrest, rfl⟩ := List.forall₂_cons_left_iff.1 hys
    exact .cons hy (ih hrest)

/-- Lists related element by element are related by replacing one element after the other. -/
theorem rel_of_forall₂ {S : α → α → Prop} {R : List α → List α → Prop} (hrefl : ∀ xs, R xs xs)
    (htrans : ∀ xs ys zs, R xs ys → R ys zs → R xs zs)
    (hstep : ∀ before after x y, S x y → R (before ++ x :: after) (before ++ y :: after))
    {xs ys : List α} (h : List.Forall₂ S xs ys) : R xs ys := by
  suffices hprefix : ∀ before, R (before ++ xs) (before ++ ys) from hprefix []
  induction h with
  | nil => exact fun before => hrefl _
  | @cons x y xs ys hxy hxsys ih =>
    intro before
    have htail := ih (before ++ [y])
    rw [List.append_assoc, List.append_assoc] at htail
    exact htrans _ _ _ (hstep before xs x y hxy) htail

theorem map_eq_of_forall₂ {f : α → γ} {g : β → γ} {xs : List α} {ys : List β}
    (h : List.Forall₂ (fun x y => g y = f x) xs ys) : ys.map g = xs.map f := by
  induction h with
  | nil => rfl
  | cons hxy _ ih => rw [List.map_cons, List.map_cons, hxy, ih]

theorem map_eq_self_iff {f : α → α} {xs : List α} : xs.map f = xs ↔ ∀ x ∈ xs, f x = x := by
  calc xs.map f = xs ↔ xs.map f = xs.map id := by rw [List.map_id]
    _ ↔ ∀ x ∈ xs, f x = x := List.map_inj_left

/-- Lists with one image are equal if no element of the first shares its image. -/
theorem eq_of_map_eq {f : α → β} {xs ys : List α} (hf : ∀ x ∈ xs, ∀ y, f x = f y → x = y)
    (h : xs.map f = ys.map f) : xs = ys := by
  induction xs generalizing ys with
  | nil => exact (List.map_eq_nil_iff.1 h.symm).symm
  | cons x xs ih =>
    obtain ⟨hx, hxs⟩ := List.forall_mem_cons.1 hf
    obtain ⟨y, ys, rfl, hxy, hrest⟩ := List.map_eq_cons_iff.1 h.symm
    rw [hx y hxy.symm, ih hxs hrest.symm]

/-- An order carries over to the related elements. -/
theorem pairwise_of_forall₂ {R : α → β → Prop} {S : α → α → Prop} {T : β → β → Prop}
    (hST : ∀ a b c d, R a c → R b d → S a b → T c d) {xs : List α} {ys : List β}
    (h : List.Forall₂ R xs ys) (hS : xs.Pairwise S) : ys.Pairwise T := by
  induction h with
  | nil => exact .nil
  | @cons a c xs ys hac hxsys ih =>
    obtain ⟨ha, hxs⟩ := List.pairwise_cons.1 hS
    refine List.pairwise_cons.2 ⟨?_, ih hxs⟩
    intro d hd
    obtain ⟨b, hb, hbd⟩ := exists_mem_of_forall₂ hxsys d hd
    exact hST a b c d hac hbd (ha b hb)

theorem pairwise_iff_of_forall₂ {R : α → β → Prop} {S : α → α → Prop} {T : β → β → Prop}
    (hST : ∀ a b c d, R a c → R b d → (S a b ↔ T c d)) {xs : List α} {ys : List β}
    (h : List.Forall₂ R xs ys) : xs.Pairwise S ↔ ys.Pairwise T :=
  ⟨pairwise_of_forall₂ (fun a b c d hac hbd => (hST a b c d hac hbd).1) h,
    pairwise_of_forall₂ (fun c d a b hac hbd => (hST a b c d hac hbd).2) h.flip⟩

/-- What is asked of all elements of a list is what is asked of the related elements. -/
theorem forall_mem_iff_of_forall₂ {R : α → β → Prop} {P : α → Prop} {Q : β → Prop} {xs : List α}
    {ys : List β} (hPQ : ∀ x ∈ xs, ∀ y, R x y → (P x ↔ Q y)) (h : List.Forall₂ R xs ys) :
    (∀ x ∈ xs, P x) ↔ ∀ y ∈ ys, Q y := by
  constructor
  · intro hP y hy
    obtain ⟨x, hx, hxy⟩ := exists_mem_of_forall₂ h y hy
    exact (hPQ x hx y hxy).1 (hP x hx)
  · intro hQ x hx
    obtain ⟨y, hy, hxy⟩ := exists_mem_of_forall₂ h.flip x hx
    exact (hPQ x hx y hxy).2 (hQ y hy)

/-- Two lists in which each element has a partner, and no two elements have the same, match up to
order. -/
theorem exists_perm_of_partners {R : α → β → Prop} {xs : List α} {ys : List β}
    (hxs : xs.Pairwise fun a b => ∀ y, R a y → ¬ R b y)
    (hys : ys.Pairwise fun c d => ∀ x, R x c → ¬ R x d)
    (hpartner : ∀ x ∈ xs, ∃ y ∈ ys, R x y) (hpartner' : ∀ y ∈ ys, ∃ x ∈ xs, R x y) :
    ∃ zs, ys.Perm zs ∧ List.Forall₂ R xs zs := by
  induction xs generalizing ys with
  | nil =>
    cases ys with
    | nil => exact ⟨[], .refl _, .nil⟩
    | cons y ys =>
      obtain ⟨x, hx, -⟩ := hpartner' y List.mem_cons_self
      cases hx
  | cons x xs ih =>
    obtain ⟨hx, hxs⟩ := List.pairwise_cons.1 hxs
    obtain ⟨y, hy, hxy⟩ := hpartner x List.mem_cons_self
    obtain ⟨before, after, rfl⟩ := List.append_of_mem hy
    have hperm : (before ++ y :: after).Perm (y :: (before ++ after)) := List.perm_middle
    have hsymm : ∀ {c d : β}, (∀ x, R x c → ¬ R x d) → ∀ x, R x d → ¬ R x c :=
      fun h x hd hc => h x hc hd
    obtain ⟨hy, hrest⟩ := List.pairwise_cons.1 ((hperm.pairwise_iff hsymm).1 hys)
    -- The partner of `x` is nobody else's, so the others have theirs in what remains.
    obtain ⟨zs, hzs, hmatch⟩ := ih hxs hrest
      (fun a ha => by
        obtain ⟨b, hb, hab⟩ := hpartner a (List.mem_cons_of_mem x ha)
        rcases List.mem_cons.1 (hperm.mem_iff.1 hb) with rfl | hb
        · exact absurd hab (hx a ha b hxy)
        · exact ⟨b, hb, hab⟩)
      (fun b hb => by
        obtain ⟨a, ha, hab⟩ := hpartner' b (hperm.mem_iff.2 (List.mem_cons_of_mem y hb))
        rcases List.mem_cons.1 ha with rfl | ha
        · exact absurd hab (hy b hb a hxy)
        · exact ⟨a, ha, hab⟩)
    exact ⟨y :: zs, hperm.trans (hzs.cons y), .cons hxy hmatch⟩

end Eutxo.Traversal

import Mathlib.Data.List.Nodup
import Eutxo.Table
import Eutxo.Proofs.Traversal

/-!
# Tables of entries

A table that was built from a list of entries lists them in the same order, and
any list without a repeated key builds one.
-/

namespace Eutxo.Table

open Traversal

variable {κ α : Type} [DecidableEq κ]

theorem isSome_get?_iff {t : Table κ α} {k : κ} :
    (t.get? k).isSome = true ↔ k ∈ t.entries.map Prod.fst := by
  rw [get?, Option.isSome_map, List.find?_isSome]
  simp

theorem get?_eq_some_iff {t : Table κ α} {k : κ} {a : α} :
    t.get? k = some a ↔ (k, a) ∈ t.entries := by
  rw [get?, Option.map_eq_some_iff]
  constructor
  · rintro ⟨e, hfind, rfl⟩
    have hkey : e.1 = k := by simpa using List.find?_some hfind
    exact hkey ▸ List.mem_of_find?_eq_some hfind
  · intro hmem
    have hsome := isSome_get?_iff.2 (List.mem_map_of_mem (f := Prod.fst) hmem)
    rw [get?, Option.isSome_map] at hsome
    obtain ⟨e, hfind⟩ := Option.isSome_iff_exists.1 hsome
    have hkey : e.1 = k := by simpa using List.find?_some hfind
    have hsame := List.inj_on_of_nodup_map t.nodup_keys (List.mem_of_find?_eq_some hfind) hmem hkey
    exact ⟨e, hfind, congrArg Prod.snd hsame⟩

theorem insertEntry_of_notMem {k : κ} {a : α} {es : List (κ × α)}
    (h : k ∉ es.map Prod.fst) : insertEntry k a es = es ++ [(k, a)] := by
  induction es with
  | nil => rfl
  | cons e es ih =>
    rw [List.map_cons, List.mem_cons, not_or] at h
    have hne : ¬ e.1 = k := fun heq => h.1 heq.symm
    rw [insertEntry, if_neg hne, ih h.2, List.cons_append]

/-- The entries of a list come behind those that are there already. -/
theorem entries_of_foldlM {es : List (κ × α)} {t u : Table κ α}
    (h : es.foldlM (fun (t : Table κ α) (e : κ × α) =>
      if (t.get? e.1).isSome then Except.error e.1 else .ok (t.insert e.1 e.2)) t = .ok u) :
    u.entries = t.entries ++ es := by
  induction es generalizing t with
  | nil =>
    cases h
    exact (List.append_nil _).symm
  | cons e es ih =>
    rw [List.foldlM_cons] at h
    obtain ⟨v, hv, hrest⟩ := bind_eq_ok.1 h
    split_ifs at hv with hpresent
    cases hv
    have hnew : e.1 ∉ t.entries.map Prod.fst := fun hmem => hpresent (isSome_get?_iff.2 hmem)
    have hinsert : (t.insert e.1 e.2).entries = t.entries ++ [e] := insertEntry_of_notMem hnew
    rw [ih hrest, hinsert, List.append_assoc, List.singleton_append]

/-- Entries with new and distinct keys can be added. -/
theorem exists_foldlM {es : List (κ × α)} {t : Table κ α}
    (hkeys : ((t.entries ++ es).map Prod.fst).Nodup) :
    ∃ u, es.foldlM (fun (t : Table κ α) (e : κ × α) =>
      if (t.get? e.1).isSome then Except.error e.1 else .ok (t.insert e.1 e.2)) t = .ok u := by
  induction es generalizing t with
  | nil => exact ⟨t, rfl⟩
  | cons e es ih =>
    have hnew : e.1 ∉ t.entries.map Prod.fst := by
      rw [List.map_append, List.map_cons, List.nodup_append] at hkeys
      exact fun hmem => hkeys.2.2 e.1 hmem e.1 List.mem_cons_self rfl
    have habsent : ¬ (t.get? e.1).isSome = true := fun hsome => hnew (isSome_get?_iff.1 hsome)
    have hinsert : (t.insert e.1 e.2).entries = t.entries ++ [e] := insertEntry_of_notMem hnew
    rw [List.foldlM_cons, if_neg habsent, ok_bind]
    apply ih
    rw [hinsert, List.append_assoc, List.singleton_append]
    exact hkeys

theorem exists_ofEntries {es : List (κ × α)} (hkeys : (es.map Prod.fst).Nodup) :
    ∃ t : Table κ α, ofEntries es = .ok t :=
  exists_foldlM hkeys

theorem entries_of_ofEntries {es : List (κ × α)} {t : Table κ α} (h : ofEntries es = .ok t) :
    t.entries = es :=
  entries_of_foldlM h

/-! ## Writing and removing -/

theorem get?_eq_none_iff {t : Table κ α} {k : κ} :
    t.get? k = none ↔ k ∉ t.entries.map Prod.fst := by
  rw [← isSome_get?_iff, Option.not_isSome_iff_eq_none]

theorem get?_insert (t : Table κ α) (k j : κ) (a : α) :
    (t.insert k a).get? j = if k = j then some a else t.get? j := by
  simp only [get?, insert]
  induction t.entries with
  | nil => by_cases hkj : k = j <;> simp [insertEntry, hkj]
  | cons e es ih =>
    by_cases hek : e.1 = k
    · by_cases hkj : k = j <;> simp [insertEntry, hek, hkj]
    · rw [insertEntry, if_neg hek]
      by_cases hej : e.1 = j
      · have hkj : ¬ k = j := fun heq => hek (hej.trans heq.symm)
        simp [hej, hkj]
      · simpa [hej] using ih

theorem get?_erase (t : Table κ α) (k j : κ) :
    (t.erase k).get? j = if k = j then none else t.get? j := by
  rw [get?, get?, erase, List.find?_filter]
  split_ifs with hkj
  · rw [Option.map_eq_none_iff, List.find?_eq_none]
    intro e _ he
    simp [hkj] at he
  · apply congrArg
    apply congrArg (List.find? · t.entries)
    funext e
    by_cases hej : e.1 = j <;> simp [hej, Ne.symm hkj]

/-- Writes a value under a key, or removes the key if there is none. -/
def set (t : Table κ α) (k : κ) : Option α → Table κ α
  | some a => t.insert k a
  | none => t.erase k

theorem get?_set (t : Table κ α) (k j : κ) (o : Option α) :
    (t.set k o).get? j = if k = j then o else t.get? j := by
  cases o with
  | none => exact get?_erase t k j
  | some a => exact get?_insert t k j a

theorem get?_set_self (t : Table κ α) (k : κ) (o : Option α) : (t.set k o).get? k = o := by
  rw [get?_set, if_pos rfl]

theorem get?_set_of_ne {k j : κ} (hkj : k ≠ j) (t : Table κ α) (o : Option α) :
    (t.set k o).get? j = t.get? j := by
  rw [get?_set, if_neg hkj]

/-- Writing to a key that is present does not move the others. -/
theorem keys_set_sublist {t : Table κ α} {k : κ} (hk : k ∈ t.keys) (o : Option α) :
    (t.set k o).keys.Sublist t.keys := by
  cases o with
  | none => exact List.filter_sublist.map Prod.fst
  | some a =>
    have hkeys : (t.insert k a).keys = t.keys := (keys_insertEntry k a t.entries).trans (if_pos hk)
    exact hkeys ▸ .refl _

/-! ## Working entries into a table -/

section Update

variable {β ε : Type}

/-- What a table becomes when the entries of a list are worked into it one after the other: what
comes to stand under a key depends on what stood there and on the entry. -/
structure Updated (f : Option α → β → Except ε (Option α)) (es : List (κ × β))
    (t u : Table κ α) : Prop where
  kept : ∀ k, k ∉ es.map Prod.fst → u.get? k = t.get? k
  set : ∀ e ∈ es, f (t.get? e.1) e.2 = .ok (u.get? e.1)
  order : (∀ e ∈ es, e.1 ∈ t.keys) → u.keys.Sublist t.keys

/-- If each entry can be worked into what stands under its key at the outset, all of them can. -/
theorem exists_updated {f : Option α → β → Except ε (Option α)} {es : List (κ × β)}
    (hkeys : (es.map Prod.fst).Nodup) (t : Table κ α)
    (hf : ∀ e ∈ es, ∃ o, f (t.get? e.1) e.2 = .ok o) :
    ∃ u, es.foldlM (fun (t : Table κ α) (e : κ × β) => do
      return t.set e.1 (← f (t.get? e.1) e.2)) t = .ok u ∧ Updated f es t u := by
  induction es generalizing t with
  | nil => exact ⟨t, rfl, ⟨fun _ _ => rfl, nofun, fun _ => .refl _⟩⟩
  | cons e es ih =>
    obtain ⟨hnew, hkeys⟩ := List.nodup_cons.1 hkeys
    obtain ⟨⟨o, ho⟩, hf⟩ := List.forall_mem_cons.1 hf
    -- The other entries have other keys, so they find what stood there at the outset.
    have hother : ∀ g ∈ es, (t.set e.1 o).get? g.1 = t.get? g.1 := fun g hg =>
      get?_set_of_ne (fun hsame => hnew (List.mem_map.2 ⟨g, hg, hsame.symm⟩)) t o
    obtain ⟨u, hu, hupdated⟩ := ih hkeys (t.set e.1 o) fun g hg => (hother g hg).symm ▸ hf g hg
    have hself : u.get? e.1 = o := (hupdated.kept e.1 hnew).trans (get?_set_self t e.1 o)
    refine ⟨u, ?_, ?_, ?_, ?_⟩
    · rw [List.foldlM_cons, ho, ok_bind]
      exact hu
    · intro k hk
      rw [List.map_cons, List.mem_cons, not_or] at hk
      exact (hupdated.kept k hk.2).trans (get?_set_of_ne (Ne.symm hk.1) t o)
    · refine List.forall_mem_cons.2 ⟨ho.trans (congrArg Except.ok hself.symm), fun g hg => ?_⟩
      rw [← hother g hg]
      exact hupdated.set g hg
    · intro hpresent
      obtain ⟨he, hes⟩ := List.forall_mem_cons.1 hpresent
      refine (hupdated.order fun g hg => ?_).trans (keys_set_sublist he o)
      apply isSome_get?_iff.1
      rw [hother g hg]
      exact isSome_get?_iff.2 (hes g hg)

/-- A way of working entries in that cannot fail. -/
theorem updated_foldl (g : Option α → β → Option α) {es : List (κ × β)}
    (hkeys : (es.map Prod.fst).Nodup) (t : Table κ α) :
    Updated (ε := ε) (fun o b => .ok (g o b)) es t
      (es.foldl (fun t e => t.set e.1 (g (t.get? e.1) e.2)) t) := by
  obtain ⟨u, hu, hupdated⟩ := exists_updated (ε := ε) (f := fun o b => .ok (g o b)) hkeys t
    fun e _ => ⟨_, rfl⟩
  have hpure := List.foldlM_pure (m := Except ε) (b := t) (l := es)
    (f := fun (t : Table κ α) e => t.set e.1 (g (t.get? e.1) e.2))
  exact Except.ok.inj (hpure.symm.trans hu) ▸ hupdated

end Update

/-! ## Tables that hold the same -/

omit [DecidableEq κ] in
theorem eq_of_entries_eq {t u : Table κ α} (h : t.entries = u.entries) : t = u := by
  cases t
  cases u
  cases h
  rfl

theorem entries_eq_filterMap (t : Table κ α) :
    t.entries = t.keys.filterMap fun k => (t.get? k).map (Prod.mk k) := by
  have hentry : ∀ e ∈ t.entries, (t.get? e.1).map (Prod.mk e.1) = some e := by
    intro e he
    rw [get?_eq_some_iff.2 he]
    rfl
  calc t.entries = t.entries.filterMap some := List.filterMap_some.symm
    _ = t.entries.filterMap fun e => (t.get? e.1).map (Prod.mk e.1) :=
      (List.filterMap_congr hentry).symm
    _ = t.keys.filterMap fun k => (t.get? k).map (Prod.mk k) := by
      rw [keys, List.filterMap_map]
      rfl

/-- A table is told by its keys in order and by what stands under them. -/
theorem eq_of_keys_eq {t u : Table κ α} (hkeys : t.keys = u.keys)
    (hget : ∀ k, t.get? k = u.get? k) : t = u := by
  apply eq_of_entries_eq
  rw [entries_eq_filterMap t, entries_eq_filterMap u, hkeys]
  simp only [hget]

theorem mem_keys_iff {t : Table κ α} {k : κ} : k ∈ t.keys ↔ (t.get? k).isSome = true :=
  isSome_get?_iff.symm

theorem forall_entries_iff {P : α → Prop} {t : Table κ α} :
    (∀ e ∈ t.entries, P e.2) ↔ ∀ k a, t.get? k = some a → P a := by
  simp only [get?_eq_some_iff, Prod.forall]

theorem eq_filter_of_sublist {l₁ l : List κ} (h : l₁.Sublist l) (hl : l.Nodup) :
    l₁ = l.filter (· ∈ l₁) := by
  induction h with
  | slnil => rfl
  | @cons l₁ l k h ih =>
    obtain ⟨hk, hl⟩ := List.nodup_cons.1 hl
    have hout : k ∉ l₁ := fun hmem => hk (h.subset hmem)
    rw [List.filter_cons_of_neg (by simpa using hout)]
    exact ih hl
  | @cons_cons l₁ l k h ih =>
    obtain ⟨hk, hl⟩ := List.nodup_cons.1 hl
    have hrest : l.filter (· ∈ k :: l₁) = l.filter (· ∈ l₁) := by
      apply List.filter_congr
      intro j hj
      have hne : j ≠ k := fun heq => hk (heq ▸ hj)
      simp [hne]
    rw [List.filter_cons_of_pos (by simp), hrest, ← ih hl]

/-- The sublists of a list without repetitions are told by their members. -/
theorem eq_of_sublist {l₁ l₂ l : List κ} (hl : l.Nodup) (h₁ : l₁.Sublist l) (h₂ : l₂.Sublist l)
    (hmem : ∀ k, k ∈ l₁ ↔ k ∈ l₂) : l₁ = l₂ := by
  calc l₁ = l.filter (· ∈ l₁) := eq_filter_of_sublist h₁ hl
    _ = l.filter (· ∈ l₂) := by simp only [hmem]
    _ = l₂ := (eq_filter_of_sublist h₂ hl).symm

/-! ## Joining tables -/

section Union

variable {f : α → α → α} {t u v s r x y : Table κ α}

/-- A table holds the keys of `t` and behind them the new ones of `u`, and under each what the two
have there, joined if both have something. -/
structure IsUnion (f : α → α → α) (t u s : Table κ α) : Prop where
  get?_eq : ∀ k, s.get? k = Option.merge f (t.get? k) (u.get? k)
  keys_eq : s.keys = t.keys ++ u.keys.filter (· ∉ t.keys)

theorem keys_insert (t : Table κ α) (k : κ) (a : α) :
    (t.insert k a).keys = if k ∈ t.keys then t.keys else t.keys ++ [k] :=
  keys_insertEntry k a t.entries

/-- Writing entries one after the other puts the new keys behind those that were there. -/
theorem keys_foldl_insert (g : Option α → α → α) {es : List (κ × α)}
    (hkeys : (es.map Prod.fst).Nodup) (t : Table κ α) :
    (es.foldl (fun t e => t.insert e.1 (g (t.get? e.1) e.2)) t).keys =
      t.keys ++ (es.map Prod.fst).filter (· ∉ t.keys) := by
  induction es generalizing t with
  | nil => exact (List.append_nil t.keys).symm
  | cons e es ih =>
    obtain ⟨hnew, hkeys⟩ := List.nodup_cons.1 hkeys
    rw [List.foldl_cons, ih hkeys, keys_insert, List.map_cons]
    split_ifs with hmem
    · rw [List.filter_cons_of_neg (by simpa using hmem)]
    · have hrest : (es.map Prod.fst).filter (· ∉ t.keys ++ [e.1]) =
          (es.map Prod.fst).filter (· ∉ t.keys) := by
        apply List.filter_congr
        intro k hk
        have hne : k ≠ e.1 := fun heq => hnew (heq ▸ hk)
        simp [hne]
      rw [hrest, List.filter_cons_of_pos (by simpa using hmem), List.append_assoc,
        List.singleton_append]

theorem isUnion_foldl_insert {g : Option α → α → α} (hnone : ∀ b, g none b = b)
    (hsome : ∀ a b, g (some a) b = f a b) (t u : Table κ α) :
    IsUnion f t u (u.entries.foldl (fun t e => t.insert e.1 (g (t.get? e.1) e.2)) t) where
  get?_eq k := by
    have hupdated := updated_foldl (ε := Unit) (fun o b => some (g o b)) u.nodup_keys t
    cases hu : u.get? k with
    | none =>
      rw [Option.merge_none_right]
      exact hupdated.kept k (get?_eq_none_iff.1 hu)
    | some b =>
      have hset := hupdated.set (k, b) (get?_eq_some_iff.1 hu)
      refine (Except.ok.inj hset).symm.trans ?_
      cases t.get? k with
      | none => rw [hnone, Option.merge_none_left]
      | some a => rw [hsome, Option.merge_some_some]
  keys_eq := keys_foldl_insert g u.nodup_keys t

namespace IsUnion

theorem mem_keys_iff (h : IsUnion f t u s) {k : κ} : k ∈ s.keys ↔ k ∈ t.keys ∨ k ∈ u.keys := by
  rw [h.keys_eq, List.mem_append, List.mem_filter, decide_eq_true_iff]
  tauto

theorem forall_get? {P : α → Prop} (h : IsUnion f t u s)
    (ht : ∀ k a, t.get? k = some a → P a) (hu : ∀ k b, u.get? k = some b → P b)
    (hf : ∀ a b, P a → P b → P (f a b)) :
    ∀ k c, s.get? k = some c → P c := by
  intro k c hc
  rw [h.get?_eq] at hc
  cases ha : t.get? k with
  | none =>
    rw [ha, Option.merge_none_left] at hc
    exact hu k c hc
  | some a =>
    cases hb : u.get? k with
    | none =>
      rw [ha, hb] at hc
      exact ht k c (ha.trans hc)
    | some b =>
      rw [ha, hb] at hc
      exact Option.some.inj hc ▸ hf a b (ht k a ha) (hu k b hb)

/-- It does not matter which two of three tables are joined first. -/
theorem assoc (hf : ∀ a b c, f (f a b) c = f a (f b c)) (hs : IsUnion f t u s)
    (hx : IsUnion f s v x) (hr : IsUnion f u v r) (hy : IsUnion f t r y) : x = y := by
  apply eq_of_keys_eq
  · have hnew : v.keys.filter (· ∉ s.keys) =
        (v.keys.filter (· ∉ u.keys)).filter (· ∉ t.keys) := by
      rw [List.filter_filter]
      apply List.filter_congr
      intro k _
      simp only [hs.mem_keys_iff, not_or, Bool.decide_and]
    rw [hx.keys_eq, hs.keys_eq, hy.keys_eq, hr.keys_eq, List.filter_append, List.append_assoc,
      ← hs.keys_eq, hnew]
  · intro k
    have hassoc : Std.Associative f := ⟨hf⟩
    rw [hx.get?_eq, hs.get?_eq, hy.get?_eq, hr.get?_eq]
    exact (Option.associative_merge f).assoc _ _ _

end IsUnion

end Union

end Eutxo.Table

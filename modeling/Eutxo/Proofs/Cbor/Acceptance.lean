import Eutxo.Cbor.Strict
import Eutxo.Proofs.Cbor.Expect
import Eutxo.Proofs.Cbor.Tree

/-!
# What decoders accept

A decoder of terms is specified by the terms that it accepts and by the kinds of
the faults it may fail with beside those of decoding.  The specification of a
decoder follows from those of its steps.
-/

namespace Eutxo

open Traversal

variable {α β : Type} {others : List FaultKind} {P : Prop}

/-- A decoding step succeeds exactly under a condition, and fails with faults of decoding or of some
other kinds only. -/
structure Accepts (others : List FaultKind) (x : Except Fault α) (P : Prop) : Prop where
  succeeds_iff : (∃ a, x = .ok a) ↔ P
  kind_mem : ∀ fault, x = .error fault → fault.kind ∈ FaultKind.deserialize :: others

namespace Accepts

theorem ok (a : α) (hP : P) : Accepts others (.ok a) P :=
  ⟨iff_of_true ⟨a, rfl⟩ hP, nofun⟩

theorem error {fault : Fault} (h : fault.kind ∈ FaultKind.deserialize :: others) (hP : ¬ P) :
    Accepts others (.error fault : Except Fault α) P := by
  refine ⟨iff_of_false nofun hP, fun fault' hfault => ?_⟩
  cases hfault
  exact h

theorem congr {x : Except Fault α} {Q : Prop} (h : Accepts others x P) (hPQ : P ↔ Q) :
    Accepts others x Q :=
  ⟨h.succeeds_iff.trans hPQ, h.kind_mem⟩

theorem mono {x : Except Fault α} {others' : List FaultKind} (h : Accepts others x P)
    (hothers : others ⊆ others') : Accepts others' x P :=
  ⟨h.succeeds_iff, fun fault hfault =>
    List.cons_subset_cons .deserialize hothers (h.kind_mem fault hfault)⟩

/-- What a chain of two steps accepts may depend on the result of the first. -/
theorem bind {x : Except Fault α} {f : α → Except Fault β} (hx : Accepts others x P)
    (Q : α → Prop) (hf : ∀ a, x = .ok a → Accepts others (f a) (Q a)) :
    Accepts others (x >>= f) (∃ a, x = .ok a ∧ Q a) := by
  cases x with
  | error fault =>
    refine error (hx.kind_mem fault rfl) ?_
    rintro ⟨a, ha, -⟩
    cases ha
  | ok a =>
    refine (hf a rfl).congr ⟨fun h => ⟨a, rfl, h⟩, ?_⟩
    rintro ⟨b, hb, h⟩
    cases hb
    exact h

theorem andThen {x : Except Fault α} {f : α → Except Fault β} {Q : Prop}
    (hx : Accepts others x P) (hf : ∀ a, x = .ok a → Accepts others (f a) Q) :
    Accepts others (x >>= f) (P ∧ Q) := by
  refine (hx.bind (fun _ => Q) hf).congr ?_
  rw [← hx.succeeds_iff, ← exists_and_right]

/-- A second step that cannot fail changes nothing. -/
theorem thenOk {x : Except Fault α} {f : α → Except Fault β} (hx : Accepts others x P)
    (hf : ∀ a, x = .ok a → ∃ b, f a = .ok b) : Accepts others (x >>= f) P := by
  refine (hx.andThen (Q := True) fun a ha => ?_).congr (iff_of_eq (and_true P))
  obtain ⟨b, hb⟩ := hf a ha
  rw [hb]
  exact ok b trivial

theorem map {x : Except Fault α} (hx : Accepts others x P) (g : α → β) :
    Accepts others (x >>= fun a => pure (g a)) P :=
  hx.thenOk fun a _ => ⟨g a, rfl⟩

/-- A step that is run over a list accepts what it accepts of each element. -/
theorem mapM {xs : List α} {f : α → Except Fault β} {Q : α → Prop}
    (h : ∀ a ∈ xs, Accepts others (f a) (Q a)) :
    Accepts others (xs.mapM f) (∀ a ∈ xs, Q a) := by
  induction xs with
  | nil => exact ok [] nofun
  | cons a xs ih =>
    obtain ⟨ha, hxs⟩ := List.forall_mem_cons.1 h
    rw [List.mapM_cons]
    exact (ha.andThen fun b _ => (ih hxs).map (b :: ·)).congr List.forall_mem_cons.symm

theorem mapM_zipIdx {xs : List α} {f : α × Nat → Except Fault β} {Q : α → Prop}
    (h : ∀ a ∈ xs, ∀ i, Accepts others (f (a, i)) (Q a)) :
    Accepts others (xs.zipIdx.mapM f) (∀ a ∈ xs, Q a) := by
  have hsteps : Accepts others (xs.zipIdx.mapM f) (∀ x ∈ xs.zipIdx, Q x.1) :=
    mapM fun x hx => h x.1 (List.fst_mem_of_mem_zipIdx hx) x.2
  refine hsteps.congr ?_
  rw [← List.forall_mem_map, List.zipIdx_map_fst]

/-- A check that decides about the result. -/
theorem dite {p : Prop} [Decidable p] {a : p → α} {fault : Fault} (h : fault.kind ∈ others) :
    Accepts others (if hp : p then .ok (a hp) else .error fault) p := by
  by_cases hp : p
  · rw [dif_pos hp]
    exact ok _ hp
  · rw [dif_neg hp]
    exact error (List.mem_cons_of_mem _ h) hp

end Accepts

/-! ## Shapes -/

namespace Term

variable {t : Term} {path : Path} {K V : Term → Prop}

/-- An integer. -/
def IsInt (t : Term) : Prop := ∃ n : Int, t = .int n

/-- A natural number. -/
def IsUnsigned (t : Term) : Prop := ∃ n : Nat, t = .int n

/-- A natural number that binary64 holds exactly, as it does all below it. -/
def IsSafeUnsigned (t : Term) : Prop := ∃ n : Nat, t = .int n ∧ n ≤ Number.maxSafe

/-- A byte string. -/
def IsBytes (t : Term) : Prop := ∃ bs, t = .bytes bs

/-- A byte string of a length. -/
def IsBytesOf (size : Nat) (t : Term) : Prop := ∃ bs, t = .bytes bs ∧ bs.length = size

/-- A byte string of at most a length. -/
def IsBytesWithin (size : Nat) (t : Term) : Prop := ∃ bs, t = .bytes bs ∧ bs.length ≤ size

/-- A list of such terms. -/
def IsList (P : Term → Prop) (t : Term) : Prop := ∃ items, t = .seq items ∧ ∀ u ∈ items, P u

/-- A list of such terms, which may be wrapped in the tag 258. -/
def IsSet (P : Term → Prop) (t : Term) : Prop :=
  IsList P t ∨ ∃ content, t = .tag 258 content ∧ IsList P content

/-- A list of two such terms. -/
def IsPair (P Q : Term → Prop) (t : Term) : Prop := ∃ u v, t = .seq [u, v] ∧ P u ∧ Q v

/-- A map with such keys and contents. -/
def IsMap (K V : Term → Prop) (t : Term) : Prop :=
  ∃ entries, t = .map entries ∧ ∀ e ∈ entries, K e.1 ∧ V e.2

/-- A map at this node has no key twice. -/
def UniqueKeysAt : Term → Prop
  | .map entries => (entries.map Prod.fst).Nodup
  | _ => True

instance : DecidablePred UniqueKeysAt
  | .map entries => inferInstanceAs (Decidable (entries.map Prod.fst).Nodup)
  | .int _ | .bytes _ | .text _ | .bool _ | .null | .seq _ | .tag _ _ =>
    inferInstanceAs (Decidable True)

theorem accepts_asInt : Accepts others (t.asInt path) t.IsInt := by
  refine ⟨exists_congr fun n => asInt_eq_ok_iff, fun fault h => ?_⟩
  cases t <;> cases h <;> exact List.mem_cons_self

theorem accepts_asUnsigned : Accepts others (t.asUnsigned path) t.IsUnsigned := by
  refine ⟨exists_congr fun n => asUnsigned_eq_ok_iff, fun fault h => ?_⟩
  rcases bind_eq_error.1 h with hint | ⟨n, -, hsign⟩
  · exact accepts_asInt.kind_mem fault hint
  · cases n with
    | ofNat n => cases hsign
    | negSucc n =>
      cases hsign
      exact List.mem_cons_self

theorem accepts_asSafeUnsigned : Accepts others (t.asSafeUnsigned path) t.IsSafeUnsigned := by
  refine ⟨exists_congr fun n => asSafeUnsigned_eq_ok_iff, fun fault h => ?_⟩
  rcases bind_eq_error.1 h with hunsigned | ⟨n, -, hbound⟩
  · exact accepts_asUnsigned.kind_mem fault hunsigned
  · split_ifs at hbound
    · cases hbound
    · cases hbound
      exact List.mem_cons_self

theorem accepts_asBytes : Accepts others (t.asBytes path) t.IsBytes := by
  refine ⟨exists_congr fun bs => asBytes_eq_ok_iff, fun fault h => ?_⟩
  cases t <;> cases h <;> exact List.mem_cons_self

theorem accepts_asBool : Accepts others (t.asBool path) (∃ b, t = .bool b) := by
  refine ⟨exists_congr fun b => asBool_eq_ok_iff, fun fault h => ?_⟩
  cases t <;> cases h <;> exact List.mem_cons_self

theorem accepts_asSequence : Accepts others (t.asSequence path) (∃ items, t = .seq items) := by
  refine ⟨exists_congr fun items => asSequence_eq_ok_iff, fun fault h => ?_⟩
  cases t <;> cases h <;> exact List.mem_cons_self

theorem accepts_asMap : Accepts others (t.asMap path) (∃ entries, t = .map entries) := by
  refine ⟨exists_congr fun entries => asMap_eq_ok_iff, fun fault h => ?_⟩
  cases t <;> cases h <;> exact List.mem_cons_self

/-- A byte string of which something is made. -/
theorem accepts_bytes {make : Bytes → Except Fault α} {p : Bytes → Prop}
    (hmake : ∀ bs, Accepts others (make bs) (p bs)) :
    Accepts others (t.asBytes path >>= make) (∃ bs, t = .bytes bs ∧ p bs) := by
  refine (accepts_asBytes.bind p fun bs _ => hmake bs).congr ?_
  simp only [asBytes_eq_ok_iff]

/-- A map of whose entries something is made. -/
theorem accepts_entries {f : List (Term × Term) → Except Fault α} {G : List (Term × Term) → Prop}
    (hf : ∀ es, t = .map es → Accepts others (f es) (G es)) :
    Accepts others (t.asMap path >>= f) (∃ es, t = .map es ∧ G es) := by
  refine (accepts_asMap.bind G fun es hes => hf es (asMap_eq_ok_iff.1 hes)).congr ?_
  simp only [asMap_eq_ok_iff]

/-! ## Sequences of fixed lengths -/

theorem asFixedSequence_eq_ok_iff {lengths : List Nat} {items : List Term} :
    t.asFixedSequence path (lengths.map fun n : Nat => .integer n) = .ok items ↔
      t = .seq items ∧ items.length ∈ lengths := by
  have hany : (lengths.map fun n : Nat => Number.integer n).any
      (fun n => n.integer? = some (items.length : Int)) = true ↔ items.length ∈ lengths := by
    rw [List.any_map, List.any_eq_true]
    constructor
    · rintro ⟨n, hn, hsame⟩
      have hlength : some (n : Int) = some (items.length : Int) := of_decide_eq_true hsame
      exact Int.ofNat.inj (Option.some.inj hlength) ▸ hn
    · intro hmem
      exact ⟨items.length, hmem, decide_eq_true rfl⟩
  rw [asFixedSequence, bind_eq_ok]
  simp only [asSequence_eq_ok_iff]
  constructor
  · rintro ⟨items', rfl, hlength⟩
    split_ifs at hlength with hallowed
    cases hlength
    exact ⟨rfl, hany.1 hallowed⟩
  · rintro ⟨rfl, hlength⟩
    exact ⟨items, rfl, if_pos (hany.2 hlength)⟩

theorem accepts_asFixedSequence {lengths : List Nat} :
    Accepts others (t.asFixedSequence path (lengths.map fun n : Nat => .integer n))
      (∃ items, t = .seq items ∧ items.length ∈ lengths) := by
  refine ⟨exists_congr fun items => asFixedSequence_eq_ok_iff, fun fault h => ?_⟩
  rcases bind_eq_error.1 h with hsequence | ⟨items, -, hlength⟩
  · exact accepts_asSequence.kind_mem fault hsequence
  · split_ifs at hlength
    · cases hlength
    · cases hlength
      exact List.mem_cons_self

/-- A sequence of one of some lengths, the items of which are decoded. -/
theorem accepts_items (lengths : List Nat) {f : List Term → Except Fault α}
    {G : List Term → Prop} (hlength : ∀ items, G items → items.length ∈ lengths)
    (hf : ∀ items, t = .seq items → items.length ∈ lengths → Accepts others (f items) (G items)) :
    Accepts others (t.asFixedSequence path (lengths.map fun n : Nat => .integer n) >>= f)
      (∃ items, t = .seq items ∧ G items) := by
  refine (accepts_asFixedSequence.bind G fun items hitems => ?_).congr ?_
  · obtain ⟨hseq, hallowed⟩ := asFixedSequence_eq_ok_iff.1 hitems
    exact hf items hseq hallowed
  · simp only [asFixedSequence_eq_ok_iff]
    constructor
    · rintro ⟨items, ⟨hseq, -⟩, hG⟩
      exact ⟨items, hseq, hG⟩
    · rintro ⟨items, hseq, hG⟩
      exact ⟨items, ⟨hseq, hlength items hG⟩, hG⟩

theorem accepts_pair {f : List Term → Except Fault α} {P Q : Term → Prop}
    (hf : ∀ u v, t = .seq [u, v] → Accepts others (f [u, v]) (P u ∧ Q v)) :
    Accepts others (t.asFixedSequence path [.integer 2] >>= f) (IsPair P Q t) := by
  refine (accepts_items [2] (G := fun items => ∃ u v, items = [u, v] ∧ P u ∧ Q v) ?_ ?_).congr
    ⟨?_, ?_⟩
  · rintro - ⟨u, v, rfl, -⟩
    exact List.mem_singleton_self 2
  · intro items hitems hlength
    obtain ⟨u, v, rfl⟩ := List.length_eq_two.1 (List.mem_singleton.1 hlength)
    exact (hf u v hitems).congr (by simp)
  · rintro ⟨-, rfl, u, v, rfl, hu, hv⟩
    exact ⟨u, v, rfl, hu, hv⟩
  · rintro ⟨u, v, rfl, hu, hv⟩
    exact ⟨_, rfl, u, v, rfl, hu, hv⟩

/-! ## Keys of fields -/

/-- The key of one of some fields, on which it depends what follows. -/
theorem accepts_keyed {φ : Type} {ofKey? : Nat → Option φ} {key : φ → Nat}
    {next : Nat → Except Fault α} {C : Nat → Prop}
    (hkey : ∀ {n f}, ofKey? n = some f → key f = n) (hsafe : ∀ f, key f ≤ Number.maxSafe)
    (hfield : ∀ {n}, C n → ∃ f, ofKey? n = some f)
    (hread : ∀ {n f}, ofKey? n = some f → Accepts others (next n) (C (key f)))
    (hrefuse : ∀ {n}, ofKey? n = none →
      ∃ fault, next n = .error fault ∧ fault.kind = .deserialize) :
    Accepts others (t.asSafeUnsigned path >>= next) (∃ n : Nat, t = .int n ∧ C n) := by
  refine (accepts_asSafeUnsigned.bind C fun n _ => ?_).congr ?_
  · cases hn : ofKey? n with
    | some f =>
      have hcontent := hread hn
      rwa [hkey hn] at hcontent
    | none =>
      obtain ⟨fault, hfault, hkind⟩ := hrefuse hn
      rw [hfault]
      refine .error (hkind ▸ List.mem_cons_self) fun hC => ?_
      obtain ⟨f, hf⟩ := hfield hC
      cases hn.symm.trans hf
  · simp only [asSafeUnsigned_eq_ok_iff]
    constructor
    · rintro ⟨n, ⟨hn, -⟩, hC⟩
      exact ⟨n, hn, hC⟩
    · rintro ⟨n, hn, hC⟩
      obtain ⟨f, hf⟩ := hfield hC
      exact ⟨n, ⟨hn, hkey hf ▸ hsafe f⟩, hC⟩

/-! ## Lists and sets -/

theorem accepts_decodeItems {f : Path → Term → Except Fault α} {P : Term → Prop}
    {items : List Term} (hf : ∀ path, ∀ u ∈ items, Accepts others (f path u) (P u)) :
    Accepts others (decodeItems path f items) (∀ u ∈ items, P u) :=
  .mapM_zipIdx fun u hu i => hf (.item path i) u hu

theorem isSet_iff {P : Term → Prop} :
    (∃ s, t.asSetLike path = .ok s ∧ ∀ u ∈ s.items, P u) ↔ t.IsSet P := by
  constructor
  · rintro ⟨⟨items, tagged⟩, hs, hitems⟩
    rw [eq_setLike_of_asSetLike hs]
    cases tagged with
    | true => exact .inr ⟨_, rfl, items, rfl, hitems⟩
    | false => exact .inl ⟨items, rfl, hitems⟩
  · rintro (⟨items, rfl, hitems⟩ | ⟨-, rfl, items, rfl, hitems⟩)
    · exact ⟨⟨items, false⟩, rfl, hitems⟩
    · exact ⟨⟨items, true⟩, rfl, hitems⟩

theorem accepts_asSetLike : Accepts others (t.asSetLike path) (t.IsSet fun _ => True) := by
  refine ⟨?_, fun fault h => ?_⟩
  · have hset : (∃ s, t.asSetLike path = .ok s ∧ ∀ u ∈ s.items, True) ↔ t.IsSet fun _ => True :=
      isSet_iff
    simpa using hset
  · cases t with
    | tag number content =>
      rw [asSetLike] at h
      split_ifs at h
      · rcases bind_eq_error.1 h with hcontent | ⟨items, -, hpure⟩
        · exact accepts_asSequence.kind_mem fault hcontent
        · cases hpure
      · cases h
        exact List.mem_cons_self
    | seq items => cases h
    | _ =>
      cases h
      exact List.mem_cons_self

section

variable {f : Path → Term → Except Fault α} {P : Term → Prop} (ht : Everywhere UniqueKeysAt t)
  (hf : ∀ path u, Everywhere UniqueKeysAt u → Accepts others (f path u) (P u))

include ht hf

theorem accepts_list : Accepts others (t.asSequence path >>= decodeItems path f) (IsList P t) := by
  refine (accepts_asSequence.bind (fun items => ∀ u ∈ items, P u)
    fun items hitems => ?_).congr ?_
  · rw [asSequence_eq_ok_iff.1 hitems] at ht
    exact accepts_decodeItems fun path u hu => hf path u ((everywhere_seq_iff.1 ht).2 u hu)
  · simp only [asSequence_eq_ok_iff, IsList]

theorem accepts_set (g : SetLike Term → List α → β) :
    Accepts others (t.asSetLike path >>= fun s =>
      decodeItems path f s.items >>= fun xs => pure (g s xs)) (IsSet P t) := by
  refine (accepts_asSetLike.bind (fun s => ∀ u ∈ s.items, P u)
    fun s hs => ?_).congr isSet_iff
  have hitems : ∀ u ∈ s.items, Everywhere UniqueKeysAt u := by
    rw [eq_setLike_of_asSetLike hs, setLike] at ht
    split_ifs at ht
    · exact (everywhere_seq_iff.1 (everywhere_tag_iff.1 ht).2).2
    · exact (everywhere_seq_iff.1 ht).2
  exact (accepts_decodeItems fun path u hu => hf path u (hitems u hu)).map (g s)

end

end Term

end Eutxo

import Eutxo.Proofs.Cbor.Acceptance
import Eutxo.Proofs.Key

/-!
# Grammars of ledger types

The terms that the decoders of hashes, names, bundles, values, inputs and
outputs accept.  A bundle could also be refused for a name that occurs twice, but
in a map without repeated keys there is none.
-/

namespace Eutxo

open Traversal Term

/-! ## Grammars -/

namespace Term

/-- Quantities of assets by name. -/
def IsQuantities : Term → Prop := IsMap (IsBytesWithin 32) IsInt

/-- Quantities of assets by policy and name. -/
def IsBundles : Term → Prop := IsMap (IsBytesOf 28) IsQuantities

/-- Coin with bundles of assets. -/
def IsValue : Term → Prop := IsPair IsInt IsBundles

/-- The amount of an output: bare coin, or coin with bundles. -/
def IsAmount (t : Term) : Prop := IsInt t ∨ IsValue t

/-- The hash of a transaction with an index. -/
def IsInput : Term → Prop := IsPair (IsBytesOf 32) IsSafeUnsigned

/-- An address and an amount, which the hash of a datum may follow. -/
def IsOutput (t : Term) : Prop :=
  IsPair IsBytes IsAmount t ∨
    ∃ address amount datum, t = .seq [address, amount, datum] ∧ IsBytes address ∧
      IsAmount amount ∧ IsBytesOf 32 datum

end Term

theorem Codec.accepts_setOfTerm {α : Type} [Codec α] {others : List FaultKind} {P : Term → Prop}
    (path : Path) {t : Term} (ht : Everywhere UniqueKeysAt t)
    (hitem : ∀ path u, Everywhere UniqueKeysAt u →
      Accepts others (Codec.ofTerm path u : Except Fault α) (P u)) :
    Accepts others (setOfTerm path t : Except Fault (SetLike α)) (IsSet P t) :=
  accepts_set ht hitem _

/-! ## Byte strings -/

theorem Identifier.accepts {kind : IdentifierKind} (path : Path) (t : Term) :
    Accepts [.sizeMismatch] (Codec.ofTerm path t : Except Fault (Identifier kind))
      (IsBytesOf kind.size t) :=
  accepts_bytes fun _ => .dite List.mem_cons_self

theorem AssetName.accepts (path : Path) (t : Term) :
    Accepts [.sizeMismatch] (Codec.ofTerm path t : Except Fault AssetName) (IsBytesWithin 32 t) :=
  accepts_bytes fun _ => .dite List.mem_cons_self

theorem VerificationKey.accepts (path : Path) (t : Term) :
    Accepts [.invalidKeyMaterial] (Codec.ofTerm path t : Except Fault VerificationKey)
      (IsBytesOf 32 t) :=
  accepts_bytes fun _ => .dite List.mem_cons_self

theorem SigningKey.accepts (path : Path) (t : Term) :
    Accepts [.invalidKeyMaterial] (Codec.ofTerm path t : Except Fault SigningKey)
      (IsBytesOf 32 t) :=
  accepts_bytes fun _ => .dite List.mem_cons_self

theorem Signature.accepts (path : Path) (t : Term) :
    Accepts [.invalidSignature] (Codec.ofTerm path t : Except Fault Signature) (IsBytesOf 64 t) :=
  accepts_bytes fun _ => .dite List.mem_cons_self

/-! ## Bundles -/

/-- A map that is read entry by entry, of which a table is made. -/
theorem accepts_table {κ β γ : Type} [Codec κ] {others : List FaultKind} {path : Path} {t : Term}
    {read : Term × Term → Except Fault (κ × β)} {make : List (κ × β) → Except Fault γ}
    {K V : Term → Prop} (ht : UniqueKeysAt t)
    (hread : ∀ es, t = .map es → ∀ e ∈ es, Accepts others (read e) (K e.1 ∧ V e.2))
    (hkey : ∀ {e a}, read e = .ok a → Codec.toTerm a.1 = e.1)
    (hmake : ∀ entries : List (κ × β), (entries.map Prod.fst).Nodup → ∃ a, make entries = .ok a) :
    Accepts others (t.asMap path >>= fun es => es.mapM read >>= make) (IsMap K V t) := by
  refine accepts_entries fun es hes => ?_
  refine (Accepts.mapM (hread es hes)).thenOk fun entries hentries => hmake entries ?_
  have hkeys : (entries.map Prod.fst).map Codec.toTerm = es.map Prod.fst := by
    rw [List.map_map]
    exact map_eq_of_forall₂ ((mapM_eq_ok.1 hentries).imp fun _ _ => hkey)
  rw [hes] at ht
  exact .of_map Codec.toTerm (hkeys ▸ ht)

theorem Asset.accepts (path : Path) {t : Term} (ht : Everywhere UniqueKeysAt t) :
    Accepts [.sizeMismatch] (Asset.ofTerm path t) (IsQuantities t) := by
  refine accepts_table ht.here (fun es _ e _ => ?_) ?_ ?_
  · exact (AssetName.accepts _ e.1).andThen fun name _ => accepts_asInt.map _
  · rintro ⟨k, v⟩ a ha
    obtain ⟨name, hname, hvalue⟩ := bind_eq_ok.1 ha
    obtain ⟨q, -, hpure⟩ := bind_eq_ok.1 hvalue
    cases hpure
    exact Codec.Exact.toTerm_eq hname
  · intro entries hentries
    obtain ⟨table, htable⟩ := Table.exists_ofEntries hentries
    exact ⟨⟨table⟩, by rw [ofEntries, htable]⟩

theorem MultiAsset.accepts (path : Path) {t : Term} (ht : Everywhere UniqueKeysAt t) :
    Accepts [.sizeMismatch] (MultiAsset.ofTerm path t) (IsBundles t) := by
  refine accepts_table ht.here (fun es hes e he => ?_) ?_ ?_
  · have hbundle := ((everywhere_map_iff.1 (hes ▸ ht)).2 e he).2
    exact (Identifier.accepts _ e.1).andThen fun policy _ => (Asset.accepts _ hbundle).map _
  · rintro ⟨k, v⟩ a ha
    obtain ⟨policy, hpolicy, hvalue⟩ := bind_eq_ok.1 ha
    obtain ⟨bundle, -, hpure⟩ := bind_eq_ok.1 hvalue
    cases hpure
    exact Codec.Exact.toTerm_eq hpolicy
  · intro entries hentries
    obtain ⟨table, htable⟩ := Table.exists_ofEntries hentries
    exact ⟨⟨table⟩, by rw [ofEntries, htable]⟩

/-! ## Values, inputs and outputs -/

theorem Value.accepts (path : Path) {t : Term} (ht : Everywhere UniqueKeysAt t) :
    Accepts [.sizeMismatch] (Value.ofTerm path t) (IsValue t) := by
  refine accepts_pair fun coin assets hitems => ?_
  have hassets : Everywhere UniqueKeysAt assets :=
    (everywhere_seq_iff.1 (hitems ▸ ht)).2 assets (by simp)
  exact accepts_asInt.andThen fun n _ => (MultiAsset.accepts _ hassets).map _

theorem Value.accepts_ofAmount (path : Path) {t : Term} (ht : Everywhere UniqueKeysAt t) :
    Accepts [.sizeMismatch] (Value.ofAmount path t) (IsAmount t) := by
  cases t with
  | int n => exact .ok _ (.inl ⟨n, rfl⟩)
  | _ =>
    refine (Value.accepts path ht).congr (or_iff_right ?_).symm
    rintro ⟨n, hn⟩
    cases hn

theorem TxInput.accepts (path : Path) (t : Term) :
    Accepts [.sizeMismatch] (TxInput.ofTerm path t) (IsInput t) := by
  refine accepts_pair fun transaction index _ => ?_
  refine (Identifier.accepts _ transaction).andThen fun id _ => ?_
  refine accepts_asSafeUnsigned.thenOk fun n hn => ?_
  -- The decoder has already checked what the constructor checks again.
  obtain ⟨-, hsafe⟩ := asSafeUnsigned_eq_ok_iff.1 hn
  have hnumber : Number.ofNat n = .integer n := if_pos hsafe
  refine ⟨⟨id, n, hsafe⟩, ?_⟩
  rw [ofNumber, hnumber]
  exact dif_pos hsafe

/-- The items of an output. -/
def TxOutput.AreItems : List Term → Prop
  | [address, amount] => IsBytes address ∧ IsAmount amount
  | [address, amount, datum] => IsBytes address ∧ IsAmount amount ∧ IsBytesOf 32 datum
  | _ => False

theorem TxOutput.isOutput_iff {t : Term} :
    IsOutput t ↔ ∃ items, t = .seq items ∧ TxOutput.AreItems items := by
  constructor
  · rintro (⟨address, amount, rfl, haddress, hamount⟩ | ⟨address, amount, datum, rfl, hitems⟩)
    · exact ⟨_, rfl, haddress, hamount⟩
    · exact ⟨_, rfl, hitems⟩
  · rintro ⟨items, rfl, hitems⟩
    unfold AreItems at hitems
    split at hitems
    · exact .inl ⟨_, _, rfl, hitems⟩
    · exact .inr ⟨_, _, _, rfl, hitems⟩
    · exact hitems.elim

theorem TxOutput.accepts (path : Path) {t : Term} (ht : Everywhere UniqueKeysAt t) :
    Accepts [.sizeMismatch] (TxOutput.ofTerm path t) (IsOutput t) := by
  refine (accepts_items [2, 3] (G := AreItems) (fun items h => ?_)
    fun items hitems hlength => ?_).congr isOutput_iff.symm
  · unfold AreItems at h
    split at h <;> simp_all
  · have hunique : ∀ u ∈ items, Everywhere UniqueKeysAt u := (everywhere_seq_iff.1 (hitems ▸ ht)).2
    match items, hlength, hunique with
    | [address, amount], _, hunique =>
      refine accepts_asBytes.andThen fun bs _ => ?_
      exact (Value.accepts_ofAmount _ (hunique amount (by simp))).map _
    | [address, amount, datum], _, hunique =>
      refine accepts_asBytes.andThen fun bs _ => ?_
      refine (Value.accepts_ofAmount _ (hunique amount (by simp))).andThen fun v _ => ?_
      exact (Identifier.accepts _ datum).map _

end Eutxo

import Eutxo.Proofs.Ledger.Order
import Eutxo.Proofs.Ledger.Readback

/-!
# Reachable bundles

A bundle is made from a list of entries or read from a term, or it comes from
others by addition and by a subtraction that succeeds.  Only the making looks for
repeated keys.  The other operations keep the keys apart because writing to a
table and removing from it do, so whatever is reached has distinct policies and
distinct names, each asset that it holds is listed once, and it is written and
read back.
-/

namespace Eutxo

open Traversal Term Cbor

/-! ## Tables -/

theorem Table.ofEntries_eq_ok_iff {κ α : Type} [DecidableEq κ] {es : List (κ × α)}
    {t : Table κ α} : ofEntries es = .ok t ↔ t.entries = es := by
  constructor
  · exact entries_of_ofEntries
  · intro h
    obtain ⟨u, hu⟩ := exists_ofEntries (h ▸ t.nodup_keys)
    rw [hu, eq_of_entries_eq ((entries_of_ofEntries hu).trans h.symm)]

/-! ## One policy -/

namespace Asset

/-- The bundles of one policy that are reached by finitely many operations. -/
inductive Reachable : Asset → Prop where
  | make {entries : List (AssetName × Int)} {a : Asset} : ofEntries entries = .ok a → Reachable a
  | read {path : Path} {t : Term} {a : Asset} : ofTerm path t = .ok a → Reachable a
  | add {a b : Asset} : Reachable a → Reachable b → Reachable (a.add b)
  | subtract {a b d : Asset} : Reachable b → Reachable a → b.subtract a = .ok d → Reachable d

/-- A bundle is made of exactly the lists in which no name occurs twice. -/
theorem ofEntries_eq_ok_iff {es : List (AssetName × Int)} {a : Asset} :
    ofEntries es = .ok a ↔ a.entries = es := by
  constructor
  · exact entries_of_ofEntries
  · intro h
    rw [ofEntries, Table.ofEntries_eq_ok_iff.2 h]

theorem reachable (a : Asset) : a.Reachable := .make (ofEntries_eq_ok_iff.2 rfl)

theorem nodup_names (a : Asset) : a.names.Nodup := a.quantities.nodup_keys

end Asset

/-! ## Several policies -/

namespace MultiAsset

/-- The bundles of several policies that are reached by finitely many operations. -/
inductive Reachable : MultiAsset → Prop where
  | make {entries : List (PolicyId × Asset)} {m : MultiAsset} :
    (∀ e ∈ entries, e.2.Reachable) → ofEntries entries = .ok m → Reachable m
  | read {path : Path} {t : Term} {m : MultiAsset} : ofTerm path t = .ok m → Reachable m
  | add {m n : MultiAsset} : Reachable m → Reachable n → Reachable (m.add n)
  | subtract {m n d : MultiAsset} :
    Reachable m → Reachable n → m.subtract n = .ok d → Reachable d

/-- Bundles are made of exactly the lists in which no policy occurs twice. -/
theorem ofEntries_eq_ok_iff {es : List (PolicyId × Asset)} {m : MultiAsset} :
    ofEntries es = .ok m ↔ m.entries = es := by
  constructor
  · exact entries_of_ofEntries
  · intro h
    rw [ofEntries, Table.ofEntries_eq_ok_iff.2 h]

theorem reachable (m : MultiAsset) : m.Reachable :=
  .make (fun e _ => e.2.reachable) (ofEntries_eq_ok_iff.2 rfl)

theorem nodup_policies (m : MultiAsset) : m.policies.Nodup := m.bundles.nodup_keys

theorem nodup_namesUnder (m : MultiAsset) (policy : PolicyId) : (m.namesUnder policy).Nodup := by
  cases h : m.get? policy with
  | none =>
    rw [namesUnder_of_none h]
    exact List.nodup_nil
  | some a =>
    rw [namesUnder_of_some h]
    exact a.nodup_names

/-- Every asset that is held, by its policy and its name. -/
def assetIds (m : MultiAsset) : List (PolicyId × AssetName) := m.flatten.map fun e => (e.1, e.2.1)

/-- Assets are listed policy by policy, under each of them in the order of their names. -/
theorem assetIds_eq (m : MultiAsset) :
    m.assetIds = m.policies.flatMap fun policy => (m.namesUnder policy).map (Prod.mk policy) := by
  have hnames : ∀ e ∈ m.entries, m.namesUnder e.1 = e.2.names := fun _ he =>
    namesUnder_of_some (Table.get?_eq_some_iff.2 he)
  calc m.assetIds = m.entries.flatMap fun e => e.2.names.map (Prod.mk e.1) := by
        simp only [assetIds, flatten, List.map_flatMap, List.map_map, Asset.names, Table.keys]
        rfl
    _ = m.entries.flatMap fun e => (m.namesUnder e.1).map (Prod.mk e.1) :=
        List.flatMap_congr fun e he => by rw [hnames e he]
    _ = m.policies.flatMap fun policy => (m.namesUnder policy).map (Prod.mk policy) := by
        rw [policies, Table.keys, List.flatMap_map, entries]

theorem nodup_assetIds (m : MultiAsset) : m.assetIds.Nodup := by
  rw [assetIds_eq, List.nodup_flatMap]
  constructor
  · intro policy _
    exact (m.nodup_namesUnder policy).map (Prod.mk_right_injective policy)
  · -- The names under two policies are told apart by the policies.
    apply m.nodup_policies.imp
    intro policy policy' hne id hid hid'
    obtain ⟨name, -, rfl⟩ := List.mem_map.1 hid
    obtain ⟨name', -, heq⟩ := List.mem_map.1 hid'
    exact hne (congrArg Prod.fst heq).symm

/-- No policy occurs twice, and under no policy does a name occur twice.  What is held is listed,
each asset once and with its quantity, and nothing else is: policy by policy, and under each policy
name by name. -/
structure WellFormed (m : MultiAsset) : Prop where
  policies : m.policies.Nodup
  names : ∀ policy, (m.namesUnder policy).Nodup
  assetIds : m.assetIds.Nodup
  assetIds_eq : m.assetIds =
    m.policies.flatMap fun policy => (m.namesUnder policy).map (Prod.mk policy)
  mem_flatten_iff : ∀ policy name q,
    (policy, name, q) ∈ m.flatten ↔ ∃ a, m.get? policy = some a ∧ a.get? name = some q

theorem wellFormed (m : MultiAsset) : m.WellFormed where
  policies := m.nodup_policies
  names := m.nodup_namesUnder
  assetIds := m.nodup_assetIds
  assetIds_eq := m.assetIds_eq
  mem_flatten_iff _ _ _ := MultiAsset.mem_flatten_iff

end MultiAsset

/-! ## Values -/

namespace Value

/-- The values that are reached by finitely many operations. -/
inductive Reachable : Value → Prop where
  | make {coin : Int} {assets : MultiAsset} : assets.Reachable → Reachable ⟨coin, assets⟩
  | read {path : Path} {t : Term} {v : Value} : ofTerm path t = .ok v → Reachable v
  | readAmount {path : Path} {t : Term} {v : Value} : ofAmount path t = .ok v → Reachable v
  | add {v w : Value} : Reachable v → Reachable w → Reachable (v.add w)
  | addCoin {v : Value} {coin : Int} : Reachable v → Reachable (v.addCoin coin)
  | subtract {v w d : Value} : Reachable w → Reachable v → w.subtract v = .ok d → Reachable d

end Value

/-! ## Bytes -/

namespace Bundle

open LawfulBundle

variable {α : Type} [Codec α] [Bundle α]

/-- The bundle is written if its sizes fit in heads, and if decoding accepts them what is read back
is equal.  No bundle that is held in memory has larger ones. -/
structure Encodable (a : α) : Prop where
  exists_toCbor : Codec.Fits a → ∃ bs, Codec.toCbor a = .ok bs
  exists_ofCbor : Everywhere (FitsAt maxLength) (Codec.toTerm a) →
    ∃ bs b, Codec.toCbor a = .ok bs ∧ Codec.ofCbor bs = .ok b ∧ Equal b a

theorem encodable [LawfulBundle α] [Codec.Readable α] (a : α) : Encodable a where
  exists_toCbor := Codec.exists_toCbor_iff.2
  exists_ofCbor hfits := by
    have hwritable : Codec.Fits a := hfits.imp fun _ => FitsAt.mono (by decide)
    obtain ⟨bs, hbs⟩ := Codec.exists_toCbor_iff.2 hwritable
    have hfaithful : Everywhere FaithfulAt (Codec.toTerm a) :=
      Codec.Regular.everywhere_toTerm ledgerNodes_faithfulAt a
    -- Decoding gives the term with its map entries in the order of their keys.
    obtain ⟨t, ht, hreordered⟩ := exists_decode .input hfaithful hfits hbs
    obtain ⟨b, hb, hterm⟩ := Codec.Readable.exists_ofTerm (Codec.path α) hreordered
    have hback : Reordered (Codec.toTerm a) (Codec.toTerm b) := hterm ▸ hreordered
    have hequal : Equal b a := equal_iff.2 ⟨hwritable, reordered_iff_same.1 hback.symm⟩
    refine ⟨bs, b, hbs, ?_, hequal⟩
    rw [Codec.ofCbor, ht, ok_bind]
    exact hb

end Bundle

/-- Whatever is made or read, added and subtracted in finitely many steps has no policy twice and
under no policy a name twice, and everything that it holds is listed once.  It is written as bytes
from which an equal bundle is read. -/
theorem reachable_bundles_encoded :
    (∀ a : Asset, a.Reachable → a.names.Nodup ∧ Bundle.Encodable a) ∧
    (∀ m : MultiAsset, m.Reachable → m.WellFormed ∧ Bundle.Encodable m) ∧
    ∀ v : Value, v.Reachable → v.assets.WellFormed ∧ Bundle.Encodable v :=
  ⟨fun a _ => ⟨a.nodup_names, Bundle.encodable a⟩, fun m _ => ⟨m.wellFormed, Bundle.encodable m⟩,
    fun v _ => ⟨v.assets.wellFormed, Bundle.encodable v⟩⟩

/-- A value beyond what fits in a head, in either direction. -/
def hoard : Value where
  coin := 2 ^ 70
  assets := ⟨[(policyOf 1, ⟨[(nameOf 0x64, -2 ^ 70)], by decide⟩)], by decide⟩

theorem reachable_bundles_encoded_hoard :
    (remaining.add hoard).Reachable ∧ (remaining.add hoard).assets.WellFormed ∧
      (policyOf 1, nameOf 0x64, -2 ^ 70) ∈ (remaining.add hoard).assets.flatten ∧
      Everywhere (FitsAt maxLength) (Codec.toTerm (remaining.add hoard)) ∧
      ∃ bs v, Codec.toCbor (remaining.add hoard) = .ok bs ∧ Codec.ofCbor bs = .ok v ∧
        Bundle.Equal v (remaining.add hoard) := by
  have hholding : holding.Reachable := .make holding.assets.reachable
  have hspending : spending.Reachable := .make spending.assets.reachable
  have hremaining : remaining.Reachable := .subtract hholding hspending rfl
  have hread : Value.ofTerm .input (Codec.toTerm hoard) = .ok hoard := by rfl
  have hhoard : hoard.Reachable := .read hread
  have hreachable : (remaining.add hoard).Reachable := hremaining.add hhoard
  have hfits : Everywhere (FitsAt maxLength) (Codec.toTerm (remaining.add hoard)) := by decide
  obtain ⟨hwellformed, hencodable⟩ := reachable_bundles_encoded.2.2 _ hreachable
  have hlisted : (policyOf 1, nameOf 0x64, -2 ^ 70) ∈ (remaining.add hoard).assets.flatten :=
    (hwellformed.mem_flatten_iff _ _ _).2 ⟨_, rfl, rfl⟩
  exact ⟨hreachable, hwellformed, hlisted, hfits, hencodable.exists_ofCbor hfits⟩

end Eutxo

import Eutxo.Proofs.Cbor.Invariance
import Eutxo.Proofs.Record

/-!
# The order of map entries says nothing

Bytes that differ only in the order in which they list map entries are read by a
decoder or refused by it together.  What is read from them is equal, is written
as the same bytes, and has the same hash.
-/

namespace Eutxo

open Traversal Term Cbor

/-! ## Grammars -/

namespace Term.IgnoresOrder

theorem isQuantities : IgnoresOrder IsQuantities := isMap (isBytesWithin 32) isInt

theorem isBundles : IgnoresOrder IsBundles := isMap (isBytesOf 28) isQuantities

theorem isValue : IgnoresOrder IsValue := isPair isInt isBundles

theorem isAmount : IgnoresOrder IsAmount := isInt.or isValue

theorem isInput : IgnoresOrder IsInput := isPair (isBytesOf 32) isSafeUnsigned

theorem isOutput : IgnoresOrder IsOutput := by
  have hitems : IgnoresOrder fun t => ∃ items, t = .seq items ∧ TxOutput.AreItems items := by
    apply items
    intro xs ys h hxs
    match xs, ys, h with
    | [_, _], [_, _], .cons haddress (.cons hamount .nil) =>
      exact ⟨isBytes _ _ haddress hxs.1, isAmount _ _ hamount hxs.2⟩
    | [_, _, _], [_, _, _], .cons haddress (.cons hamount (.cons hdatum .nil)) =>
      exact ⟨isBytes _ _ haddress hxs.1, isAmount _ _ hamount hxs.2.1,
        isBytesOf 32 _ _ hdatum hxs.2.2⟩
  intro t u h ht
  exact TxOutput.isOutput_iff.2 (hitems t u h (TxOutput.isOutput_iff.1 ht))

theorem bodyContent (key : Nat) : IgnoresOrder (BodyContent key) := by
  intro t u h ht
  obtain ⟨f, hf⟩ := BodyEntry.exists_ofKey?_of_content ht
  obtain rfl := BodyField.key_of_ofKey? hf
  cases f
  case inputs | collateral | referenceInputs => exact isInput.isSet t u h ht
  case requiredSigners => exact (isBytesOf 28).isSet t u h ht
  case outputs => exact isOutput.isList t u h ht
  case fee | ttl | validityStart | totalCollateral => exact isUnsigned t u h ht
  case networkId => exact isSafeUnsigned t u h ht
  case certificates | update => exact trivial
  case withdrawals => exact isMap isBytes isUnsigned t u h ht
  case auxiliaryDataHash | scriptDataHash => exact isBytesOf 32 t u h ht
  case mint => exact isBundles t u h ht
  case collateralReturn => exact isOutput t u h ht

theorem isBody : IgnoresOrder IsBody := keyed bodyContent [0, 1, 2]

theorem witnessContent (key : Nat) : IgnoresOrder (WitnessContent key) := by
  intro t u h ht
  obtain ⟨f, hf⟩ := WitnessEntry.exists_ofKey?_of_content ht
  obtain rfl := WitnessField.key_of_ofKey? hf
  cases f
  case vkeyWitnesses => exact (isPair (isBytesOf 32) (isBytesOf 64)).isSet t u h ht
  case nativeScripts | bootstrapWitnesses | plutusData => exact anything.isSet t u h ht
  case plutusV1Scripts | plutusV2Scripts | plutusV3Scripts => exact isBytes.isSet t u h ht
  case redeemers => exact trivial

theorem isWitnessSet : IgnoresOrder IsWitnessSet := by
  intro t u h ht
  obtain ⟨es, hes, hcontents⟩ := ht
  obtain ⟨fs, hfs, hcontents, -⟩ := keyed witnessContent [] t u h ⟨es, hes, hcontents, nofun⟩
  exact ⟨fs, hfs, hcontents⟩

theorem isMetadata : IgnoresOrder IsMetadata :=
  isMap isUnsigned (everywhere Metadatum.NodeAt.of_alike)

theorem isAuxiliary : IgnoresOrder IsAuxiliary := by
  have hnull : IgnoresOrder fun t => t = .null := by
    rintro _ u h rfl
    exact Reordered.null_left_iff.1 h
  exact hnull.or isMetadata

theorem isTransaction : IgnoresOrder IsTransaction := by
  apply items
  intro xs ys h hxs
  match xs, ys, h with
  | [_, _, _], [_, _, _], .cons hbody (.cons hwitnesses (.cons hauxiliary .nil)) =>
    exact ⟨isBody _ _ hbody hxs.1, isWitnessSet _ _ hwitnesses hxs.2.1,
      isAuxiliary _ _ hauxiliary hxs.2.2⟩
  | [_, _, _, _], [_, _, _, _],
      .cons hbody (.cons hwitnesses (.cons hvalid (.cons hauxiliary .nil))) =>
    obtain ⟨hxbody, hxwitnesses, ⟨b, rfl⟩, hxauxiliary⟩ := hxs
    exact ⟨isBody _ _ hbody hxbody, isWitnessSet _ _ hwitnesses hxwitnesses,
      ⟨b, Reordered.bool_left_iff.1 hvalid⟩, isAuxiliary _ _ hauxiliary hxauxiliary⟩

theorem isMessage : IgnoresOrder IsMessage := by
  apply items
  intro xs ys h hxs
  match xs, ys, h with
  | [_, _, _, _], [_, _, _, _],
      .cons hprotected (.cons hheader (.cons hpayload (.cons hsignature .nil))) =>
    obtain ⟨hxprotected, ⟨es, rfl⟩, hxpayload, hxsignature⟩ := hxs
    obtain ⟨fs, rfl, -⟩ := hheader.exists_entries
    exact ⟨isBytes _ _ hprotected hxprotected, ⟨fs, rfl⟩, isBytes _ _ hpayload hxpayload,
      isBytes _ _ hsignature hxsignature⟩

end Term.IgnoresOrder

namespace Cose

variable {h h' : Header}

/-- What has no entries of its own is found under a label in any order of the entries. -/
theorem Header.get?_of_reordered (hdistinct : DistinctAt (.map h))
    (hdistinct' : DistinctAt (.map h')) (hsame : Reordered (.map h) (.map h')) {n : Int}
    {t : Term} (hrigid : ∀ u, Reordered t u → u = t) (ht : h.get? (.int n) = some t) :
    h'.get? (.int n) = some t := by
  have hmem := (Header.get?_eq_some_iff hdistinct (.int n)).1 ht
  obtain ⟨⟨k, u⟩, hu, hkey, hvalue⟩ := Reordered.exists_entry hsame.symm _ hmem
  obtain rfl := Reordered.int_left_iff.1 hkey.symm
  obtain rfl := hrigid u hvalue.symm
  exact (Header.get?_eq_some_iff hdistinct' (.int n)).2 hu

theorem Header.get?_int_of_reordered (hdistinct : DistinctAt (.map h))
    (hdistinct' : DistinctAt (.map h')) (hsame : Reordered (.map h) (.map h')) {n m : Int} :
    h.get? (.int n) = some (.int m) → h'.get? (.int n) = some (.int m) :=
  get?_of_reordered hdistinct hdistinct' hsame fun _ => Reordered.int_left_iff.1

theorem Header.get?_bytes_of_reordered (hdistinct : DistinctAt (.map h))
    (hdistinct' : DistinctAt (.map h')) (hsame : Reordered (.map h) (.map h')) {n : Int}
    {bs : Bytes} : h.get? (.int n) = some (.bytes bs) → h'.get? (.int n) = some (.bytes bs) :=
  get?_of_reordered hdistinct hdistinct' hsame fun _ => Reordered.bytes_left_iff.1

theorem Key.isKeyMap_of_reordered {t u : Term} (ht : DistinctAt t) (hu : DistinctAt u)
    (hsame : Reordered t u) (hmap : IsKeyMap t) : IsKeyMap u := by
  obtain ⟨es, rfl, htype, halgorithm, hcurve, _, hpublic, bs, rfl, hlength⟩ := hmap
  obtain ⟨fs, rfl, -⟩ := hsame.exists_entries
  have hint {n m : Int} (h : Header.get? es (.int n) = some (.int m)) :
      Header.get? fs (.int n) = some (.int m) := Header.get?_int_of_reordered ht hu hsame h
  exact ⟨fs, rfl, hint htype, hint halgorithm, hint hcurve, _,
    Header.get?_bytes_of_reordered ht hu hsame hpublic, bs, rfl, hlength⟩

/-- There is one key in a map, whatever the order of its entries. -/
theorem Key.eq_of_reordered {p q : Path} {t u : Term} {j k : Key} (ht : DistinctAt t)
    (hu : DistinctAt u) (hsame : Reordered t u) (hj : Key.ofTerm p t = .ok j)
    (hk : Key.ofTerm q u = .ok k) : j = k := by
  obtain ⟨es, rfl, -, -, -, hes⟩ := Key.ofTerm_eq_ok_iff.1 hj
  obtain ⟨fs, rfl, -, -, -, hfs⟩ := Key.ofTerm_eq_ok_iff.1 hk
  have hbytes := Header.get?_bytes_of_reordered ht hu hsame hes
  rw [hfs] at hbytes
  obtain ⟨⟨x, hx⟩⟩ := j
  obtain ⟨⟨y, hy⟩⟩ := k
  cases hbytes
  rfl

end Cose

open IgnoresOrder in
/-- A grammar has terms or does not, whatever the order of their entries. -/
theorem RecordKind.grammar_of_reordered {t u : Term} (ht : Everywhere DistinctAt t)
    (hu : Everywhere DistinctAt u) (h : Reordered t u) (kind : RecordKind)
    (hgrammar : kind.Grammar t) : kind.Grammar u := by
  cases kind
  case identifier kind => exact isBytesOf kind.size t u h hgrammar
  case assetName => exact isBytesWithin 32 t u h hgrammar
  case asset => exact isQuantities t u h hgrammar
  case multiAsset => exact isBundles t u h hgrammar
  case value => exact isValue t u h hgrammar
  case input => exact isInput t u h hgrammar
  case output => exact isOutput t u h hgrammar
  case body => exact isBody t u h hgrammar
  case vkeyWitness => exact isPair (isBytesOf 32) (isBytesOf 64) t u h hgrammar
  case witnessSet => exact isWitnessSet t u h hgrammar
  case transaction => exact isTransaction t u h hgrammar
  case auxiliaryData => exact isMetadata t u h hgrammar
  case verificationKey | signingKey => exact isBytesOf 32 t u h hgrammar
  case signature => exact isBytesOf 64 t u h hgrammar
  case message => exact isMessage t u h hgrammar
  case coseKey => exact Cose.Key.isKeyMap_of_reordered ht.here hu.here h hgrammar

/-! ## What is written in short -/

theorem Value.shortAmount_reordered {t u : Term} (h : Reordered t u) :
    Reordered (shortAmount t) (shortAmount u) := by
  have hbare {coin : Int} {v : Term} (h : Reordered (.seq [.int coin, .map []]) v) :
      v = .seq [.int coin, .map []] := by
    obtain ⟨_, _, rfl, hcoin, hbundles⟩ := Reordered.pair_left_iff.1 h
    obtain ⟨fs, gs, rfl, hperm, hmatch⟩ := Reordered.map_left_iff.1 hbundles
    obtain rfl := List.nil_perm.1 hperm
    cases hmatch
    rw [Reordered.int_left_iff.1 hcoin]
  by_cases hlong : ∀ coin, t ≠ .seq [.int coin, .map []]
  · have hlong' : ∀ coin, u ≠ .seq [.int coin, .map []] := by
      rintro coin rfl
      exact hlong coin (hbare h.symm)
    rwa [shortAmount_eq_self_iff.2 hlong, shortAmount_eq_self_iff.2 hlong']
  · push Not at hlong
    obtain ⟨coin, rfl⟩ := hlong
    rw [hbare h]
    exact .refl _

theorem TxOutput.shortOutput_reordered {t u : Term} (h : Reordered t u) :
    Reordered (shortOutput t) (shortOutput u) := by
  apply h.of_seq
  · intro t ht
    unfold shortOutput
    split
    · exact (ht _ rfl).elim
    · rfl
  · intro xs ys hitems
    match xs, ys, hitems with
    | [], [], _ => exact .refl _
    | [_], [_], hitems => exact .seq hitems
    | _ :: _ :: _, _ :: _ :: _, .cons haddress (.cons hamount hrest) =>
      exact .seq (.cons haddress (.cons (Value.shortAmount_reordered hamount) hrest))

theorem BodyEntry.shortContent_reordered (f : BodyField) {t u : Term} (h : Reordered t u) :
    Reordered (shortContent f t) (shortContent f u) := by
  cases f
  case outputs =>
    apply h.of_seq
    · intro t ht
      unfold shortContent
      split
      · exact (ht _ rfl).elim
      · contradiction
      · rfl
    · intro xs ys hitems
      apply Reordered.seq
      rw [List.forall₂_map_left_iff, List.forall₂_map_right_iff]
      exact hitems.imp fun _ _ => TxOutput.shortOutput_reordered
  case collateralReturn => exact TxOutput.shortOutput_reordered h
  all_goals exact h

theorem BodyEntry.shortEntry_reordered (d e : Term × Term) (h : Reordered.Entry d e) :
    Reordered.Entry (shortEntry d) (shortEntry e) := by
  obtain ⟨k, v⟩ := d
  obtain ⟨l, w⟩ := e
  obtain ⟨hkey, hvalue⟩ := h
  have hother {k v : Term} (hone : k ≠ .int 1) (hsixteen : k ≠ .int 16) :
      shortEntry (k, v) = (k, v) := by
    unfold shortEntry
    split
    · next heq => exact (hone (Prod.mk.inj heq).1).elim
    · next heq => exact (hsixteen (Prod.mk.inj heq).1).elim
    · rfl
  have hkeys (n : Int) : k = .int n ↔ l = .int n := by
    constructor
    · rintro rfl
      exact Reordered.int_left_iff.1 hkey
    · rintro rfl
      exact Reordered.int_left_iff.1 hkey.symm
  by_cases hone : k = .int 1
  · obtain rfl := (hkeys 1).1 hone
    obtain rfl := hone
    exact ⟨.refl _, shortContent_reordered .outputs hvalue⟩
  by_cases hsixteen : k = .int 16
  · obtain rfl := (hkeys 16).1 hsixteen
    obtain rfl := hsixteen
    exact ⟨.refl _, shortContent_reordered .collateralReturn hvalue⟩
  · rw [hother hone hsixteen, hother (hone ∘ (hkeys 1).2) (hsixteen ∘ (hkeys 16).2)]
    exact ⟨hkey, hvalue⟩

theorem TxBody.shortBody_reordered {t u : Term} (h : Reordered t u) :
    Reordered (shortBody t) (shortBody u) := by
  apply h.of_map
  · intro t ht
    unfold shortBody
    split
    · exact (ht _ rfl).elim
    · rfl
  · exact fun _ => rfl
  · exact BodyEntry.shortEntry_reordered

theorem Transaction.shortTransaction_reordered {t u : Term} (h : Reordered t u) :
    Reordered (shortTransaction t) (shortTransaction u) := by
  apply h.of_seq
  · intro t ht
    unfold shortTransaction
    split
    · exact (ht _ rfl).elim
    · exact (ht _ rfl).elim
    · rfl
  · intro xs ys hitems
    match xs, ys, hitems with
    | [_, _, _], [_, _, _], .cons hbody (.cons hwitnesses hauxiliary) =>
      exact .seq (.cons (TxBody.shortBody_reordered hbody)
        (.cons hwitnesses (.cons (.refl _) hauxiliary)))
    | [_, _, _, _], [_, _, _, _], .cons hbody hrest =>
      exact .seq (.cons (TxBody.shortBody_reordered hbody) hrest)
    | [], [], hitems => exact .seq hitems
    | [_], [_], hitems => exact .seq hitems
    | [_, _], [_, _], hitems => exact .seq hitems
    | _ :: _ :: _ :: _ :: _ :: _, _ :: _ :: _ :: _ :: _ :: _, hitems => exact .seq hitems

/-! ## What is read -/

/-- A type whose values do not depend on the order of the entries of the terms that they are read
from. -/
class Codec.Orderless (α : Type) [Codec α] : Prop where
  reordered {p q : Path} {t u : Term} {a b : α} : Everywhere DistinctAt t →
    Everywhere DistinctAt u → Reordered t u → ofTerm p t = .ok a → ofTerm q u = .ok b →
      Reordered (toTerm a) (toTerm b)

namespace Codec.Orderless

instance (priority := low) {α : Type} [Codec α] [Codec.Exact α] : Codec.Orderless α where
  reordered _ _ h ha hb := by
    rw [Codec.Exact.toTerm_eq ha, Codec.Exact.toTerm_eq hb]
    exact h

instance : Codec.Orderless TxOutput where
  reordered _ _ h ha hb := by
    rw [TxOutput.toTerm_eq ha, TxOutput.toTerm_eq hb]
    exact TxOutput.shortOutput_reordered h

instance : Codec.Orderless TxBody where
  reordered ht hu h ha hb :=
    ((TxBody.reordered_of_ofTerm ht.here ha).symm.trans (TxBody.shortBody_reordered h)).trans
      (TxBody.reordered_of_ofTerm hu.here hb)

instance : Codec.Orderless WitnessSet where
  reordered ht hu h ha hb :=
    ((WitnessSet.reordered_of_ofTerm ht.here ha).symm.trans h).trans
      (WitnessSet.reordered_of_ofTerm hu.here hb)

instance : Codec.Orderless Transaction where
  reordered ht hu h ha hb :=
    ((Transaction.reordered_of_ofTerm ht ha).symm.trans
      (Transaction.shortTransaction_reordered h)).trans (Transaction.reordered_of_ofTerm hu hb)

instance : Codec.Orderless Cose.Key where
  reordered ht hu h ha hb := by
    rw [Cose.Key.eq_of_reordered ht.here hu.here h ha hb]
    exact .refl _

end Codec.Orderless

namespace Record

theorem reordered_of_ofTerm {kind : RecordKind} {p q : Path} {t u : Term} {r r' : Record}
    (ht : Everywhere DistinctAt t) (hu : Everywhere DistinctAt u) (h : Reordered t u)
    (hr : ofTerm p t kind = .ok r) (hr' : ofTerm q u kind = .ok r') :
    Reordered r.toTerm r'.toTerm := by
  cases kind
  all_goals
    obtain ⟨a, ha, hpure⟩ := bind_eq_ok.1 hr
    obtain ⟨b, hb, hpure'⟩ := bind_eq_ok.1 hr'
    cases hpure
    cases hpure'
    exact Codec.Orderless.reordered ht hu h ha hb

/-- Nothing tells the records apart: they are equal, written as the same bytes, and known by the
same hash if they are known by one. -/
structure Alike (r r' : Record) : Prop where
  equals : r.equals r' = .ok true
  toCbor : ∃ out, r.toCbor = .ok out ∧ r'.toCbor = .ok out
  body : ∀ b b', r = .body b → r' = .body b' → ∃ id, b.hash = .ok id ∧ b'.hash = .ok id
  transaction : ∀ tx tx', r = .transaction tx → r' = .transaction tx' →
    ∃ id, tx.id = .ok id ∧ tx'.id = .ok id
  auxiliaryData : ∀ a a', r = .auxiliaryData a → r' = .auxiliaryData a' →
    ∃ id, a.hash = .ok id ∧ a'.hash = .ok id

theorem alike_of_reordered {r r' : Record} (hkind : r.kind = r'.kind)
    (h : Reordered r.toTerm r'.toTerm) {out : Bytes} (hout : r.toCbor = .ok out) :
    Alike r r' := by
  have hout' : r'.toCbor = .ok out := encode_of_reordered h hout
  constructor
  case equals =>
    rw [equals, if_pos hkind, hout, ok_bind, hout', ok_bind]
    exact congrArg Except.ok (decide_eq_true rfl)
  case toCbor => exact ⟨out, hout, hout'⟩
  case body =>
    rintro b b' rfl rfl
    exact ⟨.hash out, bind_eq_ok.2 ⟨out, hout, rfl⟩, bind_eq_ok.2 ⟨out, hout', rfl⟩⟩
  case transaction =>
    rintro tx tx' rfl rfl
    exact Transaction.id_of_reordered h hout
  case auxiliaryData =>
    rintro a a' rfl rfl
    exact ⟨.hash out, bind_eq_ok.2 ⟨out, hout, rfl⟩, bind_eq_ok.2 ⟨out, hout', rfl⟩⟩

/-- Bytes that differ in the order of map entries alone are read as a record of a type or refused
together, and nothing tells the records apart that are read. -/
theorem ofCbor_reordered (kind : RecordKind) {bs bs' : Bytes} {t t' : Term}
    (ht : decode .input bs = .ok t) (ht' : decode .input bs' = .ok t') (h : Reordered t t') :
    ((∃ r, ofCbor kind bs = .ok r) ↔ ∃ r', ofCbor kind bs' = .ok r') ∧
      ∀ r r', ofCbor kind bs = .ok r → ofCbor kind bs' = .ok r' → Alike r r' := by
  have hencodable := encodable_of_decode ht
  have hencodable' := encodable_of_decode ht'
  have hdistinct : Everywhere DistinctAt t := hencodable.imp fun _ => And.right
  have hdistinct' : Everywhere DistinctAt t' := hencodable'.imp fun _ => And.right
  have haccepts := accepts kind kind.path (hencodable.imp fun _ => Codec.uniqueKeysAt_of_encodable)
  have haccepts' :=
    accepts kind kind.path (hencodable'.imp fun _ => Codec.uniqueKeysAt_of_encodable)
  have hread : ofCbor kind bs = ofTerm kind.path t kind := by rw [ofCbor, ht, ok_bind]
  have hread' : ofCbor kind bs' = ofTerm kind.path t' kind := by rw [ofCbor, ht', ok_bind]
  rw [hread, hread']
  constructor
  · rw [haccepts.succeeds_iff, haccepts'.succeeds_iff]
    exact ⟨kind.grammar_of_reordered hdistinct hdistinct' h,
      kind.grammar_of_reordered hdistinct' hdistinct h.symm⟩
  · intro r r' hr hr'
    obtain ⟨hkind, out, hout⟩ := exists_toCbor hencodable hr
    obtain ⟨hkind', -⟩ := exists_toCbor hencodable' hr'
    exact alike_of_reordered (hkind.trans hkind'.symm)
      (reordered_of_ofTerm hdistinct hdistinct' h hr hr') hout

/-- The bytes of a transaction that lists the fee of its body first. -/
def feeFirst : Bytes := [0x83, 0xA3, 2, 0, 0, 0x80, 1, 0x80, 0xA0, 0xA1, 1, 0xA2, 1, 2, 3, 4]

/-- The bytes of the transaction that lists the fee last, and its metadata the other way round. -/
def feeLast : Bytes := [0x83, 0xA3, 0, 0x80, 1, 0x80, 2, 0, 0xA0, 0xA1, 1, 0xA2, 3, 4, 1, 2]

theorem ofCbor_reordered_feeFirst : ∃ t t' r r', decode .input feeFirst = .ok t ∧
    decode .input feeLast = .ok t' ∧ Reordered t t' ∧ ofCbor .transaction feeFirst = .ok r ∧
      ofCbor .transaction feeLast = .ok r' ∧ Alike r r' := by
  have hbody : Reordered (.map [(.int 2, .int 0), (.int 0, .seq []), (.int 1, .seq [])])
      (.map [(.int 0, .seq []), (.int 1, .seq []), (.int 2, .int 0)]) := .permute (by decide)
  have hentries : Reordered (.map [(.int 1, .int 2), (.int 3, .int 4)])
      (.map [(.int 3, .int 4), (.int 1, .int 2)]) := .permute (by decide)
  have hmetadata := Reordered.entry [] [] (.refl (.int 1)) hentries
  have hsame := Reordered.seq (.cons hbody (.cons (.refl (.map [])) (.cons hmetadata .nil)))
  have hfirst : decode .input feeFirst = .ok (.seq _) := rfl
  have hlast : decode .input feeLast = .ok (.seq _) := rfl
  obtain ⟨hread, halike⟩ := ofCbor_reordered .transaction hfirst hlast hsame
  obtain ⟨r, hr⟩ : ∃ r, ofCbor .transaction feeFirst = .ok r := ⟨_, rfl⟩
  obtain ⟨r', hr'⟩ := hread.1 ⟨r, hr⟩
  exact ⟨_, _, r, r', hfirst, hlast, hsame, hr, hr', halike r r' hr hr'⟩

end Record

end Eutxo

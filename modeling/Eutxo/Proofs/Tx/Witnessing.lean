import Eutxo.Proofs.Cbor.ValueOrder
import Eutxo.Proofs.Tx.Signing
import Eutxo.Proofs.Tx.Transaction

/-!
# Adding witnesses

Witnesses are added behind the key witnesses that are there.  In the bytes of a
witness set the entry of the key witnesses then stands in the place of the old
one, or in front of all others if there was none, and in the bytes of a
transaction nothing but the witness set is another.
-/

namespace Eutxo

open Traversal Cbor

/-- A list is encoded, marked as a set or not, exactly if its length fits and each item is. -/
theorem Term.exists_encode_setLike_iff {items : List Term} {tagged : Bool} :
    (∃ bs, encode (setLike items tagged) = .ok bs) ↔
      items.length ≤ maxArgument ∧ ∀ t ∈ items, ∃ bs, encode t = .ok bs := by
  rw [← exists_encode_seq_iff]
  cases tagged with
  | false => exact Iff.rfl
  | true =>
    constructor
    · rintro ⟨bs, h⟩
      obtain ⟨head, below, -, hbelow, -⟩ := encode_tag_eq_ok_iff.1 h
      exact ⟨below, hbelow⟩
    · rintro ⟨below, hbelow⟩
      obtain ⟨head, hhead⟩ := exists_head (n := setTag) .tag (by decide)
      exact ⟨head ++ below, encode_tag_eq_ok_iff.2 ⟨head, below, hhead, hbelow, rfl⟩⟩

theorem VkeyWitness.exists_encode (x : VkeyWitness) :
    ∃ bs, encode (Codec.toTerm x) = .ok bs := by
  have hkey : x.key.bytes.length ≤ maxArgument := by
    rw [x.key.length_bytes]
    decide
  have hsignature : x.signature.bytes.length ≤ maxArgument := by
    rw [x.signature.length_bytes]
    decide
  have hparts : ∀ t ∈ [Codec.toTerm x.key, Codec.toTerm x.signature], ∃ bs, encode t = .ok bs :=
    List.forall_mem_cons.2 ⟨exists_encode_bytes_iff.2 hkey,
      List.forall_mem_singleton.2 (exists_encode_bytes_iff.2 hsignature)⟩
  have hlength : [Codec.toTerm x.key, Codec.toTerm x.signature].length ≤ maxArgument := by
    rw [List.length_cons, List.length_singleton]
    decide
  exact exists_encode_seq_iff.2 ⟨hlength, hparts⟩

namespace WitnessSet

variable {w : WitnessSet}

/-! ## Entries -/

/-- The list of key witnesses as a term, marked as a set if it is recorded as one. -/
def keyWitnessTerm (w : WitnessSet) (ws : List VkeyWitness) : Term :=
  Term.setLike (ws.map Codec.toTerm) (w.taggedSets.contains 0)

/-- The entry of the key witnesses, if they are present. -/
def keyWitnessEntry (w : WitnessSet) : List (Term × Term) :=
  w.vkeyWitnesses.toList.map fun ws => (.int 0, w.keyWitnessTerm ws)

/-- The entries of the other fields. -/
def otherEntries (w : WitnessSet) : List (Term × Term) :=
  ({ w with vkeyWitnesses := none } : WitnessSet).entries.map WitnessEntry.toTerms

theorem entries_eq (w : WitnessSet) :
    w.entries.map WitnessEntry.toTerms = w.keyWitnessEntry ++ w.otherEntries := by
  obtain ⟨ws, _, _, _, _, _, _, _, _⟩ := w
  cases ws <;> rfl

theorem toTerm_eq (w : WitnessSet) : w.toTerm = .map (w.keyWitnessEntry ++ w.otherEntries) :=
  congrArg Term.map w.entries_eq

theorem key_ne_of_mem_otherEntries {e : Term × Term} (h : e ∈ w.otherEntries) : e.1 ≠ .int 0 := by
  obtain ⟨d, hd, rfl⟩ := List.mem_map.1 h
  have hentry := mem_entries_iff_entryOf?.1 hd
  cases d
  case vkeyWitnesses => cases hentry
  all_goals
    intro hkey
    cases hkey

theorem pairwise_entries (w : WitnessSet) :
    (w.entries.map WitnessEntry.toTerms).Pairwise EncodedBefore := by
  have hascending : allFields.Pairwise fun f g => f.key < g.key := by decide
  have hle : ∀ f : WitnessField, f.key ≤ maxArgument := by
    intro f
    cases f <;> decide
  have hentries := List.pairwise_map.1 (hascending.sublist w.sublist_entries)
  exact List.pairwise_map.2 (hentries.imp fun hlt => encodedBefore_of_lt hlt (hle _) _ _)

/-! ## Bytes -/

/-- The first byte of a witness set: the head of a map of so many entries. -/
def opening (w : WitnessSet) : UInt8 := UInt8.ofNat (0xA0 + w.entries.length)

theorem write?_opening (w : WitnessSet) :
    Head.write? .map (w.entries.map WitnessEntry.toTerms).length = some [w.opening] := by
  have hshort : ∀ n ≤ allFields.length,
      Head.write? .map n = some [UInt8.ofNat (0xA0 + n)] := by decide
  have hlength := w.sublist_entries.length_le
  rw [List.length_map] at hlength ⊢
  exact hshort _ hlength

/-- The bytes of a witness set: those of the key witnesses in front of those of all other
fields. -/
theorem toCbor_eq_ok_iff {bs : Bytes} : Codec.toCbor w = .ok bs ↔ ∃ own others,
    SpellsInside w.keyWitnessEntry own ∧ SpellsInside w.otherEntries others ∧
      bs = w.opening :: (own ++ others) := by
  have hmap : Codec.toCbor w = .ok bs ↔ SpellsEntries (w.entries.map WitnessEntry.toTerms) bs :=
    encode_map_eq_ok_iff w.pairwise_entries
  rw [hmap, spellsEntries_iff, write?_opening, entries_eq]
  simp only [spellsInside_append_iff]
  constructor
  · rintro ⟨_, _, hhead, ⟨own, others, hown, hothers, rfl⟩, rfl⟩
    cases hhead
    exact ⟨own, others, hown, hothers, rfl⟩
  · rintro ⟨own, others, hown, hothers, rfl⟩
    exact ⟨_, _, rfl, ⟨own, others, hown, hothers, rfl⟩, rfl⟩

/-- Key witnesses are written unless there are too many for a head. -/
theorem exists_spellsInside_keyWitnessEntry
    (h : ∀ ws ∈ w.vkeyWitnesses, ws.length ≤ maxArgument) :
    ∃ own, SpellsInside w.keyWitnessEntry own := by
  refine exists_spellsInside fun e he => ?_
  obtain ⟨ws, hws, rfl⟩ := List.mem_map.1 he
  have hitems : ∀ t ∈ ws.map Codec.toTerm, ∃ bs, encode t = .ok bs := by
    intro t ht
    obtain ⟨x, -, rfl⟩ := List.mem_map.1 ht
    exact x.exists_encode
  have hlength : (ws.map (Codec.toTerm (α := VkeyWitness))).length ≤ maxArgument := by
    rw [List.length_map]
    exact h ws (Option.mem_toList.1 hws)
  obtain ⟨list, hlist⟩ := Term.exists_encode_setLike_iff.2 ⟨hlength, hitems⟩
  exact ⟨_, [0], list, rfl, hlist, rfl⟩

/-! ## Adding -/

theorem count_addVkeyWitness (w : WitnessSet) (x : VkeyWitness) :
    (w.addVkeyWitness x).count = w.count + 1 := by
  have hcount : countOf (some (w.vkeyWitnesses.getD [] ++ [x])) = countOf w.vkeyWitnesses + 1 := by
    cases w.vkeyWitnesses <;> simp [countOf]
  simp only [addVkeyWitness, count, hcount]
  omega

theorem count_foldl_addVkeyWitness (w : WitnessSet) (added : List VkeyWitness) :
    (added.foldl addVkeyWitness w).count = w.count + added.length := by
  induction added generalizing w with
  | nil => rfl
  | cons x added ih =>
    rw [List.foldl_cons, ih, count_addVkeyWitness, List.length_cons]
    omega

/-- A witness set has the key witnesses of another and then those that were added.  Nothing else is
touched: no other field, and in what is written no entry but that of the key witnesses. -/
structure Extends (w v : WitnessSet) (added : List VkeyWitness) : Prop where
  eq : v = { w with
    vkeyWitnesses :=
      if added = [] then w.vkeyWitnesses else some (w.vkeyWitnesses.getD [] ++ added) }
  count_eq : v.count = w.count + added.length
  toTerm_eq : ∃ others : List (Term × Term), (∀ e ∈ others, e.1 ≠ .int 0) ∧
    w.toTerm = .map (w.keyWitnessEntry ++ others) ∧ v.toTerm = .map (v.keyWitnessEntry ++ others)
  toCbor_eq : ∀ bs, Codec.toCbor w = .ok bs → (∀ ws ∈ v.vkeyWitnesses, ws.length ≤ maxArgument) →
    ∃ own own' others, SpellsInside w.keyWitnessEntry own ∧ SpellsInside v.keyWitnessEntry own' ∧
      bs = w.opening :: (own ++ others) ∧ Codec.toCbor v = .ok (v.opening :: (own' ++ others))

theorem extends_foldl_addVkeyWitness (w : WitnessSet) (added : List VkeyWitness) :
    w.Extends (added.foldl addVkeyWitness w) added := by
  have heq : added.foldl addVkeyWitness w = { w with
      vkeyWitnesses :=
        if added = [] then w.vkeyWitnesses else some (w.vkeyWitnesses.getD [] ++ added) } := by
    by_cases hadded : added = []
    · rw [hadded]
      rfl
    · rw [w.foldl_addVkeyWitness hadded, if_neg hadded]
  have hothers : (added.foldl addVkeyWitness w).otherEntries = w.otherEntries := by
    rw [heq]
    rfl
  refine ⟨heq, w.count_foldl_addVkeyWitness added, ?_, ?_⟩
  · refine ⟨w.otherEntries, fun e => key_ne_of_mem_otherEntries, w.toTerm_eq, ?_⟩
    rw [toTerm_eq, hothers]
  · intro bs hbs hfits
    obtain ⟨own, others, hown, hrest, rfl⟩ := toCbor_eq_ok_iff.1 hbs
    obtain ⟨own', hown'⟩ := exists_spellsInside_keyWitnessEntry hfits
    exact ⟨own, own', others, hown, hown', rfl,
      toCbor_eq_ok_iff.2 ⟨own', others, hown', hothers ▸ hrest, rfl⟩⟩

end WitnessSet

/-- The second transaction has `w` for its witness set.  The two differ in nothing else: neither in
another part nor, in what is written, in other bytes. -/
structure Transaction.DifferInWitnesses (w : WitnessSet) (tx tx' : Transaction) : Prop where
  witnessSet_eq : tx'.witnessSet = w
  id_eq : tx'.id = tx.id
  toCbor_body : Codec.toCbor tx'.body = Codec.toCbor tx.body
  valid_eq : tx'.valid = tx.valid
  auxiliaryData_eq : tx'.auxiliaryData = tx.auxiliaryData
  toCbor_eq : ∀ bs new, Codec.toCbor tx = .ok bs → Codec.toCbor w = .ok new →
    ∃ body old rest, Codec.toCbor tx.body = .ok body ∧ Codec.toCbor tx.witnessSet = .ok old ∧
      bs = 0x84 :: (body ++ (old ++ rest)) ∧
      Codec.toCbor tx' = .ok (0x84 :: (body ++ (new ++ rest)))

theorem Transaction.differInWitnesses_withWitnessSet (tx : Transaction) (w : WitnessSet) :
    DifferInWitnesses w tx (tx.withWitnessSet w) where
  witnessSet_eq := rfl
  id_eq := rfl
  toCbor_body := rfl
  valid_eq := rfl
  auxiliaryData_eq := rfl
  toCbor_eq bs new hbs hnew := by
    obtain ⟨body, old, data, hbody, hold, hdata, rfl⟩ := toCbor_eq_ok_iff.1 hbs
    exact ⟨body, old, _, hbody, hold, rfl,
      toCbor_eq_ok_iff.2 ⟨body, new, data, hbody, hnew, hdata, rfl⟩⟩

/-- A witness is added behind the key witnesses that are there and counts as one more.  However many
are added one after the other, no other field and no mark is touched, and what is written differs in
the entry of the key witnesses alone.  A transaction that is given the result for its witness set
has the same id, the same body in bytes, the same flag and the same auxiliary data. -/
theorem WitnessSet.adds_witnesses_alone :
    (∀ (w : WitnessSet) (x : VkeyWitness),
      w.addVkeyWitness x =
          { w with vkeyWitnesses := some (w.vkeyWitnesses.getD [] ++ [x]) } ∧
        (w.addVkeyWitness x).count = w.count + 1) ∧
    (∀ (w : WitnessSet) (added : List VkeyWitness),
      w.Extends (added.foldl addVkeyWitness w) added) ∧
    ∀ (tx : Transaction) (added : List VkeyWitness),
      Transaction.DifferInWitnesses (added.foldl addVkeyWitness tx.witnessSet) tx
        (tx.withWitnessSet (added.foldl addVkeyWitness tx.witnessSet)) :=
  ⟨fun w x => ⟨w.addVkeyWitness_eq x, w.count_addVkeyWitness x⟩, extends_foldl_addVkeyWitness,
    fun tx _ => tx.differInWitnesses_withWitnessSet _⟩

/-- A key of twos with a signature of ones. -/
def VkeyWitness.twos : VkeyWitness :=
  ⟨⟨List.replicate 32 2, rfl⟩, ⟨List.replicate 64 1, rfl⟩⟩

/-- A witness set with a script and with no key witness in a list that is marked as a set. -/
def WitnessSet.emptyMarked : WitnessSet where
  vkeyWitnesses := some []
  plutusV1Scripts := some [[0xFF]]
  taggedSets := .ofList [.integer 0]

theorem WitnessSet.adds_witnesses_alone_emptyMarked :
    Codec.toCbor emptyMarked = .ok [0xA2, 0, 0xD9, 1, 2, 0x80, 3, 0x81, 0x41, 0xFF] ∧
      ∃ own own' others, SpellsInside emptyMarked.keyWitnessEntry own ∧
        SpellsInside (emptyMarked.addVkeyWitness .twos).keyWitnessEntry own' ∧
        [0xA2, 0, 0xD9, 1, 2, 0x80, 3, 0x81, 0x41, 0xFF] = 0xA2 :: (own ++ others) ∧
        Codec.toCbor (emptyMarked.addVkeyWitness .twos) = .ok (0xA2 :: (own' ++ others)) := by
  have hbytes : Codec.toCbor emptyMarked =
      .ok [0xA2, 0, 0xD9, 1, 2, 0x80, 3, 0x81, 0x41, 0xFF] := rfl
  have hfits : ∀ ws ∈ (emptyMarked.addVkeyWitness .twos).vkeyWitnesses,
      ws.length ≤ maxArgument := by decide
  exact ⟨hbytes, (adds_witnesses_alone.2.1 emptyMarked [.twos]).toCbor_eq _ hbytes hfits⟩

end Eutxo

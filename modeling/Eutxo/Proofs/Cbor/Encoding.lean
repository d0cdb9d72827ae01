import Eutxo.Cbor.Reader
import Eutxo.Proofs.Cbor.KeyOrder
import Eutxo.Proofs.Cbor.Spelling

/-!
# Terms that can be encoded

A term is encoded if its strings, sequences and maps are not too long for a
head, its tags not too large, and the keys of each map differ in encoding.
-/

namespace Eutxo.Cbor

open Traversal

theorem Item.ofItems_eq_map (ts : List Term) : Item.ofItems ts = ts.map Item.ofTerm := by
  induction ts with
  | nil => rfl
  | cons t ts ih => rw [Item.ofItems, ih, List.map_cons]

theorem Item.ofEntries_eq_map (es : List (Term × Term)) :
    Item.ofEntries es = es.map fun e => (Item.ofTerm e.1, Item.ofTerm e.2) := by
  induction es with
  | nil => rfl
  | cons e es ih => rw [Item.ofEntries, ih, List.map_cons]

theorem Item.entryNodes_ofEntries (es : List (Term × Term)) :
    entryNodes (Item.ofEntries es) = (entryNodes es).map Item.ofTerm := by
  induction es with
  | nil => rfl
  | cons e es ih => exact congrArg (Item.ofTerm e.1 :: Item.ofTerm e.2 :: ·) ih

/-- A condition on the items of a term follows from one on the nodes of the term. -/
theorem Item.everywhere_ofTerm {P : Term → Prop} {Q : Item → Prop}
    (hint : ∀ n, P (.int n) → Everywhere Q (Item.ofInt n))
    (hnode : ∀ t, (∀ n, t ≠ .int n) → P t → Q (Item.ofTerm t)) {t : Term}
    (h : Everywhere P t) : Everywhere Q (Item.ofTerm t) := by
  induction t with
  | int n => exact hint n h.here
  | seq ts ih =>
    obtain ⟨hhere, hts⟩ := Term.everywhere_seq_iff.1 h
    refine everywhere_array_iff.2 ⟨hnode (.seq ts) (fun _ => nofun) hhere, ?_⟩
    rw [ofItems_eq_map]
    intro x hx
    obtain ⟨t, ht, rfl⟩ := List.mem_map.1 hx
    exact ih t ht (hts t ht)
  | map es ih =>
    obtain ⟨hhere, hes⟩ := Term.everywhere_map_iff.1 h
    refine everywhere_map_iff.2 ⟨hnode (.map es) (fun _ => nofun) hhere, ?_⟩
    rw [ofEntries_eq_map]
    intro x hx
    obtain ⟨e, he, rfl⟩ := List.mem_map.1 hx
    exact ⟨(ih e he).1 (hes e he).1, (ih e he).2 (hes e he).2⟩
  | tag number content ih =>
    obtain ⟨hhere, hcontent⟩ := Term.everywhere_tag_iff.1 h
    exact everywhere_tag_iff.2 ⟨hnode (.tag number content) (fun _ => nofun) hhere, ih hcontent⟩
  | bytes bs => exact .leaf (hnode (.bytes bs) (fun _ => nofun) h.here) rfl
  | text t => exact .leaf (hnode (.text t) (fun _ => nofun) h.here) rfl
  | bool b => exact .leaf (hnode (.bool b) (fun _ => nofun) h.here) rfl
  | null => exact .leaf (hnode .null (fun _ => nofun) h.here) rfl

/-- The number whose digits are the content of a bignum. -/
def magnitude : Int → Nat
  | .ofNat n => n
  | .negSucc n => n

/-- Lengths are at most `limit`, and tags small enough for a head.  Decoding accepts no length above
`maxLength`, and no string, sequence or map that is held in memory is longer. -/
def FitsAt (limit : Nat) : Term → Prop
  | .int n => (Bytes.ofNat (magnitude n)).length ≤ limit
  | .bytes bs => bs.length ≤ limit
  | .text t => t.toUtf8.length ≤ limit
  | .seq items => items.length ≤ limit
  | .map entries => entries.length ≤ limit
  | .tag number _ => number ≤ maxArgument
  | _ => True

instance (limit : Nat) : DecidablePred (FitsAt limit)
  | .int n => inferInstanceAs (Decidable ((Bytes.ofNat (magnitude n)).length ≤ limit))
  | .bytes bs => inferInstanceAs (Decidable (bs.length ≤ limit))
  | .text t => inferInstanceAs (Decidable (t.toUtf8.length ≤ limit))
  | .seq items => inferInstanceAs (Decidable (items.length ≤ limit))
  | .map entries => inferInstanceAs (Decidable (entries.length ≤ limit))
  | .tag number _ => inferInstanceAs (Decidable (number ≤ maxArgument))
  | .bool _ | .null => isTrue trivial

/-- No two keys of a map have one encoding. -/
def DistinctAt : Term → Prop
  | .map entries => entries.Pairwise fun e f => encode e.1 ≠ encode f.1
  | _ => True

theorem DistinctAt.nodup_keys {entries : List (Term × Term)} (h : DistinctAt (.map entries)) :
    (entries.map Prod.fst).Nodup :=
  List.pairwise_map.2 (h.imp fun hne heq => hne (congrArg encode heq))

theorem FitsAt.mono {limit limit' : Nat} (hle : limit ≤ limit') {t : Term}
    (h : FitsAt limit t) : FitsAt limit' t := by
  cases t with
  | tag number content => exact h
  | bool b => exact trivial
  | null => exact trivial
  | _ => exact Nat.le_trans h hle

theorem FitsAt.of_alike {limit : Nat} (t u : Term) (halike : Term.Alike t u)
    (h : FitsAt limit t) : FitsAt limit u := by
  cases t <;> cases u <;> simp_all [Term.Alike, FitsAt]

theorem exists_head {n : Nat} (major : Major) (hn : n ≤ maxArgument) :
    ∃ bs, Head.write? major n = some bs :=
  Head.exists_write? major (Nat.lt_of_le_of_lt hn (by decide))

theorem Item.exists_writeItems? {xs : List Item} (h : ∀ x ∈ xs, ∃ bs, x.write? = some bs) :
    ∃ bs, writeItems? xs = some bs := by
  induction xs with
  | nil => exact ⟨[], rfl⟩
  | cons x xs ih =>
    obtain ⟨⟨a, ha⟩, hxs⟩ := List.forall_mem_cons.1 h
    obtain ⟨b, hb⟩ := ih hxs
    exact ⟨a ++ b, writeItems?_cons_eq_some_iff.2 ⟨a, b, ha, hb, rfl⟩⟩

theorem Item.exists_write?_bytes {content : Bytes} (h : content.length ≤ maxArgument) :
    ∃ bs, (Item.bytes content).write? = some bs := by
  obtain ⟨head, hhead⟩ := exists_head .bytes h
  exact ⟨head ++ content, by rw [write?, hhead]; rfl⟩

theorem Item.exists_write?_tag {number : Nat} (h : number ≤ maxArgument) {content : Item}
    (hcontent : ∃ bs, content.write? = some bs) :
    ∃ bs, (Item.tag number content).write? = some bs := by
  obtain ⟨head, hhead⟩ := exists_head .tag h
  obtain ⟨below, hbelow⟩ := hcontent
  exact ⟨head ++ below, by rw [write?, hhead, hbelow]; rfl⟩

theorem Item.exists_write?_ofInt {n : Int} (h : FitsAt maxArgument (.int n)) :
    ∃ bs, (Item.ofInt n).write? = some bs := by
  cases n with
  | ofNat n =>
    rw [ofInt]
    split_ifs with hn
    · exact exists_head .unsigned hn
    · exact exists_write?_tag (by decide) (exists_write?_bytes h)
  | negSucc n =>
    rw [ofInt]
    split_ifs with hn
    · exact exists_head .negative hn
    · exact exists_write?_tag (by decide) (exists_write?_bytes h)

theorem Item.exists_write?_ofTerm {t : Term} (h : Everywhere (FitsAt maxArgument) t) :
    ∃ bs, (Item.ofTerm t).write? = some bs := by
  induction t with
  | int n => exact exists_write?_ofInt h.here
  | bytes bs => exact exists_write?_bytes h.here
  | text t =>
    obtain ⟨head, hhead⟩ := exists_head .text h.here
    exact ⟨head ++ t.toUtf8, by rw [ofTerm, write?, hhead]; rfl⟩
  | bool b => exact ⟨_, rfl⟩
  | null => exact ⟨_, rfl⟩
  | seq ts ih =>
    obtain ⟨hlength, hts⟩ := Term.everywhere_seq_iff.1 h
    obtain ⟨head, hhead⟩ := exists_head .array hlength
    have hitems : ∀ x ∈ ofItems ts, ∃ bs, x.write? = some bs := by
      rw [ofItems_eq_map]
      intro x hx
      obtain ⟨t, ht, rfl⟩ := List.mem_map.1 hx
      exact ih t ht (hts t ht)
    obtain ⟨below, hbelow⟩ := exists_writeItems? hitems
    have hopening : (Item.array (ofItems ts)).opening? = some head := by
      rw [opening?, ofItems_eq_map, List.length_map, hhead]
    exact ⟨head ++ below, write?_eq_some_iff.2 ⟨head, below, hopening, hbelow, rfl⟩⟩
  | map es ih =>
    obtain ⟨hlength, hes⟩ := Term.everywhere_map_iff.1 h
    obtain ⟨head, hhead⟩ := exists_head .map hlength
    have hnodes : ∀ x ∈ entryNodes (ofEntries es), ∃ bs, x.write? = some bs := by
      rw [entryNodes_ofEntries]
      intro x hx
      obtain ⟨t, ht, rfl⟩ := List.mem_map.1 hx
      obtain ⟨e, he, rfl | rfl⟩ := mem_entryNodes.1 ht
      · exact (ih e he).1 (hes e he).1
      · exact (ih e he).2 (hes e he).2
    obtain ⟨below, hbelow⟩ := exists_writeItems? hnodes
    have hopening : (Item.map (ofEntries es)).opening? = some head := by
      rw [opening?, ofEntries_eq_map, List.length_map, hhead]
    exact ⟨head ++ below, write?_eq_some_iff.2 ⟨head, below, hopening, hbelow, rfl⟩⟩
  | tag number content ih =>
    obtain ⟨hnumber, hcontent⟩ := Term.everywhere_tag_iff.1 h
    exact exists_write?_tag hnumber (ih hcontent)

theorem writeTerm_eq_ok_iff {t : Term} {bs : Bytes} :
    writeTerm t = .ok bs ↔ (Item.ofTerm t).write? = some bs := by
  rw [writeTerm]
  cases (Item.ofTerm t).write? with
  | none => simp
  | some b => simp

theorem exists_writeTerm {t : Term} (h : Everywhere (FitsAt maxArgument) t) :
    ∃ bs, writeTerm t = .ok bs := by
  obtain ⟨bs, hbs⟩ := Item.exists_write?_ofTerm h
  exact ⟨bs, writeTerm_eq_ok_iff.2 hbs⟩

/-- Entries in canonical form whose keys differ in encoding can be put in strictly ascending
order. -/
theorem exists_perm_writtenBefore {es gs : List (Term × Term)}
    (hgs : List.Forall₂ CanonicalEntry es gs)
    (hdistinct : es.Pairwise fun e f => encode e.1 ≠ encode f.1) :
    ∃ fs, gs.Perm fs ∧ fs.Pairwise WrittenBefore := by
  obtain ⟨ks, hks⟩ := exists_yields hgs
  have hencoded : List.Forall₂ (fun e k => encode e.1 = .ok k.keyBytes) es ks := by
    refine forall₂_comp ?_ hgs hks
    rintro e g k ⟨hkey, -, -⟩ ⟨hbytes, -, -⟩
    exact encode_eq_ok_iff.2 ⟨g.1, hkey, hbytes⟩
  have hne : ks.Pairwise fun k l => k.keyBytes ≠ l.keyBytes := by
    refine pairwise_of_forall₂ ?_ hencoded hdistinct
    intro e f k l he hf hef hkl
    exact hef (by rw [he, hf, hkl])
  have hsortedne : (sortByKey ks).Pairwise fun k l => k.keyBytes ≠ l.keyBytes :=
    ((sortByKey_perm ks).pairwise_iff Ne.symm).2 hne
  have hstrict : (sortByKey ks).Pairwise KeyedEntry.Before :=
    ((pairwise_sortByKey ks).and hsortedne).imp Bytes.cmp_eq_lt_iff.2
  have hyields : List.Forall₂ KeyedEntry.Yields ks gs := hks.flip
  obtain ⟨fs, hfs, hperm⟩ := List.perm_comp_forall₂ (sortByKey_perm ks) hyields
  exact ⟨fs, hperm.symm, pairwise_of_forall₂ (fun _ _ _ _ hk hl h => hk.writtenBefore hl h)
    hfs hstrict⟩

/-- A term that fits and repeats no key has a canonical form that fits and is written. -/
theorem exists_canonical {t : Term}
    (h : Everywhere (fun u => FitsAt maxArgument u ∧ DistinctAt u) t) :
    ∃ u bs, canonical t = .ok u ∧ writeTerm u = .ok bs := by
  have hwritten : ∀ {t u}, Everywhere (fun u => FitsAt maxArgument u ∧ DistinctAt u) t →
      canonical t = .ok u → ∃ bs, writeTerm u = .ok bs := by
    intro t u h hu
    have hfits : Everywhere (FitsAt maxArgument) t := h.imp fun _ => And.left
    exact exists_writeTerm ((reordered_of_canonical hu).1.everywhere FitsAt.of_alike hfits)
  suffices hcanonical : ∃ u, canonical t = .ok u by
    obtain ⟨u, hu⟩ := hcanonical
    obtain ⟨bs, hbs⟩ := hwritten h hu
    exact ⟨u, bs, hu, hbs⟩
  induction t with
  | seq ts ih =>
    obtain ⟨-, hts⟩ := Term.everywhere_seq_iff.1 h
    obtain ⟨us, hus⟩ := exists_forall₂ fun t ht => ih t ht (hts t ht)
    exact ⟨.seq us, canonical_seq_eq_ok_iff.2 ⟨us, hus, rfl⟩⟩
  | map es ih =>
    obtain ⟨⟨-, hdistinct⟩, hes⟩ := Term.everywhere_map_iff.1 h
    have hentry : ∀ e ∈ es, ∃ g, CanonicalEntry e g := by
      intro e he
      obtain ⟨k, hk⟩ := (ih e he).1 (hes e he).1
      obtain ⟨v, hv⟩ := (ih e he).2 (hes e he).2
      exact ⟨(k, v), hk, hwritten (hes e he).1 hk, hv⟩
    obtain ⟨gs, hgs⟩ := exists_forall₂ hentry
    obtain ⟨fs, hperm, hpairs⟩ := exists_perm_writtenBefore hgs hdistinct
    exact ⟨.map fs, canonical_map_eq_ok_iff.2 ⟨gs, fs, hgs, hperm, hpairs, rfl⟩⟩
  | tag number content ih =>
    obtain ⟨-, hcontent⟩ := Term.everywhere_tag_iff.1 h
    obtain ⟨c, hc⟩ := ih hcontent
    exact ⟨.tag number c, canonical_tag_eq_ok_iff.2 ⟨c, hc, rfl⟩⟩
  | _ => exact ⟨_, rfl⟩

theorem exists_encode {t : Term}
    (h : Everywhere (fun u => FitsAt maxArgument u ∧ DistinctAt u) t) :
    ∃ bs, encode t = .ok bs := by
  obtain ⟨u, bs, hu, hbs⟩ := exists_canonical h
  exact ⟨bs, encode_eq_ok_iff.2 ⟨u, hu, hbs⟩⟩

theorem exists_encode_of_leaf {t : Term} (hleaf : Tree.children t = [])
    (hdistinct : DistinctAt t) (hfits : FitsAt maxArgument t) : ∃ bs, encode t = .ok bs :=
  exists_encode (.leaf ⟨hfits, hdistinct⟩ hleaf)

/-! ## Sequences and tags -/

theorem Item.writeItems?_eq_some_iff {xs : List Item} {bs : Bytes} :
    writeItems? xs = some bs ↔ ∃ parts,
      List.Forall₂ (fun x part => x.write? = some part) xs parts ∧ bs = parts.flatten := by
  induction xs generalizing bs with
  | nil => simp [writeItems?, eq_comm]
  | cons x xs ih =>
    rw [writeItems?_cons_eq_some_iff]
    constructor
    · rintro ⟨a, b, ha, hb, rfl⟩
      obtain ⟨parts, hparts, rfl⟩ := ih.1 hb
      exact ⟨a :: parts, .cons ha hparts, rfl⟩
    · rintro ⟨_, hall, rfl⟩
      obtain ⟨a, parts, ha, hparts, rfl⟩ := List.forall₂_cons_left_iff.1 hall
      exact ⟨a, parts.flatten, ha, ih.2 ⟨parts, hparts, rfl⟩, rfl⟩

/-- The encoding of a sequence: its head and then the encodings of its items. -/
theorem encode_seq_eq_ok_iff {ts : List Term} {bs : Bytes} :
    encode (.seq ts) = .ok bs ↔ ∃ head parts, Head.write? .array ts.length = some head ∧
      List.Forall₂ (fun t part => encode t = .ok part) ts parts ∧ bs = head ++ parts.flatten := by
  have hopening : ∀ us : List Term, (Item.ofTerm (.seq us)).opening? =
      Head.write? .array us.length := by
    intro us
    rw [Item.ofTerm, Item.opening?, Item.ofItems_eq_map, List.length_map]
  have hbelow : ∀ (us : List Term) (below : Bytes),
      Item.writeItems? (Item.ofItems us) = some below ↔
        ∃ parts, List.Forall₂ (fun u part => writeTerm u = .ok part) us parts ∧
          below = parts.flatten := by
    intro us below
    simp only [Item.writeItems?_eq_some_iff, Item.ofItems_eq_map, List.forall₂_map_left_iff,
      writeTerm_eq_ok_iff]
  constructor
  · intro h
    obtain ⟨u, hu, hwrite⟩ := encode_eq_ok_iff.1 h
    obtain ⟨us, hus, rfl⟩ := canonical_seq_eq_ok_iff.1 hu
    obtain ⟨head, _, hhead, hitems, rfl⟩ :=
      Item.write?_eq_some_iff.1 (writeTerm_eq_ok_iff.1 hwrite)
    obtain ⟨parts, hparts, rfl⟩ := (hbelow us _).1 hitems
    rw [hopening, ← hus.length_eq] at hhead
    refine ⟨head, parts, hhead, forall₂_comp ?_ hus hparts, rfl⟩
    exact fun t u part ht hu => encode_eq_ok_iff.2 ⟨u, ht, hu⟩
  · rintro ⟨head, parts, hhead, hparts, rfl⟩
    obtain ⟨us, hus, hwritten⟩ := exists_between (hparts.imp fun _ _ => encode_eq_ok_iff.1)
    rw [hus.length_eq, ← hopening] at hhead
    exact encode_eq_ok_iff.2 ⟨.seq us, canonical_seq_eq_ok_iff.2 ⟨us, hus, rfl⟩,
      writeTerm_eq_ok_iff.2 (Item.write?_eq_some_iff.2
        ⟨head, _, hhead, (hbelow us _).2 ⟨parts, hwritten, rfl⟩, rfl⟩)⟩

theorem exists_encode_seq_iff {ts : List Term} : (∃ bs, encode (.seq ts) = .ok bs) ↔
    ts.length ≤ maxArgument ∧ ∀ t ∈ ts, ∃ bs, encode t = .ok bs := by
  constructor
  · rintro ⟨bs, h⟩
    obtain ⟨head, parts, hhead, hparts, -⟩ := encode_seq_eq_ok_iff.1 h
    refine ⟨Nat.le_of_lt_succ (Head.lt_of_write? hhead), fun t ht => ?_⟩
    obtain ⟨part, -, hpart⟩ := exists_mem_of_forall₂ hparts.flip t ht
    exact ⟨part, hpart⟩
  · rintro ⟨hlength, hts⟩
    obtain ⟨head, hhead⟩ := exists_head .array hlength
    obtain ⟨parts, hparts⟩ := exists_forall₂ hts
    exact ⟨head ++ parts.flatten, encode_seq_eq_ok_iff.2 ⟨head, parts, hhead, hparts, rfl⟩⟩

/-- The encoding of a tagged term: the head of the tag and then the encoding of the content. -/
theorem encode_tag_eq_ok_iff {number : Nat} {content : Term} {bs : Bytes} :
    encode (.tag number content) = .ok bs ↔ ∃ head below, Head.write? .tag number = some head ∧
      encode content = .ok below ∧ bs = head ++ below := by
  have hwrite : ∀ c, writeTerm (.tag number c) = .ok bs ↔ ∃ head below,
      Head.write? .tag number = some head ∧ writeTerm c = .ok below ∧ bs = head ++ below := by
    intro c
    have hbelow : ∀ below, Item.writeItems? (Tree.children (Item.tag number (Item.ofTerm c))) =
        some below ↔ writeTerm c = .ok below := by
      intro below
      rw [writeTerm_eq_ok_iff, ← Item.writeItems?_singleton]
      exact Iff.rfl
    rw [writeTerm_eq_ok_iff, Item.ofTerm, Item.write?_eq_some_iff]
    simp only [hbelow]
    exact Iff.rfl
  constructor
  · intro h
    obtain ⟨u, hu, hwritten⟩ := encode_eq_ok_iff.1 h
    obtain ⟨c, hc, rfl⟩ := canonical_tag_eq_ok_iff.1 hu
    obtain ⟨head, below, hhead, hbelow, rfl⟩ := (hwrite c).1 hwritten
    exact ⟨head, below, hhead, encode_eq_ok_iff.2 ⟨c, hc, hbelow⟩, rfl⟩
  · rintro ⟨head, below, hhead, hbelow, rfl⟩
    obtain ⟨c, hc, hwritten⟩ := encode_eq_ok_iff.1 hbelow
    exact encode_eq_ok_iff.2 ⟨.tag number c, canonical_tag_eq_ok_iff.2 ⟨c, hc, rfl⟩,
      (hwrite c).2 ⟨head, below, hhead, hwritten, rfl⟩⟩

end Eutxo.Cbor

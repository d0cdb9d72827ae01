import Eutxo.Ledger.Codec
import Eutxo.Proofs.Cbor.Canonicity
import Eutxo.Proofs.Cbor.Shortening

/-!
# Decoding again

Texts that were read are well-formed, and none begins with a byte order mark
unless its bytes did.  What is decoded from bytes without such texts is therefore
given back by decoding what it is encoded as, malformed texts included.
-/

namespace Eutxo

open Traversal Term Cbor

namespace Cbor

/-- The content of a text does not begin with the bytes of a byte order mark. -/
def Item.UnmarkedAt : Item → Prop
  | .text content => ¬ [0xEF, 0xBB, 0xBF] <+: content
  | _ => True

/-- No text in the item that some bytes spell begins with the bytes of a byte order mark. -/
def Unmarked (bs : Bytes) : Prop :=
  ∀ item rest, Item.ofBytes? bs = some (item, rest) → Everywhere Item.UnmarkedAt item

theorem Item.unmarked_of_write? {x : Item} (hx : Everywhere ReadableAt x) {bs : Bytes}
    (h : x.write? = some bs) (hmark : ¬ [0xEF, 0xBB, 0xBF] <:+: bs) : Everywhere UnmarkedAt x := by
  induction hx generalizing bs with
  | @intro x here children ih =>
    obtain ⟨a, b, ha, hb, rfl⟩ := write?_eq_some_iff.1 h
    refine .intro ?_ fun y hy => ?_
    · cases x with
      | text content =>
        obtain ⟨head, -, rfl⟩ := (opening?_eq_some_iff (x := .text content) trivial).1 ha
        have hcontent : content <:+: head ++ content ++ b := List.infix_append head content b
        exact fun hstart => hmark (hstart.isInfix.trans hcontent)
      | _ => exact trivial
    · obtain ⟨c, hc, hwithin⟩ := exists_write?_of_mem hb hy
      have hbelow : c <:+: a ++ b := hwithin.trans (List.suffix_append a b).isInfix
      exact ih y hy hc fun hmarkc => hmark (hmarkc.trans hbelow)

/-- Bytes in which a byte order mark occurs nowhere have no marked text. -/
theorem unmarked_of_no_mark {bs : Bytes} (h : ¬ [0xEF, 0xBB, 0xBF] <:+: bs) : Unmarked bs := by
  intro item rest hread
  obtain ⟨hreadable, spelled, hwrite, rfl⟩ := Item.begins_of_ofBytes? hread
  apply Item.unmarked_of_write? hreadable hwrite
  exact fun hspelled => h (hspelled.trans (List.prefix_append spelled rest).isInfix)

theorem faithfulAt_textOfContent {content : Bytes} (h : ¬ [0xEF, 0xBB, 0xBF] <+: content) :
    FaithfulAt (.text (textOfContent content)) := by
  refine ⟨wellFormed_textOfContent content, ?_⟩
  rw [textOfContent_of_unmarked h]
  exact mt Text.marked_ofUtf8_iff.1 h

/-- Decoding gives back the term of an item in which no text begins with a mark. -/
theorem Item.faithful_term {x : Item} (hx : Strict x) (hunmarked : Everywhere UnmarkedAt x) :
    Everywhere FaithfulAt x.term := by
  refine everywhere_term (fun y hy => ?_) (hx.and hunmarked)
  obtain ⟨hstrict, hunmarked⟩ := hy
  cases y with
  | text content => exact faithfulAt_textOfContent hunmarked
  | tag number content =>
    rw [term]
    split_ifs with htwo hthree
    · exact trivial
    · exact trivial
    · exact ⟨hstrict.1, htwo, hthree⟩
  | _ => exact trivial

theorem faithful_of_decode {path : Path} {bs : Bytes} {t : Term} (h : decode path bs = .ok t)
    (hunmarked : Unmarked bs) : Everywhere FaithfulAt t := by
  obtain ⟨item, hwrite, hstrict, rfl⟩ := decode_eq_ok_iff.1 h
  have hread := Item.ofBytes?_of_write? hstrict.readable hwrite
  exact Item.faithful_term hstrict (hunmarked item [] hread)

theorem encodable_of_decode {path : Path} {bs : Bytes} {t : Term} (h : decode path bs = .ok t) :
    Everywhere (fun u => FitsAt maxArgument u ∧ DistinctAt u) t := by
  obtain ⟨item, -, hstrict, rfl⟩ := decode_eq_ok_iff.1 h
  exact Item.encodable_term hstrict

end Cbor

theorem Term.Shortened.faithful {t u : Term} (h : Shortened t u) :
    Everywhere FaithfulAt t → Everywhere FaithfulAt u :=
  h.everywhere (fun _ _ _ _ => trivial) fun _ _ _ _ => trivial

/-- A value whose term is given back by decoding is read back with the same bytes, if it can be read
from its term in any order of map entries. -/
theorem Codec.exists_ofCbor {α : Type} [Codec α] {a : α} {t : Term} {bs : Bytes}
    (hterm : Reordered t (toTerm a)) (hfaithful : Everywhere FaithfulAt t)
    (hbytes : encode t = .ok bs) (hlength : bs.length ≤ maxLength)
    (hread : ∀ u, Reordered (toTerm a) u →
      ∃ b : α, ofTerm (path α) u = .ok b ∧ Reordered u (toTerm b)) :
    ∃ b : α, ofCbor bs = .ok b ∧ toCbor b = .ok bs ∧ Reordered (toTerm a) (toTerm b) := by
  have hfits := fits_of_length_encode (by decide) hbytes hlength
  obtain ⟨u, hu, htu⟩ := exists_decode .input hfaithful hfits hbytes
  obtain ⟨b, hb, hub⟩ := hread u (hterm.symm.trans htu)
  refine ⟨b, ?_, encode_of_reordered (htu.trans hub) hbytes, hterm.symm.trans (htu.trans hub)⟩
  rw [ofCbor, hu, ok_bind]
  exact hb

end Eutxo

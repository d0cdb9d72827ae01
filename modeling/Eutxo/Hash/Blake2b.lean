import Eutxo.Bytes

/-!
# BLAKE2b

The unkeyed BLAKE2b hash with a digest of up to sixty-four bytes.  Ledger
hashes are of this kind, with digests of thirty-two or twenty-eight bytes.
-/

namespace Eutxo.Blake2b

/-- The state between blocks. -/
abbrev State := Vector UInt64 8

/-- The words mixed while a block is worked in. -/
abbrev Mixing := Vector UInt64 16

/-- The constants from which states begin. -/
def initial : State :=
  #v[0x6A09E667F3BCC908, 0xBB67AE8584CAA73B, 0x3C6EF372FE94F82B,
    0xA54FF53A5F1D36F1, 0x510E527FADE682D1, 0x9B05688C2B3E6C1F,
    0x1F83D9ABFB41BD6B, 0x5BE0CD19137E2179]

/-- The orders in which the words of a block are taken. -/
def schedules : Vector (Vector (Fin 16) 16) 10 :=
  #v[#v[0, 1, 2, 3, 4, 5, 6, 7, 8, 9, 10, 11, 12, 13, 14, 15],
    #v[14, 10, 4, 8, 9, 15, 13, 6, 1, 12, 0, 2, 11, 7, 5, 3],
    #v[11, 8, 12, 0, 5, 2, 15, 13, 10, 14, 3, 6, 7, 1, 9, 4],
    #v[7, 9, 3, 1, 13, 12, 11, 14, 2, 6, 5, 10, 4, 0, 15, 8],
    #v[9, 0, 5, 7, 2, 4, 10, 15, 14, 1, 11, 12, 6, 8, 3, 13],
    #v[2, 12, 6, 10, 0, 11, 8, 3, 4, 13, 7, 5, 15, 14, 1, 9],
    #v[12, 5, 1, 15, 14, 13, 4, 10, 0, 7, 6, 3, 9, 2, 8, 11],
    #v[13, 11, 7, 14, 12, 1, 3, 9, 5, 0, 15, 4, 8, 6, 2, 10],
    #v[6, 15, 14, 9, 11, 3, 0, 8, 12, 2, 13, 7, 1, 4, 10, 5],
    #v[10, 2, 8, 4, 7, 6, 1, 5, 15, 11, 9, 14, 3, 12, 13, 0]]

/-- Rotates a word to the right. -/
def rotateRight (x n : UInt64) : UInt64 := (x >>> n) ||| (x <<< (64 - n))

/-- Mixes two words of a block into four words. -/
def mix (v : Mixing) (a b c d : Fin 16) (x y : UInt64) : Mixing :=
  let a₁ := v[a] + v[b] + x
  let d₁ := rotateRight (v[d] ^^^ a₁) 32
  let c₁ := v[c] + d₁
  let b₁ := rotateRight (v[b] ^^^ c₁) 24
  let a₂ := a₁ + b₁ + y
  let d₂ := rotateRight (d₁ ^^^ a₂) 16
  let c₂ := c₁ + d₂
  let b₂ := rotateRight (b₁ ^^^ c₂) 63
  (((v.set a a₂).set b b₂).set c c₂).set d d₂

/-- One round: the columns, then the diagonals. -/
def round (m : Mixing) (v : Mixing) (s : Vector (Fin 16) 16) : Mixing :=
  let v := mix v 0 4 8 12 m[s[0]] m[s[1]]
  let v := mix v 1 5 9 13 m[s[2]] m[s[3]]
  let v := mix v 2 6 10 14 m[s[4]] m[s[5]]
  let v := mix v 3 7 11 15 m[s[6]] m[s[7]]
  let v := mix v 0 5 10 15 m[s[8]] m[s[9]]
  let v := mix v 1 6 11 12 m[s[10]] m[s[11]]
  let v := mix v 2 7 8 13 m[s[12]] m[s[13]]
  mix v 3 4 9 14 m[s[14]] m[s[15]]

/-- The sixteen little-endian words of a block; a short block is filled up with zeros. -/
def blockWords (block : Bytes) : Mixing :=
  Vector.ofFn fun i => UInt64.ofNat (Bytes.toNatLE ((block.drop (8 * i)).take 8))

/-- Works a block into the state.  `count` is the number of message bytes up to its end. -/
def compress (h : State) (block : Bytes) (count : Nat) (last : Bool) : State :=
  let v : Mixing := h ++ initial
  let v := v.set 12 (v[12] ^^^ UInt64.ofNat count)
  let v := v.set 13 (v[13] ^^^ UInt64.ofNat (count >>> 64))
  let v := if last then v.set 14 (~~~v[14]) else v
  let m := blockWords block
  let orders := schedules.toList ++ schedules.toList.take 2
  let v := orders.foldl (round m) v
  Vector.ofFn fun i => h[i] ^^^ v[i.val] ^^^ v[i.val + 8]

/-- The state before the first block, for digests of a size. -/
def start (size : Nat) : State := initial.set 0 (initial[0] ^^^ 0x01010000 ^^^ UInt64.ofNat size)

/-- The state after the last block.  All blocks but the last are full; an empty message is one empty
block. -/
def absorb (size : Nat) (message : Bytes) : State :=
  let full := (message.length - 1) / 128
  let h := (List.range full).foldl
    (fun h i => compress h ((message.drop (128 * i)).take 128) (128 * (i + 1)) false) (start size)
  compress h (message.drop (128 * full)) message.length true

/-- The BLAKE2b digest of a message, of a size up to sixty-four bytes. -/
def digest (size : Nat) (message : Bytes) : Bytes :=
  ((absorb size message).toList.flatMap fun w => Bytes.ofNatLE 8 w.toNat).take size

theorem length_digest {size : Nat} (h : size ≤ 64) (message : Bytes) :
    (digest size message).length = size := by
  have wide :
      ((absorb size message).toList.flatMap fun w => Bytes.ofNatLE 8 w.toNat).length = 64 := by
    simp [List.length_flatMap, List.map_const']
  simp only [digest, List.length_take, wide]
  omega

end Eutxo.Blake2b

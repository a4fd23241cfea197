import FlyBoard.Lib.BinaryPoly

/-!
# Galois/Counter mode

GCM over any block cipher `ciph` with blocks of sixteen bytes, for a nonce of twelve bytes
and a tag of sixteen. A block is a polynomial whose lowest coefficient is the first bit,
and blocks are multiplied modulo `x^128 + x^7 + x^2 + x + 1`.

`gctr` and `blocks` are stated byte by byte; `gctr_drop` and `blocks_drop` are their
recursion on the data, a block at a time. The rule about the mode itself is `ad_ae`.
-/

namespace FlyBoard.Gcm

open BinaryPoly

abbrev Block := Vector UInt8 16

/-! ## The field -/

def bytesBits (bs : List UInt8) : List Bool := bs.flatMap fun b => (byteBits b).reverse

def bits (b : Block) : List Bool := bytesBits b.toList

def ofBits (u : List Bool) : Block :=
  Vector.ofFn fun i => ofByteBits ((u.drop (8 * i)).take 8).reverse

/-- `1 + x + x^2 + x^7`, the terms of the modulus below `x^128`. -/
def reduction : List Bool :=
  [true, true, true, false, false, false, false, true] ++ List.replicate 120 false

noncomputable def mul (x y : Block) : Block := ofBits (mulMod reduction (bits x) (bits y))

theorem length_bytesBits (bs : List UInt8) : (bytesBits bs).length = 8 * bs.length := by
  induction bs with
  | nil => rfl
  | cons b bs ih =>
    rw [bytesBits, List.flatMap_cons, List.length_append, List.length_reverse, length_byteBits,
      ← bytesBits, ih, List.length_cons]
    ring

theorem length_bits (b : Block) : (bits b).length = 128 := by
  rw [bits, length_bytesBits, Vector.length_toList]

theorem drop_bytesBits (bs : List UInt8) (i : ℕ) :
    (bytesBits bs).drop (8 * i) = bytesBits (bs.drop i) := by
  induction i generalizing bs with
  | zero => rfl
  | succ i ih =>
    cases bs with
    | nil => simp [bytesBits]
    | cons b bs =>
      have hhead : ((byteBits b).reverse).length = 8 := by
        rw [List.length_reverse, length_byteBits]
      rw [List.drop_succ_cons, ← ih bs, bytesBits, List.flatMap_cons, ← bytesBits,
        Nat.mul_succ, Nat.add_comm, ← List.drop_drop, List.drop_left' hhead]

theorem ofBits_bits (b : Block) : ofBits (bits b) = b := by
  refine Vector.ext fun i hi => ?_
  have hlen : i < b.toList.length := by rwa [Vector.length_toList]
  have hhead : ((byteBits (b.toList[i])).reverse).length = 8 := by
    rw [List.length_reverse, length_byteBits]
  rw [ofBits, Vector.getElem_ofFn, bits, drop_bytesBits, List.drop_eq_getElem_cons hlen,
    bytesBits, List.flatMap_cons, List.take_left' hhead, List.reverse_reverse,
    ofByteBits_byteBits, Vector.getElem_toList]

/-! ## Blocks of data -/

def xor (x y : Block) : Block := Vector.zipWith (· ^^^ ·) x y

/-- The sixteen bytes of the data from its start, with zeros after its end. -/
def firstBlock (data : List UInt8) : Block := Vector.ofFn fun i => data.getD i 0

def blocks (data : List UInt8) : List Block :=
  (List.range ((data.length + 15) / 16)).map fun k => firstBlock (data.drop (16 * k))

theorem blocks_nil : blocks [] = [] := rfl

theorem blocks_drop {data : List UInt8} (h : data ≠ []) :
    blocks data = firstBlock data :: blocks (data.drop 16) := by
  have hpos : 0 < data.length := List.length_pos_of_ne_nil h
  have hcount : (data.length + 15) / 16 = ((data.drop 16).length + 15) / 16 + 1 := by
    rw [List.length_drop]
    omega
  rw [blocks, hcount, List.range_succ_eq_map, List.map_cons, List.map_map]
  refine congrArg₂ List.cons rfl (List.map_congr_left fun k _ => ?_)
  rw [Function.comp_apply, List.drop_drop, Nat.mul_succ, Nat.add_comm]

/-- A number as eight bytes, the highest first. -/
def be64 (n : ℕ) : List UInt8 := (List.range 8).map fun i => UInt8.ofNat (n / 256 ^ (7 - i))

/-! ## The mode -/

noncomputable def ghash (h : Block) (xs : List Block) : Block :=
  xs.foldl (fun y x => mul (xor y x) h) (Vector.replicate 16 0)

theorem at_twelve : 12 < 16 := by decide

theorem at_thirteen : 13 < 16 := by decide

theorem at_fourteen : 14 < 16 := by decide

theorem at_fifteen : 15 < 16 := by decide

def low32 (b : Block) : ℕ :=
  (getElem b 12 at_twelve).toNat * 2 ^ 24 + (getElem b 13 at_thirteen).toNat * 2 ^ 16 +
    (getElem b 14 at_fourteen).toNat * 2 ^ 8 + (getElem b 15 at_fifteen).toNat

theorem at_fin (i : Fin 16) : i.val < 16 := i.isLt

/-- The number in the last four bytes goes up by one, modulo `2^32`. -/
def inc32 (b : Block) : Block :=
  Vector.ofFn fun i =>
    if i.val < 12 then getElem b i (at_fin i) else UInt8.ofNat ((low32 b + 1) % 2 ^ 32 / 256 ^ (15 - i.val))

section

variable (ciph : Block → Block)

/-- Byte `i` of the key stream that starts at the counter block. -/
def keyStream (icb : Block) (i : ℕ) : UInt8 :=
  (ciph (inc32^[i / 16] icb))[i % 16]

def gctr (icb : Block) (data : List UInt8) : List UInt8 :=
  data.mapIdx fun i b => b ^^^ keyStream ciph icb i

theorem size_one : (#[0, 0, 0, 1] : Array UInt8).size = 4 := rfl

def j0 (iv : Vector UInt8 12) : Block := iv ++ (⟨#[0, 0, 0, 1], size_one⟩ : Vector UInt8 4)

noncomputable def tag (iv : Vector UInt8 12) (a c : List UInt8) : Block :=
  xor (ghash (ciph (Vector.replicate 16 0))
    (blocks a ++ blocks c ++ blocks (be64 (8 * a.length) ++ be64 (8 * c.length)))) (ciph (j0 iv))

noncomputable def ae (iv : Vector UInt8 12) (p a : List UInt8) : List UInt8 × Block :=
  let c := gctr ciph (inc32 (j0 iv)) p
  (c, tag ciph iv a c)

noncomputable def ad (iv : Vector UInt8 12) (c a : List UInt8) (t : Block) :
    Option (List UInt8) :=
  if t = tag ciph iv a c then some (gctr ciph (inc32 (j0 iv)) c) else none

theorem length_gctr (icb : Block) (data : List UInt8) :
    (gctr ciph icb data).length = data.length := by
  rw [gctr, List.length_mapIdx]

theorem keyStream_add (icb : Block) (i : ℕ) :
    keyStream ciph icb (16 + i) = keyStream ciph (inc32 icb) i := by
  have hdiv : (16 + i) / 16 = i / 16 + 1 := by omega
  have hmod : (16 + i) % 16 = i % 16 := Nat.add_mod_left 16 i
  simp only [keyStream, hdiv, hmod, Function.iterate_succ_apply]

theorem gctr_drop (icb : Block) (data : List UInt8) :
    gctr ciph icb data =
      List.zipWith (· ^^^ ·) (data.take 16) (ciph icb).toList ++
        gctr ciph (inc32 icb) (data.drop 16) := by
  have hlen : (List.zipWith (· ^^^ ·) (data.take 16) (ciph icb).toList).length =
      min 16 data.length := by
    rw [List.length_zipWith, List.length_take, Vector.length_toList]
    omega
  refine List.ext_getElem ?_ ?_
  · rw [List.length_append, hlen, length_gctr, length_gctr, List.length_drop]
    omega
  · intro i hi hi'
    have hdata : i < data.length := by rwa [length_gctr] at hi
    simp only [gctr, List.getElem_mapIdx]
    rcases Nat.lt_or_ge i 16 with hsmall | hlarge
    · rw [List.getElem_append_left (by omega)]
      simp [keyStream, Nat.div_eq_of_lt hsmall, Nat.mod_eq_of_lt hsmall]
    · obtain ⟨k, rfl⟩ := Nat.exists_eq_add_of_le hlarge
      have hfirst : (List.zipWith (· ^^^ ·) (data.take 16) (ciph icb).toList).length = 16 := by
        omega
      rw [List.getElem_append_right (by omega)]
      simp only [hfirst, List.getElem_mapIdx, List.getElem_drop, keyStream_add,
        Nat.add_sub_cancel_left]

theorem gctr_gctr (icb : Block) (data : List UInt8) :
    gctr ciph icb (gctr ciph icb data) = data := by
  refine List.ext_getElem ?_ ?_
  · rw [length_gctr, length_gctr]
  · intro i hi hi'
    simp only [gctr, List.getElem_mapIdx, UInt8.xor_assoc, UInt8.xor_self, UInt8.xor_zero]

/-- Of the tags for a ciphertext exactly one is accepted, and gives the plaintext. -/
theorem ad_ae (iv : Vector UInt8 12) (p a : List UInt8) (t : Block) :
    ad ciph iv (ae ciph iv p a).1 a t = if t = (ae ciph iv p a).2 then some p else none := by
  rw [ad, ae, gctr_gctr]

end

end FlyBoard.Gcm

import FlyBoard.Lib.Aes
import FlyBoard.Lib.Bytes
import FlyBoard.Lib.Gcm

/-!
# AES-256-GCM of the sandboxed module (`wasm/aesgcm.h`)

The module carries its own cipher. The definitions follow the header: words of 32 bits for
the round keys, a state of four rows, an S-box table, and a field product that shifts
sixteen bytes to the right once for each bit. Each part is then compared with the standards
in `Lib.Aes` and `Lib.Gcm`:

* `keyexpand_getElem`, `encryptBlock_eq`: key schedule and cipher are those of AES-256;
* `ghashMul_eq`: the field product is multiplication of polynomials;
* `aes256gcm_standard`: sealing is the mode's authenticated encryption, and opening accepts
  exactly the tag that sealing computes.
-/

namespace FlyBoard.AesGcm

open BinaryPoly

/-! ## The cipher -/

set_option maxRecDepth 2000 in
/-- `fb_aes_sbox` -/
def aesSbox : Vector UInt8 256 := #v[
    0x63, 0x7c, 0x77, 0x7b, 0xf2, 0x6b, 0x6f, 0xc5, 0x30, 0x01, 0x67, 0x2b, 0xfe, 0xd7, 0xab, 0x76,
    0xca, 0x82, 0xc9, 0x7d, 0xfa, 0x59, 0x47, 0xf0, 0xad, 0xd4, 0xa2, 0xaf, 0x9c, 0xa4, 0x72, 0xc0,
    0xb7, 0xfd, 0x93, 0x26, 0x36, 0x3f, 0xf7, 0xcc, 0x34, 0xa5, 0xe5, 0xf1, 0x71, 0xd8, 0x31, 0x15,
    0x04, 0xc7, 0x23, 0xc3, 0x18, 0x96, 0x05, 0x9a, 0x07, 0x12, 0x80, 0xe2, 0xeb, 0x27, 0xb2, 0x75,
    0x09, 0x83, 0x2c, 0x1a, 0x1b, 0x6e, 0x5a, 0xa0, 0x52, 0x3b, 0xd6, 0xb3, 0x29, 0xe3, 0x2f, 0x84,
    0x53, 0xd1, 0x00, 0xed, 0x20, 0xfc, 0xb1, 0x5b, 0x6a, 0xcb, 0xbe, 0x39, 0x4a, 0x4c, 0x58, 0xcf,
    0xd0, 0xef, 0xaa, 0xfb, 0x43, 0x4d, 0x33, 0x85, 0x45, 0xf9, 0x02, 0x7f, 0x50, 0x3c, 0x9f, 0xa8,
    0x51, 0xa3, 0x40, 0x8f, 0x92, 0x9d, 0x38, 0xf5, 0xbc, 0xb6, 0xda, 0x21, 0x10, 0xff, 0xf3, 0xd2,
    0xcd, 0x0c, 0x13, 0xec, 0x5f, 0x97, 0x44, 0x17, 0xc4, 0xa7, 0x7e, 0x3d, 0x64, 0x5d, 0x19, 0x73,
    0x60, 0x81, 0x4f, 0xdc, 0x22, 0x2a, 0x90, 0x88, 0x46, 0xee, 0xb8, 0x14, 0xde, 0x5e, 0x0b, 0xdb,
    0xe0, 0x32, 0x3a, 0x0a, 0x49, 0x06, 0x24, 0x5c, 0xc2, 0xd3, 0xac, 0x62, 0x91, 0x95, 0xe4, 0x79,
    0xe7, 0xc8, 0x37, 0x6d, 0x8d, 0xd5, 0x4e, 0xa9, 0x6c, 0x56, 0xf4, 0xea, 0x65, 0x7a, 0xae, 0x08,
    0xba, 0x78, 0x25, 0x2e, 0x1c, 0xa6, 0xb4, 0xc6, 0xe8, 0xdd, 0x74, 0x1f, 0x4b, 0xbd, 0x8b, 0x8a,
    0x70, 0x3e, 0xb5, 0x66, 0x48, 0x03, 0xf6, 0x0e, 0x61, 0x35, 0x57, 0xb9, 0x86, 0xc1, 0x1d, 0x9e,
    0xe1, 0xf8, 0x98, 0x11, 0x69, 0xd9, 0x8e, 0x94, 0x9b, 0x1e, 0x87, 0xe9, 0xce, 0x55, 0x28, 0xdf,
    0x8c, 0xa1, 0x89, 0x0d, 0xbf, 0xe6, 0x42, 0x68, 0x41, 0x99, 0x2d, 0x0f, 0xb0, 0x54, 0xbb, 0x16]

/-- A look-up in `fb_aes_sbox`. -/
def sboxAt (b : UInt8) : UInt8 := aesSbox.get ⟨b.toNat, b.toNat_lt⟩

/-- `fb_aes_xt` -/
def aesXt (x : UInt8) : UInt8 := (x <<< 1) ^^^ (if x &&& 0x80 ≠ 0 then 0x1b else 0)

/-- `fb_aes_subword` -/
def aesSubword (w : UInt32) : UInt32 :=
  (sboxAt ((w >>> 24) &&& 0xff).toUInt8).toUInt32 <<< 24 |||
    (sboxAt ((w >>> 16) &&& 0xff).toUInt8).toUInt32 <<< 16 |||
    (sboxAt ((w >>> 8) &&& 0xff).toUInt8).toUInt32 <<< 8 |||
    (sboxAt (w &&& 0xff).toUInt8).toUInt32

/-- `fb_aes_rotword` -/
def aesRotword (w : UInt32) : UInt32 := (w <<< 8) ||| (w >>> 24)

/-- `rcon` -/
def rcon : Vector UInt32 7 :=
  #v[0x01000000, 0x02000000, 0x04000000, 0x08000000, 0x10000000, 0x20000000, 0x40000000]

def loadWord (key : Vector UInt8 32) (i : ℕ) : UInt32 :=
  key[4 * i]!.toUInt32 <<< 24 ||| key[4 * i + 1]!.toUInt32 <<< 16 |||
    key[4 * i + 2]!.toUInt32 <<< 8 ||| key[4 * i + 3]!.toUInt32

/-- The next word of `fb_aes256_keyexpand`. -/
def nextWord (rk : Vector UInt32 60) (i : ℕ) : UInt32 :=
  let t := rk[i - 1]!
  let t :=
    if i % 8 = 0 then aesSubword (aesRotword t) ^^^ rcon[i / 8 - 1]!
    else if i % 8 = 4 then aesSubword t
    else t
  rk[i - 8]! ^^^ t

/-- `fb_aes256_keyexpand` -/
def keyexpand (key : Vector UInt8 32) : Vector UInt32 60 :=
  let rk := (List.range 8).foldl (fun rk i => rk.setIfInBounds i (loadWord key i))
    (Vector.replicate 60 0)
  (List.range' 8 52).foldl (fun rk i => rk.setIfInBounds i (nextWord rk i)) rk

/-- The byte of a round key for row `r`. -/
def keyByte (w : UInt32) (r : Fin 4) : UInt8 := (w >>> UInt32.ofNat (24 - 8 * r)).toUInt8

abbrev Rows := Vector (Vector UInt8 4) 4

def Rows.of (f : Fin 4 → Fin 4 → UInt8) : Rows := Vector.ofFn fun r => Vector.ofFn fun c => f r c

def shiftSub (s : Rows) : Rows := Rows.of fun r c => sboxAt s[r][(c + r).val]

def mixColumns (t : Rows) : Rows :=
  let row (f : UInt8 → UInt8 → UInt8 → UInt8 → UInt8) : Vector UInt8 4 :=
    Vector.ofFn fun c => f t[0][c] t[1][c] t[2][c] t[3][c]
  #v[row fun a0 a1 a2 a3 => aesXt a0 ^^^ (aesXt a1 ^^^ a1) ^^^ a2 ^^^ a3,
    row fun a0 a1 a2 a3 => a0 ^^^ aesXt a1 ^^^ (aesXt a2 ^^^ a2) ^^^ a3,
    row fun a0 a1 a2 a3 => a0 ^^^ a1 ^^^ aesXt a2 ^^^ (aesXt a3 ^^^ a3),
    row fun a0 a1 a2 a3 => (aesXt a0 ^^^ a0) ^^^ a1 ^^^ a2 ^^^ aesXt a3]

def addKey (rk : Vector UInt32 60) (round : ℕ) (s : Rows) : Rows :=
  Rows.of fun r c => s[r][c] ^^^ keyByte rk[4 * round + c]! r

/-- `fb_aes256_encrypt_block` -/
def encryptBlock (rk : Vector UInt32 60) (input : Vector UInt8 16) : Vector UInt8 16 :=
  let s := Rows.of fun r c => input[c.val * 4 + r.val] ^^^ keyByte rk[c] r
  let s := (List.range' 1 13).foldl (fun s round => addKey rk round (mixColumns (shiftSub s))) s
  let out := addKey rk 14 (shiftSub s)
  Vector.ofFn fun i => out[i.val % 4][i.val / 4]

/-! ## The hash -/

abbrev Block := Vector UInt8 16

/-- `v` is shifted to the right by one bit. -/
def shiftRight (v : Block) : Block :=
  Vector.ofFn fun j => if j.val = 0 then v[0] >>> 1 else (v[j] >>> 1) ||| (v[j.val - 1] <<< 7)

/-- One bit of `fb_ghash_mul`, for `z` and `v`. -/
def ghashBit (isSet : Bool) (s : Block × Block) : Block × Block :=
  let z := if isSet then Vector.zipWith (· ^^^ ·) s.1 s.2 else s.1
  let lsb := s.2[15] &&& 1
  let v := shiftRight s.2
  (z, if lsb ≠ 0 then v.set 0 (v[0] ^^^ 0xe1) else v)

/-- `fb_ghash_mul` -/
def ghashMul (y x : Block) : Block :=
  ((List.finRange 16).foldl (fun s i =>
    (List.range 8).foldl (fun s bit => ghashBit (x[i] &&& (1 <<< UInt8.ofNat (7 - bit)) ≠ 0) s) s)
    (Vector.replicate 16 0, y)).1

/-- `fb_ghash_update` -/
def ghashUpdate (h : Block) (data : Bytes) (y : Block) : Block :=
  if data = [] then y
  else
    let blk := Vector.ofFn fun i => (data.take 16).getD i 0
    ghashUpdate h (data.drop 16) (ghashMul (Vector.zipWith (· ^^^ ·) y blk) h)
termination_by data.length
decreasing_by
  have := List.length_pos_of_ne_nil ‹_›
  rw [List.length_drop]
  omega

/-! ## The mode -/

/-- `fb_gcm_inc32` -/
def inc32 (ctr : Block) : Block :=
  let c := ctr[12].toUInt32 <<< 24 ||| ctr[13].toUInt32 <<< 16 ||| ctr[14].toUInt32 <<< 8 |||
    ctr[15].toUInt32
  let c := c + 1
  (((ctr.set 12 (c >>> 24).toUInt8).set 13 (c >>> 16).toUInt8).set 14 (c >>> 8).toUInt8).set 15
    c.toUInt8

/-- `fb_aes256gcm_ctx` -/
structure Ctx where
  rk : Vector UInt32 60
  h : Block
  s0 : Block

def firstCounter (iv : Vector UInt8 12) : Block := iv ++ (#v[0, 0, 0, 1] : Vector UInt8 4)

/-- `fb_aes256gcm_init` -/
def init (key : Vector UInt8 32) (iv : Vector UInt8 12) : Ctx :=
  let rk := keyexpand key
  { rk := rk
    h := encryptBlock rk (Vector.replicate 16 0)
    s0 := encryptBlock rk (firstCounter iv) }

/-- `fb_gcm_ctr_crypt` -/
def ctrCrypt (rk : Vector UInt32 60) (ctr : Block) (input : Bytes) : Bytes :=
  if input = [] then []
  else
    let ctr := inc32 ctr
    let ks := encryptBlock rk ctr
    List.zipWith (· ^^^ ·) (input.take 16) ks.toList ++ ctrCrypt rk ctr (input.drop 16)
termination_by input.length
decreasing_by
  have := List.length_pos_of_ne_nil ‹_›
  rw [List.length_drop]
  omega

def lenBytes (n : UInt64) : Bytes :=
  (List.range 8).map fun i => (n >>> UInt64.ofNat (56 - 8 * i)).toUInt8

/-- `fb_gcm_tag` -/
def gcmTag (ctx : Ctx) (aad ct : Bytes) : Block :=
  let y := ghashUpdate ctx.h aad (Vector.replicate 16 0)
  let y := ghashUpdate ctx.h ct y
  let lens := lenBytes (UInt64.ofNat aad.length * 8) ++ lenBytes (UInt64.ofNat ct.length * 8)
  let y := ghashUpdate ctx.h lens y
  Vector.zipWith (· ^^^ ·) y ctx.s0

/-- `fb_aes256gcm_encrypt`: ciphertext and tag. -/
def encrypt (key : Vector UInt8 32) (iv : Vector UInt8 12) (aad pt : Bytes) : Bytes × Block :=
  let ctx := init key iv
  let ct := ctrCrypt ctx.rk (firstCounter iv) pt
  (ct, gcmTag ctx aad ct)

/-- `fb_aes256gcm_decrypt` -/
def decrypt (key : Vector UInt8 32) (iv : Vector UInt8 12) (aad ct : Bytes) (tag : Block) :
    Option Bytes :=
  let ctx := init key iv
  let expect := gcmTag ctx aad ct
  let diff : UInt8 := (List.finRange 16).foldl (fun d i => d ||| (expect[i] ^^^ tag[i])) 0
  if diff ≠ 0 then none else some (ctrCrypt ctx.rk (firstCounter iv) ct)

/-! ## The S-box and the field -/

def unaffine (b : UInt8) : UInt8 :=
  ofByteBits ((List.range 8).map fun i =>
    b.toNat.testBit ((i + 2) % 8) ^^ b.toNat.testBit ((i + 5) % 8) ^^
      b.toNat.testBit ((i + 7) % 8) ^^ Nat.testBit 0x05 i)

theorem aesSbox_entries : ∀ p ∈ aesSbox.toList.zipIdx,
    (p.2 ≠ 0 → Aes.mulBytes (UInt8.ofNat p.2) (unaffine p.1) = 1) ∧
      Aes.affine (unaffine p.1) = p.1 := by
  decide +kernel

theorem sboxAt_mem (b : UInt8) : (sboxAt b, b.toNat) ∈ aesSbox.toList.zipIdx := by
  have hlen : b.toNat < aesSbox.toList.length := by
    rw [Vector.length_toList]
    exact b.toNat_lt
  rw [List.mem_zipIdx_iff_getElem?, List.getElem?_eq_getElem hlen, Vector.getElem_toList]
  rfl

theorem sboxAt_eq (b : UInt8) : sboxAt b = Aes.sbox b := by
  obtain ⟨hinv, haffine⟩ := aesSbox_entries _ (sboxAt_mem b)
  by_cases hb : b = 0
  · subst hb
    have hzero : sboxAt 0 = Aes.affine 0 := by decide +kernel
    rw [hzero, Aes.sbox, Aes.inverse, if_pos rfl]
  · have hmul : Aes.mul b (unaffine (sboxAt b)) = 1 := by
      have hpos : b.toNat ≠ 0 := fun h => hb (UInt8.toNat_inj.mp h)
      have hentry := hinv hpos
      rwa [UInt8.ofNat_toNat, ← Aes.mul_eq_mulBytes] at hentry
    rw [Aes.sbox, Aes.inverse_eq hb hmul, haffine]

theorem aesXt_eq (x : UInt8) : aesXt x = Aes.xtime x := rfl

/-! ## Words -/

theorem keyByte_xor (a b : UInt32) (r : Fin 4) :
    keyByte (a ^^^ b) r = keyByte a r ^^^ keyByte b r := by
  refine UInt8.eq_of_toBitVec_eq (BitVec.eq_of_getLsbD_eq fun i hi => ?_)
  simp [keyByte, hi]

/-- Four bytes as a word, the highest first. -/
def pack (a b c d : UInt8) : UInt32 :=
  a.toUInt32 <<< 24 ||| b.toUInt32 <<< 16 ||| c.toUInt32 <<< 8 ||| d.toUInt32

theorem keyByte_pack (a b c d : UInt8) (r : Fin 4) :
    keyByte (pack a b c d) r = ![a, b, c, d] r := by
  refine UInt8.eq_of_toBitVec_eq (BitVec.eq_of_getLsbD_eq fun i hi => ?_)
  fin_cases r <;> interval_cases i <;> simp [keyByte, pack]

theorem keyByte_rotword (w : UInt32) (r : Fin 4) :
    keyByte (aesRotword w) r = keyByte w (r + 1) := by
  refine UInt8.eq_of_toBitVec_eq (BitVec.eq_of_getLsbD_eq fun i hi => ?_)
  fin_cases r <;> interval_cases i <;> simp [keyByte, aesRotword]

theorem keyByte_subword (w : UInt32) (r : Fin 4) :
    keyByte (aesSubword w) r = sboxAt (keyByte w r) := by
  have hbyte (v : UInt32) : (v &&& 0xff).toUInt8 = v.toUInt8 := by
    refine UInt8.eq_of_toBitVec_eq (BitVec.eq_of_getLsbD_eq fun i hi => ?_)
    interval_cases i <;> simp
  have hpack : aesSubword w = pack (sboxAt (w >>> 24).toUInt8) (sboxAt (w >>> 16).toUInt8)
      (sboxAt (w >>> 8).toUInt8) (sboxAt w.toUInt8) := by
    simp only [aesSubword, pack, hbyte]
  rw [hpack, keyByte_pack]
  fin_cases r <;> simp [keyByte]

/-! ## The key schedule -/

theorem keyByte_rcon {j : ℕ} (h₁ : 1 ≤ j) (h₂ : j ≤ 7) (r : Fin 4) :
    keyByte rcon[j - 1]! r = Aes.rcon j r := by
  interval_cases j <;> fin_cases r <;> simp [Aes.rcon, Aes.power, Aes.mul_two] <;> decide

/-- The first `n` round keys are those of the schedule. -/
def Expanded (key : Vector UInt8 32) (n : ℕ) (rk : Vector UInt32 60) : Prop :=
  ∀ i < n, ∀ r, keyByte rk[i]! r = Aes.keyWord key i r

variable {n : ℕ} {rk : Vector UInt32 60}

theorem keyByte_nextWord {key : Vector UInt8 32}
    (h : Expanded key n rk) (h₁ : 8 ≤ n) (h₂ : n < 60) (r : Fin 4) :
    keyByte (nextWord rk n) r = Aes.keyWord key n r := by
  have hprev : ∀ r, keyByte rk[n - 1]! r = Aes.keyWord key (n - 1) r := h (n - 1) (by omega)
  have hback : ∀ r, keyByte rk[n - 8]! r = Aes.keyWord key (n - 8) r := h (n - 8) (by omega)
  rw [Aes.keyWord, dif_neg (by omega), nextWord, keyByte_xor, hback]
  congr 1
  by_cases hzero : n % 8 = 0
  · rw [if_pos hzero, if_pos hzero, keyByte_xor, keyByte_subword, keyByte_rotword, hprev, sboxAt_eq,
      keyByte_rcon (by omega) (by omega)]
    rfl
  · rw [if_neg hzero, if_neg hzero]
    by_cases hfour : n % 8 = 4
    · rw [if_pos hfour, if_pos hfour, keyByte_subword, hprev, sboxAt_eq]
      rfl
    · rw [if_neg hfour, if_neg hfour, hprev]

theorem Expanded.set {key : Vector UInt8 32} {w : UInt32}
    (h : Expanded key n rk) (hn : n < 60) (hw : ∀ r, keyByte w r = Aes.keyWord key n r) :
    Expanded key (n + 1) (rk.setIfInBounds n w) := by
  intro i hi r
  have hi60 : i < 60 := by omega
  rw [getElem!_pos _ i hi60, Vector.getElem_setIfInBounds hi60]
  by_cases heq : n = i
  · subst heq
    rw [if_pos rfl]
    exact hw r
  · rw [if_neg heq, ← getElem!_pos rk i hi60]
    exact h i (by omega) r

theorem keyByte_loadWord (key : Vector UInt8 32) (hn : n < 8) (r : Fin 4) :
    keyByte (loadWord key n) r = Aes.keyWord key n r := by
  have hload : loadWord key n = pack key[4 * n] key[4 * n + 1] key[4 * n + 2] key[4 * n + 3] := by
    simp only [loadWord, pack, getElem!_pos key (4 * n) (by omega),
      getElem!_pos key (4 * n + 1) (by omega), getElem!_pos key (4 * n + 2) (by omega),
      getElem!_pos key (4 * n + 3) (by omega)]
  rw [hload, keyByte_pack, Aes.keyWord, dif_pos hn]
  fin_cases r <;> rfl

theorem expanded_keyexpand (key : Vector UInt8 32) : Expanded key 60 (keyexpand key) := by
  have hload (k : ℕ) (hk : k ≤ 8) : Expanded key k
      ((List.range k).foldl (fun rk i => rk.setIfInBounds i (loadWord key i))
        (Vector.replicate 60 0)) := by
    induction k with
    | zero => exact fun i hi => absurd hi (Nat.not_lt_zero i)
    | succ k ih =>
      rw [List.range_succ, List.foldl_append, List.foldl_cons, List.foldl_nil]
      exact (ih (by omega)).set (by omega) (keyByte_loadWord key hk)
  have hnext (k : ℕ) (hk : k ≤ 52) : Expanded key (8 + k)
      ((List.range' 8 k).foldl (fun rk i => rk.setIfInBounds i (nextWord rk i))
        ((List.range 8).foldl (fun rk i => rk.setIfInBounds i (loadWord key i))
          (Vector.replicate 60 0))) := by
    induction k with
    | zero =>
      rw [List.range'_zero, List.foldl_nil]
      exact hload 8 le_rfl
    | succ k ih =>
      have hbefore := ih (by omega)
      rw [List.range'_1_concat, List.foldl_append, List.foldl_cons, List.foldl_nil]
      exact hbefore.set (by omega) (keyByte_nextWord hbefore (by omega) (by omega))
  dsimp only [keyexpand]
  exact hnext 52 le_rfl

/-! ## Rounds -/

def Rows.toState (s : Rows) : Aes.State := fun r c => s[r][c]

theorem toState_of (f : Fin 4 → Fin 4 → UInt8) : (Rows.of f).toState = f := by
  funext r c
  simp [Rows.toState, Rows.of]

theorem toState_shiftSub (s : Rows) :
    (shiftSub s).toState = Aes.shiftRows (Aes.subBytes s.toState) := by
  rw [shiftSub, toState_of]
  funext r c
  exact sboxAt_eq _

theorem toState_mixColumns (t : Rows) : (mixColumns t).toState = Aes.mixColumns t.toState := by
  funext r c
  fin_cases r <;>
    simp [Rows.toState, mixColumns, Aes.mixColumns, Aes.coefficient, Aes.mul_two, Aes.mul_three,
      Aes.mul_one_byte, aesXt_eq]

theorem toState_addKey {key : Vector UInt8 32} (h : Expanded key 60 rk)
    {round : ℕ} (hround : round < 15) (s : Rows) :
    (addKey rk round s).toState = Aes.addRoundKey (Aes.keyWord key) round s.toState := by
  rw [addKey, toState_of]
  funext r c
  have hword := h (4 * round + c) (by omega) r
  rw [hword]
  rfl

theorem encryptBlock_eq (key : Vector UInt8 32) (input : Vector UInt8 16) :
    encryptBlock (keyexpand key) input = Aes.cipher key input := by
  have hkey := expanded_keyexpand key
  have hfirst : (Rows.of fun r c =>
      input[c.val * 4 + r.val] ^^^ keyByte (keyexpand key)[c] r).toState =
      Aes.rounds (Aes.keyWord key) (Aes.ofBlock input) 0 := by
    rw [toState_of]
    funext r c
    have hword := hkey c (by omega) r
    rw [getElem!_pos _ c.val (by omega)] at hword
    have hidx : c.val * 4 + r.val = r.val + 4 * c.val := by omega
    simp only [Aes.rounds, Aes.addRoundKey, Aes.ofBlock, hidx, Nat.mul_zero, Nat.zero_add, ← hword]
    rfl
  have hrounds (k : ℕ) (hk : k ≤ 13) (s : Rows)
      (hs : s.toState = Aes.rounds (Aes.keyWord key) (Aes.ofBlock input) 0) :
      ((List.range' 1 k).foldl
        (fun s round => addKey (keyexpand key) round (mixColumns (shiftSub s))) s).toState =
        Aes.rounds (Aes.keyWord key) (Aes.ofBlock input) k := by
    induction k with
    | zero => exact hs
    | succ k ih =>
      rw [List.range'_1_concat, List.foldl_append, List.foldl_cons, List.foldl_nil,
        toState_addKey hkey (by omega), toState_mixColumns, toState_shiftSub, ih (by omega),
        Nat.add_comm 1 k, Aes.rounds]
  have hlast (s : Rows) (hs : s.toState = Aes.rounds (Aes.keyWord key) (Aes.ofBlock input) 13) :
      (addKey (keyexpand key) 14 (shiftSub s)).toState =
        Aes.cipherState (Aes.keyWord key) (Aes.ofBlock input) := by
    rw [toState_addKey hkey (by omega), toState_shiftSub, hs, Aes.cipherState]
  have hstate := hlast _ (hrounds 13 le_rfl _ hfirst)
  refine Vector.ext fun i hi => ?_
  rw [encryptBlock, Vector.getElem_ofFn, Aes.cipher, Aes.toBlock, Vector.getElem_ofFn, ← hstate]
  have hcol : i / 4 % 4 = i / 4 := Nat.mod_eq_of_lt (by omega)
  simp [Rows.toState, hcol]

/-! ## The field product -/

def lowBit (b : UInt8) : Bool := b.toNat.testBit 0

/-- A byte shifted to the right after the byte `p`. -/
def shiftByte (p b : UInt8) : UInt8 := (b >>> 1) ||| (p <<< 7)

theorem testBit_shiftByte (p b : UInt8) {i : ℕ} (hi : i < 8) :
    (shiftByte p b).toNat.testBit i = if i = 7 then lowBit p else b.toNat.testBit (i + 1) := by
  change (shiftByte p b).toBitVec.getLsbD i =
    if i = 7 then p.toBitVec.getLsbD 0 else b.toBitVec.getLsbD (i + 1)
  interval_cases i <;> simp [shiftByte]

theorem byteBits_shiftByte (p b : UInt8) :
    (byteBits (shiftByte p b)).reverse ++ [lowBit b] = lowBit p :: (byteBits b).reverse := by
  simp [byteBits, List.range_succ, testBit_shiftByte, lowBit, -Nat.testBit_zero]

theorem toList_shiftRight (v : Block) :
    (shiftRight v).toList = List.zipWith shiftByte (0 :: v.toList) v.toList := by
  refine List.ext_getElem ?_ ?_
  · simp
  · intro j hj hj'
    cases j with
    | zero => simp [shiftRight, shiftByte]
    | succ j => simp [shiftRight, shiftByte]

theorem bytesBits_shift (p : UInt8) (bs : Bytes) :
    Gcm.bytesBits (List.zipWith shiftByte (p :: bs) bs) ++ [lowBit (bs.getLastD p)] =
      lowBit p :: Gcm.bytesBits bs := by
  induction bs generalizing p with
  | nil => rfl
  | cons b bs ih =>
    have hcons : Gcm.bytesBits (List.zipWith shiftByte (p :: b :: bs) (b :: bs)) =
        (byteBits (shiftByte p b)).reverse ++
          Gcm.bytesBits (List.zipWith shiftByte (b :: bs) bs) := rfl
    have htail : Gcm.bytesBits (b :: bs) = (byteBits b).reverse ++ Gcm.bytesBits bs := rfl
    rw [hcons, htail, List.append_assoc, List.getLastD_cons, ih b, ← List.cons_append,
      ← byteBits_shiftByte p b, List.append_assoc]
    rfl

theorem bits_shiftRight (v : Block) :
    Gcm.bits (shiftRight v) = false :: (Gcm.bits v).dropLast ∧
      (Gcm.bits v).getLastD false = lowBit v[15] := by
  have hshift := bytesBits_shift 0 v.toList
  have hlast : v.toList.getLastD 0 = v[15] := by
    simp [List.getLastD_eq_getLast?, List.getLast?_eq_getElem?]
  rw [← toList_shiftRight, hlast] at hshift
  have hne : Gcm.bits v ≠ [] := List.ne_nil_of_length_pos (by rw [Gcm.length_bits]; norm_num)
  have hlow : lowBit 0 = false := rfl
  have hsplit : Gcm.bits (shiftRight v) ++ [lowBit v[15]] =
      (false :: (Gcm.bits v).dropLast) ++ [(Gcm.bits v).getLastD false] := by
    rw [List.cons_append, List.getLastD_eq_getLast?, List.getLast?_eq_getLast_of_ne_nil hne,
      Option.getD_some, List.dropLast_append_getLast, ← hlow]
    exact hshift
  obtain ⟨hbits, hbit⟩ := List.append_inj' hsplit rfl
  exact ⟨hbits, (List.singleton_inj.mp hbit).symm⟩

theorem bytesBits_xor (xs ys : Bytes) (h : xs.length = ys.length) :
    Gcm.bytesBits (List.zipWith (· ^^^ ·) xs ys) =
      BinaryPoly.xor (Gcm.bytesBits xs) (Gcm.bytesBits ys) := by
  induction xs generalizing ys with
  | nil => rfl
  | cons x xs ih =>
    cases ys with
    | nil => exact nomatch h
    | cons y ys =>
      have hlen : (byteBits x).reverse.length = (byteBits y).reverse.length := by
        rw [List.length_reverse, List.length_reverse, length_byteBits, length_byteBits]
      have hcons (z : UInt8) (zs : Bytes) :
          Gcm.bytesBits (z :: zs) = (byteBits z).reverse ++ Gcm.bytesBits zs := rfl
      rw [List.zipWith_cons_cons, hcons, hcons, hcons, ih ys (Nat.succ.inj h), byteBits_xor]
      simp only [BinaryPoly.xor, List.zipWith_append hlen]
      rw [List.reverse_zipWith (by rw [length_byteBits, length_byteBits])]

theorem bits_xor (x y : Block) :
    Gcm.bits (Vector.zipWith (· ^^^ ·) x y) = BinaryPoly.xor (Gcm.bits x) (Gcm.bits y) := by
  rw [Gcm.bits, Vector.toList_zipWith, bytesBits_xor _ _ (by simp)]
  rfl

theorem bits_reduction : Gcm.bits ((Vector.replicate 16 0).set 0 0xe1) = Gcm.reduction := by
  decide +kernel

theorem bits_ghashBit (isSet : Bool) (s : Block × Block) :
    (Gcm.bits (ghashBit isSet s).1, Gcm.bits (ghashBit isSet s).2) =
      addRound Gcm.reduction (Gcm.bits s.1, Gcm.bits s.2) isSet := by
  obtain ⟨hshift, hlast⟩ := bits_shiftRight s.2
  have hlow : s.2[15] &&& 1 ≠ 0 ↔ lowBit s.2[15] = true := by
    generalize s.2[15] = b
    revert b
    exact Bytes.forall_byte (by decide +kernel)
  have hset (v : Block) : v.set 0 (v[0] ^^^ 0xe1) =
      Vector.zipWith (· ^^^ ·) v ((Vector.replicate 16 0).set 0 0xe1) := by
    refine Vector.ext fun i hi => ?_
    by_cases hzero : i = 0
    · subst hzero
      simp
    · simp [Ne.symm hzero]
  unfold ghashBit addRound
  refine Prod.ext ?_ ?_
  · cases isSet with
    | true => exact bits_xor _ _
    | false => rfl
  · dsimp only
    rw [mulX, hlast, ← hshift]
    by_cases hb : lowBit s.2[15] = true
    · rw [if_pos (hlow.mpr hb), if_pos hb, hset, bits_xor, bits_reduction]
    · rw [if_neg (mt hlow.mp hb), if_neg hb]

theorem reverse_byteBits (b : UInt8) :
    (byteBits b).reverse = (List.range 8).map fun bit =>
      decide (b &&& (1 <<< UInt8.ofNat (7 - bit)) ≠ 0) := by
  revert b
  exact Bytes.forall_byte (by decide +kernel)

/-- The loops run over the bits of `x`. -/
theorem ghashMul_eq_foldl (y x : Block) :
    ghashMul y x =
      ((Gcm.bits x).foldl (fun s b => ghashBit b s) (Vector.replicate 16 0, y)).1 := by
  have hbytes : x.toList = (List.finRange 16).map fun i => x[i] := by
    refine List.ext_getElem (by simp) fun i hi hi' => by simp
  rw [Gcm.bits, Gcm.bytesBits, hbytes, List.flatMap_map, List.foldl_flatMap, ghashMul]
  simp only [reverse_byteBits, List.foldl_map]

theorem ghashMul_eq (y x : Block) : ghashMul y x = Gcm.mul y x := by
  have hloop (bs : List Bool) (s : Block × Block) :
      (Gcm.bits (bs.foldl (fun s b => ghashBit b s) s).1,
        Gcm.bits (bs.foldl (fun s b => ghashBit b s) s).2) =
        bs.foldl (addRound Gcm.reduction) (Gcm.bits s.1, Gcm.bits s.2) := by
    induction bs generalizing s with
    | nil => rfl
    | cons b bs ih => rw [List.foldl_cons, List.foldl_cons, ih, bits_ghashBit]
  have hlen : Gcm.reduction.length = 128 := rfl
  have hzero : Gcm.bits (Vector.replicate 16 0) = List.replicate Gcm.reduction.length false := by
    decide +kernel
  have hbits : Gcm.bits (ghashMul y x) = mulMod Gcm.reduction (Gcm.bits y) (Gcm.bits x) := by
    have hrun := congrArg Prod.fst (hloop (Gcm.bits x) (Vector.replicate 16 0, y))
    rw [← mulBits_eq_mulMod (by rw [hlen]; norm_num) ((Gcm.length_bits y).trans hlen.symm),
      mulBits, ← hzero, ghashMul_eq_foldl]
    exact hrun
  rw [Gcm.mul, ← hbits, Gcm.ofBits_bits]

theorem ghashUpdate_eq (h : Block) (data : Bytes) (y : Block) :
    ghashUpdate h data y = (Gcm.blocks data).foldl (fun y x => Gcm.mul (Gcm.xor y x) h) y := by
  induction data, y using ghashUpdate.induct h with
  | case1 y =>
    rw [ghashUpdate, if_pos rfl, Gcm.blocks_nil, List.foldl_nil]
  | case2 data y hdata blk ih =>
    have hblk : blk = Gcm.firstBlock data := by
      refine Vector.ext fun i hi => ?_
      simp [blk, Gcm.firstBlock]
    rw [ghashUpdate, if_neg hdata, Gcm.blocks_drop hdata, List.foldl_cons, ih, ← hblk, ghashMul_eq]
    rfl

/-! ## Sealing and opening -/

theorem toNat_pack (a b c d : UInt8) :
    (pack a b c d).toNat =
      a.toNat * 2 ^ 24 + b.toNat * 2 ^ 16 + c.toNat * 2 ^ 8 + d.toNat := by
  have hbytes (r : Fin 4) := congrArg UInt8.toNat (keyByte_pack a b c d r)
  have h₀ := hbytes 0
  have h₁ := hbytes 1
  have h₂ := hbytes 2
  have h₃ := hbytes 3
  have hlt := (pack a b c d).toNat_lt
  simp [keyByte, Nat.shiftRight_eq_div_pow] at h₀ h₁ h₂ h₃
  omega

theorem inc32_eq (ctr : Block) : inc32 ctr = Gcm.inc32 ctr := by
  obtain ⟨c, hc⟩ : ∃ c, c = pack ctr[12] ctr[13] ctr[14] ctr[15] + 1 := ⟨_, rfl⟩
  have hsum : (Gcm.low32 ctr + 1) % 2 ^ 32 = c.toNat := by
    rw [hc, UInt32.toNat_add, toNat_pack]
    rfl
  have hcode : inc32 ctr = (((ctr.set 12 (c >>> 24).toUInt8).set 13 (c >>> 16).toUInt8).set 14
      (c >>> 8).toUInt8).set 15 c.toUInt8 := by
    rw [hc]
    rfl
  rw [hcode]
  refine Vector.ext fun i hi => ?_
  rw [Gcm.inc32, Vector.getElem_ofFn]
  dsimp only
  rw [hsum]
  by_cases hlow : i < 12
  · rw [if_pos hlow]
    simp [show 12 ≠ i by omega, show 13 ≠ i by omega, show 14 ≠ i by omega,
      show 15 ≠ i by omega]
  · rw [if_neg hlow]
    refine UInt8.toNat_inj.mp ?_
    interval_cases i <;> simp [Nat.shiftRight_eq_div_pow]

theorem lenBytes_eq (n : ℕ) : lenBytes (UInt64.ofNat n * 8) = Gcm.be64 (8 * n) := by
  refine List.map_congr_left fun i hi => UInt8.toNat_inj.mp ?_
  have hi8 : i < 8 := List.mem_range.mp hi
  interval_cases i <;> simp [Nat.shiftRight_eq_div_pow] <;> omega

theorem ctrCrypt_eq (key : Vector UInt8 32) (ctr : Block) (input : Bytes) :
    ctrCrypt (keyexpand key) ctr input = Gcm.gctr (Aes.cipher key) (Gcm.inc32 ctr) input := by
  induction ctr, input using ctrCrypt.induct (keyexpand key) with
  | case1 ctr =>
    rw [ctrCrypt, if_pos rfl]
    rfl
  | case2 ctr input hinput next ih =>
    have hnext : next = Gcm.inc32 ctr := inc32_eq ctr
    have hcode : ctrCrypt (keyexpand key) ctr input =
        List.zipWith (· ^^^ ·) (input.take 16) (encryptBlock (keyexpand key) next).toList ++
          ctrCrypt (keyexpand key) next (input.drop 16) := by
      rw [ctrCrypt, if_neg hinput]
    rw [hcode, Gcm.gctr_drop, ih, hnext, encryptBlock_eq]

theorem gcmTag_eq (key : Vector UInt8 32) (iv : Vector UInt8 12) (aad ct : Bytes) :
    gcmTag (init key iv) aad ct = Gcm.tag (Aes.cipher key) iv aad ct := by
  have hsubkey : (init key iv).h = Aes.cipher key (Vector.replicate 16 0) := encryptBlock_eq _ _
  have hmask : (init key iv).s0 = Aes.cipher key (Gcm.j0 iv) := encryptBlock_eq _ _
  rw [gcmTag, Gcm.tag, Gcm.ghash, List.foldl_append, List.foldl_append, ← hsubkey, ← hmask]
  simp only [ghashUpdate_eq, lenBytes_eq]
  rfl

theorem encrypt_eq (key : Vector UInt8 32) (iv : Vector UInt8 12) (aad pt : Bytes) :
    encrypt key iv aad pt = Gcm.ae (Aes.cipher key) iv pt aad := by
  have hct : ctrCrypt (init key iv).rk (firstCounter iv) pt =
      Gcm.gctr (Aes.cipher key) (Gcm.inc32 (Gcm.j0 iv)) pt := ctrCrypt_eq _ _ _
  unfold encrypt Gcm.ae
  dsimp only
  rw [hct, gcmTag_eq]

theorem foldl_or_eq_zero (ds : List UInt8) (d : UInt8) :
    ds.foldl (· ||| ·) d = 0 ↔ d = 0 ∧ ∀ x ∈ ds, x = 0 := by
  induction ds generalizing d with
  | nil => simp
  | cons x ds ih => rw [List.foldl_cons, ih, UInt8.or_eq_zero_iff, List.forall_mem_cons, and_assoc]

theorem diff_eq_zero (s t : Block) :
    (List.finRange 16).foldl (fun d i => d ||| (s[i] ^^^ t[i])) (0 : UInt8) = 0 ↔ t = s := by
  have hmap : (List.finRange 16).foldl (fun d i => d ||| (s[i] ^^^ t[i])) (0 : UInt8) =
      ((List.finRange 16).map fun i => s[i] ^^^ t[i]).foldl (· ||| ·) 0 := by
    rw [List.foldl_map]
  rw [hmap, foldl_or_eq_zero]
  constructor
  · intro h
    refine Vector.ext fun i hi => ?_
    have hbyte := h.2 _ (List.mem_map_of_mem (List.mem_finRange ⟨i, hi⟩))
    exact (UInt8.xor_eq_zero_iff.mp hbyte).symm
  · intro h
    subst h
    refine ⟨rfl, fun x hx => ?_⟩
    obtain ⟨i, -, rfl⟩ := List.mem_map.mp hx
    exact UInt8.xor_self

theorem decrypt_eq (key : Vector UInt8 32) (iv : Vector UInt8 12) (aad ct : Bytes) (tag : Block) :
    decrypt key iv aad ct tag = Gcm.ad (Aes.cipher key) iv ct aad tag := by
  have hpt : ctrCrypt (init key iv).rk (firstCounter iv) ct =
      Gcm.gctr (Aes.cipher key) (Gcm.inc32 (Gcm.j0 iv)) ct := ctrCrypt_eq _ _ _
  unfold decrypt Gcm.ad
  dsimp only
  rw [hpt, gcmTag_eq]
  simp only [ne_eq, diff_eq_zero, ite_not]

/-- The sandboxed cipher is the standard one. -/
theorem aes256gcm_standard (key : Vector UInt8 32) (iv : Vector UInt8 12) (aad pt : Bytes) :
    encrypt key iv aad pt = Gcm.ae (Aes.cipher key) iv pt aad ∧
      (∀ y x, ghashMul y x = Gcm.mul y x) ∧
      (∀ ct tag, decrypt key iv aad ct tag = Gcm.ad (Aes.cipher key) iv ct aad tag) ∧
      ∀ tag, decrypt key iv aad (encrypt key iv aad pt).1 tag =
        if tag = (encrypt key iv aad pt).2 then some pt else none := by
  refine ⟨encrypt_eq key iv aad pt, ghashMul_eq, fun ct tag => decrypt_eq key iv aad ct tag, ?_⟩
  intro tag
  rw [decrypt_eq, encrypt_eq, Gcm.ad_ae]

end FlyBoard.AesGcm

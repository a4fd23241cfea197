import FlyBoard.Lib.BinaryPoly
import FlyBoard.Lib.Bytes
import Mathlib.Data.Fin.VecNotation

/-!
# AES with a 256-bit key

The cipher as its standard states it. A byte is a polynomial of degree below eight, and
products are taken modulo `x^8 + x^4 + x^3 + x + 1`; the S-box is an inverse followed by an
affine map; a round is SubBytes, ShiftRows, MixColumns and AddRoundKey.

`mulBytes` and the byte lemmas below it evaluate the field; the cipher itself is not meant
to be run.
-/

namespace FlyBoard.Aes

open BinaryPoly

variable {a b c : UInt8}

/-! ## The field -/

/-- The terms of the modulus below `x^8`. -/
def reduction : List Bool := byteBits 0x1b

noncomputable def mul (a b : UInt8) : UInt8 :=
  ofByteBits (mulMod reduction (byteBits a) (byteBits b))

/-- Multiplication by `x`. -/
def xtime (a : UInt8) : UInt8 := (a <<< 1) ^^^ (if a &&& 0x80 ≠ 0 then 0x1b else 0)

def mulBytes (a b : UInt8) : UInt8 :=
  ((byteBits b).foldl (fun s bit => (if bit then s.1 ^^^ s.2 else s.1, xtime s.2)) (0, a)).1

theorem length_byteBits_eq (b : UInt8) : (byteBits b).length = reduction.length := by
  rw [reduction, length_byteBits, length_byteBits]

theorem byteBits_xtime (a : UInt8) : byteBits (xtime a) = mulX reduction (byteBits a) := by
  revert a
  exact Bytes.forall_byte (by decide +kernel)

theorem byteBits_mulBytes (a b : UInt8) :
    byteBits (mulBytes a b) = mulBits reduction (byteBits a) (byteBits b) := by
  have hloop (bs : List Bool) (s : UInt8 × UInt8) :
      byteBits (bs.foldl (fun s bit => (if bit then s.1 ^^^ s.2 else s.1, xtime s.2)) s).1 =
        (bs.foldl (addRound reduction) (byteBits s.1, byteBits s.2)).1 := by
    induction bs generalizing s with
    | nil => rfl
    | cons bit bs ih =>
      have hsum : byteBits (if bit then s.1 ^^^ s.2 else s.1) =
          if bit then xor (byteBits s.1) (byteBits s.2) else byteBits s.1 := by
        cases bit with
        | true => exact byteBits_xor s.1 s.2
        | false => rfl
      rw [List.foldl_cons, List.foldl_cons, ih, hsum, byteBits_xtime]
      rfl
  have hzero : byteBits 0 = List.replicate reduction.length false := by decide
  rw [mulBytes, mulBits, hloop, hzero]

theorem mul_eq_mulBytes (a b : UInt8) : mul a b = mulBytes a b := by
  have hpos : 0 < reduction.length := by
    rw [← length_byteBits_eq a, length_byteBits]
    norm_num
  rw [mul, ← mulBits_eq_mulMod hpos (length_byteBits_eq a), ← byteBits_mulBytes,
    ofByteBits_byteBits]

theorem byteBits_mul (a b : UInt8) :
    byteBits (mul a b) = mulMod reduction (byteBits a) (byteBits b) :=
  byteBits_ofByteBits (length_mulMod _ _ _)

theorem mul_comm_byte (a b : UInt8) : mul a b = mul b a := by
  rw [mul, mulMod_comm, mul]

theorem mul_one_byte (a : UInt8) : mul 1 a = a := by
  have hbits : byteBits 1 = [true, false, false, false, false, false, false, false] := by decide
  rw [mul_comm_byte, mul_eq_mulBytes, mulBytes, hbits]
  exact UInt8.zero_xor

theorem mul_two (a : UInt8) : mul 2 a = xtime a := by
  have hbits : byteBits 2 = [false, true, false, false, false, false, false, false] := by decide
  rw [mul_comm_byte, mul_eq_mulBytes, mulBytes, hbits]
  exact UInt8.zero_xor

theorem mul_three (a : UInt8) : mul 3 a = xtime a ^^^ a := by
  have hbits : byteBits 3 = [true, true, false, false, false, false, false, false] := by decide
  rw [mul_comm_byte, mul_eq_mulBytes, mulBytes, hbits, UInt8.xor_comm]
  exact congrArg (· ^^^ xtime a) UInt8.zero_xor

noncomputable def inverse (b : UInt8) : UInt8 :=
  if b = 0 then 0 else Classical.epsilon fun c => mul b c = 1

theorem mul_right_unique (h₁ : mul a b = 1) (h₂ : mul a c = 1) : b = c := by
  have hone : ∀ x : List Bool, x.length = reduction.length →
      mulMod reduction (byteBits 1) x = x := by
    intro x hx
    have hbits : byteBits (mul 1 (ofByteBits x)) = byteBits (ofByteBits x) := by
      rw [mul_one_byte]
    rwa [byteBits_mul, byteBits_ofByteBits hx] at hbits
  refine byteBits_injective (inverse_unique (length_byteBits_eq b) (length_byteBits_eq c)
    (byteBits a) hone ?_ ?_)
  · rw [← byteBits_mul, h₁]
  · rw [← byteBits_mul, h₂]

theorem inverse_eq (hb : b ≠ 0) (h : mul b c = 1) : inverse b = c := by
  rw [inverse, if_neg hb]
  exact mul_right_unique (Classical.epsilon_spec (p := fun c => mul b c = 1) ⟨c, h⟩) h

/-! ## The S-box -/

/-- Bit `i` is the sum of five bits and of a bit of `0x63`. -/
def affine (b : UInt8) : UInt8 :=
  ofByteBits ((List.range 8).map fun i =>
    b.toNat.testBit i ^^ b.toNat.testBit ((i + 4) % 8) ^^ b.toNat.testBit ((i + 5) % 8) ^^
      b.toNat.testBit ((i + 6) % 8) ^^ b.toNat.testBit ((i + 7) % 8) ^^
      Nat.testBit 0x63 i)

noncomputable def sbox (b : UInt8) : UInt8 := affine (inverse b)

/-! ## Rounds -/

/-- Four bytes: a column of the state, or a word of the key schedule. -/
abbrev Word := Fin 4 → UInt8

abbrev State := Fin 4 → Fin 4 → UInt8

noncomputable def subBytes (s : State) : State := fun r c => sbox (s r c)

def shiftRows (s : State) : State := fun r c => s r (c + r)

/-- The first row of the matrix of MixColumns; each row is the one above it, rotated. -/
def coefficient : Fin 4 → UInt8 := ![2, 3, 1, 1]

noncomputable def mixColumns (s : State) : State := fun r c =>
  mul (coefficient (0 - r)) (s 0 c) ^^^ mul (coefficient (1 - r)) (s 1 c) ^^^
    mul (coefficient (2 - r)) (s 2 c) ^^^ mul (coefficient (3 - r)) (s 3 c)

def addRoundKey (w : ℕ → Word) (round : ℕ) (s : State) : State := fun r c =>
  s r c ^^^ w (4 * round + c) r

/-- The first addition and `n` full rounds. -/
noncomputable def rounds (w : ℕ → Word) (s : State) : ℕ → State
  | 0 => addRoundKey w 0 s
  | n + 1 => addRoundKey w (n + 1) (mixColumns (shiftRows (subBytes (rounds w s n))))

noncomputable def cipherState (w : ℕ → Word) (s : State) : State :=
  addRoundKey w 14 (shiftRows (subBytes (rounds w s 13)))

/-! ## The key schedule -/

/-- The power of `x`. -/
noncomputable def power : ℕ → UInt8
  | 0 => 1
  | n + 1 => mul 2 (power n)

noncomputable def rcon (i : ℕ) : Word := ![power (i - 1), 0, 0, 0]

noncomputable def subWord (w : Word) : Word := fun r => sbox (w r)

def rotWord (w : Word) : Word := fun r => w (r + 1)

/-- Word `i` of the schedule. -/
noncomputable def keyWord (key : Vector UInt8 32) (i : ℕ) : Word :=
  if h : i < 8 then fun r => key[4 * i + r]
  else
    let temp := keyWord key (i - 1)
    let mixed :=
      if i % 8 = 0 then fun r => subWord (rotWord temp) r ^^^ rcon (i / 8) r
      else if i % 8 = 4 then subWord temp
      else temp
    fun r => keyWord key (i - 8) r ^^^ mixed r
termination_by i

/-! ## Blocks -/

def ofBlock (b : Vector UInt8 16) : State := fun r c => b[r.val + 4 * c.val]

def toBlock (s : State) : Vector UInt8 16 :=
  Vector.ofFn fun i => s (Fin.ofNat 4 i) (Fin.ofNat 4 (i / 4))

noncomputable def cipher (key : Vector UInt8 32) (b : Vector UInt8 16) : Vector UInt8 16 :=
  toBlock (cipherState (keyWord key) (ofBlock b))

end FlyBoard.Aes

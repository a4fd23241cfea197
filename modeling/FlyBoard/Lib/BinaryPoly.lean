import Mathlib.Algebra.CharP.Two
import Mathlib.Algebra.Field.ZMod
import Mathlib.Algebra.Polynomial.Degree.Operations
import Mathlib.Algebra.Polynomial.Monic
import Mathlib.Data.List.GetD
import Mathlib.Data.ZMod.Basic
import Mathlib.RingTheory.AdjoinRoot
import Mathlib.Tactic.LinearCombination

/-!
# Bits as polynomials over the field of two elements

A list of bits is a polynomial, lowest degree first. `mulMod` is the product of two
polynomials modulo a third one, `mulBits` the shift-and-add loop that computes it: for each
bit of one factor the other factor is added or not, and multiplied by `X`. The modulus is
given by the bits below its highest power.
-/

namespace FlyBoard.BinaryPoly

open Polynomial

variable {u v low : List Bool} {n : ℕ}

/-! ## Bits and polynomials -/

def coeffBit (b : Bool) : ZMod 2 := if b then 1 else 0

noncomputable def toPoly : List Bool → (ZMod 2)[X]
  | [] => 0
  | b :: bs => C (coeffBit b) + X * toPoly bs

def xor (u v : List Bool) : List Bool := List.zipWith (· ^^ ·) u v

theorem coeffBit_xor (a b : Bool) : coeffBit (a ^^ b) = coeffBit a + coeffBit b := by
  revert a b
  decide

theorem coeffBit_injective : Function.Injective coeffBit := by
  unfold Function.Injective
  decide

theorem length_xor (h : u.length = v.length) : (xor u v).length = v.length := by
  rw [xor, List.length_zipWith, h, Nat.min_self]

theorem toPoly_xor (h : u.length = v.length) : toPoly (xor u v) = toPoly u + toPoly v := by
  induction u generalizing v with
  | nil =>
    cases v with
    | nil => simp [xor, toPoly]
    | cons b v => exact nomatch h
  | cons a u ih =>
    cases v with
    | nil => exact nomatch h
    | cons b v =>
      have htail : toPoly (xor u v) = toPoly u + toPoly v := ih (Nat.succ.inj h)
      have hcons : xor (a :: u) (b :: v) = (a ^^ b) :: xor u v := rfl
      rw [hcons, toPoly, toPoly, toPoly, htail, coeffBit_xor, C_add]
      ring

theorem toPoly_replicate_false (n : ℕ) : toPoly (List.replicate n false) = 0 := by
  induction n with
  | zero => rfl
  | succ n ih =>
    rw [List.replicate_succ, toPoly, ih]
    simp [coeffBit]

theorem toPoly_append_singleton (u : List Bool) (b : Bool) :
    toPoly (u ++ [b]) = toPoly u + C (coeffBit b) * X ^ u.length := by
  induction u with
  | nil => simp [toPoly]
  | cons a u ih =>
    rw [List.cons_append, toPoly, toPoly, ih, List.length_cons]
    ring

theorem coeff_toPoly (u : List Bool) (i : ℕ) : (toPoly u).coeff i = coeffBit (u.getD i false) := by
  induction u generalizing i with
  | nil => simp [toPoly, coeffBit]
  | cons b u ih =>
    cases i with
    | zero => simp [toPoly]
    | succ i =>
      rw [toPoly, coeff_add, coeff_C_succ, zero_add, coeff_X_mul, ih]
      rfl

theorem degree_toPoly_lt (u : List Bool) : (toPoly u).degree < u.length := by
  rw [degree_lt_iff_coeff_zero]
  intro i hi
  rw [coeff_toPoly, List.getD_eq_default _ _ hi]
  rfl

theorem toPoly_injective (hlen : u.length = v.length) (h : toPoly u = toPoly v) : u = v := by
  refine List.ext_getElem hlen ?_
  intro i hu hv
  have hcoeff := congrArg (coeff · i) h
  rw [coeff_toPoly, coeff_toPoly] at hcoeff
  have hbit := coeffBit_injective hcoeff
  rwa [List.getD_eq_getElem _ _ hu, List.getD_eq_getElem _ _ hv] at hbit

/-- The first `n` coefficients. -/
noncomputable def ofPoly (n : ℕ) (p : (ZMod 2)[X]) : List Bool :=
  (List.range n).map fun i => decide (p.coeff i = 1)

theorem length_ofPoly (n : ℕ) (p : (ZMod 2)[X]) : (ofPoly n p).length = n := by
  rw [ofPoly, List.length_map, List.length_range]

theorem ofPoly_toPoly (u : List Bool) : ofPoly u.length (toPoly u) = u := by
  refine List.ext_getElem (length_ofPoly _ _) ?_
  intro i hi hu
  have hbit : ∀ b, decide (coeffBit b = 1) = b := by decide
  simp only [ofPoly, List.getElem_map, List.getElem_range, coeff_toPoly,
    List.getD_eq_getElem _ _ hu, hbit]

/-! ## Multiplication modulo a polynomial -/

/-- `X ^ n` and the lower terms. -/
noncomputable def modulus (low : List Bool) : (ZMod 2)[X] := X ^ low.length + toPoly low

theorem monic_modulus (low : List Bool) : (modulus low).Monic :=
  monic_X_pow_add (degree_toPoly_lt low)

theorem degree_modulus (low : List Bool) : (modulus low).degree = low.length := by
  have hlow : (toPoly low).degree < (X ^ low.length : (ZMod 2)[X]).degree := by
    rw [degree_X_pow]
    exact degree_toPoly_lt low
  rw [modulus, degree_add_eq_left_of_degree_lt hlow, degree_X_pow]

noncomputable def mulMod (low u v : List Bool) : List Bool :=
  ofPoly low.length (toPoly u * toPoly v %ₘ modulus low)

/-- Multiplication by `X`: a shift, and the lower terms for a power that is shifted out. -/
def mulX (low v : List Bool) : List Bool :=
  if v.getLastD false then xor (false :: v.dropLast) low else false :: v.dropLast

/-- One round: the sum so far, and the factor times a power of `X`. -/
def addRound (low : List Bool) (s : List Bool × List Bool) (b : Bool) : List Bool × List Bool :=
  (if b then xor s.1 s.2 else s.1, mulX low s.2)

def mulBits (low u v : List Bool) : List Bool :=
  (v.foldl (addRound low) (List.replicate low.length false, u)).1

theorem length_mulX (hpos : 0 < low.length) (hv : v.length = low.length) :
    (mulX low v).length = low.length := by
  have hshift : (false :: v.dropLast).length = low.length := by
    rw [List.length_cons, List.length_dropLast, hv]
    omega
  unfold mulX
  split
  · exact length_xor hshift
  · exact hshift

noncomputable def toRoot (low u : List Bool) : AdjoinRoot (modulus low) :=
  AdjoinRoot.mk (modulus low) (toPoly u)

theorem toRoot_xor (h : u.length = v.length) :
    toRoot low (xor u v) = toRoot low u + toRoot low v := by
  rw [toRoot, toPoly_xor h, map_add]
  rfl

theorem toRoot_mulX (hpos : 0 < low.length) (hv : v.length = low.length) :
    toRoot low (mulX low v) = AdjoinRoot.root (modulus low) * toRoot low v := by
  have hne : v ≠ [] := List.ne_nil_of_length_pos (hv ▸ hpos)
  have hsplit : v = v.dropLast ++ [v.getLastD false] := by
    rw [List.getLastD_eq_getLast?, List.getLast?_eq_getLast_of_ne_nil hne, Option.getD_some,
      List.dropLast_append_getLast]
  have hlen : v.dropLast.length + 1 = low.length := by
    rw [List.length_dropLast, hv]
    omega
  have hshift : toPoly (false :: v.dropLast) = X * toPoly v.dropLast := by
    rw [toPoly]
    simp [coeffBit]
  have hshifted : (false :: v.dropLast).length = low.length := hlen
  have hpoly : toPoly v =
      toPoly v.dropLast + C (coeffBit (v.getLastD false)) * X ^ v.dropLast.length := by
    conv_lhs => rw [hsplit]
    exact toPoly_append_singleton _ _
  unfold mulX toRoot
  rw [hpoly, ← AdjoinRoot.mk_X, ← map_mul, AdjoinRoot.mk_eq_mk]
  cases hlast : v.getLastD false with
  | false =>
    rw [if_neg Bool.false_ne_true, hshift]
    simp [coeffBit]
  | true =>
    rw [if_pos rfl, toPoly_xor hshifted, hshift]
    -- the difference is the modulus itself
    have hdiff : X * toPoly v.dropLast + toPoly low -
        X * (toPoly v.dropLast + C (coeffBit true) * X ^ v.dropLast.length) = modulus low := by
      have hone : C (coeffBit true) = (1 : (ZMod 2)[X]) := by simp [coeffBit]
      have hchar : (2 : (ZMod 2)[X]) = 0 := CharTwo.two_eq_zero
      rw [hone, modulus, ← hlen, pow_succ]
      linear_combination (-(X ^ v.dropLast.length * X)) * hchar
    rw [hdiff]

theorem toRoot_foldl_addRound (hpos : 0 < low.length) (v : List Bool) (s : List Bool × List Bool)
    (h₁ : s.1.length = low.length) (h₂ : s.2.length = low.length) :
    (v.foldl (addRound low) s).1.length = low.length ∧
      toRoot low (v.foldl (addRound low) s).1 =
        toRoot low s.1 + toRoot low s.2 * toRoot low v := by
  induction v generalizing s with
  | nil =>
    refine ⟨h₁, ?_⟩
    simp [toRoot, toPoly]
  | cons b v ih =>
    have hlen : (addRound low s b).1.length = low.length := by
      unfold addRound
      dsimp only
      split
      · rw [length_xor (h₁.trans h₂.symm), h₂]
      · exact h₁
    have hnext := ih (addRound low s b) hlen (length_mulX hpos h₂)
    refine ⟨hnext.1, hnext.2.trans ?_⟩
    have hcons : toRoot low (b :: v) =
        AdjoinRoot.mk (modulus low) (C (coeffBit b)) +
          AdjoinRoot.root (modulus low) * toRoot low v := by
      rw [toRoot, toPoly, map_add, map_mul, AdjoinRoot.mk_X]
      rfl
    rw [hcons]
    unfold addRound
    dsimp only
    rw [toRoot_mulX hpos h₂]
    cases b with
    | true =>
      rw [if_pos rfl, toRoot_xor (h₁.trans h₂.symm)]
      simp only [coeffBit, if_true, map_one]
      ring
    | false =>
      rw [if_neg Bool.false_ne_true]
      simp only [coeffBit, Bool.false_eq_true, if_false, map_zero]
      ring

theorem mulBits_eq_mulMod (hpos : 0 < low.length) (hu : u.length = low.length) (v : List Bool) :
    mulBits low u v = mulMod low u v := by
  have hrounds := toRoot_foldl_addRound hpos v (List.replicate low.length false, u)
    (List.length_replicate) hu
  have hzero : toRoot low (List.replicate low.length false) = 0 := by
    rw [toRoot, toPoly_replicate_false, map_zero]
  rw [hzero, zero_add] at hrounds
  have hpoly : toPoly (mulBits low u v) = toPoly u * toPoly v %ₘ modulus low := by
    have hsmall : toPoly (mulBits low u v) %ₘ modulus low = toPoly (mulBits low u v) := by
      rw [modByMonic_eq_self_iff (monic_modulus low), degree_modulus, ← hrounds.1]
      exact degree_toPoly_lt _
    have hsame : AdjoinRoot.mk (modulus low) (toPoly (mulBits low u v)) =
        AdjoinRoot.mk (modulus low) (toPoly u * toPoly v) := by
      rw [map_mul]
      exact hrounds.2
    rw [← hsmall]
    exact modByMonic_eq_of_dvd_sub (monic_modulus low) (AdjoinRoot.mk_eq_mk.mp hsame)
  have hlen : (mulBits low u v).length = low.length := hrounds.1
  rw [mulMod, ← hpoly, ← hlen, ofPoly_toPoly]

/-! ## The products form a ring -/

theorem length_mulMod (low u v : List Bool) : (mulMod low u v).length = low.length :=
  length_ofPoly _ _

theorem mulMod_comm (low u v : List Bool) : mulMod low u v = mulMod low v u := by
  rw [mulMod, mulMod, mul_comm]

theorem toPoly_ofPoly {p : (ZMod 2)[X]} (h : p.degree < n) : toPoly (ofPoly n p) = p := by
  have hcoeff : ∀ x : ZMod 2, coeffBit (decide (x = 1)) = x := by decide
  ext i
  rw [coeff_toPoly]
  rcases Nat.lt_or_ge i n with hi | hi
  · have hlen : i < (ofPoly n p).length := by rwa [length_ofPoly]
    rw [List.getD_eq_getElem _ _ hlen]
    simp only [ofPoly, List.getElem_map, List.getElem_range, hcoeff]
  · rw [List.getD_eq_default _ _ (by rwa [length_ofPoly]),
      coeff_eq_zero_of_degree_lt (lt_of_lt_of_le h (by exact_mod_cast hi))]
    rfl

theorem toRoot_mulMod (low u v : List Bool) :
    toRoot low (mulMod low u v) = toRoot low u * toRoot low v := by
  have hsmall : (toPoly u * toPoly v %ₘ modulus low).degree < low.length := by
    rw [← degree_modulus low]
    exact degree_modByMonic_lt _ (monic_modulus low)
  rw [toRoot, mulMod, toPoly_ofPoly hsmall, toRoot, toRoot, ← map_mul, AdjoinRoot.mk_eq_mk]
  have hdiv := modByMonic_add_div (toPoly u * toPoly v) (modulus low)
  refine ⟨-(toPoly u * toPoly v /ₘ modulus low), ?_⟩
  linear_combination hdiv

theorem toRoot_injective (hu : u.length = low.length) (hv : v.length = low.length)
    (h : toRoot low u = toRoot low v) : u = v := by
  refine toPoly_injective (hu.trans hv.symm) ?_
  have hmod := modByMonic_eq_of_dvd_sub (monic_modulus low) (AdjoinRoot.mk_eq_mk.mp h)
  have hsmall (w : List Bool) (hw : w.length = low.length) :
      toPoly w %ₘ modulus low = toPoly w := by
    rw [modByMonic_eq_self_iff (monic_modulus low), degree_modulus, ← hw]
    exact degree_toPoly_lt w
  rwa [hsmall u hu, hsmall v hv] at hmod

theorem mulMod_assoc (low u v w : List Bool) :
    mulMod low (mulMod low u v) w = mulMod low u (mulMod low v w) := by
  refine toRoot_injective (length_mulMod _ _ _) (length_mulMod _ _ _) ?_
  rw [toRoot_mulMod, toRoot_mulMod, toRoot_mulMod, toRoot_mulMod, mul_assoc]

theorem inverse_unique {one : List Bool} (hu : u.length = low.length) (hv : v.length = low.length)
    (w : List Bool) (hone : ∀ x, x.length = low.length → mulMod low one x = x)
    (h₁ : mulMod low w u = one) (h₂ : mulMod low w v = one) : u = v := by
  calc u = mulMod low one u := (hone u hu).symm
    _ = mulMod low (mulMod low w v) u := by rw [h₂]
    _ = mulMod low (mulMod low w u) v := by
      rw [mulMod_assoc, mulMod_comm low v u, ← mulMod_assoc]
    _ = mulMod low one v := by rw [h₁]
    _ = v := hone v hv

/-! ## Bytes -/

def byteBits (b : UInt8) : List Bool := (List.range 8).map b.toNat.testBit

def ofBitList (u : List Bool) : ℕ := u.foldr (fun b n => b.toNat + 2 * n) 0

def ofByteBits (u : List Bool) : UInt8 := UInt8.ofNat (ofBitList u)

theorem length_byteBits (b : UInt8) : (byteBits b).length = 8 := by
  rw [byteBits, List.length_map, List.length_range]

theorem testBit_ofBitList (u : List Bool) (i : ℕ) :
    (ofBitList u).testBit i = u.getD i false := by
  induction u generalizing i with
  | nil => simp [ofBitList]
  | cons b u ih =>
    have hcons : ofBitList (b :: u) = b.toNat + 2 * ofBitList u := rfl
    have hb : b.toNat < 2 := b.toNat_lt
    cases i with
    | zero =>
      have hmod : (b.toNat + 2 * ofBitList u) % 2 = b.toNat := by omega
      rw [hcons, Nat.testBit_zero, hmod]
      cases b <;> rfl
    | succ i =>
      have hdiv : (b.toNat + 2 * ofBitList u) / 2 = ofBitList u := by omega
      rw [hcons, Nat.testBit_succ, hdiv, ih]
      rfl

theorem testBit_ofByteBits (u : List Bool) {i : ℕ} (hi : i < 8) :
    (ofByteBits u).toNat.testBit i = u.getD i false := by
  have hmod : (ofByteBits u).toNat = ofBitList u % 2 ^ 8 := UInt8.toNat_ofNat
  rw [hmod, Nat.testBit_mod_two_pow, testBit_ofBitList, decide_eq_true hi, Bool.true_and]

theorem byteBits_ofByteBits (hu : u.length = 8) : byteBits (ofByteBits u) = u := by
  refine List.ext_getElem ((length_byteBits _).trans hu.symm) ?_
  intro i hi hiu
  have hi8 : i < 8 := hu ▸ hiu
  simp only [byteBits, List.getElem_map, List.getElem_range, testBit_ofByteBits _ hi8,
    List.getD_eq_getElem _ _ hiu]

theorem ofByteBits_byteBits (b : UInt8) : ofByteBits (byteBits b) = b := by
  refine UInt8.toNat_inj.mp (Nat.eq_of_testBit_eq fun i => ?_)
  rcases Nat.lt_or_ge i 8 with hi | hi
  · have hlen : i < (byteBits b).length := by rwa [length_byteBits]
    rw [testBit_ofByteBits _ hi, List.getD_eq_getElem _ _ hlen]
    simp only [byteBits, List.getElem_map, List.getElem_range]
  · have hsmall (c : UInt8) : c.toNat.testBit i = false :=
      Nat.testBit_lt_two_pow (lt_of_lt_of_le c.toNat_lt (Nat.pow_le_pow_right (by norm_num) hi))
    rw [hsmall, hsmall]

theorem byteBits_injective {a b : UInt8} (h : byteBits a = byteBits b) : a = b := by
  rw [← ofByteBits_byteBits a, h, ofByteBits_byteBits]

theorem byteBits_xor (a b : UInt8) : byteBits (a ^^^ b) = xor (byteBits a) (byteBits b) := by
  refine List.ext_getElem ?_ ?_
  · rw [length_byteBits, length_xor ((length_byteBits a).trans (length_byteBits b).symm),
      length_byteBits]
  · intro i hi hi'
    simp [byteBits, xor, UInt8.toNat_xor, Nat.testBit_xor]

end FlyBoard.BinaryPoly

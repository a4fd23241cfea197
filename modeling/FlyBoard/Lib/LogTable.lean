import Mathlib.Data.List.Basic
import Mathlib.Logic.Function.Iterate

/-!
# Arithmetic of characteristic two by logarithm tables

A `LogTable` is what a table-driven implementation of a finite field of
characteristic two rests on: an addition in which every element is its own
inverse, an additive map `step` (multiplication by the generator) whose powers
run through all nonzero elements, and a logarithm for them. Products and
quotients are then lookups at a sum or difference of logarithms, and the field
laws the erasure codes need follow.
-/

namespace FlyBoard

structure LogTable (α : Type*) where
  zero : α
  one : α
  add : α → α → α
  /-- Multiplication by the generator. -/
  step : α → α
  /-- The number of nonzero elements. -/
  order : ℕ
  log : α → ℕ
  add_comm : ∀ a b, add a b = add b a
  add_assoc : ∀ a b c, add (add a b) c = add a (add b c)
  add_zero : ∀ a, add a zero = a
  add_self : ∀ a, add a a = zero
  step_add : ∀ a b, step (add a b) = add (step a) (step b)
  step_order : step^[order] one = one
  step_ne_zero : ∀ i < order, step^[i] one ≠ zero
  log_lt : ∀ a, a ≠ zero → log a < order
  step_log : ∀ a, a ≠ zero → step^[log a] one = a
  log_step : ∀ i < order, log (step^[i] one) = i

namespace LogTable

variable {α : Type*} (T : LogTable α)

def exp (i : ℕ) : α := T.step^[i] T.one

instance : Std.Commutative T.add := ⟨T.add_comm⟩

instance : Std.Associative T.add := ⟨T.add_assoc⟩

theorem zero_add (a : α) : T.add T.zero a = a := by
  rw [T.add_comm, T.add_zero]

theorem add_add_cancel (a b : α) : T.add a (T.add a b) = b := by
  rw [← T.add_assoc, T.add_self, T.zero_add]

theorem add_ne_zero {a b : α} (h : a ≠ b) : T.add a b ≠ T.zero := by
  intro h0
  apply h
  calc a = T.add a (T.add a b) := by rw [h0, T.add_zero]
    _ = b := T.add_add_cancel a b

/-! ## Powers and logarithms -/

theorem step_zero : T.step T.zero = T.zero := by
  have h := T.step_add T.zero T.zero
  rwa [T.add_self, T.add_self] at h

theorem iterate_add (i : ℕ) (a b : α) :
    T.step^[i] (T.add a b) = T.add (T.step^[i] a) (T.step^[i] b) := by
  induction i with
  | zero => rfl
  | succ i ih => simp only [Function.iterate_succ_apply', ih, T.step_add]

theorem iterate_zero (i : ℕ) : T.step^[i] T.zero = T.zero :=
  Function.iterate_fixed T.step_zero i

theorem iterate_exp (i j : ℕ) : T.step^[i] (T.exp j) = T.exp (i + j) :=
  (Function.iterate_add_apply _ _ _ _).symm

theorem exp_add_mul_order (i k : ℕ) : T.exp (i + T.order * k) = T.exp i := by
  have hfix : T.step^[T.order * k] T.one = T.one := by
    rw [Function.iterate_mul]
    exact Function.iterate_fixed T.step_order k
  rw [exp, Function.iterate_add_apply, hfix, exp]

theorem exp_mod (i : ℕ) : T.exp (i % T.order) = T.exp i := by
  have h := T.exp_add_mul_order (i % T.order) (i / T.order)
  rwa [Nat.mod_add_div, eq_comm] at h

/-- The powers of the generator depend on the exponent modulo the order only. -/
theorem exp_congr {i j : ℕ} (h : i % T.order = j % T.order) : T.exp i = T.exp j := by
  rw [← T.exp_mod i, h, T.exp_mod]

theorem exp_log {a : α} (h : a ≠ T.zero) : T.exp (T.log a) = a := T.step_log a h

section Units

variable {a : α} (ha : a ≠ T.zero)
include ha

theorem order_pos : 0 < T.order := Nat.zero_lt_of_lt (T.log_lt a ha)

theorem exp_ne_zero (i : ℕ) : T.exp i ≠ T.zero := by
  rw [← T.exp_mod]
  exact T.step_ne_zero _ (Nat.mod_lt _ (T.order_pos ha))

theorem log_exp (i : ℕ) : T.log (T.exp i) = i % T.order := by
  rw [← T.exp_mod]
  exact T.log_step _ (Nat.mod_lt _ (T.order_pos ha))

end Units

variable [DecidableEq α]

def mul (a b : α) : α :=
  if a = T.zero ∨ b = T.zero then T.zero else T.exp (T.log a + T.log b)

def div (a b : α) : α :=
  if a = T.zero then T.zero else T.exp (T.log a + T.order - T.log b)

theorem zero_mul (b : α) : T.mul T.zero b = T.zero := by simp [mul]

theorem mul_zero (a : α) : T.mul a T.zero = T.zero := by simp [mul]

theorem mul_of_ne {a b : α} (ha : a ≠ T.zero) (hb : b ≠ T.zero) :
    T.mul a b = T.exp (T.log a + T.log b) := by
  simp [mul, ha, hb]

theorem mul_comm (a b : α) : T.mul a b = T.mul b a := by
  simp only [mul, or_comm, Nat.add_comm]

instance : Std.Commutative T.mul := ⟨T.mul_comm⟩

/-- Multiplying by `a` is stepping `log a` times, zero included. -/
theorem mul_eq_iterate {a : α} (ha : a ≠ T.zero) (b : α) : T.mul a b = T.step^[T.log a] b := by
  by_cases hb : b = T.zero
  · rw [hb, T.mul_zero, T.iterate_zero]
  · rw [T.mul_of_ne ha hb, ← T.iterate_exp, T.exp_log hb]

theorem mul_add (a b c : α) : T.mul a (T.add b c) = T.add (T.mul a b) (T.mul a c) := by
  by_cases ha : a = T.zero
  · rw [ha, T.zero_mul, T.zero_mul, T.zero_mul, T.add_zero]
  · simp only [T.mul_eq_iterate ha, T.iterate_add]

theorem add_mul (a b c : α) : T.mul (T.add a b) c = T.add (T.mul a c) (T.mul b c) := by
  rw [T.mul_comm, T.mul_add, T.mul_comm c, T.mul_comm c]

section Units

variable {a b : α} (ha : a ≠ T.zero) (hb : b ≠ T.zero)
include ha hb

theorem mul_ne_zero : T.mul a b ≠ T.zero := by
  rw [T.mul_of_ne ha hb]
  exact T.exp_ne_zero ha _

theorem log_mul : T.log (T.mul a b) = (T.log a + T.log b) % T.order := by
  rw [T.mul_of_ne ha hb, T.log_exp ha]

end Units

theorem mul_assoc (a b c : α) : T.mul (T.mul a b) c = T.mul a (T.mul b c) := by
  by_cases ha : a = T.zero
  · rw [ha, T.zero_mul, T.zero_mul, T.zero_mul]
  by_cases hb : b = T.zero
  · rw [hb, T.mul_zero, T.zero_mul, T.mul_zero]
  -- both are the step iterated `log a + log b` times on `c`
  calc T.mul (T.mul a b) c = T.mul c (T.exp (T.log a + T.log b)) := by
        rw [T.mul_comm, T.mul_of_ne ha hb]
    _ = T.step^[T.log a + T.log b] c := by
        by_cases hc : c = T.zero
        · rw [hc, T.zero_mul, T.iterate_zero]
        · rw [T.mul_eq_iterate hc, T.iterate_exp, Nat.add_comm, ← T.iterate_exp,
            T.exp_log hc]
    _ = T.mul a (T.mul b c) := by
        rw [Function.iterate_add_apply, T.mul_eq_iterate ha, T.mul_eq_iterate hb]

instance : Std.Associative T.mul := ⟨T.mul_assoc⟩

theorem mul_div_cancel {a : α} (ha : a ≠ T.zero) (b : α) : T.div (T.mul a b) a = b := by
  by_cases hb : b = T.zero
  · simp [hb, T.mul_zero, div]
  have hlt := T.log_lt a ha
  have hdiv : T.div (T.mul a b) a
      = T.exp ((T.log a + T.log b) % T.order + (T.order - T.log a)) := by
    rw [div, if_neg (T.mul_ne_zero ha hb), T.log_mul ha hb, Nat.add_sub_assoc (Nat.le_of_lt hlt)]
  rw [hdiv]
  calc T.exp ((T.log a + T.log b) % T.order + (T.order - T.log a))
      = T.exp (T.log b) := by
        apply T.exp_congr
        rw [Nat.mod_add_mod]
        have : T.log a + T.log b + (T.order - T.log a) = T.log b + T.order := by omega
        rw [this, Nat.add_mod_right]
    _ = b := T.exp_log hb

/-! ## Erasures -/

/-- The determinant of two rows `x` and `x²` of the parity matrix. -/
def det (x y : α) : α := T.add (T.mul x (T.mul y y)) (T.mul y (T.mul x x))

theorem det_ne_zero {x y : α} (hx : x ≠ T.zero) (hy : y ≠ T.zero) (h : x ≠ y) :
    T.det x y ≠ T.zero := by
  have hprod : T.det x y = T.mul (T.mul x y) (T.add y x) := by
    rw [det, T.mul_add]
    congr 1 <;> ac_rfl
  rw [hprod]
  exact T.mul_ne_zero (T.mul_ne_zero hx hy) (T.add_ne_zero h.symm)

section SolveTwo

variable (x y d e : α)

/-- The two parity rows of the data `d` and `e` with coefficients `x` and `y`. -/
def row0 : α := T.add (T.mul x d) (T.mul y e)

def row1 : α := T.add (T.mul (T.mul x x) d) (T.mul (T.mul y y) e)

theorem eliminate_right :
    T.add (T.mul (T.row0 x y d e) (T.mul y y)) (T.mul (T.row1 x y d e) y)
      = T.mul (T.det x y) d := by
  have hcross : T.mul (T.mul y e) (T.mul y y) = T.mul (T.mul (T.mul y y) e) y := by ac_rfl
  rw [row0, row1, det, T.add_mul, T.add_mul, T.add_mul, hcross]
  -- the terms with `e` cancel
  calc T.add (T.add (T.mul (T.mul x d) (T.mul y y)) (T.mul (T.mul (T.mul y y) e) y))
        (T.add (T.mul (T.mul (T.mul x x) d) y) (T.mul (T.mul (T.mul y y) e) y))
      = T.add (T.mul (T.mul (T.mul y y) e) y) (T.add (T.mul (T.mul (T.mul y y) e) y)
          (T.add (T.mul (T.mul x (T.mul y y)) d) (T.mul (T.mul y (T.mul x x)) d))) := by ac_rfl
    _ = T.add (T.mul (T.mul x (T.mul y y)) d) (T.mul (T.mul y (T.mul x x)) d) :=
        T.add_add_cancel _ _

theorem eliminate_left :
    T.add (T.mul x (T.row1 x y d e)) (T.mul (T.mul x x) (T.row0 x y d e))
      = T.mul (T.det x y) e := by
  have h0 : T.row0 x y d e = T.row0 y x e d := T.add_comm _ _
  have h1 : T.row1 x y d e = T.row1 y x e d := T.add_comm _ _
  have hdet : T.det x y = T.det y x := T.add_comm _ _
  rw [h0, h1, hdet, ← T.eliminate_right y x e d, T.add_comm, T.mul_comm (T.mul x x),
    T.mul_comm x (T.row1 y x e d)]

end SolveTwo

/-! ## Sums over a list -/

section Sum

variable {ι : Type*} (f : ι → α)

def sum (l : List ι) : α := l.foldr (fun i s => T.add (f i) s) T.zero

omit [DecidableEq α] in
theorem sum_add_sum_filter (p : ι → Bool) (l : List ι) :
    T.add (T.sum f l) (T.sum f (l.filter p)) = T.sum f (l.filter fun i => !p i) := by
  induction l with
  | nil => exact T.add_self _
  | cons i l ih =>
    cases h : p i
    · rw [List.filter_cons_of_neg (by simp [h]), List.filter_cons_of_pos (by simp [h])]
      simp only [sum, List.foldr_cons] at ih ⊢
      rw [T.add_assoc, ih]
    · rw [List.filter_cons_of_pos h, List.filter_cons_of_neg (by simp [h])]
      rw [← ih]
      simp only [sum, List.foldr_cons]
      rw [T.add_assoc, T.add_comm _ (T.add (f i) _), T.add_assoc, T.add_add_cancel, T.add_comm]

end Sum

end LogTable

end FlyBoard

import Mathlib.Data.Nat.Digits.Lemmas

/-!
# Digits of another width

A shift register takes digits of `a` bits in and gives digits of `b` bits out, the most
significant first. `Regrouped` says that what was given out is the number that was taken in
without its last `bits` bits. The last digit is filled with zeros (`Padded`), and who regroups
the digits the other way gets the first ones back (`Padded.eq_of_regrouped`).

A register of `r` bits is the number modulo `2 ^ r`, which has all that a digit needs
(`div_mod_register`).
-/

namespace FlyBoard.Regroup

variable {a b w d bits p q : ℕ} {xs ys zs : List ℕ}

/-- The number with these digits of `w` bits. -/
def value (w : ℕ) (ds : List ℕ) : ℕ := Nat.ofDigits (2 ^ w) ds.reverse

@[simp] theorem value_nil : value w [] = 0 := rfl

@[simp] theorem value_concat : value w (xs ++ [d]) = 2 ^ w * value w xs + d := by
  rw [value, List.reverse_concat, Nat.ofDigits_cons, value, Nat.add_comm]

theorem eq_of_value (hw : 0 < w) (hlen : xs.length = ys.length) (hx : ∀ x ∈ xs, x < 2 ^ w)
    (hy : ∀ y ∈ ys, y < 2 ^ w) (h : value w xs = value w ys) : xs = ys := by
  apply List.reverse_injective
  refine Nat.ofDigits_inj_of_len_eq (Nat.one_lt_two_pow hw.ne') ?_ ?_ ?_ h
  · rw [List.length_reverse, List.length_reverse, hlen]
  · exact fun x hmem => hx x (List.mem_reverse.mp hmem)
  · exact fun y hmem => hy y (List.mem_reverse.mp hmem)

/-- `ys` begins the number of `xs`, and `bits` of its bits are still to come. -/
structure Regrouped (a b : ℕ) (xs ys : List ℕ) (bits : ℕ) : Prop where
  length : a * xs.length = b * ys.length + bits
  value : value b ys = value a xs / 2 ^ bits
  digits : ∀ y ∈ ys, y < 2 ^ b

/-- `ys` is the number of `xs` with `p` zeros behind it. -/
structure Padded (a b : ℕ) (xs ys : List ℕ) (p : ℕ) : Prop where
  length : b * ys.length = a * xs.length + p
  value : value b ys = value a xs * 2 ^ p
  digits : ∀ y ∈ ys, y < 2 ^ b

theorem regrouped_nil (a b : ℕ) : Regrouped a b [] [] 0 where
  length := rfl
  value := (Nat.zero_div _).symm
  digits := List.forall_mem_nil _

namespace Regrouped

theorem push (h : Regrouped a b xs ys bits) (hd : d < 2 ^ a) :
    Regrouped a b (xs ++ [d]) ys (bits + a) where
  length := by
    have hlen := h.length
    rw [List.length_append, List.length_singleton, Nat.mul_succ]
    omega
  value := by
    have hpos : 0 < 2 ^ a := Nat.two_pow_pos a
    rw [h.value, value_concat, Nat.pow_add, Nat.mul_comm (2 ^ bits), ← Nat.div_div_eq_div_mul,
      Nat.mul_add_div hpos, Nat.div_eq_of_lt hd, Nat.add_zero]
  digits := h.digits

theorem digits_concat (h : Regrouped a b xs ys bits) (n : ℕ) :
    ∀ y ∈ ys ++ [n % 2 ^ b], y < 2 ^ b := by
  intro y hy
  rcases List.mem_append.mp hy with hy | hy
  · exact h.digits y hy
  · rw [List.mem_singleton.mp hy]
    exact Nat.mod_lt _ (Nat.two_pow_pos b)

theorem emit (h : Regrouped a b xs ys bits) (hb : b ≤ bits) :
    Regrouped a b xs (ys ++ [Regroup.value a xs / 2 ^ (bits - b) % 2 ^ b]) (bits - b) where
  length := by
    have hlen := h.length
    rw [List.length_append, List.length_singleton, Nat.mul_succ]
    omega
  value := by
    have hsplit : 2 ^ bits = 2 ^ (bits - b) * 2 ^ b := by
      rw [← Nat.pow_add, Nat.sub_add_cancel hb]
    rw [value_concat, h.value, hsplit, ← Nat.div_div_eq_div_mul, Nat.div_add_mod]
  digits := h.digits_concat _

theorem pad (h : Regrouped a b xs ys bits) (hb : bits ≤ b) :
    Padded a b xs (ys ++ [Regroup.value a xs * 2 ^ (b - bits) % 2 ^ b]) (b - bits) where
  length := by
    have hlen := h.length
    rw [List.length_append, List.length_singleton, Nat.mul_succ]
    omega
  value := by
    have hsplit : 2 ^ b = 2 ^ bits * 2 ^ (b - bits) := by
      rw [← Nat.pow_add, Nat.add_sub_cancel' hb]
    have hdiv : Regroup.value a xs / 2 ^ bits =
        Regroup.value a xs * 2 ^ (b - bits) / 2 ^ b := by
      rw [hsplit, Nat.mul_div_mul_right _ _ (Nat.two_pow_pos _)]
    rw [value_concat, h.value, hdiv, Nat.div_add_mod]
  digits := h.digits_concat _

theorem padded (h : Regrouped a b xs ys 0) : Padded a b xs ys 0 where
  length := h.length.symm
  value := by rw [h.value, Nat.pow_zero, Nat.div_one, Nat.mul_one]
  digits := h.digits

end Regrouped

/-- Regrouped the other way, the digits are those that were there at first. -/
theorem Padded.eq_of_regrouped (h : Padded a b xs ys p) (hback : Regrouped b a ys zs q)
    (hx : ∀ x ∈ xs, x < 2 ^ a) (hp : p < a) (hq : q < a) : zs = xs := by
  have hlen : a * xs.length + p = a * zs.length + q := h.length.symm.trans hback.length
  have hpos : 0 < a := Nat.zero_lt_of_lt hp
  have hsame : xs.length = zs.length := by
    have hdiv := congrArg (· / a) hlen
    rwa [Nat.mul_add_div hpos, Nat.mul_add_div hpos, Nat.div_eq_of_lt hp, Nat.div_eq_of_lt hq,
      Nat.add_zero, Nat.add_zero] at hdiv
  have hpad : p = q := by
    rw [hsame] at hlen
    exact Nat.add_left_cancel hlen
  refine eq_of_value hpos hsame.symm hback.digits hx ?_
  rw [hback.value, h.value, hpad, Nat.mul_div_cancel _ (Nat.two_pow_pos q)]

/-! ## Registers -/

theorem div_mod_register {r k : ℕ} (h : k + w ≤ r) (n : ℕ) :
    n % 2 ^ r / 2 ^ k % 2 ^ w = n / 2 ^ k % 2 ^ w := by
  have hsplit : 2 ^ r = 2 ^ k * 2 ^ (r - k) := by
    rw [← Nat.pow_add, Nat.add_sub_cancel' (by omega)]
  rw [hsplit, Nat.mod_mul_right_div_self, Nat.mod_mod_of_dvd _ (Nat.pow_dvd_pow 2 (by omega))]

theorem mul_mod_register {r k : ℕ} (h : w ≤ r) (n : ℕ) :
    n % 2 ^ r * 2 ^ k % 2 ^ r % 2 ^ w = n * 2 ^ k % 2 ^ w := by
  rw [Nat.mod_mul_mod, Nat.mod_mod_of_dvd _ (Nat.pow_dvd_pow 2 h)]

theorem or_register {r : ℕ} (hw : w ≤ r) (n : ℕ) (hd : d < 2 ^ w) :
    n * 2 ^ w % 2 ^ r ||| d = (2 ^ w * n + d) % 2 ^ r := by
  have hsplit : 2 ^ r = 2 ^ (r - w) * 2 ^ w := by
    rw [← Nat.pow_add, Nat.sub_add_cancel hw]
  have hhigh : n * 2 ^ w % 2 ^ r = n % 2 ^ (r - w) * 2 ^ w := by
    rw [hsplit, Nat.mul_mod_mul_right]
  have hlow : n % 2 ^ (r - w) * 2 ^ w + d < 2 ^ r := by
    have hlt : n % 2 ^ (r - w) + 1 ≤ 2 ^ (r - w) := Nat.mod_lt _ (Nat.two_pow_pos _)
    have hmul := Nat.mul_le_mul_right (2 ^ w) hlt
    rw [← hsplit, Nat.add_mul, Nat.one_mul] at hmul
    omega
  have hor : n % 2 ^ (r - w) * 2 ^ w ||| d = n % 2 ^ (r - w) * 2 ^ w + d := by
    rw [← Nat.shiftLeft_eq, Nat.shiftLeft_add_eq_or_of_lt hd]
  rw [hhigh, hor, Nat.mul_comm (2 ^ w) n, ← Nat.mod_add_mod, hhigh, Nat.mod_eq_of_lt hlow]

end FlyBoard.Regroup

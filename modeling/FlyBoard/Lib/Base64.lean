import FlyBoard.Lib.Bytes

/-!
# Base64

`encode` writes three bytes as four digits, and what is left over with `=` in place of the
digits it has no bits for. `decode` reads groups of four characters, `=` at the end only; like
libcrypto it gives three bytes for each group, zeros for those that `=` stands for.
-/

namespace FlyBoard.Base64

open Bytes

/-! ## Digits -/

def digit (v : ℕ) : UInt8 :=
  if v < 26 then UInt8.ofNat (65 + v)
  else if v < 52 then UInt8.ofNat (71 + v)
  else if v < 62 then UInt8.ofNat (v - 4)
  else if v = 62 then 43
  else 47

def value (c : UInt8) : Option ℕ :=
  if 65 ≤ c ∧ c ≤ 90 then some (c.toNat - 65)
  else if 97 ≤ c ∧ c ≤ 122 then some (c.toNat - 97 + 26)
  else if 48 ≤ c ∧ c ≤ 57 then some (c.toNat - 48 + 52)
  else if c = 43 then some 62
  else if c = 47 then some 63
  else none

theorem value_digit {v : ℕ} (h : v < 64) : value (digit v) = some v := by
  have hall : ∀ v < 64, value (digit v) = some v := by decide
  exact hall v h

theorem digit_ne {v : ℕ} {c : UInt8} (h : v < 64) (hc : value c = none) : digit v ≠ c := by
  rintro rfl
  exact nomatch (value_digit h).symm.trans hc

/-! ## Groups -/

def encode : Bytes → Bytes
  | [] => []
  | [a] => [digit (a.toNat / 4), digit (a.toNat % 4 * 16), 61, 61]
  | [a, b] =>
    [digit (a.toNat / 4), digit (a.toNat % 4 * 16 + b.toNat / 16), digit (b.toNat % 16 * 4), 61]
  | a :: b :: c :: s =>
    digit (a.toNat / 4) :: digit (a.toNat % 4 * 16 + b.toNat / 16) ::
      digit (b.toNat % 16 * 4 + c.toNat / 64) :: digit (c.toNat % 64) :: encode s

def group (x y z w : ℕ) : Bytes :=
  [UInt8.ofNat (4 * x + y / 16), UInt8.ofNat (y % 16 * 16 + z / 4), UInt8.ofNat (z % 4 * 64 + w)]

/-- `EVP_DecodeBlock`, without the white space that it drops at both ends. -/
def decode : Bytes → Option Bytes
  | [] => some []
  | a :: b :: c :: d :: s => do
    let x ← value a
    let y ← value b
    if s = [] ∧ d = 61 then
      let z ← if c = 61 then some 0 else value c
      some (group x y z 0)
    else
      let z ← value c
      let w ← value d
      let rest ← decode s
      some (group x y z w ++ rest)
  | _ => none

/-- The bytes of a text and zeros up to a multiple of three. -/
def padded (s : Bytes) : Bytes := s ++ List.replicate ((3 - s.length % 3) % 3) 0

theorem length_encode (s : Bytes) : (encode s).length = (s.length + 2) / 3 * 4 := by
  induction s using encode.induct with
  | case1 => rfl
  | case2 a => simp [encode]
  | case3 a b => simp [encode]
  | case4 a b c s ih =>
    simp only [encode, List.length_cons, ih]
    omega

theorem mem_encode {s : Bytes} {c : UInt8} (h : c ∈ encode s) : c = 61 ∨ ∃ v < 64, c = digit v := by
  induction s using encode.induct with
  | case1 => exact absurd h List.not_mem_nil
  | case2 a =>
    have ha := a.toNat_lt
    simp only [encode, List.mem_cons, List.not_mem_nil, or_false] at h
    rcases h with rfl | rfl | rfl | rfl
    · exact .inr ⟨_, by omega, rfl⟩
    · exact .inr ⟨_, by omega, rfl⟩
    · exact .inl rfl
    · exact .inl rfl
  | case3 a b =>
    have ha := a.toNat_lt
    have hb := b.toNat_lt
    simp only [encode, List.mem_cons, List.not_mem_nil, or_false] at h
    rcases h with rfl | rfl | rfl | rfl
    · exact .inr ⟨_, by omega, rfl⟩
    · exact .inr ⟨_, by omega, rfl⟩
    · exact .inr ⟨_, by omega, rfl⟩
    · exact .inl rfl
  | case4 a b c' s ih =>
    have ha := a.toNat_lt
    have hb := b.toNat_lt
    have hc := c'.toNat_lt
    simp only [encode, List.mem_cons] at h
    rcases h with rfl | rfl | rfl | rfl | h
    · exact .inr ⟨_, by omega, rfl⟩
    · exact .inr ⟨_, by omega, rfl⟩
    · exact .inr ⟨_, by omega, rfl⟩
    · exact .inr ⟨_, by omega, rfl⟩
    · exact ih h

/-- No character but the digits and `=`. -/
theorem of_mem_encode {p : UInt8 → Bool} (hpad : p 61 = false)
    (hdigits : ∀ v < 64, p (digit v) = false) {s : Bytes} {c : UInt8} (h : c ∈ encode s) :
    p c = false := by
  rcases mem_encode h with rfl | ⟨v, hv, rfl⟩
  · exact hpad
  · exact hdigits v hv

theorem group_split (a b c : UInt8) :
    group (a.toNat / 4) (a.toNat % 4 * 16 + b.toNat / 16) (b.toNat % 16 * 4 + c.toNat / 64)
      (c.toNat % 64) = [a, b, c] := by
  have ha := a.toNat_lt
  have hb := b.toNat_lt
  have hc := c.toNat_lt
  have hfirst : 4 * (a.toNat / 4) + (a.toNat % 4 * 16 + b.toNat / 16) / 16 = a.toNat := by omega
  have hsecond : (a.toNat % 4 * 16 + b.toNat / 16) % 16 * 16 +
      (b.toNat % 16 * 4 + c.toNat / 64) / 4 = b.toNat := by omega
  have hthird : (b.toNat % 16 * 4 + c.toNat / 64) % 4 * 64 + c.toNat % 64 = c.toNat := by omega
  rw [group, hfirst, hsecond, hthird, UInt8.ofNat_toNat, UInt8.ofNat_toNat, UInt8.ofNat_toNat]

theorem decode_encode (s : Bytes) : decode (encode s) = some (padded s) := by
  induction s using encode.induct with
  | case1 => rfl
  | case2 a =>
    have ha := a.toNat_lt
    have hgroup := group_split a 0 0
    simp only [UInt8.toNat_zero, Nat.zero_div, Nat.zero_mod, Nat.add_zero, Nat.zero_mul] at hgroup
    simp only [encode, decode, value_digit (v := a.toNat / 4) (by omega),
      value_digit (v := a.toNat % 4 * 16) (by omega)]
    exact congrArg some hgroup
  | case3 a b =>
    have ha := a.toNat_lt
    have hb := b.toNat_lt
    have hgroup := group_split a b 0
    rw [UInt8.toNat_zero, Nat.zero_div, Nat.zero_mod, Nat.add_zero] at hgroup
    have hpad : digit (b.toNat % 16 * 4) ≠ 61 := digit_ne (by omega) (by decide)
    simp only [encode, decode, value_digit (v := a.toNat / 4) (by omega),
      value_digit (v := a.toNat % 4 * 16 + b.toNat / 16) (by omega),
      value_digit (v := b.toNat % 16 * 4) (by omega), hpad, if_false]
    exact congrArg some hgroup
  | case4 a b c s ih =>
    have ha := a.toNat_lt
    have hb := b.toNat_lt
    have hc := c.toNat_lt
    have hpad : digit (c.toNat % 64) ≠ 61 := digit_ne (by omega) (by decide)
    have hlen : (3 - (s.length + 1 + 1 + 1) % 3) % 3 = (3 - s.length % 3) % 3 := by omega
    simp only [encode, decode, value_digit (v := a.toNat / 4) (by omega),
      value_digit (v := a.toNat % 4 * 16 + b.toNat / 16) (by omega),
      value_digit (v := b.toNat % 16 * 4 + c.toNat / 64) (by omega),
      value_digit (v := c.toNat % 64) (by omega), hpad, and_false, if_false, ih]
    rw [padded, padded, List.length_cons, List.length_cons, List.length_cons, hlen]
    exact congrArg some (congrArg (· ++ padded s) (group_split a b c))

/-- The number of `=` at the end, as a decoder counts it. -/
def padding (s : Bytes) : ℕ :=
  (if s.getLast? = some 61 then 1 else 0) +
    (if s.dropLast.getLast? = some 61 then 1 else 0)

theorem padding_encode {s : Bytes} (h : s ≠ []) :
    padding (encode s) = (3 - s.length % 3) % 3 := by
  induction s using encode.induct with
  | case1 => exact absurd rfl h
  | case2 a => rfl
  | case3 a b =>
    have hpad : digit (b.toNat % 16 * 4) ≠ 61 :=
      digit_ne (by have hb := b.toNat_lt; omega) (by decide)
    simp [padding, encode, hpad]
  | case4 a b c s ih =>
    by_cases hs : s = []
    · subst hs
      have hlast : digit (c.toNat % 64) ≠ 61 := digit_ne (by omega) (by decide)
      have hpad : digit (b.toNat % 16 * 4 + c.toNat / 64) ≠ 61 :=
        digit_ne (by have hb := b.toNat_lt; have hc := c.toNat_lt; omega) (by decide)
      simp [padding, encode, hlast, hpad]
    · have hlen : 4 ≤ (encode s).length := by
        have hpos := List.length_pos_of_ne_nil hs
        rw [length_encode]
        omega
      rcases hdigits : encode s with - | ⟨x, - | ⟨y, rest⟩⟩
      · rw [hdigits] at hlen
        exact absurd hlen (Nat.not_succ_le_zero 3)
      · rw [hdigits, List.length_singleton] at hlen
        exact absurd hlen (by decide)
      · have heq := ih hs
        rw [hdigits] at heq
        rw [encode, hdigits]
        simp only [padding, List.getLast?_cons_cons, List.dropLast_cons_cons, List.length_cons] at heq ⊢
        rw [show (s.length + 1 + 1 + 1) % 3 = s.length % 3 by omega]
        cases rest with
        | nil =>
          rw [hdigits, List.length_cons, List.length_singleton] at hlen
          exact absurd hlen (by decide)
        | cons z rest => exact heq

/-- Without the zeros that stand for `=`, what was encoded. -/
theorem take_padded (s : Bytes) :
    (padded s).take ((padded s).length - (3 - s.length % 3) % 3) = s := by
  rw [padded, List.length_append, List.length_replicate, Nat.add_sub_cancel]
  exact List.take_left

end FlyBoard.Base64

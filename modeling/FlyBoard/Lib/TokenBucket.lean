import Mathlib.Tactic.Linarith

/-!
# Token buckets

A bucket holds at most `capacity` tokens and gains `rate` of them in every `unit` of time. A call
that finds `cost` tokens takes them and is let through. However a bucket rounds, as long as its
clock does not go back the calls let through in an interval are paid for by a full bucket and by
what the interval brings.
-/

namespace FlyBoard.TokenBucket

structure Params where
  capacity : ℕ
  rate : ℕ
  unit : ℕ
  cost : ℕ

structure Bucket where
  tokens : ℕ
  updated : ℕ

variable {p : Params} {first last now count : ℕ} {b : Bucket} {tokens : ℕ}

/-- The tokens after a refill at this time: no more than fit, and no more than time has brought. -/
def Refilled (p : Params) (b : Bucket) (now tokens : ℕ) : Prop :=
  tokens ≤ p.capacity ∧ tokens * p.unit ≤ b.tokens * p.unit + p.rate * (now - b.updated)

/-- What `count` calls let through between `first` and `last` leave in the bucket. -/
structure Paid (p : Params) (first last : ℕ) (b : Bucket) (count : ℕ) : Prop where
  capacity : b.tokens ≤ p.capacity
  before : b.updated < first → count = 0
  inside : first ≤ b.updated → b.updated ≤ last →
    (p.cost * count + b.tokens) * p.unit ≤ p.capacity * p.unit + p.rate * (b.updated - first)
  total : p.cost * count * p.unit ≤ p.capacity * p.unit + p.rate * (last - first)

theorem Paid.full (hcapacity : tokens ≤ p.capacity) (now : ℕ) :
    Paid p first last ⟨tokens, now⟩ 0 where
  capacity := hcapacity
  before := fun _ => rfl
  inside := by
    intro _ _
    have hfits := Nat.mul_le_mul_right p.unit hcapacity
    rw [Nat.mul_zero, Nat.zero_add]
    exact hfits.trans (Nat.le_add_right _ _)
  total := by
    rw [Nat.mul_zero, Nat.zero_mul]
    exact Nat.zero_le _

theorem Paid.refill (h : Paid p first last b count) (hmono : b.updated ≤ now)
    (hrefill : Refilled p b now tokens) : Paid p first last ⟨tokens, now⟩ count := by
  obtain ⟨hcapacity, hbrought⟩ := hrefill
  constructor
  case capacity => exact hcapacity
  case before =>
    intro hnow
    exact h.before (lt_of_le_of_lt hmono hnow)
  case inside =>
    intro hfirst hlast
    dsimp only at hfirst hlast ⊢
    by_cases hearlier : b.updated < first
    · -- nothing was let through yet, and the bucket is at most full
      have hfits := Nat.mul_le_mul_right p.unit hcapacity
      rw [h.before hearlier, Nat.mul_zero, Nat.zero_add]
      exact hfits.trans (Nat.le_add_right _ _)
    · have hinside := h.inside (not_lt.mp hearlier) (hmono.trans hlast)
      have hspan : p.rate * (now - first) =
          p.rate * (b.updated - first) + p.rate * (now - b.updated) := by
        rw [← Nat.mul_add]
        congr 1
        omega
      rw [Nat.add_mul] at hinside ⊢
      omega
  case total => exact h.total

theorem Paid.take (h : Paid p first last ⟨tokens, now⟩ count) (henough : p.cost ≤ tokens) :
    Paid p first last ⟨tokens - p.cost, now⟩
      (if first ≤ now ∧ now ≤ last then count + 1 else count) := by
  have hless : tokens - p.cost ≤ p.capacity := (Nat.sub_le _ _).trans h.capacity
  by_cases hcounts : first ≤ now ∧ now ≤ last
  · rw [if_pos hcounts]
    have hinside := h.inside hcounts.1 hcounts.2
    dsimp only at hinside
    have hsame : p.cost * (count + 1) + (tokens - p.cost) = p.cost * count + tokens := by
      rw [Nat.mul_add, Nat.mul_one]
      omega
    constructor
    case capacity => exact hless
    case before => exact fun hnow => absurd hcounts.1 (not_le.mpr hnow)
    case inside =>
      intro _ _
      dsimp only
      rw [hsame]
      exact hinside
    case total =>
      have hpaid : p.cost * (count + 1) * p.unit ≤ (p.cost * count + tokens) * p.unit :=
        Nat.mul_le_mul_right _ (hsame ▸ Nat.le_add_right _ _)
      have hspan : p.rate * (now - first) ≤ p.rate * (last - first) :=
        Nat.mul_le_mul_left _ (Nat.sub_le_sub_right hcounts.2 _)
      omega
  · rw [if_neg hcounts]
    constructor
    case capacity => exact hless
    case before => exact h.before
    case inside => exact fun hfirst hlast => absurd ⟨hfirst, hlast⟩ hcounts
    case total => exact h.total

end FlyBoard.TokenBucket

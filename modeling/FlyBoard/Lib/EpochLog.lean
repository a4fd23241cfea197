import Mathlib.Logic.Function.Basic
import Mathlib.Data.Nat.Init
import Mathlib.Order.MinMax

/-!
# Logs that are handed on from epoch to epoch

A log maps places to entries. The log of an epoch continues the log of the epoch before it
up to a base, and goes on by itself past the base; the log of an epoch that has been left
may still grow past the base of the next one. A `Chain` is a history of such logs. Two
epochs of a chain agree up to every place that none of the bases between them lies below
(`Chain.agree`): that is what somebody who was away for several epochs can rely on.
-/

namespace FlyBoard.EpochLog

variable {α : Type*}

def AgreeUpTo (b : ℕ) (f g : ℕ → Option α) : Prop := ∀ q ≤ b, f q = g q

theorem AgreeUpTo.refl (b : ℕ) (f : ℕ → Option α) : AgreeUpTo b f f := fun _ _ => rfl

theorem AgreeUpTo.trans {b : ℕ} {f g h : ℕ → Option α} (hfg : AgreeUpTo b f g)
    (hgh : AgreeUpTo b g h) : AgreeUpTo b f h := fun q hq => (hfg q hq).trans (hgh q hq)

theorem AgreeUpTo.mono {b b' : ℕ} {f g : ℕ → Option α} (h : AgreeUpTo b f g) (hb : b' ≤ b) :
    AgreeUpTo b' f g := fun q hq => h q (le_trans hq hb)

/-- A log without what comes after `b`. -/
def upTo (b : ℕ) (f : ℕ → Option α) : ℕ → Option α := fun q => if q ≤ b then f q else none

theorem agreeUpTo_upTo (b : ℕ) (f : ℕ → Option α) : AgreeUpTo b (upTo b f) f :=
  fun _ hq => if_pos hq

theorem AgreeUpTo.upTo_eq {b : ℕ} {f g : ℕ → Option α} (h : AgreeUpTo b f g) :
    upTo b f = upTo b g := by
  funext q
  rw [upTo, upTo]
  split
  · rename_i hq
    exact h q hq
  · rfl

theorem upTo_upTo (b b' : ℕ) (f : ℕ → Option α) : upTo b (upTo b' f) = upTo (min b b') f := by
  funext q
  rw [upTo, upTo, upTo]
  by_cases hb : q ≤ b
  · by_cases hb' : q ≤ b'
    · rw [if_pos hb, if_pos hb', if_pos (le_min hb hb')]
    · rw [if_pos hb, if_neg hb', if_neg (fun h => hb' (le_trans h (min_le_right _ _)))]
  · rw [if_neg hb, if_neg (fun h => hb (le_trans h (min_le_left _ _)))]

theorem update_upTo_next {b q : ℕ} {f : ℕ → Option α} {a : α} (hle : b ≤ q)
    (hq : f q = some a) (hgap : ∀ x, b < x → x < q → f x = none) :
    Function.update (upTo b f) q (some a) = upTo q f := by
  funext x
  by_cases hx : x = q
  · subst hx
    rw [Function.update_self, upTo, if_pos le_rfl, hq]
  · rw [Function.update_of_ne hx, upTo, upTo]
    -- before, between and behind
    by_cases hxb : x ≤ b
    · rw [if_pos hxb, if_pos (le_trans hxb hle)]
    · rw [if_neg hxb]
      split
      · exact (hgap x (by omega) (by omega)).symm
      · rfl

/-- The logs of the epochs up to `top`, each with the place where it starts. -/
structure Chain (α : Type*) where
  top : ℕ
  base : ℕ → ℕ
  log : ℕ → ℕ → Option α
  linked : ∀ e < top, AgreeUpTo (base (e + 1)) (log (e + 1)) (log e)

namespace Chain

variable (c : Chain α)

/-- Logs agree over epochs whose bases all lie at or past `b`. -/
theorem agree {e e' b : ℕ} (he : e ≤ e') (htop : e' ≤ c.top)
    (hb : ∀ k, e < k → k ≤ e' → b ≤ c.base k) : AgreeUpTo b (c.log e') (c.log e) := by
  induction e', he using Nat.le_induction with
  | base => exact .refl b _
  | succ k hk ih =>
    have hlast : AgreeUpTo b (c.log (k + 1)) (c.log k) :=
      (c.linked k htop).mono (hb (k + 1) (Nat.lt_succ_of_le hk) le_rfl)
    exact hlast.trans (ih (Nat.le_of_succ_le htop) fun j hj hjk => hb j hj (Nat.le_succ_of_le hjk))

/-- A new epoch, with what the log of the last one has up to `b`. -/
def extend (b : ℕ) : Chain α where
  top := c.top + 1
  base := Function.update c.base (c.top + 1) b
  log := Function.update c.log (c.top + 1) (upTo b (c.log c.top))
  linked := by
    intro e he
    have hne : e ≠ c.top + 1 := by omega
    rw [Function.update_of_ne hne]
    by_cases hlast : e = c.top
    · subst hlast
      rw [Function.update_self, Function.update_self]
      exact agreeUpTo_upTo b _
    · have hne' : e + 1 ≠ c.top + 1 := by omega
      rw [Function.update_of_ne hne', Function.update_of_ne hne']
      exact c.linked e (by omega)

/-- An entry of epoch `e`, past the base of the epoch and of the next one. -/
def write (e q : ℕ) (a : α) (hbase : c.base e < q) (hnext : e < c.top → c.base (e + 1) < q) :
    Chain α where
  top := c.top
  base := c.base
  log := Function.update c.log e (Function.update (c.log e) q (some a))
  linked := by
    intro k hk x hx
    by_cases hke : k = e
    · -- the link to the next epoch ends before the new entry
      subst hke
      have hne : k + 1 ≠ k := by omega
      have hxq : x ≠ q := by have := hnext hk; omega
      rw [Function.update_of_ne hne, Function.update_self, Function.update_of_ne hxq]
      exact c.linked k hk x hx
    · rw [Function.update_of_ne hke]
      by_cases hke' : k + 1 = e
      · -- and so does the link to the one before
        subst hke'
        have hxq : x ≠ q := by omega
        rw [Function.update_self, Function.update_of_ne hxq]
        exact c.linked k hk x hx
      · rw [Function.update_of_ne hke']
        exact c.linked k hk x hx

end Chain

end FlyBoard.EpochLog

import Mathlib.Data.List.Basic
import Mathlib.Logic.Function.Basic

/-!
# Counters that only go up

Counters are counted up one at a time, each increment at a time of its own. A load
remembers which counter it read, when, and the value. Whoever finds a loaded value again
knows that the counter was not counted up since: what a version stamp is for. The values
may be read one after another, with increments in between.
-/

namespace FlyBoard.Stamps

variable {ι : Type*}

structure Load (ι : Type*) where
  counter : ι
  time : ℕ
  value : ℕ
deriving DecidableEq

structure Counters (ι : Type*) where
  now : ℕ
  value : ι → ℕ
  log : List (ι × ℕ)

namespace Counters

variable (s : Counters ι)

def tick : Counters ι := { s with now := s.now + 1 }

def count [DecidableEq ι] (c : ι) : Counters ι where
  now := s.now + 1
  value := Function.update s.value c (s.value c + 1)
  log := s.log ++ [(c, s.now)]

def load (c : ι) : Load ι := ⟨c, s.now, s.value c⟩

def Past : Prop := ∀ x ∈ s.log, x.2 < s.now

/-- The counter has not gone below what was read, and is above it once it was counted up. -/
structure Fits (l : Load ι) : Prop where
  le : l.value ≤ s.value l.counter
  lt : ∀ t, (l.counter, t) ∈ s.log → l.time ≤ t → l.value < s.value l.counter

variable {s} {l : Load ι}

theorem Past.tick (h : s.Past) : s.tick.Past :=
  fun x hx => Nat.lt_succ_of_lt (h x hx)

theorem Past.count [DecidableEq ι] (h : s.Past) (c : ι) : (s.count c).Past := by
  intro x hx
  rcases List.mem_append.mp hx with hold | hnew
  · exact Nat.lt_succ_of_lt (h x hold)
  · rw [List.mem_singleton.mp hnew]
    exact Nat.lt_succ_self _

theorem fits_load (h : s.Past) (c : ι) : s.Fits (s.load c) := by
  refine ⟨Nat.le_refl _, ?_⟩
  intro t ht htime
  exact absurd htime (Nat.not_le_of_lt (h _ ht))

theorem Fits.tick (h : s.Fits l) : s.tick.Fits l := ⟨h.le, h.lt⟩

theorem Fits.count [DecidableEq ι] (h : s.Fits l) (c : ι) : (s.count c).Fits l := by
  by_cases hc : l.counter = c
  · have hvalue : (s.count c).value l.counter = s.value l.counter + 1 := by
      rw [hc]
      exact Function.update_self c _ s.value
    have hlt : l.value < (s.count c).value l.counter := by
      rw [hvalue]
      exact Nat.lt_succ_of_le h.le
    exact ⟨Nat.le_of_lt hlt, fun _ _ _ => hlt⟩
  · have hvalue : (s.count c).value l.counter = s.value l.counter :=
      Function.update_of_ne hc _ s.value
    refine ⟨hvalue ▸ h.le, ?_⟩
    intro t ht htime
    rw [hvalue]
    rcases List.mem_append.mp ht with hold | hnew
    · exact h.lt t hold htime
    · exact absurd (congrArg Prod.fst (List.mem_singleton.mp hnew)) hc

theorem Fits.not_counted (h : s.Fits l) (heq : s.value l.counter = l.value) {t : ℕ}
    (ht : (l.counter, t) ∈ s.log) : t < l.time := by
  by_contra hlate
  have hlt := h.lt t ht (Nat.le_of_not_lt hlate)
  omega

/-- What stays true as time passes. -/
structure Later (s s' : Counters ι) : Prop where
  now_le : s.now ≤ s'.now
  fits : ∀ l, s.Fits l → s'.Fits l
  mem : ∀ x ∈ s.log, x ∈ s'.log
  new : ∀ x ∈ s'.log, x ∈ s.log ∨ s.now ≤ x.2

theorem later_tick (s : Counters ι) : s.Later s.tick where
  now_le := Nat.le_succ _
  fits _ h := h.tick
  mem _ hx := hx
  new _ hx := .inl hx

theorem later_count [DecidableEq ι] (s : Counters ι) (c : ι) : s.Later (s.count c) where
  now_le := Nat.le_succ _
  fits _ h := h.count c
  mem _ hx := List.mem_append_left _ hx
  new x hx := by
    rcases List.mem_append.mp hx with hold | hnew
    · exact .inl hold
    · rw [List.mem_singleton.mp hnew]
      exact .inr (Nat.le_refl _)

end Counters

end FlyBoard.Stamps

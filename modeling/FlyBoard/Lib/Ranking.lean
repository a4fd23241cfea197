import Mathlib.Algebra.Order.Ring.Int
import Mathlib.Data.List.Nodup
import Mathlib.Data.List.Perm.Subperm
import Mathlib.Order.Basic

/-!
# Ranks in a list

The rank of an element counts the elements of a list that come before it in some linear order.
On the elements of the list, ranks are the order itself, and they take every value below the
length; so does any numbering without repetitions in that range.
-/

namespace FlyBoard.Ranking

variable {α β : Type*}

theorem countP_lt_countP {p q : α → Bool} {l : List α} (h : ∀ a ∈ l, p a = true → q a = true)
    {b : α} (hb : b ∈ l) (hp : p b = false) (hq : q b = true) : l.countP p < l.countP q := by
  induction l with
  | nil => exact nomatch hb
  | cons a l ih =>
    have hrest : ∀ a ∈ l, p a = true → q a = true := fun c hc => h c (List.mem_cons_of_mem _ hc)
    rcases List.mem_cons.mp hb with rfl | hmem
    · rw [List.countP_cons_of_neg (by rw [hp]; exact Bool.false_ne_true), List.countP_cons_of_pos hq]
      exact Nat.lt_succ_of_le (List.countP_mono_left hrest)
    · have hlt := ih hrest hmem
      rw [List.countP_cons, List.countP_cons]
      have ha := h a List.mem_cons_self
      split_ifs with hpa hqa hqa
      · omega
      · exact absurd (ha hpa) hqa
      · omega
      · omega

/-- A numbering of a list without repetitions takes every number from 1 to its length. -/
theorem exists_of_injOn {l : List α} (hl : l.Nodup) {g : α → Int}
    (hinj : ∀ a ∈ l, ∀ b ∈ l, g a = g b → a = b)
    (hrange : ∀ a ∈ l, 1 ≤ g a ∧ g a ≤ l.length) {k : Int} (h1 : 1 ≤ k) (hk : k ≤ l.length) :
    ∃ a ∈ l, g a = k := by
  have hnodup : (l.map fun a => (g a - 1).toNat).Nodup := by
    refine List.Nodup.map_on (fun a ha b hb heq => hinj a ha b hb ?_) hl
    have hra := hrange a ha
    have hrb := hrange b hb
    omega
  have hsub : (l.map fun a => (g a - 1).toNat) ⊆ List.range l.length := by
    intro i hi
    rcases List.mem_map.mp hi with ⟨a, ha, rfl⟩
    have hra := hrange a ha
    rw [List.mem_range]
    omega
  -- as many numbers as there are places
  have hperm : List.Perm (l.map fun a => (g a - 1).toNat) (List.range l.length) := by
    refine (List.subperm_of_subset hnodup hsub).perm_of_length_le (Nat.le_of_eq ?_)
    rw [List.length_range, List.length_map]
  have hmem : (k - 1).toNat ∈ l.map fun a => (g a - 1).toNat := by
    rw [hperm.mem_iff, List.mem_range]
    omega
  rcases List.mem_map.mp hmem with ⟨a, ha, heq⟩
  have hra := hrange a ha
  exact ⟨a, ha, by omega⟩

variable [LinearOrder β] (f : α → β) (l : List α)

/-- How many elements of the list come before an element. -/
def rank (a : α) : Nat := l.countP fun b => f b < f a

variable {f l}

theorem rank_le_rank {a b : α} (h : f a ≤ f b) : rank f l a ≤ rank f l b := by
  refine List.countP_mono_left fun c _ hc => decide_eq_true ?_
  exact (of_decide_eq_true hc).trans_le h

theorem rank_lt_rank {a b : α} (ha : a ∈ l) (h : f a < f b) : rank f l a < rank f l b := by
  refine countP_lt_countP (fun c _ hc => decide_eq_true ?_) ha (decide_eq_false ?_)
    (decide_eq_true h)
  · exact (of_decide_eq_true hc).trans h
  · exact lt_irrefl _

theorem rank_lt_rank_iff {a b : α} (ha : a ∈ l) : rank f l a < rank f l b ↔ f a < f b := by
  constructor
  · intro h
    by_contra hle
    exact absurd (rank_le_rank (l := l) (not_lt.mp hle)) (Nat.not_le.mpr h)
  · exact rank_lt_rank ha

theorem rank_lt_length {a : α} (ha : a ∈ l) : rank f l a < l.length := by
  have hlt := countP_lt_countP (p := fun b => decide (f b < f a)) (q := fun _ => true)
    (fun _ _ _ => rfl) ha (decide_eq_false (lt_irrefl _)) rfl
  rwa [List.countP_true] at hlt

end FlyBoard.Ranking

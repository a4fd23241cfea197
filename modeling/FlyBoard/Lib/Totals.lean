import Mathlib.Algebra.BigOperators.Fin
import Mathlib.Algebra.BigOperators.Group.Finset.Piecewise

/-!
# Totals

The total weight of a list or of a table of slots, and what it becomes when one
entry is replaced, when entries are taken out and when they are put back.
-/

namespace FlyBoard.Totals

variable {α β ι : Type*} (w : α → ℕ) {l : List α} {a : α} {f : α → Option β}

def total (l : List α) : ℕ := (l.map w).sum

@[simp] theorem total_nil : total w [] = 0 := rfl

@[simp] theorem total_cons (a : α) (l : List α) : total w (a :: l) = w a + total w l :=
  List.sum_cons

@[simp] theorem total_append (l l' : List α) : total w (l ++ l') = total w l + total w l' := by
  rw [total, List.map_append, List.sum_append]
  rfl

theorem total_eq_zero_iff : total w l = 0 ↔ ∀ a ∈ l, w a = 0 := by
  induction l with
  | nil => simp
  | cons a l ih => rw [total_cons, Nat.add_eq_zero_iff, ih, List.forall_mem_cons]

theorem total_take_add_drop (k : ℕ) (l : List α) :
    total w (l.take k) + total w (l.drop k) = total w l := by
  rw [← total_append, List.take_append_drop]

theorem total_set {i : ℕ} (h : l[i]? = some a) (b : α) :
    total w (l.set i b) + w a = total w l + w b := by
  induction l generalizing i with
  | nil => exact nomatch h
  | cons c l ih =>
    cases i with
    | zero =>
      rw [List.getElem?_cons_zero, Option.some.injEq] at h
      rw [List.set_cons_zero, total_cons, total_cons, h]
      omega
    | succ i =>
      have hrest := ih (by simpa using h)
      rw [List.set_cons_succ, total_cons, total_cons]
      omega

theorem total_filterMap_add {v : β → ℕ} {w' : α → ℕ}
    (h : ∀ a, w' a + ((f a).map v).getD 0 = w a) (l : List α) :
    total w' l + total v (l.filterMap f) = total w l := by
  induction l with
  | nil => rfl
  | cons a l ih =>
    have ha := h a
    cases hf : f a with
    | none =>
      rw [hf] at ha
      rw [List.filterMap_cons_none hf, total_cons, total_cons, ← ih, ← ha]
      exact Nat.add_assoc ..
    | some b =>
      rw [hf] at ha
      rw [List.filterMap_cons_some hf, total_cons, total_cons, total_cons, ← ih, ← ha]
      simp only [Option.map_some, Option.getD_some]
      omega

theorem total_of_mem {P : α → Prop} (hw : ∀ a ∈ l, ¬ P a → w a = 0)
    (hl : l.Pairwise fun a b => ¬ (P a ∧ P b)) (ha : a ∈ l) (hP : P a) :
    total w l = w a := by
  rcases List.append_of_mem ha with ⟨pre, post, rfl⟩
  rw [List.pairwise_append, List.pairwise_cons] at hl
  rcases hl with ⟨-, ⟨hpost, -⟩, hpre⟩
  have hpre0 : total w pre = 0 := (total_eq_zero_iff w).2 fun b hb =>
    hw b (List.mem_append_left _ hb) fun h => hpre b hb a List.mem_cons_self ⟨h, hP⟩
  have hpost0 : total w post = 0 := (total_eq_zero_iff w).2 fun b hb =>
    hw b (List.mem_append_right _ (List.mem_cons_of_mem _ hb)) fun h => hpost b hb ⟨hP, h⟩
  rw [total_append, total_cons, hpre0, hpost0, Nat.zero_add, Nat.add_zero]

theorem filterMap_single [DecidableEq α] (hl : l.Nodup) (ha : a ∈ l)
    {b : β} (hf : f a = some b) (hne : ∀ c, c ≠ a → f c = none) :
    l.filterMap f = [b] := by
  rcases List.append_of_mem ha with ⟨pre, post, rfl⟩
  have hnone : ∀ l' : List α, a ∉ l' → l'.filterMap f = [] := by
    intro l' hl'
    rw [List.filterMap_eq_nil_iff]
    exact fun c hc => hne c fun h => hl' (h ▸ hc)
  rw [List.nodup_middle, List.nodup_cons, List.mem_append, not_or] at hl
  rw [List.filterMap_append, hnone pre hl.1.1, List.filterMap_cons_some hf, hnone post hl.1.2]
  rfl

/-! ## Slots -/

section

variable [Fintype ι] {t : ι → α}

@[irreducible] def slotTotal (t : ι → α) : ℕ := ∑ i, w (t i)

theorem slotTotal_eq_zero {w : α → ℕ} (h : ∀ i, w (t i) = 0) : slotTotal w t = 0 := by
  rw [slotTotal]
  exact Finset.sum_eq_zero fun i _ => h i

theorem slotTotal_const {w : α → ℕ} {a : α} (h : w a = 0) : slotTotal w (fun _ : ι => a) = 0 :=
  slotTotal_eq_zero fun _ => h

theorem slotTotal_of_ne {w : α → ℕ} {i : ι} (h : ∀ j, j ≠ i → w (t j) = 0) :
    slotTotal w t = w (t i) := by
  rw [slotTotal]
  exact Finset.sum_eq_single i (fun j _ hj => h j hj) fun hi => absurd (Finset.mem_univ i) hi

theorem slotTotal_update [DecidableEq ι] (t : ι → α) (i : ι) (a : α) :
    slotTotal w (Function.update t i a) + w (t i) = slotTotal w t + w a := by
  have hw : (fun j => w (Function.update t i a j)) = Function.update (fun j => w (t j)) i (w a) :=
    Function.comp_update w t i a
  have herase := Finset.sum_erase_add Finset.univ (fun j => w (t j)) (Finset.mem_univ i)
  rw [slotTotal, slotTotal, hw, Finset.sum_update_of_mem (Finset.mem_univ i),
    Finset.sdiff_singleton_eq_erase]
  omega

end

theorem slotTotal_fin {n : ℕ} (t : Fin n → α) :
    slotTotal w t = total (fun i => w (t i)) (List.finRange n) := by
  rw [slotTotal]
  exact Fin.sum_univ_def _

end FlyBoard.Totals

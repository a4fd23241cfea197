import Mathlib.Algebra.Order.BigOperators.Group.List
import Mathlib.Algebra.Order.Group.Nat
import Mathlib.Algebra.Order.Ring.Int

/-!
# Lists written with a separator

A list of texts is joined with a separator, and read back as the fields between the separators;
empty fields are skipped. A list of texts without the separator, none of them empty, is read
back as it was. Without one of its fields a text is shorter.
-/

namespace FlyBoard.Fields

variable {α : Type*} [DecidableEq α] (sep : α)

def join (fields : List (List α)) : List α := List.intercalate [sep] fields

def split (s : List α) : List (List α) := (s.splitOn sep).filter (!·.isEmpty)

variable {sep} {fields : List (List α)} {s f : List α}

theorem ne_nil_of_mem_split (h : f ∈ split sep s) : f ≠ [] := by
  have hkept := (List.mem_filter.mp h).2
  rw [Bool.not_eq_true', List.isEmpty_eq_false_iff] at hkept
  exact hkept

theorem split_join (hsep : ∀ f ∈ fields, sep ∉ f) (hne : ∀ f ∈ fields, f ≠ []) :
    split sep (join sep fields) = fields := by
  by_cases hnil : fields = []
  · rw [hnil]
    rfl
  · rw [split, join, List.splitOn_intercalate sep hsep hnil, List.filter_eq_self]
    intro f hf
    rw [Bool.not_eq_true', List.isEmpty_eq_false_iff]
    exact hne f hf

omit [DecidableEq α] in
theorem length_join (sep : α) (fields : List (List α)) :
    (join sep fields).length = (fields.map fun f => f.length + 1).sum - 1 := by
  induction fields with
  | nil => rfl
  | cons f fields ih =>
    cases fields with
    | nil => simp [join]
    | cons g fields =>
      have hjoin : join sep (f :: g :: fields) = f ++ (sep :: join sep (g :: fields)) := by
        rw [join, List.intercalate_cons_cons, List.append_assoc]
        rfl
      rw [hjoin, List.length_append, List.length_cons, ih, List.map_cons, List.map_cons,
        List.map_cons, List.sum_cons, List.sum_cons, List.sum_cons]
      omega

theorem length_join_erase_lt (h : f ∈ split sep s) :
    (join sep ((split sep s).erase f)).length < s.length := by
  have hpos := List.length_pos_of_ne_nil (ne_nil_of_mem_split h)
  have herase : ((split sep s).map fun f => f.length + 1).sum =
      (f.length + 1) + (((split sep s).erase f).map fun f => f.length + 1).sum := by
    rw [((List.perm_cons_erase h).map _).sum_eq, List.map_cons, List.sum_cons]
  have hfilter : ((split sep s).map fun f => f.length + 1).sum ≤
      ((s.splitOn sep).map fun f => f.length + 1).sum :=
    (List.filter_sublist.map _).sum_le_sum fun _ _ => Nat.zero_le _
  have hlen := length_join sep (s.splitOn sep)
  rw [join, List.intercalate_splitOn] at hlen
  rw [length_join, hlen]
  omega

end FlyBoard.Fields

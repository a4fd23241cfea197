import Mathlib.Data.List.Count
import Mathlib.Data.List.Infix
import Mathlib.Data.List.Nodup
import Mathlib.Data.List.Perm.Subperm
import Mathlib.Order.Basic

/-!
# The longest suffix that a trie knows

A trie is a set of words that holds every beginning of its words. After some input, the automaton
over the trie stands at the longest suffix of the input that the trie knows. The failure link of a
word goes to the longest one among its proper suffixes. Here is why a walk along failure links
finds the next place, and why the words that end at a place are its own and those of its link.
-/

namespace FlyBoard.AhoCorasick

variable {α : Type*}

structure Trie (known : List α → Prop) : Prop where
  nil : known []
  closed : ∀ w a, known (w ++ [a]) → known w

variable (known : List α → Prop) [DecidablePred known]

def longest : List α → List α
  | [] => []
  | a :: u => if known (a :: u) then a :: u else longest u

/-- Where the failure link of a word goes: to the longest of its proper suffixes. -/
def border (w : List α) : List α := longest known w.tail

variable {known} {u v w : List α} {a : α}

theorem longest_suffix (u : List α) : longest known u <:+ u := by
  induction u with
  | nil => exact List.suffix_rfl
  | cons a u ih =>
    unfold longest
    split_ifs
    · exact List.suffix_rfl
    · exact ih.trans (List.suffix_cons a u)

theorem longest_of_known (h : known u) : longest known u = u := by
  cases u with
  | nil => rfl
  | cons a u => exact if_pos h

theorem longest_cons_of_not (h : ¬ known (a :: u)) : longest known (a :: u) = longest known u :=
  if_neg h

theorem suffix_longest (hv : known v) (h : v <:+ u) : v <:+ longest known u := by
  induction u with
  | nil => exact h
  | cons a u ih =>
    by_cases hu : known (a :: u)
    · rw [longest_of_known hu]
      exact h
    · rw [longest_cons_of_not hu]
      rcases List.suffix_cons_iff.mp h with rfl | hrest
      · exact absurd hv hu
      · exact ih hrest

namespace Trie

variable (ht : Trie known)

include ht

omit [DecidablePred known] in
theorem of_isPrefix (hw : known w) (h : v <+: w) : known v := by
  induction w using List.reverseRecOn with
  | nil =>
    rw [List.prefix_nil.mp h]
    exact hw
  | append_singleton w a ih =>
    rcases List.prefix_concat_iff.mp h with rfl | hshorter
    · exact hw
    · exact ih (ht.closed w a hw) hshorter

theorem longest_known (u : List α) : known (longest known u) := by
  induction u with
  | nil => exact ht.nil
  | cons a u ih =>
    by_cases hu : known (a :: u)
    · rw [longest_of_known hu]
      exact hu
    · rw [longest_cons_of_not hu]
      exact ih

theorem longest_eq (hv : known v) (hvu : v <:+ u)
    (hmax : ∀ w, known w → w <:+ u → w <:+ v) : longest known u = v := by
  have hle := hmax _ (ht.longest_known u) (longest_suffix u)
  have hge := suffix_longest hv hvu
  exact hle.eq_of_length (Nat.le_antisymm hle.length_le hge.length_le)

theorem longest_concat (u : List α) (a : α) :
    longest known (u ++ [a]) = longest known (longest known u ++ [a]) := by
  apply ht.longest_eq
  · exact ht.longest_known _
  · have hless : longest known u <:+ u := longest_suffix u
    obtain ⟨before, hu⟩ := hless
    refine (longest_suffix _).trans ⟨before, ?_⟩
    rw [← List.append_assoc, hu]
  · intro w hw hsuffix
    rcases List.eq_nil_or_concat w with rfl | ⟨w', b, rfl⟩
    · exact List.nil_suffix
    · -- what is before the last letter is known too, and a suffix of the longest one
      rw [List.concat_eq_append] at hw hsuffix ⊢
      obtain ⟨before, heq⟩ := hsuffix
      rw [← List.append_assoc] at heq
      obtain ⟨hu, hlast⟩ := List.append_inj' heq rfl
      have hknown := ht.closed w' b hw
      obtain ⟨more, hmore⟩ := suffix_longest hknown ⟨before, hu⟩
      refine suffix_longest hw ⟨more, ?_⟩
      rw [← hlast, ← List.append_assoc, hmore]

/-- A step of the walk: where a word cannot go on, its failure link leads on. -/
theorem longest_border (hw : w ≠ []) (h : ¬ known (w ++ [a])) :
    longest known (border known w ++ [a]) = longest known (w ++ [a]) := by
  obtain ⟨b, w', rfl⟩ := List.exists_cons_of_ne_nil hw
  rw [List.cons_append] at h ⊢
  rw [longest_cons_of_not h, ht.longest_concat w' a]
  rfl

/-- The failure link of a longer word starts from that of the shorter one. -/
theorem border_concat (hw : w ≠ []) (a : α) :
    border known (w ++ [a]) = longest known (border known w ++ [a]) := by
  obtain ⟨b, w', rfl⟩ := List.exists_cons_of_ne_nil hw
  exact ht.longest_concat w' a

theorem border_known (w : List α) : known (border known w) := ht.longest_known _

end Trie

/-- A known word is shorter than there are known words, since its beginnings are among them. -/
theorem Trie.length_lt {labels : List (List α)} (ht : Trie (· ∈ labels)) (hw : w ∈ labels) :
    w.length < labels.length := by
  have hnodup : ((List.range (w.length + 1)).map w.take).Nodup := by
    refine List.Nodup.map_on ?_ List.nodup_range
    intro i hi j hj heq
    have hlengths := congrArg List.length heq
    rw [List.mem_range] at hi hj
    rw [List.length_take, List.length_take] at hlengths
    omega
  have hsub : (List.range (w.length + 1)).map w.take ⊆ labels := by
    intro v hv
    obtain ⟨k, -, rfl⟩ := List.mem_map.mp hv
    exact ht.of_isPrefix hw (List.take_prefix k w)
  have hle := (List.subperm_of_subset hnodup hsub).length_le
  rw [List.length_map, List.length_range] at hle
  exact hle

variable (known) in
theorem border_length_lt (hw : w ≠ []) : (border known w).length < w.length := by
  obtain ⟨b, w', rfl⟩ := List.exists_cons_of_ne_nil hw
  exact Nat.lt_succ_of_le (longest_suffix w').length_le

/-! ## The words that end at a place -/

variable [DecidableEq α] {words : List (List α)}

/-- Of all that is read, the longest known suffix alone tells which words end here. -/
theorem countP_longest (hwords : ∀ v ∈ words, known v) (u : List α) :
    words.countP (· <:+ longest known u) = words.countP (· <:+ u) := by
  apply List.countP_congr
  intro v hv
  rw [decide_eq_true_iff, decide_eq_true_iff]
  constructor
  · intro h
    exact h.trans (longest_suffix u)
  · intro h
    exact suffix_longest (hwords v hv) h

theorem countP_suffix_cons (words : List (List α)) (a : α) (u : List α) :
    words.countP (· <:+ a :: u) = words.count (a :: u) + words.countP (· <:+ u) := by
  induction words with
  | nil => rfl
  | cons v words ih =>
    rw [List.countP_cons, List.countP_cons, List.count_cons, ih]
    by_cases hv : v = a :: u
    · -- the whole is no suffix of its tail
      have hlong : ¬ v <:+ u := by
        intro h
        have hle := h.length_le
        rw [hv, List.length_cons] at hle
        omega
      simp only [hv ▸ hlong, hv, List.suffix_rfl, decide_true, decide_false, beq_self_eq_true,
        if_true, Bool.false_eq_true, if_false]
      omega
    · have hiff : v <:+ a :: u ↔ v <:+ u := by
        rw [List.suffix_cons_iff, or_iff_right hv]
      simp only [hiff, beq_false_of_ne hv, Bool.false_eq_true, if_false]
      omega

/-- The words that end at a place are its own and those that end at its failure link. -/
theorem countP_border (hwords : ∀ v ∈ words, known v) (hw : w ≠ []) :
    words.countP (· <:+ w) = words.count w + words.countP (· <:+ border known w) := by
  obtain ⟨b, w', rfl⟩ := List.exists_cons_of_ne_nil hw
  rw [border, List.tail_cons, countP_longest hwords, countP_suffix_cons]

end FlyBoard.AhoCorasick

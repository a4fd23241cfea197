import Mathlib.Data.Finset.Card
import Mathlib.Data.Fintype.Card

/-!
# Majorities

A majority is a set of more than half of all members. Two majorities share a
member, so members that each stand for one value cannot give two values a
majority.
-/

namespace FlyBoard.Quorum

variable {α : Type*} [Fintype α]

def IsMajority (A : Finset α) : Prop := Fintype.card α < 2 * A.card

instance (A : Finset α) : Decidable (IsMajority A) :=
  inferInstanceAs (Decidable (_ < _))

theorem IsMajority.mono {A B : Finset α} (h : IsMajority A) (hAB : A ⊆ B) : IsMajority B := by
  have hle := Finset.card_le_card hAB
  unfold IsMajority at h ⊢
  omega

theorem IsMajority.exists_mem_both [DecidableEq α] {A B : Finset α} (hA : IsMajority A)
    (hB : IsMajority B) : ∃ a, a ∈ A ∧ a ∈ B := by
  have hlt : (Finset.univ : Finset α).card < A.card + B.card := by
    unfold IsMajority at hA hB
    rw [Finset.card_univ]
    omega
  rcases Finset.inter_nonempty_of_card_lt_card_add_card (Finset.subset_univ A)
    (Finset.subset_univ B) hlt with ⟨a, ha⟩
  exact ⟨a, Finset.mem_inter.mp ha⟩

end FlyBoard.Quorum

import Mathlib.Data.Setoid.Basic
import Mathlib.Logic.Function.Basic

/-!
# Disjoint sets kept by labels

Every element has a label, and two elements are in one set when they have the same label; the
elements with the label `unset` are alone. An element can be set alone or moved into the set of
another one. Moving into the set of an element that is alone takes a label for the two of them,
which has to be free.
-/

namespace FlyBoard.DisjointSets

variable {α β : Type*}

/-- One set for each label but `unset`. -/
def ofLabel (unset : β) (g : α → β) : Setoid α where
  r a b := a = b ∨ (g a ≠ unset ∧ g a = g b)
  iseqv := by
    refine ⟨fun _ => .inl rfl, ?_, ?_⟩
    · rintro a b (rfl | ⟨ha, hab⟩)
      · exact .inl rfl
      · exact .inr ⟨hab ▸ ha, hab.symm⟩
    · rintro a b c (rfl | ⟨ha, hab⟩) hbc
      · exact hbc
      · rcases hbc with rfl | ⟨-, hbc⟩
        · exact .inr ⟨ha, hab⟩
        · exact .inr ⟨ha, hab.trans hbc⟩

theorem ofLabel_iff {unset : β} {g : α → β} {a b : α} :
    ofLabel unset g a b ↔ a = b ∨ (g a ≠ unset ∧ g a = g b) := Iff.rfl

/-- `x` is alone. -/
def isolate (r : Setoid α) (x : α) : Setoid α where
  r a b := a = b ∨ (a ≠ x ∧ b ≠ x ∧ r a b)
  iseqv := by
    refine ⟨fun _ => .inl rfl, ?_, ?_⟩
    · rintro a b (rfl | ⟨ha, hb, hab⟩)
      · exact .inl rfl
      · exact .inr ⟨hb, ha, r.symm hab⟩
    · rintro a b c (rfl | ⟨ha, hb, hab⟩) hbc
      · exact hbc
      · rcases hbc with rfl | ⟨-, hc, hbc⟩
        · exact .inr ⟨ha, hb, hab⟩
        · exact .inr ⟨ha, hc, r.trans hab hbc⟩

variable [DecidableEq α]

/-- `x` leaves its set for the set of `y`. -/
def move (r : Setoid α) (x y : α) : Setoid α := r.comap (Function.update id x y)

theorem move_iff {r : Setoid α} {x y a b : α} : move r x y a b ↔
    r (Function.update id x y a) (Function.update id x y b) := Iff.rfl

section Labels

variable {unset : β} {g : α → β} {x y : α}

theorem ofLabel_update_unset :
    ofLabel unset (Function.update g x unset) = isolate (ofLabel unset g) x := by
  refine Setoid.ext fun a b => or_congr_right' fun hab => ?_
  by_cases ha : a = x
  · rw [ha, Function.update_self]
    exact iff_of_false (fun h => h.1 rfl) (fun h => h.1 rfl)
  · rw [Function.update_of_ne ha]
    by_cases hb : b = x
    · rw [hb, Function.update_self]
      exact iff_of_false (fun h => h.1 h.2) (fun h => h.2.1 rfl)
    · rw [Function.update_of_ne hb]
      exact ⟨fun h => ⟨ha, hb, .inr h⟩, fun h => h.2.2.resolve_left hab⟩

theorem ofLabel_update_label (hy : g y ≠ unset) :
    ofLabel unset (Function.update g x (g y)) = move (ofLabel unset g) x y := by
  have hlabel : Function.update g x (g y) = g ∘ Function.update id x y := by
    funext a
    by_cases ha : a = x
    · rw [ha, Function.update_self, Function.comp_apply, Function.update_self]
    · rw [Function.update_of_ne ha, Function.comp_apply, Function.update_of_ne ha, id]
  refine Setoid.ext fun a b => ?_
  rw [move_iff, ofLabel_iff, ofLabel_iff, hlabel, Function.comp_apply, Function.comp_apply]
  constructor
  · rintro (rfl | h)
    · exact .inl rfl
    · exact .inr h
  · rintro (h | h)
    · by_cases hab : a = b
      · exact .inl hab
      · -- `x` and `y` go to one element, and its label is not `unset`
        refine .inr ⟨?_, congrArg g h⟩
        have heq : Function.update id x y a = y := by
          by_cases ha : a = x
          · rw [ha, Function.update_self]
          · by_cases hb : b = x
            · rw [h, hb, Function.update_self]
            · rw [Function.update_of_ne ha, Function.update_of_ne hb] at h
              exact absurd h hab
        rw [heq]
        exact hy
    · exact .inr h

/-- Labelling an element that was alone with a free label leaves it alone. -/
theorem ofLabel_update_free {c : β} (hy : g y = unset) {a b : α} (ha : a ≠ y → g a ≠ c)
    (hb : b ≠ y → g b ≠ c) :
    ofLabel unset (Function.update g y c) a b ↔ ofLabel unset g a b := by
  rw [ofLabel_iff, ofLabel_iff]
  refine or_congr_right' fun hab => ?_
  by_cases hay : a = y
  · have hby : b ≠ y := fun h => hab (hay.trans h.symm)
    rw [hay, Function.update_self, Function.update_of_ne hby, hy]
    exact iff_of_false (fun h => hb hby h.2.symm) (fun h => h.1 rfl)
  · rw [Function.update_of_ne hay]
    by_cases hby : b = y
    · rw [hby, Function.update_self, hy]
      exact iff_of_false (fun h => ha hay h.2) (fun h => h.1 h.2)
    · rw [Function.update_of_ne hby]

theorem ofLabel_update_start {c : β} (hxy : x ≠ y) (hy : g y = unset) (hc : c ≠ unset) :
    ofLabel unset (Function.update (Function.update g y c) x c) = move (ofLabel unset g) x y ↔
      ∀ a, a ≠ x → a ≠ y → g a ≠ c := by
  have hself : Function.update g y c y = c := Function.update_self ..
  have hjoin : ofLabel unset (Function.update (Function.update g y c) x c) =
      move (ofLabel unset (Function.update g y c)) x y := by
    have hlabel : ofLabel unset (Function.update (Function.update g y c) x
        (Function.update g y c y)) = move (ofLabel unset (Function.update g y c)) x y :=
      ofLabel_update_label (hself.trans_ne hc)
    rwa [hself] at hlabel
  rw [hjoin]
  constructor
  · -- an element that has the label would join `y`
    intro heq a hax hay hac
    have hboth : move (ofLabel unset (Function.update g y c)) x y a y ↔
        move (ofLabel unset g) x y a y := by rw [heq]
    rw [move_iff, move_iff, Function.update_of_ne hax, Function.update_of_ne hxy.symm] at hboth
    have hin : ofLabel unset (Function.update g y c) a y := by
      refine .inr ⟨?_, ?_⟩
      · rw [Function.update_of_ne hay, hac]
        exact hc
      · rw [Function.update_of_ne hay, hac, hself]
    rcases hboth.mp hin with h | ⟨hne, h⟩
    · exact hay h
    · exact hne (h.trans hy)
  · intro hfree
    refine Setoid.ext fun a b => ?_
    have hout : ∀ a, Function.update id x y a ≠ y → g (Function.update id x y a) ≠ c := by
      intro a hne
      by_cases hax : a = x
      · rw [hax, Function.update_self] at hne
        exact absurd rfl hne
      · rw [Function.update_of_ne hax] at hne ⊢
        exact hfree a hax hne
    exact ofLabel_update_free hy (hout a) (hout b)

end Labels

end FlyBoard.DisjointSets

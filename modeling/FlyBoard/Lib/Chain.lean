import FlyBoard.Lib.Totals
import Mathlib.Data.List.Forall2

/-!
# Chains

A linked list that is walked to the first entry that meets a test; this entry is
changed or unlinked.
-/

namespace FlyBoard.Chain

open FlyBoard.Totals

variable {α γ : Type*} {q : α → Bool} {f : α → Option α} {l l' : List α} {a b : α}

/-- Changes the first entry that meets the test; `none` unlinks it. -/
def editFirst (q : α → Bool) (f : α → Option α) : List α → List α
  | [] => []
  | a :: l => if q a then (f a).toList ++ l else a :: editFirst q f l

theorem editFirst_of_none (h : l.find? q = none) : editFirst q f l = l := by
  induction l with
  | nil => rfl
  | cons a l ih =>
    rw [List.find?_cons] at h
    cases ha : q a with
    | true => simp [ha] at h
    | false =>
      rw [ha] at h
      rw [editFirst, if_neg (by simp [ha]), ih h]

theorem editFirst_of_some (h : l.find? q = some a) :
    ∃ pre post, l = pre ++ a :: post ∧ (∀ b ∈ pre, q b = false) ∧
      editFirst q f l = pre ++ ((f a).toList ++ post) := by
  induction l with
  | nil => exact nomatch h
  | cons c l ih =>
    rw [List.find?_cons] at h
    cases hc : q c with
    | true =>
      rw [hc] at h
      cases Option.some.inj h
      exact ⟨[], l, rfl, fun b hb => absurd hb List.not_mem_nil, if_pos hc⟩
    | false =>
      rw [hc] at h
      rcases ih h with ⟨pre, post, rfl, hpre, hedit⟩
      refine ⟨c :: pre, post, rfl, ?_, ?_⟩
      · rw [List.forall_mem_cons]
        exact ⟨hc, hpre⟩
      · rw [editFirst, if_neg (by simp [hc]), hedit]
        rfl

theorem total_editFirst (w : α → ℕ) (h : l.find? q = some a) :
    total w (editFirst q f l) + w a = total w l + ((f a).map w).getD 0 := by
  rcases editFirst_of_some (f := f) h with ⟨pre, post, rfl, -, hedit⟩
  rw [hedit]
  cases f a with
  | none => simp; omega
  | some b => simp; omega

/-! ## Thinned chains -/

section

variable {R : α → α → Prop} {S : α → α → Prop}

/-- The entries of the new chain come, in order, from entries of the old one. -/
def Thins (R : α → α → Prop) (l' l : List α) : Prop := List.SublistForall₂ R l' l

theorem Thins.refl (hR : ∀ a, R a a) (l : List α) : Thins R l l := by
  induction l with
  | nil => exact .nil
  | cons a l ih => exact .cons (hR a) ih

theorem Thins.trans {l'' : List α} (hR : ∀ a b c, R a b → R b c → R a c) (h : Thins R l'' l')
    (h' : Thins R l' l) : Thins R l'' l := by
  have : IsTrans α R := ⟨hR⟩
  exact List.SublistForall₂.is_trans.trans _ _ _ h h'

theorem Thins.mem (h : Thins R l' l) (hb : b ∈ l') : ∃ a ∈ l, R b a := by
  induction h with
  | nil => exact absurd hb List.not_mem_nil
  | cons hr _ ih =>
    rcases List.mem_cons.1 hb with rfl | hb
    · exact ⟨_, List.mem_cons_self, hr⟩
    · rcases ih hb with ⟨a, ha, hr⟩
      exact ⟨a, List.mem_cons_of_mem _ ha, hr⟩
  | cons_right _ ih =>
    rcases ih hb with ⟨a, ha, hr⟩
    exact ⟨a, List.mem_cons_of_mem _ ha, hr⟩

theorem Thins.pairwise (hS : ∀ a b a' b', R a' a → R b' b → S a b → S a' b') (h : Thins R l' l)
    (hl : l.Pairwise S) : l'.Pairwise S := by
  induction h with
  | nil => exact .nil
  | cons hr hrest ih =>
    rw [List.pairwise_cons] at hl ⊢
    refine ⟨?_, ih hl.2⟩
    intro b' hb'
    rcases Thins.mem hrest hb' with ⟨b, hb, hrb⟩
    exact hS _ _ _ _ hr hrb (hl.1 b hb)
  | cons_right _ ih => exact ih (List.pairwise_cons.1 hl).2

theorem Thins.sublist (hR : ∀ a, R a a) (h : l'.Sublist l) : Thins R l' l := by
  induction h with
  | slnil => exact .nil
  | cons _ _ ih => exact .cons_right ih
  | cons_cons a _ ih => exact .cons (hR a) ih

theorem thins_filterMap (hf : ∀ a, ∀ b ∈ f a, R b a) (l : List α) :
    Thins R (l.filterMap f) l := by
  induction l with
  | nil => exact .nil
  | cons a l ih =>
    cases h : f a with
    | none =>
      rw [List.filterMap_cons_none h]
      exact .cons_right ih
    | some b =>
      rw [List.filterMap_cons_some h]
      exact .cons (hf a b h) ih

theorem thins_editFirst (hR : ∀ a, R a a) (hf : ∀ a, ∀ b ∈ f a, R b a) (l : List α) :
    Thins R (editFirst q f l) l := by
  induction l with
  | nil => exact .nil
  | cons a l ih =>
    unfold editFirst
    split
    · cases h : f a with
      | none => exact .cons_right (Thins.refl hR l)
      | some b => exact .cons (hf a b h) (Thins.refl hR l)
    · exact .cons (hR a) ih

end

end FlyBoard.Chain

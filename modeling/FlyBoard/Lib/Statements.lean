import Mathlib.Data.List.Basic

/-!
# Programs of statements that can fail

A program runs its statements in order. `passOver` ignores those that fail, `allOrNone`
gives up at the first of them. Where each statement brings about a condition that none of
them undoes, and does nothing where the condition holds already (`Settles`), a program has
changed nothing exactly when none of its statements had anything to do.
-/

namespace FlyBoard.Statements

variable {σ ι : Type*}

section

variable (exec : ι → σ → σ) (fails : ι → Bool)

def passOver (is : List ι) (s : σ) : σ := is.foldl (fun s i => if fails i then s else exec i s) s

def allOrNone (is : List ι) (s : σ) : Option σ :=
  is.foldlM (fun s i => if fails i then none else some (exec i s)) s

structure Settles (settled : ι → σ → Prop) : Prop where
  brought : ∀ i s, settled i (exec i s)
  kept : ∀ i j s, settled i s → settled i (exec j s)
  idle : ∀ i s, settled i s → exec i s = s

end

variable {exec : ι → σ → σ} {fails : ι → Bool} {settled : ι → σ → Prop} {is : List ι} {s : σ}

theorem allOrNone_eq_some {s' : σ} :
    allOrNone exec fails is s = some s' ↔
      (∀ i ∈ is, fails i = false) ∧ is.foldl (fun s i => exec i s) s = s' := by
  induction is generalizing s with
  | nil => simp [allOrNone]
  | cons i is ih =>
    have hcons : allOrNone exec fails (i :: is) s =
        if fails i then none else allOrNone exec fails is (exec i s) := by
      unfold allOrNone
      rw [List.foldlM_cons]
      cases fails i <;> rfl
    rw [hcons, List.forall_mem_cons, List.foldl_cons]
    cases hi : fails i with
    | true => simp
    | false => simp [ih]

theorem allOrNone_isSome : (allOrNone exec fails is s).isSome ↔ ∀ i ∈ is, fails i = false := by
  rw [Option.isSome_iff_exists]
  constructor
  · rintro ⟨s', hs'⟩
    exact (allOrNone_eq_some.mp hs').1
  · exact fun h => ⟨_, allOrNone_eq_some.mpr ⟨h, rfl⟩⟩

namespace Settles

/-- A condition that holds stays through the whole program. -/
theorem passOver_kept (h : Settles exec settled) {i : ι} (hs : settled i s) :
    settled i (passOver exec fails is s) := by
  induction is generalizing s with
  | nil => exact hs
  | cons j is ih =>
    refine ih (s := if fails j then s else exec j s) ?_
    split
    · exact hs
    · exact h.kept i j s hs

/-- A statement that does not fail has brought about its condition in the end. -/
theorem passOver_brought (h : Settles exec settled) {i : ι} (hi : i ∈ is)
    (hok : fails i = false) : settled i (passOver exec fails is s) := by
  induction is generalizing s with
  | nil => exact nomatch hi
  | cons j is ih =>
    rcases List.mem_cons.mp hi with rfl | hi
    · have hstep : settled i (if fails i then s else exec i s) := by
        rw [hok]
        exact h.brought i s
      exact h.passOver_kept (s := if fails i then s else exec i s) hstep
    · exact ih hi

/-- The program changes nothing exactly when what its statements are for holds before. -/
theorem passOver_eq_iff (h : Settles exec settled) :
    passOver exec fails is s = s ↔ ∀ i ∈ is, fails i = false → settled i s := by
  constructor
  · intro hsame i hi hok
    have hend : settled i (passOver exec fails is s) := h.passOver_brought hi hok
    rw [hsame] at hend
    exact hend
  · intro hall
    induction is with
    | nil => rfl
    | cons i is ih =>
      have hidle : (if fails i then s else exec i s) = s := by
        split
        · rfl
        · next hok =>
          exact h.idle i s (hall i List.mem_cons_self (Bool.not_eq_true _ ▸ hok))
      show passOver exec fails is (if fails i then s else exec i s) = s
      rw [hidle]
      exact ih fun j hj => hall j (List.mem_cons_of_mem i hj)

end Settles

end FlyBoard.Statements

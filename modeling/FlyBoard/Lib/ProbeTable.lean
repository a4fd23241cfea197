import Mathlib.Data.List.Basic
import Mathlib.Logic.Function.Basic

/-!
# Probed tables

A table of slots and a path of slots for each key. A search follows the path and
ends at the first empty slot, so clearing a slot hides what lies behind it on the
paths that run over it.
-/

namespace FlyBoard.ProbeTable

variable {ι ε : Type} {t : ι → Option ε} {p : ε → Bool} {path : List ι} {i : ι} {j : ι}

/-- The first slot of the path with a wanted entry; an empty slot ends the search. -/
def find (t : ι → Option ε) (p : ε → Bool) : List ι → Option ι
  | [] => none
  | i :: path =>
    match t i with
    | none => none
    | some e => if p e then some i else find t p path

def free (t : ι → Option ε) : List ι → Option ι
  | [] => none
  | i :: path => if (t i).isNone then some i else free t path

/-- The path leads to the slot over slots with unwanted entries only. -/
def Visible (t : ι → Option ε) (p : ε → Bool) (path : List ι) (i : ι) : Prop :=
  ∃ pre post, path = pre ++ i :: post ∧ ∀ j ∈ pre, ∃ e, t j = some e ∧ p e = false

theorem visible_head : Visible t p (j :: path) j :=
  ⟨[], path, rfl, fun _ hk => absurd hk List.not_mem_nil⟩

theorem Visible.cons {e : ε} (h : Visible t p path i) (hj : t j = some e)
    (he : p e = false) : Visible t p (j :: path) i := by
  rcases h with ⟨pre, post, rfl, hpre⟩
  refine ⟨j :: pre, post, rfl, ?_⟩
  intro k hk
  rcases List.mem_cons.1 hk with rfl | hk
  · exact ⟨e, hj, he⟩
  · exact hpre k hk

/-- Behind the head of a path only what the head lets through is visible. -/
theorem visible_cons_iff :
    Visible t p (j :: path) i ↔ i = j ∨ (∃ e, t j = some e ∧ p e = false) ∧ Visible t p path i := by
  constructor
  · rintro ⟨pre, post, heq, hpre⟩
    cases pre with
    | nil => exact .inl (List.cons.inj heq).1.symm
    | cons k pre =>
      rcases List.cons.inj heq with ⟨rfl, rfl⟩
      exact .inr ⟨hpre _ List.mem_cons_self,
        ⟨pre, post, rfl, fun l hl => hpre l (List.mem_cons_of_mem _ hl)⟩⟩
  · rintro (rfl | ⟨⟨e, hj, he⟩, h⟩)
    · exact visible_head
    · exact h.cons hj he

theorem find_eq_some_iff :
    find t p path = some i ↔ Visible t p path i ∧ ∃ e, t i = some e ∧ p e = true := by
  induction path with
  | nil => simp [find, Visible]
  | cons j path ih =>
    rw [visible_cons_iff]
    cases hj : t j with
    | none =>
      simp only [find, hj]
      constructor
      · exact fun h => nomatch h
      · rintro ⟨rfl | ⟨⟨e, he, -⟩, -⟩, e', he', -⟩
        · rw [hj] at he'
          cases he'
        · cases he
    | some e =>
      cases hp : p e with
      | true =>
        simp only [find, hj, hp, if_true, Option.some.injEq, exists_eq_left', Bool.true_eq_false,
          false_and, or_false]
        constructor
        · rintro rfl
          exact ⟨rfl, e, hj, hp⟩
        · rintro ⟨rfl, -⟩
          rfl
      | false =>
        simp only [find, hj, hp, Bool.false_eq_true, if_false, ih, Option.some.injEq,
          exists_eq_left', true_and]
        constructor
        · rintro ⟨hv, hi⟩
          exact ⟨.inr hv, hi⟩
        · rintro ⟨rfl | hv, e', he', hp'⟩
          · rw [hj, Option.some.injEq] at he'
            rw [he', hp'] at hp
            exact Bool.noConfusion hp
          · exact ⟨hv, e', he', hp'⟩

theorem find_spec (h : find t p path = some i) : ∃ e, t i = some e ∧ p e = true :=
  (find_eq_some_iff.1 h).2

theorem free_spec (h : free t path = some i) : t i = none := by
  induction path with
  | nil => cases h
  | cons j path ih =>
    unfold free at h
    split at h
    · next hj =>
      rw [← Option.some.inj h]
      exact Option.isNone_iff_eq_none.1 hj
    · exact ih h

theorem free_eq_none_iff : free t path = none ↔ ∀ i ∈ path, t i ≠ none := by
  induction path with
  | nil => simp [free]
  | cons j path ih =>
    rw [List.forall_mem_cons, ← ih]
    cases hj : t j <;> simp [free, hj]

theorem visible_of_free (hfind : find t p path = none) (hfree : free t path = some i) :
    Visible t p path i := by
  induction path with
  | nil => cases hfree
  | cons j path ih =>
    cases hj : t j with
    | none =>
      have hij : i = j := by simpa [free, hj] using hfree.symm
      rw [hij]
      exact visible_head
    | some e =>
      cases hp : p e with
      | true => simp [find, hj, hp] at hfind
      | false =>
        rw [find, hj] at hfind
        rw [free, hj] at hfree
        exact (ih (by simpa [hp] using hfind) (by simpa using hfree)).cons hj hp

/-! ## Clearing and refilling -/

section

variable [DecidableEq ι] {e e' : ε}

theorem find_clear (h : find t p path = some i) :
    find (Function.update t i none) p path = none := by
  induction path with
  | nil => rfl
  | cons j path ih =>
    by_cases hij : j = i
    · rw [find, hij, Function.update_self]
    · rw [find, Function.update_of_ne hij]
      rw [find] at h
      cases hj : t j with
      | none => rfl
      | some e =>
        rw [hj] at h
        cases hp : p e with
        | true => exact absurd (Option.some.inj (by simpa [hp] using h)) hij
        | false => simpa [hp] using ih (by simpa [hp] using h)

theorem free_clear (h : find t p path = some i) :
    free (Function.update t i none) path = some i := by
  induction path with
  | nil => cases h
  | cons j path ih =>
    by_cases hij : j = i
    · rw [free, hij, Function.update_self]
      rfl
    · rw [free, Function.update_of_ne hij]
      rw [find] at h
      cases hj : t j with
      | none => rw [hj] at h; exact nomatch h
      | some e =>
        rw [hj] at h
        cases hp : p e with
        | true => exact absurd (Option.some.inj (by simpa [hp] using h)) hij
        | false => simpa using ih (by simpa [hp] using h)

/-- Clearing another slot hides the one that was found exactly if it lies before it. -/
theorem find_clear_of_ne (h : find t p path = some j) (hij : i ≠ j) :
    find (Function.update t i none) p path =
      if i ∈ path.takeWhile (fun k => decide (k ≠ j)) then none else some j := by
  induction path with
  | nil => cases h
  | cons k path ih =>
    by_cases hkj : k = j
    · subst hkj
      rcases find_spec h with ⟨e, he, hp⟩
      have hupd : Function.update t i none k = some e := by
        rw [Function.update_of_ne (Ne.symm hij), he]
      simp [find, hupd, hp]
    · have hkeep : (k :: path).takeWhile (fun k => decide (k ≠ j)) =
          k :: path.takeWhile (fun k => decide (k ≠ j)) := by
        simp [hkj]
      rw [hkeep]
      by_cases hki : k = i
      · simp [find, hki]
      · rw [find] at h
        rw [find, Function.update_of_ne hki]
        cases hk : t k with
        | none => rw [hk] at h; exact nomatch h
        | some e =>
          rw [hk] at h
          cases hp : p e with
          | true => exact absurd (Option.some.inj (by simpa [hp] using h)) hkj
          | false => simpa [hp, Ne.symm hki] using ih (by simpa [hp] using h)

theorem find_replace (h : t i = some e) (hp : p e' = p e) :
    find (Function.update t i (some e')) p path = find t p path := by
  induction path with
  | nil => rfl
  | cons k path ih =>
    by_cases hki : k = i
    · subst hki
      simp [find, h, hp, ih]
    · rw [find, find, Function.update_of_ne hki, ih]

/-- What was found is found again after an empty slot was filled. -/
theorem find_fill (h : find t p path = some j) (hi : t i = none) (e : ε) :
    find (Function.update t i (some e)) p path = some j := by
  rcases find_eq_some_iff.1 h with ⟨⟨pre, post, heq, hpre⟩, e', he', hp⟩
  refine find_eq_some_iff.2 ⟨⟨pre, post, heq, ?_⟩, e', ?_, hp⟩
  · intro k hk
    rcases hpre k hk with ⟨f, hf, hpf⟩
    have hki : k ≠ i := by
      rintro rfl
      rw [hi] at hf
      cases hf
    exact ⟨f, (Function.update_of_ne hki _ _).trans hf, hpf⟩
  · have hji : j ≠ i := by
      rintro rfl
      rw [hi] at he'
      cases he'
    exact (Function.update_of_ne hji _ _).trans he'

/-- A slot that no search passes stays visible, whatever is put into it. -/
theorem Visible.update (h : Visible t p path i) (hi : ∀ e, t i = some e → p e = true)
    (x : Option ε) : Visible (Function.update t i x) p path i := by
  rcases h with ⟨pre, post, heq, hpre⟩
  refine ⟨pre, post, heq, ?_⟩
  intro j hj
  rcases hpre j hj with ⟨e, he, hp⟩
  have hij : j ≠ i := by
    rintro rfl
    rw [hi e he] at hp
    cases hp
  exact ⟨e, (Function.update_of_ne hij _ _).trans he, hp⟩

theorem of_clear {e : ε} (h : Function.update t i none j = some e) :
    j ≠ i ∧ t j = some e := by
  by_cases hij : j = i
  · rw [hij, Function.update_self] at h
    cases h
  · rw [Function.update_of_ne hij] at h
    exact ⟨hij, h⟩

theorem of_set (h : Function.update t i (some e') j = some e) :
    j = i ∧ e = e' ∨ j ≠ i ∧ t j = some e := by
  by_cases hij : j = i
  · rw [hij, Function.update_self] at h
    exact .inl ⟨hij, (Option.some.inj h).symm⟩
  · rw [Function.update_of_ne hij] at h
    exact .inr ⟨hij, h⟩

end

end FlyBoard.ProbeTable

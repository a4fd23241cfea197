import Mathlib.Data.List.FinRange
import Mathlib.Data.Set.Card

/-!
# Tables searched from end to end

A table of slots where an entry may stand anywhere on the path of its key. A lookup runs
over the whole path: the wanted entry ends it wherever it stands, and only if there is none
the first free slot is given out. So emptying a slot hides nothing, unlike in the tables of
`ProbeTable`. The last section counts the entries of such a table by their keys.
-/

namespace FlyBoard.SlotTable

variable {ι ε κ : Type*} {t : ι → ε} {own free : ε → Bool} {path : List ι} {i : ι}

/-- The wanted slot; or else the first free one, if a new entry is to be made.
`firstFree` is the free slot that the loop has passed. -/
def lookup (t : ι → ε) (own free : ε → Bool) (create : Bool) : List ι → Option ι → Option ι
  | [], firstFree => if create then firstFree else none
  | i :: path, firstFree =>
    if own (t i) then some i
    else lookup t own free create path
      (if firstFree.isNone && free (t i) then some i else firstFree)

theorem lookup_eq (create : Bool) (firstFree : Option ι) :
    lookup t own free create path firstFree =
      (path.find? fun i => own (t i)).or
        (if create then firstFree.or (path.find? fun i => free (t i)) else none) := by
  induction path generalizing firstFree with
  | nil => simp [lookup]
  | cons i path ih =>
    cases hown : own (t i) with
    | true => simp [lookup, hown]
    | false =>
      rw [lookup, hown, if_neg Bool.false_ne_true, ih, List.find?_cons_of_neg (by simp [hown])]
      cases firstFree with
      | some j => simp
      | none =>
        cases hfree : free (t i) with
        | true => simp [hfree]
        | false => simp [hfree]

theorem lookup_of_own {create : Bool} (hi : i ∈ path) (hown : own (t i) = true)
    (honly : ∀ j ∈ path, own (t j) = true → j = i) :
    lookup t own free create path none = some i := by
  rw [lookup_eq]
  have hsome : (path.find? fun j => own (t j)).isSome := by
    rw [List.find?_isSome]
    exact ⟨i, hi, hown⟩
  rcases Option.isSome_iff_exists.mp hsome with ⟨j, hj⟩
  have hj' := List.find?_some hj
  rw [hj, honly j (List.mem_of_find?_eq_some hj) hj']
  rfl

theorem lookup_of_not_own {create : Bool} (hown : ∀ j ∈ path, own (t j) = false) :
    lookup t own free create path none =
      if create then path.find? fun i => free (t i) else none := by
  have hnone : (path.find? fun j => own (t j)) = none := by
    rw [List.find?_eq_none]
    intro j hj
    rw [hown j hj]
    exact Bool.false_ne_true
  rw [lookup_eq, hnone]
  rfl

theorem own_or_free_of_lookup {create : Bool} (h : lookup t own free create path none = some i) :
    own (t i) = true ∨ free (t i) = true := by
  rw [lookup_eq, Option.or_eq_some_iff] at h
  rcases h with hown | ⟨-, hfree⟩
  · have hfound := List.find?_some hown
    exact .inl hfound
  · split at hfree
    · rw [Option.none_or] at hfree
      have hfound := List.find?_some hfree
      exact .inr hfound
    · exact nomatch hfree

/-! ## Counting entries -/

/-- As many slots are counted as there are keys in them, when no two have the same key. -/
theorem countP_eq_ncard {n : ℕ} {p : Fin n → Bool} {s : Set κ} (key : Fin n → κ)
    (hinj : ∀ i j, p i = true → p j = true → key i = key j → i = j)
    (hs : ∀ k, k ∈ s ↔ ∃ i, p i = true ∧ key i = k) :
    (List.finRange n).countP p = s.ncard := by
  have himage : s = key '' {i | p i = true} := by
    ext k
    exact hs k
  have hcard : (List.finRange n).countP p = {i | p i = true}.ncard := by
    rw [Set.ncard_eq_toFinset_card', Set.toFinset_ofPred, List.countP_eq_length_filter,
      ← List.toFinset_card_of_nodup ((List.nodup_finRange n).filter _)]
    congr 1
    ext i
    simp
  have hinjOn : Set.InjOn key {i | p i = true} := fun i hi j hj => hinj i j hi hj
  rw [hcard, himage, hinjOn.ncard_image]

end FlyBoard.SlotTable

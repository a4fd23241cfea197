import Mathlib.Data.List.Basic
import Mathlib.Data.List.Infix

/-!
# The LIKE operator

In a pattern `many` stands for any text, `one` for any character and every other character
for itself, up to `fold`; an escape character takes the meaning from the next one. A text
that is escaped and put between two `many` is a search for that text.
-/

namespace FlyBoard.Like

variable {α : Type*}

inductive Item (α : Type*)
  | many
  | one
  | lit (c : α)

/-- The special characters of a pattern. -/
structure Syntax (α : Type*) where
  many : α
  one : α
  escape : α
  many_ne_escape : many ≠ escape
  one_ne_escape : one ≠ escape

section Read

variable [DecidableEq α] (σ : Syntax α)

/-- The elements of a pattern; none when it ends with the escape character. -/
def read : List α → Option (List (Item α))
  | [] => some []
  | c :: p =>
    if c = σ.escape then
      match p with
      | [] => none
      | d :: p => (read p).map (.lit d :: ·)
    else if c = σ.many then (read p).map (.many :: ·)
    else if c = σ.one then (read p).map (.one :: ·)
    else (read p).map (.lit c :: ·)

def escape (t : List α) : List α :=
  t.flatMap fun c => if c = σ.many ∨ c = σ.one ∨ c = σ.escape then [σ.escape, c] else [c]

/-- The pattern of all texts that have `t` in them. -/
def containing (t : List α) : List α := σ.many :: (escape σ t ++ [σ.many])

theorem read_many (p : List α) : read σ (σ.many :: p) = (read σ p).map (.many :: ·) := by
  cases p with
  | nil =>
    simp only [read]
    rw [if_neg σ.many_ne_escape, if_pos trivial]
  | cons d p => rw [read, if_neg σ.many_ne_escape, if_pos rfl]

theorem read_plain {c : α} (h : ¬(c = σ.many ∨ c = σ.one ∨ c = σ.escape)) (p : List α) :
    read σ (c :: p) = (read σ p).map (.lit c :: ·) := by
  rw [not_or, not_or] at h
  cases p with
  | nil =>
    simp only [read]
    rw [if_neg h.2.2, if_neg h.1, if_neg h.2.1]
  | cons d p => rw [read, if_neg h.2.2, if_neg h.1, if_neg h.2.1]

theorem read_escape (t p : List α) :
    read σ (escape σ t ++ p) = (read σ p).map (t.map .lit ++ ·) := by
  induction t with
  | nil =>
    rw [escape, List.flatMap_nil, List.nil_append]
    cases read σ p with
    | none => rfl
    | some l => rfl
  | cons c t ih =>
    unfold escape at ih ⊢
    rw [List.flatMap_cons, List.append_assoc]
    have hrest : ∀ o : Option (List (Item α)),
        (o.map (t.map .lit ++ ·)).map (.lit c :: ·) = o.map ((c :: t).map .lit ++ ·) := by
      intro o
      cases o with
      | none => rfl
      | some l => rfl
    by_cases hspecial : c = σ.many ∨ c = σ.one ∨ c = σ.escape
    · rw [if_pos hspecial, List.cons_append, List.singleton_append, read, if_pos rfl]
      rw [ih, hrest]
    · rw [if_neg hspecial, List.singleton_append, read_plain σ hspecial, ih, hrest]

end Read

section Matches

variable [DecidableEq α] (fold : α → α)

def fits : List (Item α) → List α → Bool
  | [], s => s.isEmpty
  | .many :: p, s => s.tails.any (fits p)
  | .one :: p, s =>
    match s with
    | [] => false
    | _ :: s => fits p s
  | .lit c :: p, s =>
    match s with
    | [] => false
    | d :: s => fold c == fold d && fits p s

/-- `text LIKE pattern ESCAPE …` -/
def like (σ : Syntax α) (pattern text : List α) : Bool :=
  ((read σ pattern).map fun p => fits fold p text).getD false

variable {fold}

theorem fits_many {p : List (Item α)} {s : List α} :
    fits fold (.many :: p) s = true ↔ ∃ s', s' <:+ s ∧ fits fold p s' = true := by
  rw [fits, List.any_eq_true]
  constructor
  · rintro ⟨s', hs', h⟩
    exact ⟨s', (List.mem_tails _ _).mp hs', h⟩
  · rintro ⟨s', hs', h⟩
    exact ⟨s', (List.mem_tails _ _).mpr hs', h⟩

theorem fits_lits {t : List α} {p : List (Item α)} {s : List α} :
    fits fold (t.map .lit ++ p) s = true ↔
      ∃ s₁ s₂, s = s₁ ++ s₂ ∧ s₁.map fold = t.map fold ∧ fits fold p s₂ = true := by
  induction t generalizing s with
  | nil =>
    constructor
    · intro h
      exact ⟨[], s, rfl, rfl, h⟩
    · rintro ⟨s₁, s₂, rfl, hnil, h⟩
      rw [List.map_nil, List.map_eq_nil_iff] at hnil
      rwa [hnil]
  | cons c t ih =>
    cases s with
    | nil =>
      constructor
      · intro h
        exact nomatch h
      · rintro ⟨s₁, s₂, hs, hmap, -⟩
        rw [(List.append_eq_nil_iff.mp hs.symm).1] at hmap
        exact nomatch hmap
    | cons d s =>
      rw [List.map_cons, List.cons_append, fits, Bool.and_eq_true, beq_iff_eq, ih]
      constructor
      · rintro ⟨hcd, s₁, s₂, rfl, hmap, h⟩
        refine ⟨d :: s₁, s₂, rfl, ?_, h⟩
        rw [List.map_cons, List.map_cons, hcd, hmap]
      · rintro ⟨s₁, s₂, hs, hmap, h⟩
        cases s₁ with
        | nil => exact nomatch hmap
        | cons e s₁ =>
          rw [List.cons_append, List.cons.injEq] at hs
          rw [List.map_cons, List.map_cons, List.cons.injEq] at hmap
          rcases hs with ⟨rfl, rfl⟩
          exact ⟨hmap.1.symm, s₁, s₂, rfl, hmap.2, h⟩

/-- Such a pattern finds the texts that have `t` in them, up to `fold`. -/
theorem like_containing (σ : Syntax α) (t s : List α) :
    like fold σ (containing σ t) s = true ↔ t.map fold <:+: s.map fold := by
  have hread : read σ (containing σ t) = some (.many :: (t.map .lit ++ [.many])) := by
    rw [containing, read_many, read_escape, read_many]
    rfl
  rw [like, hread, Option.map_some, Option.getD_some, fits_many]
  constructor
  · rintro ⟨s', ⟨pre, rfl⟩, h⟩
    obtain ⟨s₁, s₂, rfl, hmap, -⟩ := fits_lits.mp h
    rw [List.map_append, List.map_append, hmap, ← List.append_assoc]
    exact List.infix_append _ _ _
  · rintro ⟨pre, post, h⟩
    rw [List.append_assoc] at h
    obtain ⟨s₀, s', rfl, -, h'⟩ := List.map_eq_append_iff.mp h.symm
    obtain ⟨s₁, s₂, rfl, hmap, -⟩ := List.map_eq_append_iff.mp h'
    refine ⟨s₁ ++ s₂, List.suffix_append _ _, fits_lits.mpr ⟨s₁, s₂, rfl, hmap, ?_⟩⟩
    exact fits_many.mpr ⟨[], List.nil_suffix, rfl⟩

end Matches

end FlyBoard.Like

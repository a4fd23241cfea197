import Mathlib.Data.List.Basic
import Mathlib.Data.List.TakeWhile

/-!
# Scanners

A scanner calls `next` on what is left of its input until `next` has nothing more
to give: the loop of a hand-written parser that walks a cursor over a buffer. Each
call has to move the cursor forward (`Advances`); the length of the input then
bounds the number of calls, and `scan` is the loop itself (`scan_some`,
`scan_none`).
-/

namespace FlyBoard.Scan

variable {α : Type*} {β : Type*} (next : List β → Option (α × List β))

/-- At most `n` calls of `next`: the items they gave, and what is left. -/
def collect : Nat → List β → List α × List β
  | 0, s => ([], s)
  | n + 1, s =>
    match next s with
    | none => ([], s)
    | some (a, rest) => (a :: (collect n rest).1, (collect n rest).2)

/-- All the items of `s`, and what is left after the last one. -/
def scan (s : List β) : List α × List β := collect next (s.length + 1) s

/-- Every call that gives an item moves the cursor forward. -/
def Advances : Prop := ∀ s a rest, next s = some (a, rest) → rest.length < s.length

variable {next} {s : List β} {a : α} {rest : List β}

theorem collect_of_lt (hadv : Advances next) {n m : Nat} (hn : s.length < n)
    (hm : s.length < m) : collect next n s = collect next m s := by
  induction n generalizing m s with
  | zero => omega
  | succ n ih =>
    cases m with
    | zero => omega
    | succ m =>
      simp only [collect]
      cases hs : next s with
      | none => rfl
      | some ar =>
        have hlt := hadv s ar.1 ar.2 hs
        simp only
        rw [ih (m := m) (by omega) (by omega)]

theorem scan_none (h : next s = none) : scan next s = ([], s) := by
  simp [scan, collect, h]

theorem scan_some (hadv : Advances next) (h : next s = some (a, rest)) :
    scan next s = (a :: (scan next rest).1, (scan next rest).2) := by
  have hlt := hadv s a rest h
  have hfuel : collect next s.length rest = scan next rest :=
    collect_of_lt hadv hlt (Nat.lt_succ_self _)
  rw [scan, collect, h]
  simp only [hfuel]

theorem scan_induction (hadv : Advances next) {motive : List β → Prop}
    (done : ∀ s, next s = none → motive s)
    (item : ∀ s a rest, next s = some (a, rest) → motive rest → motive s)
    (s : List β) : motive s := by
  induction hn : s.length using Nat.strong_induction_on generalizing s with
  | _ n ih =>
    cases hs : next s with
    | none => exact done s hs
    | some ar =>
      have hlt := hadv s ar.1 ar.2 hs
      exact item s ar.1 ar.2 hs (ih _ (hn ▸ hlt) _ rfl)

/-- What every call of `next` guarantees holds of every item of the scan. -/
theorem scan_forall (hadv : Advances next) {p : α → Prop}
    (h : ∀ s a rest, next s = some (a, rest) → p a) (s : List β) :
    ∀ a ∈ (scan next s).1, p a := by
  induction s using scan_induction hadv with
  | done s hs => simp [scan_none hs]
  | item s b rest hs ih =>
    rw [scan_some hadv hs]
    intro a ha
    rcases List.mem_cons.mp ha with rfl | ha
    · exact h s a rest hs
    · exact ih a ha

/-! ## Runs of bytes at the front of a list -/

section TakeWhile

variable {p : β → Bool} {w : List β}

/-- `rest` does not go on with a byte that satisfies `p`. -/
def Stops (p : β → Bool) (rest : List β) : Prop := ∀ b ∈ rest.head?, p b = false

theorem takeWhile_append_stop (hw : ∀ b ∈ w, p b = true) (hr : Stops p rest) :
    (w ++ rest).takeWhile p = w := by
  rw [List.takeWhile_append_of_pos hw]
  cases rest with
  | nil => simp
  | cons b rest =>
    have hb : p b = false := hr b rfl
    simp [hb]

theorem dropWhile_append_stop (hw : ∀ b ∈ w, p b = true) (hr : Stops p rest) :
    (w ++ rest).dropWhile p = rest := by
  rw [List.dropWhile_append_of_pos hw]
  cases rest with
  | nil => rfl
  | cons b rest =>
    have hb : p b = false := hr b rfl
    simp [hb]

theorem stops_dropWhile (p : β → Bool) (s : List β) : Stops p (s.dropWhile p) := by
  induction s with
  | nil => simp [Stops]
  | cons b s ih =>
    by_cases hb : p b = true
    · rw [List.dropWhile_cons_of_pos hb]
      exact ih
    · rw [List.dropWhile_cons_of_neg hb]
      simpa [Stops] using hb

end TakeWhile

end FlyBoard.Scan

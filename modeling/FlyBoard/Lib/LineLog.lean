import Mathlib.Data.List.Basic

/-!
# Logs of terminated lines

A log is a text that is read line by line, each up to and with its terminator; what is left
at the end of the text is a line, too, without one. `read` folds the lines into a state and
stops at the first that is refused. A log that is `Closed` ends with a terminator, so that
what is appended to it begins a line of its own.
-/

namespace FlyBoard.LineLog

variable {α σ : Type*} {stop : α} {step : σ → List α → Option σ} {st st' : σ} {s t l : List α}

/-- The text is empty or ends with a terminator. -/
def Closed (stop : α) (s : List α) : Prop := s = [] ∨ s.getLast? = some stop

theorem Closed.tail {c : α} (h : Closed stop (c :: s)) : Closed stop s := by
  rcases h with h | h
  · exact nomatch h
  · cases s with
    | nil => exact .inl rfl
    | cons d s => exact .inr (List.getLast?_cons_cons ▸ h)

theorem forall_of_foldlM {p : List α → Prop} (hstep : ∀ st l st', step st l = some st' → p l)
    {ls : List (List α)} (h : ls.foldlM step st = some st') : ∀ l ∈ ls, p l := by
  induction ls generalizing st with
  | nil => exact List.forall_mem_nil p
  | cons l ls ih =>
    rw [List.foldlM_cons] at h
    rcases Option.bind_eq_some_iff.mp h with ⟨mid, hmid, hrest⟩
    rw [List.forall_mem_cons]
    exact ⟨hstep st l mid hmid, ih hrest⟩

variable [DecidableEq α]

def lines (stop : α) : List α → List (List α)
  | [] => []
  | c :: s =>
    if c = stop then [c] :: lines stop s
    else
      match lines stop s with
      | [] => [[c]]
      | l :: ls => (c :: l) :: ls

/-- The state after the lines of a text; `none` where one is refused. -/
def read (stop : α) (step : σ → List α → Option σ) (st : σ) (s : List α) : Option σ :=
  (lines stop s).foldlM step st

theorem lines_eq_nil (h : lines stop s = []) : s = [] := by
  cases s with
  | nil => rfl
  | cons c s =>
    rw [lines] at h
    split at h
    · exact nomatch h
    · split at h
      · exact nomatch h
      · exact nomatch h

theorem lines_line (h : stop ∉ l) : lines stop (l ++ [stop]) = [l ++ [stop]] := by
  induction l with
  | nil => exact if_pos rfl
  | cons c l ih =>
    rw [List.mem_cons, not_or] at h
    rw [List.cons_append, lines, if_neg (Ne.symm h.1), ih h.2]

theorem lines_append (h : Closed stop s) (t : List α) :
    lines stop (s ++ t) = lines stop s ++ lines stop t := by
  induction s with
  | nil => rfl
  | cons c s ih =>
    rw [List.cons_append, lines, lines, ih h.tail]
    split
    · rfl
    · rename_i hc
      cases hs : lines stop s with
      | nil =>
        -- the byte would be the last one, without being a terminator
        rcases h with h | h
        · exact nomatch h
        · rw [lines_eq_nil hs, List.getLast?_singleton] at h
          exact absurd (Option.some.inj h) hc
      | cons l ls => rfl

theorem closed_of_lines (h : ∀ l ∈ lines stop s, l.getLast? = some stop) : Closed stop s := by
  induction s with
  | nil => exact .inl rfl
  | cons c s ih =>
    have hcons : ∀ d r, s = d :: r → Closed stop s → Closed stop (c :: s) := by
      rintro d r rfl hs
      rcases hs with hs | hs
      · exact nomatch hs
      · exact .inr (by rw [List.getLast?_cons_cons, hs])
    rw [lines] at h
    split at h
    · rename_i hc
      have hs : Closed stop s := ih fun l hl => h l (List.mem_cons_of_mem _ hl)
      cases s with
      | nil => exact .inr (congrArg some hc)
      | cons d r => exact hcons d r rfl hs
    · rename_i hc
      split at h
      · have hlast := h [c] List.mem_cons_self
        exact absurd (Option.some.inj hlast) hc
      · rename_i l ls hlines
        have hlast := h (c :: l) List.mem_cons_self
        cases l with
        | nil => exact absurd (Option.some.inj hlast) hc
        | cons d r =>
          rw [List.getLast?_cons_cons] at hlast
          have hs : Closed stop s := by
            refine ih ?_
            rw [hlines, List.forall_mem_cons]
            exact ⟨hlast, fun m hm => h m (List.mem_cons_of_mem _ hm)⟩
          cases s with
          | nil => exact nomatch hlines
          | cons d' r' => exact hcons d' r' rfl hs

/-- A log is closed that was read to its end by a step that refuses unterminated lines. -/
theorem closed_of_read
    (hstep : ∀ st l st', step st l = some st' → l.getLast? = some stop)
    (h : read stop step st s = some st') : Closed stop s :=
  closed_of_lines (forall_of_foldlM hstep h)

theorem read_append (h : Closed stop s) :
    read stop step st (s ++ t) = (read stop step st s).bind fun st => read stop step st t := by
  rw [read, lines_append h, List.foldlM_append]
  rfl

theorem read_line (h : stop ∉ l) : read stop step st (l ++ [stop]) = step st (l ++ [stop]) := by
  rw [read, lines_line h, List.foldlM_cons]
  cases step st (l ++ [stop]) <;> rfl

end FlyBoard.LineLog

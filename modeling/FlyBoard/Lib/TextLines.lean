import FlyBoard.Lib.Bytes
import Mathlib.Data.List.Induction

/-!
# Text files read line by line into a buffer

`fgets` reads up to and with the next newline, but no more than its buffer holds; a line that
is longer goes on with the next read. A reader then takes the line ends off. What was written
as a line comes back as it was when it fits, has no newline of its own and does not end with
a carriage return.
-/

namespace FlyBoard.TextLines

open Bytes

def lineOf : Bytes → Bytes
  | [] => []
  | c :: s => if c = 10 then [10] else c :: lineOf s

/-- `fgets(buf, n, f)`: what it reads and what is left of the file, unless that is at its end. -/
def fgets (n : ℕ) (f : Bytes) : Option (Bytes × Bytes) :=
  let line := (lineOf f).take (n - 1)
  if f.isEmpty then none else some (line, f.drop line.length)

def isLineEnd (c : UInt8) : Bool := c == 13 || c == 10

def chomp (s : Bytes) : Bytes := trimRight isLineEnd s

/-- A text that comes back from a line: without a newline, not ending with a return. -/
structure OneLine (s : Bytes) : Prop where
  noBreak : (10 : UInt8) ∉ s
  noReturn : s.getLast? ≠ some 13

variable {s t f : Bytes}

theorem lineOf_cut (h : (10 : UInt8) ∉ s) (t : Bytes) : lineOf (s ++ 10 :: t) = s ++ [10] := by
  induction s with
  | nil => exact if_pos rfl
  | cons c s ih =>
    rw [List.mem_cons, not_or] at h
    rw [List.cons_append, lineOf, if_neg (Ne.symm h.1), ih h.2, List.cons_append]

theorem lineOf_cases (f : Bytes) :
    ∃ s, (10 : UInt8) ∉ s ∧ (lineOf f = s ∨ lineOf f = s ++ [10]) := by
  induction f with
  | nil => exact ⟨[], List.not_mem_nil, .inl rfl⟩
  | cons c f ih =>
    rw [lineOf]
    split
    · exact ⟨[], List.not_mem_nil, .inr rfl⟩
    · rename_i hc
      rcases ih with ⟨s, hs, hline⟩
      refine ⟨c :: s, ?_, ?_⟩
      · rw [List.mem_cons, not_or]
        exact ⟨Ne.symm hc, hs⟩
      · rcases hline with hline | hline
        · exact .inl (by rw [hline])
        · exact .inr (by rw [hline, List.cons_append])

theorem lineOf_isPrefix (f : Bytes) : lineOf f <+: f := by
  induction f with
  | nil => exact List.prefix_rfl
  | cons c f ih =>
    rw [lineOf]
    split
    · rename_i hc
      exact ⟨f, by rw [hc, List.singleton_append]⟩
    · exact (List.prefix_cons_inj c).mpr ih

/-! ## Line ends -/

theorem chomp_concat_of {c : UInt8} (h : isLineEnd c = true) (s : Bytes) :
    chomp (s ++ [c]) = chomp s := by
  rw [chomp, trimRight, List.reverse_append, List.reverse_singleton, List.singleton_append,
    List.dropWhile_cons_of_pos h]
  rfl

theorem chomp_concat_of_not {c : UInt8} (h : isLineEnd c = false) (s : Bytes) :
    chomp (s ++ [c]) = s ++ [c] := by
  rw [chomp, trimRight, List.reverse_append, List.reverse_singleton, List.singleton_append,
    List.dropWhile_cons_of_neg (by rw [h]; exact Bool.false_ne_true), ← List.singleton_append,
    List.reverse_append, List.reverse_reverse, List.reverse_singleton]

theorem chomp_isPrefix (s : Bytes) : chomp s <+: s := by
  induction s using List.reverseRecOn with
  | nil => exact List.prefix_rfl
  | append_singleton s c ih =>
    cases hc : isLineEnd c with
    | true =>
      rw [chomp_concat_of hc]
      exact ih.trans (List.prefix_append s [c])
    | false =>
      exact ⟨[], (List.append_nil _).trans (chomp_concat_of_not hc s)⟩

theorem getLast?_chomp (s : Bytes) : ∀ c ∈ (chomp s).getLast?, isLineEnd c = false := by
  induction s using List.reverseRecOn with
  | nil => exact fun c hc => nomatch hc
  | append_singleton s c ih =>
    cases hc : isLineEnd c with
    | true =>
      rw [chomp_concat_of hc]
      exact ih
    | false =>
      intro d hd
      rw [chomp_concat_of_not hc, List.getLast?_concat, Option.mem_some_iff] at hd
      rw [← hd, hc]

theorem oneLine_chomp (h : s <+: lineOf f) : OneLine (chomp s) where
  noBreak := by
    rcases lineOf_cases f with ⟨t, ht, hline | hline⟩
    · exact fun hmem => ht (hline ▸ h.subset ((chomp_isPrefix s).subset hmem))
    · rw [hline, List.prefix_concat_iff] at h
      rcases h with rfl | h
      · rw [chomp_concat_of rfl]
        exact fun hmem => ht ((chomp_isPrefix t).subset hmem)
      · exact fun hmem => ht (h.subset ((chomp_isPrefix s).subset hmem))
  noReturn := fun hlast => absurd (getLast?_chomp s 13 hlast) (by decide)

theorem OneLine.chomp (h : OneLine s) : chomp s = s := by
  induction s using List.reverseRecOn with
  | nil => rfl
  | append_singleton s c ih =>
    apply chomp_concat_of_not
    have hreturn := h.noReturn
    rw [List.getLast?_concat, ne_eq, Option.some_inj] at hreturn
    have hbreak : c ≠ 10 := by
      rintro rfl
      exact h.noBreak (List.mem_append_right s List.mem_cons_self)
    rw [isLineEnd, Bool.or_eq_false_iff, beq_eq_false_iff_ne, beq_eq_false_iff_ne]
    exact ⟨hreturn, hbreak⟩

theorem OneLine.chomp_line (h : OneLine s) : TextLines.chomp (s ++ [10]) = s := by
  rw [chomp_concat_of rfl, h.chomp]

theorem OneLine.drop (h : OneLine s) (n : ℕ) : OneLine (s.drop n) where
  noBreak := fun hmem => h.noBreak (List.mem_of_mem_drop hmem)
  noReturn := by
    intro hlast
    rw [List.getLast?_drop] at hlast
    split at hlast
    · exact nomatch hlast
    · exact h.noReturn hlast

end FlyBoard.TextLines

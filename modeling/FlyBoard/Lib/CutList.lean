import FlyBoard.Lib.Bytes
import Mathlib.Data.List.Induction
import Mathlib.Data.List.Nodup
import Mathlib.Data.List.Perm.Subperm

/-!
# A list of numbers as text in a fixed buffer

Numbers printed with commas between them by one `snprintf` each, into what is left of a
buffer, and read back with `strtok_r` and `atoi`. What fits is read as it was written
(`read_joined`); of a text that does not fit, some number is not read at all, whatever
the cut makes of the last one (`exists_not_mem_read_take`). So no number is lost exactly
when there was room for all of them (`forall_mem_read_written_iff`).
-/

namespace FlyBoard.CutList

open Bytes

/-! ## Writing and reading -/

def joined (ns : List ℤ) : Bytes := [44].intercalate (ns.map decimalInt)

/-- `snprintf(buf + off, cap - off, "%s%d", n ? "," : "", x)` with `off = strlen(buf)`, and
the count `n` of the numbers so far. -/
def append (cap : ℕ) (b : Bytes × ℕ) (x : ℤ) : Bytes × ℕ :=
  (b.1 ++ snprintfS (cap - b.1.length) ((if b.2 = 0 then [] else [44]) ++ decimalInt x), b.2 + 1)

def written (cap : ℕ) (ns : List ℤ) : Bytes := (ns.foldl (append cap) ([], 0)).1

/-- The tokens of `strtok_r(s, ",", …)`. -/
def tokens (s : Bytes) : List Bytes := (s.splitOn 44).filter (· ≠ [])

/-- The numbers that `atoi` makes of them. -/
def read (s : Bytes) : List ℤ := (tokens s).map atoi

theorem joined_singleton (x : ℤ) : joined [x] = decimalInt x := by
  simp [joined]

theorem joined_cons_cons (x y : ℤ) (ns : List ℤ) :
    joined (x :: y :: ns) = decimalInt x ++ 44 :: joined (y :: ns) := by
  simp [joined, List.intercalate]

variable {ns : List ℤ}

theorem joined_concat (hne : ns ≠ []) (x : ℤ) :
    joined (ns ++ [x]) = joined ns ++ 44 :: decimalInt x := by
  induction ns with
  | nil => exact absurd rfl hne
  | cons y ns ih =>
    cases ns with
    | nil => simp [joined_cons_cons, joined_singleton]
    | cons z ns =>
      have htail := ih (List.cons_ne_nil z ns)
      rw [List.cons_append] at htail
      rw [List.cons_append, List.cons_append, joined_cons_cons, htail, joined_cons_cons]
      simp

theorem written_eq (cap : ℕ) (ns : List ℤ) : written cap ns = (joined ns).take (cap - 1) := by
  have hboth : ns.foldl (append cap) ([], 0) = ((joined ns).take (cap - 1), ns.length) := by
    induction ns using List.reverseRecOn with
    | nil => simp [joined]
    | append_singleton ns x ih =>
      rw [List.foldl_append, ih, List.foldl_cons, List.foldl_nil, append]
      have hroom : cap - ((joined ns).take (cap - 1)).length - 1 =
          cap - 1 - (joined ns).length := by
        rw [List.length_take]
        omega
      cases ns with
      | nil => simp [snprintfS, joined]
      | cons y ns =>
        rw [joined_concat (List.cons_ne_nil y ns), List.take_append, snprintfS, hroom]
        simp
  rw [written, hboth]

/-! ## Reading what fits -/

theorem tokens_nil : tokens [] = [] := by simp [tokens]

variable {s : Bytes}

theorem tokens_of_not_mem (hs : (44 : UInt8) ∉ s) (hne : s ≠ []) : tokens s = [s] := by
  rw [tokens, List.splitOn_eq_singleton hs]
  simp [hne]

theorem tokens_append_cons (hs : (44 : UInt8) ∉ s) (hne : s ≠ []) (rest : Bytes) :
    tokens (s ++ 44 :: rest) = s :: tokens rest := by
  rw [tokens, List.splitOn_append_cons_self_of_not_mem hs]
  simp [tokens, hne]

theorem comma_not_mem (x : ℤ) : (44 : UInt8) ∉ decimalInt x := by
  have hdigits : (44 : UInt8) ∉ decimal x.natAbs := not_mem_decimal (by decide)
  unfold decimalInt
  split
  · simp [hdigits]
  · exact hdigits

theorem decimalInt_ne_nil (x : ℤ) : decimalInt x ≠ [] := by
  unfold decimalInt
  split
  · exact List.cons_ne_nil _ _
  · exact decimal_ne_nil _

theorem read_joined (hint : ∀ x ∈ ns, -2 ^ 31 ≤ x ∧ x < 2 ^ 31) :
    read (joined ns) = ns := by
  induction ns with
  | nil => exact congrArg (List.map atoi) tokens_nil
  | cons x ns ih =>
    have hx := hint x List.mem_cons_self
    have hfirst : atoi (decimalInt x) = x := atoi_decimalInt hx.1 hx.2
    cases ns with
    | nil =>
      rw [joined_singleton, read, tokens_of_not_mem (comma_not_mem x) (decimalInt_ne_nil x),
        List.map_singleton, hfirst]
    | cons y ns =>
      rw [joined_cons_cons, read, tokens_append_cons (comma_not_mem x) (decimalInt_ne_nil x),
        List.map_cons, hfirst]
      exact congrArg (x :: ·) (ih fun z hz => hint z (List.mem_cons_of_mem _ hz))

/-! ## Reading what was cut -/

theorem lt_of_mem_read_cut {x : ℤ} (hpos : 0 < x) (hint : x < 2 ^ 31) {s rest : Bytes}
    (hcut : decimalInt x = s ++ rest) (hrest : rest ≠ []) {y : ℤ} (hy : y ∈ read s) : y < x := by
  have hprint : decimalInt x = decimal x.natAbs := if_neg (by omega)
  have hdigits : ∀ c ∈ s, isDigit c = true := by
    intro c hc
    refine isDigit_of_mem_decimal (n := x.natAbs) ?_
    rw [← hprint, hcut]
    exact List.mem_append_left _ hc
  have hvalue : 10 * digitsValue s ≤ x.natAbs := by
    have hle := digitsValue_append_le s hrest
    rwa [← hcut, hprint, digitsValue_decimal] at hle
  rcases List.mem_map.mp hy with ⟨token, htoken, rfl⟩
  by_cases hs : s = []
  · rw [hs, tokens_nil] at htoken
    exact nomatch htoken
  · have hcomma : (44 : UInt8) ∉ s := fun hmem => absurd (hdigits 44 hmem) (by decide)
    rw [tokens_of_not_mem hcomma hs, List.mem_singleton] at htoken
    rw [htoken, atoi_digits hs hdigits (by omega)]
    omega

/-- Of a text that is cut, a number is lost: the one at the cut, or the next. -/
theorem exists_not_mem_read_take (hnodup : ns.Nodup)
    (hint : ∀ x ∈ ns, 0 < x ∧ x < 2 ^ 31) {n : ℕ} (hlong : n < (joined ns).length) :
    ∃ x ∈ ns, x ∉ read ((joined ns).take n) := by
  induction ns generalizing n with
  | nil => exact absurd hlong (Nat.not_lt_zero n)
  | cons x ns ih =>
    rcases hint x List.mem_cons_self with ⟨hpos, hsmall⟩
    rcases List.nodup_cons.mp hnodup with ⟨hx, hns⟩
    have hself : read (decimalInt x) = [x] := by
      rw [← joined_singleton]
      refine read_joined ?_
      intro y hy
      rw [List.mem_singleton.mp hy]
      omega
    by_cases hfit : n < (decimalInt x).length
    · -- the first number is cut
      have htake : (joined (x :: ns)).take n = (decimalInt x).take n := by
        cases ns with
        | nil => rw [joined_singleton]
        | cons y ns => rw [joined_cons_cons, List.take_append_of_le_length (Nat.le_of_lt hfit)]
      refine ⟨x, List.mem_cons_self, ?_⟩
      intro hmem
      rw [htake] at hmem
      have hrest : (decimalInt x).drop n ≠ [] := by
        rw [ne_eq, List.drop_eq_nil_iff]
        omega
      exact absurd (lt_of_mem_read_cut hpos hsmall (List.take_append_drop n _).symm hrest hmem)
        (Int.lt_irrefl x)
    · cases ns with
      | nil =>
        rw [joined_singleton] at hlong
        exact absurd hlong hfit
      | cons y ns =>
        rcases Nat.eq_or_lt_of_le (Nat.not_lt.mp hfit) with heq | hlt
        · -- the cut is right before the comma
          refine ⟨y, List.mem_cons_of_mem _ List.mem_cons_self, ?_⟩
          rw [joined_cons_cons, ← heq, List.take_left', hself, List.mem_singleton]
          · rintro rfl
            exact hx List.mem_cons_self
          · rfl
        · have hcut : (joined (x :: y :: ns)).take n =
              decimalInt x ++ 44 :: (joined (y :: ns)).take (n - (decimalInt x).length - 1) := by
            have hsucc : n - (decimalInt x).length = n - (decimalInt x).length - 1 + 1 := by omega
            rw [joined_cons_cons, List.take_append, List.take_of_length_le (Nat.le_of_lt hlt),
              hsucc, List.take_succ_cons]
            rfl
          have hlater : n - (decimalInt x).length - 1 < (joined (y :: ns)).length := by
            rw [joined_cons_cons, List.length_append, List.length_cons] at hlong
            omega
          rcases ih hns (fun z hz => hint z (List.mem_cons_of_mem _ hz)) hlater with
            ⟨z, hz, hlost⟩
          refine ⟨z, List.mem_cons_of_mem _ hz, ?_⟩
          rw [hcut, read, tokens_append_cons (comma_not_mem x) (decimalInt_ne_nil x),
            List.map_cons, List.mem_cons, not_or]
          refine ⟨?_, hlost⟩
          rintro rfl
          have hfirst : atoi (decimalInt x) = x := atoi_decimalInt (by omega) hsmall
          rw [hfirst] at hz
          exact hx hz

/-! ## The first numbers of a list -/

theorem read_written {cap : ℕ} (hint : ∀ x ∈ ns, -2 ^ 31 ≤ x ∧ x < 2 ^ 31)
    (hfit : (joined ns).length < cap) : read (written cap ns) = ns := by
  rw [written_eq, List.take_of_length_le (by omega), read_joined hint]

/-- When at most `m` numbers are written, all are read exactly when there are no more and
their text fits. -/
theorem forall_mem_read_written_iff {cap m : ℕ} (hcap : 0 < cap)
    (hnodup : ns.Nodup) (hint : ∀ x ∈ ns, 0 < x ∧ x < 2 ^ 31) :
    (∀ x ∈ ns, x ∈ read (written cap (ns.take m))) ↔
      ns.length ≤ m ∧ (joined ns).length < cap := by
  have hrange : ∀ x ∈ ns, -2 ^ 31 ≤ x ∧ x < 2 ^ 31 := by
    intro x hx
    have hboth := hint x hx
    omega
  have htake : ∀ x ∈ ns.take m, x ∈ ns := fun x hx => List.mem_of_mem_take hx
  constructor
  · intro hall
    have hfit : (joined (ns.take m)).length < cap := by
      by_contra hlong
      have hcut : cap - 1 < (joined (ns.take m)).length := by omega
      rcases exists_not_mem_read_take (hnodup.sublist (List.take_sublist m ns))
        (fun x hx => hint x (htake x hx)) hcut with ⟨x, hx, hlost⟩
      refine hlost ?_
      rw [← written_eq]
      exact hall x (htake x hx)
    rw [read_written (fun x hx => hrange x (htake x hx)) hfit] at hall
    have hle := (List.subperm_of_subset hnodup hall).length_le
    rw [List.length_take] at hle
    have hm : ns.length ≤ m := by omega
    rw [List.take_of_length_le hm] at hfit
    exact ⟨hm, hfit⟩
  · rintro ⟨hm, hfit⟩ x hx
    rw [List.take_of_length_le hm, read_written hrange hfit]
    exact hx

end FlyBoard.CutList

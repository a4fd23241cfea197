import Mathlib.Data.List.Basic
import Mathlib.Data.List.Range
import Mathlib.Data.List.Perm.Subperm

/-!
# Buffers of a fixed size

A buffer remembers its size and every write, in the order in which they were made, also the
writes that miss it. What stands at an offset is what was last written there. `InBounds` says
that no write missed the buffer, and `Holds` that a text stands at its beginning.
-/

namespace FlyBoard

structure Buffer (α : Type*) where
  size : ℕ
  writes : List (ℕ × α)

namespace Buffer

variable {α : Type*}

def alloc (size : ℕ) : Buffer α := ⟨size, []⟩

def put (b : Buffer α) (i : ℕ) (c : α) : Buffer α := { b with writes := b.writes ++ [(i, c)] }

/-- `memcpy` to an offset. -/
def puts (b : Buffer α) (i : ℕ) : List α → Buffer α
  | [] => b
  | c :: s => (b.put i c).puts (i + 1) s

def get? (b : Buffer α) (i : ℕ) : Option α := b.writes.reverse.lookup i

def offsets (b : Buffer α) : List ℕ := b.writes.map Prod.fst

def InBounds (b : Buffer α) : Prop := ∀ w ∈ b.writes, w.1 < b.size

instance (b : Buffer α) : Decidable b.InBounds := inferInstanceAs (Decidable (∀ w ∈ b.writes, _))

def upTo [DecidableEq α] (stop : α) (b : Buffer α) : List α :=
  ((List.range b.writes.length).map fun i => (b.get? i).getD stop).takeWhile (· ≠ stop)

def Holds (b : Buffer α) (s : List α) : Prop := ∀ i < s.length, b.get? i = s[i]?

variable {b : Buffer α} {i j : ℕ} {c : α} {s : List α}

@[simp] theorem size_put : (b.put i c).size = b.size := rfl

@[simp] theorem offsets_put : (b.put i c).offsets = b.offsets ++ [i] := by
  simp only [offsets, put, List.map_append, List.map_cons, List.map_nil]

theorem get?_put : (b.put i c).get? j = if j = i then some c else b.get? j := by
  rw [get?, put, List.reverse_append, List.reverse_singleton, List.singleton_append,
    List.lookup_cons]
  by_cases h : j = i
  · rw [if_pos h, h, beq_self_eq_true]
  · rw [if_neg h, beq_eq_false_iff_ne.mpr h]
    rfl

theorem inBounds_alloc (size : ℕ) : (alloc size : Buffer α).InBounds :=
  fun _ h => absurd h List.not_mem_nil

theorem inBounds_put : (b.put i c).InBounds ↔ b.InBounds ∧ i < b.size := by
  constructor
  · intro h
    exact ⟨fun w hw => h w (List.mem_append_left _ hw), h (i, c) (by simp [put])⟩
  · rintro ⟨hold, hnew⟩ w hw
    rcases List.mem_append.mp hw with hw | hw
    · exact hold w hw
    · rw [List.mem_singleton.mp hw]
      exact hnew

@[simp] theorem size_puts : (b.puts i s).size = b.size := by
  induction s generalizing b i with
  | nil => rfl
  | cons c s ih => rw [puts, ih, size_put]

@[simp] theorem offsets_puts : (b.puts i s).offsets = b.offsets ++ List.range' i s.length := by
  induction s generalizing b i with
  | nil => simp [puts]
  | cons c s ih =>
    rw [puts, ih, offsets_put, List.length_cons, List.range'_succ, List.append_assoc,
      List.singleton_append]

theorem puts_append (b : Buffer α) (i : ℕ) (s t : List α) :
    b.puts i (s ++ t) = (b.puts i s).puts (i + s.length) t := by
  induction s generalizing b i with
  | nil => rfl
  | cons c s ih =>
    rw [List.cons_append, puts, ih, puts, List.length_cons, Nat.add_assoc, Nat.add_comm 1]

theorem inBounds_iff : b.InBounds ↔ ∀ i ∈ b.offsets, i < b.size := by
  rw [offsets, List.forall_mem_map]
  rfl

theorem holds_nil : b.Holds [] := fun _ h => absurd h (Nat.not_lt_zero _)

theorem Holds.put (h : b.Holds s) (c : α) : (b.put s.length c).Holds (s ++ [c]) := by
  intro i hi
  rw [List.length_append, List.length_singleton] at hi
  rw [get?_put]
  by_cases hlast : i = s.length
  · rw [if_pos hlast, hlast, List.getElem?_concat_length]
  · rw [if_neg hlast, List.getElem?_append_left (by omega)]
    exact h i (by omega)

theorem Holds.puts (h : b.Holds s) (t : List α) : (b.puts s.length t).Holds (s ++ t) := by
  induction t generalizing b s with
  | nil => rwa [List.append_nil]
  | cons c t ih =>
    have hnext := ih (h.put c)
    rw [List.length_append, List.length_singleton, List.append_assoc] at hnext
    exact hnext

theorem Holds.left {t : List α} (h : b.Holds (s ++ t)) : b.Holds s := by
  intro i hi
  rw [h i (by rw [List.length_append]; omega), List.getElem?_append_left hi]

theorem Holds.get?_last (h : b.Holds s) (hne : s ≠ []) : b.get? (s.length - 1) = s.getLast? := by
  have hpos := List.length_pos_of_ne_nil hne
  rw [h _ (by omega), List.getLast?_eq_getElem?]

theorem Holds.length_le (h : b.Holds s) : s.length ≤ b.writes.length := by
  have hsub : List.range s.length ⊆ b.offsets := by
    intro i hi
    have hget := h i (List.mem_range.mp hi)
    rw [List.getElem?_eq_getElem (List.mem_range.mp hi), get?] at hget
    have hmem : i ∈ b.writes.reverse.map Prod.fst := by
      by_contra hnot
      have hnone : b.writes.reverse.lookup i = none := by
        refine List.lookup_eq_none_iff.mpr fun p hp => bne_iff_ne.mpr fun heq => hnot ?_
        exact heq ▸ List.mem_map_of_mem hp
      rw [hnone] at hget
      exact nomatch hget
    rwa [List.map_reverse, List.mem_reverse] at hmem
  have hle := (List.nodup_range.subperm hsub).length_le
  rwa [List.length_range, offsets, List.length_map] at hle

theorem upTo_of_holds [DecidableEq α] {stop : α} (h : b.Holds (s ++ [stop])) (hs : stop ∉ s) :
    b.upTo stop = s := by
  have hlen := h.length_le
  rw [List.length_append, List.length_singleton] at hlen
  have hread : ((List.range b.writes.length).map fun i => (b.get? i).getD stop).take
      (s.length + 1) = s ++ [stop] := by
    refine List.ext_getElem? fun i => ?_
    by_cases hi : i < s.length + 1
    · have hget := h i (by rw [List.length_append, List.length_singleton]; exact hi)
      have hbound : i < (s ++ [stop]).length := by simpa using hi
      rw [List.getElem?_take_of_lt hi, List.getElem?_map, List.getElem?_range (by omega),
        Option.map_some, hget, List.getElem?_eq_getElem hbound, Option.getD_some]
    · rw [List.getElem?_eq_none, List.getElem?_eq_none]
      · rw [List.length_append, List.length_singleton]
        omega
      · rw [List.length_take]
        omega
  rw [upTo, ← List.take_append_drop (s.length + 1)
    ((List.range b.writes.length).map fun i => (b.get? i).getD stop), hread, List.append_assoc,
    List.takeWhile_append_of_pos]
  · rw [List.singleton_append, List.takeWhile_cons_of_neg (by simp), List.append_nil]
  · intro c hc
    rw [decide_eq_true_eq]
    rintro rfl
    exact hs hc

end Buffer

end FlyBoard

import FlyBoard.Lib.Bytes
import Mathlib.Data.List.Infix

/-!
# GLOB and `substr` of SQLite

SQLite reads a text as characters. In a GLOB pattern `*` stands for any text, `?` for any
character, `[…]` for a character of a set, `[^…]` for one outside of it, and every other
character for itself.
-/

namespace FlyBoard.Glob

open Bytes

/-! ## Characters -/

def isTail (c : UInt8) : Bool := 128 ≤ c && c < 192

/-- The payload of the first byte of a character of several bytes. -/
def leadBits (c : UInt8) : ℕ :=
  if c < 224 then c.toNat - 192
  else if c < 240 then c.toNat - 224
  else if c < 248 then c.toNat - 240
  else if c < 252 then c.toNat - 248
  else if c < 254 then c.toNat - 252
  else 0

/-- Overlong forms, surrogates and noncharacters read as the replacement character. -/
def sound (v : ℕ) : ℕ :=
  if v < 128 ∨ v / 2048 = 27 ∨ v / 2 = 32767 then 65533 else v

/-- `sqlite3Utf8Read`, over a text; the argument is a character that is not complete yet. -/
def charsFrom : Option ℕ → Bytes → List ℕ
  | none, [] => []
  | some v, [] => [sound v]
  | none, c :: s => if c < 192 then c.toNat :: charsFrom none s else charsFrom (some (leadBits c)) s
  | some v, c :: s =>
    if isTail c then charsFrom (some (v * 64 + c.toNat % 64)) s
    else if c < 192 then sound v :: c.toNat :: charsFrom none s
    else sound v :: charsFrom (some (leadBits c)) s

def chars (s : Bytes) : List ℕ := charsFrom none s

/-- A text without its first `n` characters. -/
def skip : ℕ → Bytes → Bytes
  | 0, s => s
  | _, [] => []
  | n + 1, c :: s => if c < 192 then skip n s else skip n (s.dropWhile isTail)

/-- `substr(s, n)`, for `n > 0`. -/
def substr (s : Bytes) (n : ℕ) : Bytes := skip (n - 1) s

/-! ## Patterns -/

/-- A set of characters: the ranges, and whether those outside of them are meant. -/
structure CharSet where
  invert : Bool
  ranges : List (ℕ × ℕ)
deriving DecidableEq, Repr

def CharSet.mem (set : CharSet) (c : ℕ) : Bool :=
  set.ranges.any (fun r => r.1 ≤ c && c ≤ r.2) != set.invert

inductive Item
  | many
  | one
  | set (set : CharSet)
  | lit (c : ℕ)
deriving DecidableEq, Repr

/-- The elements of a pattern; none when a set is not closed. The first argument is a set
that is not complete yet. -/
def read : Option CharSet → List ℕ → Option (List Item)
  | none, [] => some []
  | none, 91 :: 94 :: 93 :: p => read (some ⟨true, [(93, 93)]⟩) p
  | none, 91 :: 94 :: p => read (some ⟨true, []⟩) p
  | none, 91 :: 93 :: p => read (some ⟨false, [(93, 93)]⟩) p
  | none, 91 :: p => read (some ⟨false, []⟩) p
  | none, 42 :: p => (read none p).map (.many :: ·)
  | none, 63 :: p => (read none p).map (.one :: ·)
  | none, c :: p => (read none p).map (.lit c :: ·)
  | some _, [] => none
  | some set, 93 :: p => (read none p).map (.set set :: ·)
  | some set, c :: 45 :: 93 :: p =>
    (read none p).map (.set { set with ranges := (45, 45) :: (c, c) :: set.ranges } :: ·)
  | some set, c :: 45 :: d :: p => read (some { set with ranges := (c, d) :: set.ranges }) p
  | some set, c :: p => read (some { set with ranges := (c, c) :: set.ranges }) p

def fits : List Item → List ℕ → Bool
  | [], s => s.isEmpty
  | .many :: p, s => s.tails.any (fits p)
  | .one :: p, s =>
    match s with
    | [] => false
    | _ :: s => fits p s
  | .set set :: p, s =>
    match s with
    | [] => false
    | c :: s => set.mem c && fits p s
  | .lit c :: p, s =>
    match s with
    | [] => false
    | d :: s => c == d && fits p s

/-- `text GLOB pattern` -/
def glob (pattern text : Bytes) : Bool :=
  ((read none (chars pattern)).map fun p => fits p (chars text)).getD false

/-! ## Texts that begin with ASCII -/

variable {s t base : Bytes} {n : ℕ} {c : UInt8} {cs : List ℕ} {l : List ℕ} {p : List Item}

theorem sound_ge (v : ℕ) : 128 ≤ sound v := by
  unfold sound
  split
  · decide
  · rename_i h
    omega

theorem charsFrom_some (v : ℕ) (s : Bytes) :
    ∃ w cs, charsFrom (some v) s = w :: cs ∧ 128 ≤ w := by
  induction s generalizing v with
  | nil => exact ⟨_, _, rfl, sound_ge v⟩
  | cons c s ih =>
    rw [charsFrom]
    split
    · exact ih _
    · split
      · exact ⟨_, _, rfl, sound_ge v⟩
      · exact ⟨_, _, rfl, sound_ge v⟩

theorem chars_cons (h : c < 192) (s : Bytes) :
    chars (c :: s) = c.toNat :: chars s := by
  rw [chars, charsFrom, if_pos h, ← chars]

theorem chars_append (h : ∀ c ∈ base, c < 128) (s : Bytes) :
    chars (base ++ s) = base.map UInt8.toNat ++ chars s := by
  induction base with
  | nil => rfl
  | cons c base ih =>
    rw [List.forall_mem_cons] at h
    have hc : c < 192 := UInt8.lt_trans h.1 (by decide)
    rw [List.cons_append, chars_cons hc, ih h.2, List.map_cons, List.cons_append]

theorem cons_of_chars (h : chars s = n :: cs) (hn : n < 128) :
    ∃ c t, s = c :: t ∧ c.toNat = n ∧ chars t = cs := by
  cases s with
  | nil => exact nomatch h
  | cons c t =>
    rw [chars, charsFrom] at h
    split at h
    · rw [List.cons.injEq] at h
      exact ⟨c, t, rfl, h.1, h.2⟩
    · rcases charsFrom_some (leadBits c) t with ⟨w, cs', hw, hge⟩
      rw [hw, List.cons.injEq] at h
      omega

theorem append_of_chars (hbase : ∀ c ∈ base, c < 128)
    (h : chars s = base.map UInt8.toNat ++ cs) : ∃ t, s = base ++ t ∧ chars t = cs := by
  induction base generalizing s with
  | nil => exact ⟨s, rfl, h⟩
  | cons b base ih =>
    rw [List.forall_mem_cons] at hbase
    rw [List.map_cons, List.cons_append] at h
    have hb : b.toNat < 128 := UInt8.lt_iff_toNat_lt.mp hbase.1
    rcases cons_of_chars h hb with ⟨c, t, rfl, hc, ht⟩
    rcases ih hbase.2 ht with ⟨u, rfl, hu⟩
    exact ⟨u, by rw [UInt8.toNat_inj.mp hc, List.cons_append], hu⟩

theorem skip_append (h : ∀ c ∈ base, c < 128) (s : Bytes) : skip base.length (base ++ s) = s := by
  induction base with
  | nil => rw [List.length_nil, List.nil_append, skip]
  | cons c base ih =>
    rw [List.forall_mem_cons] at h
    have hc : c < 192 := UInt8.lt_trans h.1 (by decide)
    rw [List.length_cons, List.cons_append, skip, if_pos hc, ih h.2]

theorem substr_append (h : ∀ c ∈ base, c < 128) (s : Bytes) :
    substr (base ++ s) (base.length + 1) = s := by
  rw [substr, Nat.add_sub_cancel, skip_append h]

/-! ## The patterns of a number -/

def plain (c : ℕ) : Bool := c != 91 && c != 42 && c != 63

theorem read_plain {c : ℕ} (h : plain c = true) (p : List ℕ) :
    read none (c :: p) = (read none p).map (.lit c :: ·) := by
  simp only [plain, Bool.and_eq_true, bne_iff_ne, ne_eq] at h
  rcases h with ⟨⟨hset, hmany⟩, hone⟩
  rw [read]
  all_goals simp_all

theorem read_plains (h : ∀ c ∈ l, plain c = true) (p : List ℕ) :
    read none (l ++ p) = (read none p).map (l.map .lit ++ ·) := by
  induction l with
  | nil =>
    rw [List.nil_append, List.map_nil]
    exact Option.map_id.symm ▸ rfl
  | cons c l ih =>
    rw [List.forall_mem_cons] at h
    rw [List.cons_append, read_plain h.1, ih h.2, Option.map_map]
    rfl

theorem fits_lits :
    fits (l.map .lit ++ p) cs = true ↔ ∃ rest, cs = l ++ rest ∧ fits p rest = true := by
  induction l generalizing cs with
  | nil =>
    constructor
    · exact fun h => ⟨cs, rfl, h⟩
    · rintro ⟨rest, rfl, h⟩
      exact h
  | cons c l ih =>
    cases cs with
    | nil =>
      constructor
      · exact fun h => nomatch h
      · rintro ⟨rest, h, -⟩
        exact nomatch h
    | cons d cs =>
      rw [List.map_cons, List.cons_append, fits, Bool.and_eq_true, beq_iff_eq, ih]
      constructor
      · rintro ⟨rfl, rest, rfl, h⟩
        exact ⟨rest, rfl, h⟩
      · rintro ⟨rest, h, hfits⟩
        rw [List.cons_append, List.cons.injEq] at h
        exact ⟨h.1.symm, rest, h.2, hfits⟩

theorem fits_many :
    fits (.many :: p) cs = true ↔ ∃ pre rest, cs = pre ++ rest ∧ fits p rest = true := by
  rw [fits, List.any_eq_true]
  constructor
  · rintro ⟨rest, hrest, h⟩
    rcases (List.mem_tails _ _).mp hrest with ⟨pre, rfl⟩
    exact ⟨pre, rest, rfl, h⟩
  · rintro ⟨pre, rest, rfl, h⟩
    exact ⟨rest, (List.mem_tails _ _).mpr (List.suffix_append _ _), h⟩

theorem fits_set_many {set : CharSet} :
    fits [.set set, .many] cs = true ↔ ∃ c rest, cs = c :: rest ∧ set.mem c = true := by
  cases cs with
  | nil =>
    constructor
    · exact fun h => nomatch h
    · rintro ⟨c, rest, h, -⟩
      exact nomatch h
  | cons c rest =>
    have hmany : fits [.many] rest = true := fits_many.mpr ⟨rest, [], (List.append_nil _).symm, rfl⟩
    rw [fits, hmany, Bool.and_true]
    constructor
    · exact fun h => ⟨c, rest, rfl, h⟩
    · rintro ⟨d, rest', h, hd⟩
      rw [List.cons.injEq] at h
      rw [h.1]
      exact hd

theorem isDigit_iff : isDigit c = true ↔ 48 ≤ c.toNat ∧ c.toNat ≤ 57 := by
  rw [isDigit, Bool.and_eq_true, decide_eq_true_eq, decide_eq_true_eq, UInt8.le_iff_toNat_le,
    UInt8.le_iff_toNat_le]
  rfl

theorem mem_digits (invert : Bool) (c : ℕ) :
    CharSet.mem ⟨invert, [(48, 57)]⟩ c = (decide (48 ≤ c ∧ c ≤ 57) != invert) := by
  rw [CharSet.mem, List.any_cons, List.any_nil, Bool.or_false, Bool.decide_and]

/-- `GLOB 'base[0-9]*'`: the text goes on with a digit behind the base. -/
theorem glob_numbered (hbase : ∀ c ∈ base, c < 128)
    (hplain : ∀ c ∈ base, plain c.toNat = true) :
    glob (base ++ bytes "[0-9]*") s = true ↔ ∃ d t, s = base ++ d :: t ∧ isDigit d = true := by
  have hread : read none (chars (base ++ bytes "[0-9]*")) =
      some ((base.map UInt8.toNat).map .lit ++ [.set ⟨false, [(48, 57)]⟩, .many]) := by
    have hplains : ∀ c ∈ base.map UInt8.toNat, plain c = true := by
      intro c hc
      rcases List.mem_map.mp hc with ⟨b, hb, rfl⟩
      exact hplain b hb
    rw [chars_append hbase, read_plains hplains]
    rfl
  rw [glob, hread, Option.map_some, Option.getD_some, fits_lits]
  constructor
  · rintro ⟨cs, hcs, hfits⟩
    rcases fits_set_many.mp hfits with ⟨n, rest, rfl, hn⟩
    rw [mem_digits, Bool.bne_false, decide_eq_true_eq] at hn
    rcases append_of_chars hbase hcs with ⟨t, rfl, ht⟩
    rcases cons_of_chars ht (by omega) with ⟨d, t, rfl, rfl, -⟩
    exact ⟨d, t, rfl, isDigit_iff.mpr hn⟩
  · rintro ⟨d, t, rfl, hd⟩
    have hdigit := isDigit_iff.mp hd
    have hlt : d < 192 := by
      rw [UInt8.lt_iff_toNat_lt]
      exact Nat.lt_of_le_of_lt hdigit.2 (by decide)
    refine ⟨d.toNat :: chars t, ?_, ?_⟩
    · rw [chars_append hbase, chars_cons hlt]
    · refine fits_set_many.mpr ⟨_, _, rfl, ?_⟩
      rw [mem_digits, Bool.bne_false, decide_eq_true_eq]
      exact hdigit

theorem chars_digits : (∀ c ∈ chars s, 48 ≤ c ∧ c ≤ 57) ↔ ∀ c ∈ s, isDigit c = true := by
  induction s with
  | nil => exact ⟨fun _ => List.forall_mem_nil _, fun _ => List.forall_mem_nil _⟩
  | cons c s ih =>
    by_cases hc : c < 192
    · rw [chars_cons hc, List.forall_mem_cons, List.forall_mem_cons, isDigit_iff, ih]
    · constructor
      · intro h
        rcases charsFrom_some (leadBits c) s with ⟨w, cs, hw, hge⟩
        rw [chars, charsFrom, if_neg hc, hw, List.forall_mem_cons] at h
        omega
      · intro h
        have hdigit := (isDigit_iff.mp (h c List.mem_cons_self)).2
        rw [UInt8.lt_iff_toNat_lt] at hc
        exact absurd (Nat.lt_of_le_of_lt hdigit (by decide)) hc

/-- `NOT GLOB '*[^0-9]*'`: all bytes of the text are digits. -/
theorem not_glob_other : glob (bytes "*[^0-9]*") s = false ↔ ∀ c ∈ s, isDigit c = true := by
  have hread : read none (chars (bytes "*[^0-9]*")) =
      some [.many, .set ⟨true, [(48, 57)]⟩, .many] := by decide
  have hother : glob (bytes "*[^0-9]*") s = true ↔ ∃ c ∈ chars s, ¬ (48 ≤ c ∧ c ≤ 57) := by
    rw [glob, hread, Option.map_some, Option.getD_some, fits_many]
    constructor
    · rintro ⟨pre, rest, hsplit, hfits⟩
      rcases fits_set_many.mp hfits with ⟨c, rest, rfl, hc⟩
      rw [mem_digits, Bool.bne_true, Bool.not_eq_true', decide_eq_false_iff_not] at hc
      exact ⟨c, hsplit ▸ List.mem_append_right pre List.mem_cons_self, hc⟩
    · rintro ⟨c, hc, hdigit⟩
      rcases List.append_of_mem hc with ⟨pre, rest, hsplit⟩
      refine ⟨pre, c :: rest, hsplit, fits_set_many.mpr ⟨c, rest, rfl, ?_⟩⟩
      rw [mem_digits, Bool.bne_true, Bool.not_eq_true', decide_eq_false_iff_not]
      exact hdigit
  rw [← Bool.not_eq_true, hother, ← chars_digits]
  constructor
  · intro h c hc
    exact not_not.mp fun hdigit => h ⟨c, hc, hdigit⟩
  · rintro h ⟨c, hc, hdigit⟩
    exact hdigit (h c hc)

end FlyBoard.Glob

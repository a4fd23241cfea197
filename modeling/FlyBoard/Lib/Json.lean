import FlyBoard.Lib.Bytes
import Mathlib.Data.List.Induction
import Mathlib.Tactic.Common

/-!
# JSON texts

`parse` reads a text as the grammar of JSON has it: a text in UTF-8 that is one value with
white space around its tokens, strings whose control bytes, quotes and backslashes are
escaped, and numbers without leading zeros. A number is kept as it is written.

`printObject` writes an object of texts and whole numbers without white space, and `parse`
reads back exactly its members, whatever the texts are.
-/

namespace FlyBoard.Json

open Bytes

/-! ## UTF-8 -/

/-- Between two bytes of a text: how many bytes of the character are owed, and the bounds of
the next one. -/
structure Utf8 where
  owed : ℕ
  low : UInt8
  high : UInt8
deriving DecidableEq

namespace Utf8

def start : Utf8 := ⟨0, 128, 191⟩

def first (b : UInt8) : Option Utf8 :=
  if b < 128 then some start
  else if 194 ≤ b ∧ b ≤ 223 then some ⟨1, 128, 191⟩
  else if b = 224 then some ⟨2, 160, 191⟩
  else if b = 237 then some ⟨2, 128, 159⟩
  else if 225 ≤ b ∧ b ≤ 239 then some ⟨2, 128, 191⟩
  else if b = 240 then some ⟨3, 144, 191⟩
  else if 241 ≤ b ∧ b ≤ 243 then some ⟨3, 128, 191⟩
  else if b = 244 then some ⟨3, 128, 143⟩
  else none

def next (u : Utf8) (b : UInt8) : Option Utf8 :=
  if u.owed = 0 then first b
  else if u.low ≤ b ∧ b ≤ u.high then some ⟨u.owed - 1, 128, 191⟩
  else none

def after : Utf8 → Bytes → Option Utf8
  | u, [] => some u
  | u, b :: s => (u.next b).bind fun u => after u s

def encode (n : ℕ) : Bytes :=
  if n < 0x80 then [UInt8.ofNat n]
  else if n < 0x800 then [UInt8.ofNat (0xC0 + n / 64), UInt8.ofNat (0x80 + n % 64)]
  else if n < 0x10000 then
    [UInt8.ofNat (0xE0 + n / 4096), UInt8.ofNat (0x80 + n / 64 % 64),
      UInt8.ofNat (0x80 + n % 64)]
  else
    [UInt8.ofNat (0xF0 + n / 262144), UInt8.ofNat (0x80 + n / 4096 % 64),
      UInt8.ofNat (0x80 + n / 64 % 64), UInt8.ofNat (0x80 + n % 64)]

end Utf8

def ValidUtf8 (s : Bytes) : Prop := Utf8.start.after s = some Utf8.start

instance (s : Bytes) : Decidable (ValidUtf8 s) := inferInstanceAs (Decidable (_ = _))

/-! ## Parsing -/

inductive Value
  | null
  | bool (b : Bool)
  | num (text : Bytes)
  | str (s : Bytes)
  | arr (items : List Value)
  | obj (members : List (Bytes × Value))

def isWs (c : UInt8) : Bool := c == 32 || c == 9 || c == 10 || c == 13

def skipWs (s : Bytes) : Bytes := s.dropWhile isWs

def expect (c : UInt8) : Bytes → Option Bytes
  | [] => none
  | d :: s => if d == c then some s else none

def hexValue (c : UInt8) : Option ℕ :=
  if 48 ≤ c ∧ c ≤ 57 then some (c.toNat - 48)
  else if 97 ≤ c ∧ c ≤ 102 then some (c.toNat - 87)
  else if 65 ≤ c ∧ c ≤ 70 then some (c.toNat - 55)
  else none

def hex4 : Bytes → Option (ℕ × Bytes)
  | a :: b :: c :: d :: s => do
    let a ← hexValue a
    let b ← hexValue b
    let c ← hexValue c
    let d ← hexValue d
    some (4096 * a + 256 * b + 16 * c + d, s)
  | _ => none

/-- What follows a backslash and a `u`; a code point beyond the first 65536 is written as a
pair of surrogates. -/
def unicode (s : Bytes) : Option (Bytes × Bytes) := do
  let (n, s) ← hex4 s
  if 0xD800 ≤ n ∧ n ≤ 0xDBFF then
    let s ← expect 92 s
    let s ← expect 117 s
    let (m, s) ← hex4 s
    if 0xDC00 ≤ m ∧ m ≤ 0xDFFF then
      some (Utf8.encode (0x10000 + (n - 0xD800) * 0x400 + (m - 0xDC00)), s)
    else none
  else if 0xDC00 ≤ n ∧ n ≤ 0xDFFF then none
  else some (Utf8.encode n, s)

/-- The byte that a letter after a backslash stands for. -/
def escaped (c : UInt8) : Option UInt8 :=
  if c = 34 ∨ c = 92 ∨ c = 47 then some c
  else if c = 98 then some 8
  else if c = 102 then some 12
  else if c = 110 then some 10
  else if c = 114 then some 13
  else if c = 116 then some 9
  else none

def unit : Bytes → Option (Bytes × Bytes)
  | [] => none
  | c :: s =>
    if c < 32 then none
    else if c = 92 then
      match s with
      | [] => none
      | e :: s => if e = 117 then unicode s else (escaped e).map fun c => ([c], s)
    else some ([c], s)

def stringRest : ℕ → Bytes → Option (Bytes × Bytes)
  | 0, _ => none
  | fuel + 1, s =>
    match expect 34 s with
    | some rest => some ([], rest)
    | none => do
      let (c, s) ← unit s
      let (t, s) ← stringRest fuel s
      some (c ++ t, s)

def string (s : Bytes) : Option (Bytes × Bytes) := do
  let s ← expect 34 s
  stringRest (s.length + 1) s

def digits (s : Bytes) : Option (Bytes × Bytes) :=
  if s.takeWhile isDigit = [] then none else some (s.takeWhile isDigit, s.dropWhile isDigit)

def int (s : Bytes) : Option (Bytes × Bytes) := do
  let (ds, s) ← digits s
  if ds.head? = some 48 ∧ ds ≠ [48] then none else some (ds, s)

def sign (s : Bytes) : Bytes × Bytes :=
  match expect 45 s with
  | some s => ([45], s)
  | none => ([], s)

def frac (s : Bytes) : Option (Bytes × Bytes) :=
  match expect 46 s with
  | some s => (digits s).map fun r => (46 :: r.1, r.2)
  | none => some ([], s)

def exponent : Bytes → Option (Bytes × Bytes)
  | [] => some ([], [])
  | e :: s =>
    if e = 101 ∨ e = 69 then
      match s with
      | [] => none
      | c :: s' =>
        if c = 43 ∨ c = 45 then (digits s').map fun r => (e :: c :: r.1, r.2)
        else (digits s).map fun r => (e :: r.1, r.2)
    else some ([], e :: s)

def number (s : Bytes) : Option (Bytes × Bytes) := do
  let (i, t) ← int (sign s).2
  let (f, t) ← frac t
  let (e, t) ← exponent t
  some ((sign s).1 ++ i ++ f ++ e, t)

def word (w s : Bytes) : Option Bytes := if startsWith s w then some (s.drop w.length) else none

mutual

def value : ℕ → Bytes → Option (Value × Bytes)
  | 0, _ => none
  | fuel + 1, s =>
    let s := skipWs s
    match s.head? with
    | none => none
    | some c =>
      if c = 34 then (string s).map fun r => (.str r.1, r.2)
      else if c = 123 then
        match expect 125 (skipWs (s.drop 1)) with
        | some rest => some (.obj [], rest)
        | none => (members fuel (s.drop 1)).map fun r => (.obj r.1, r.2)
      else if c = 91 then
        match expect 93 (skipWs (s.drop 1)) with
        | some rest => some (.arr [], rest)
        | none => (items fuel (s.drop 1)).map fun r => (.arr r.1, r.2)
      else if c = 110 then (word (bytes "null") s).map fun rest => (.null, rest)
      else if c = 116 then (word (bytes "true") s).map fun rest => (.bool true, rest)
      else if c = 102 then (word (bytes "false") s).map fun rest => (.bool false, rest)
      else (number s).map fun r => (.num r.1, r.2)

def members : ℕ → Bytes → Option (List (Bytes × Value) × Bytes)
  | 0, _ => none
  | fuel + 1, s => do
    let (name, s) ← string (skipWs s)
    let s ← expect 58 (skipWs s)
    let (v, s) ← value fuel s
    match expect 125 (skipWs s) with
    | some rest => some ([(name, v)], rest)
    | none =>
      let s ← expect 44 (skipWs s)
      let (ms, rest) ← members fuel s
      some ((name, v) :: ms, rest)

def items : ℕ → Bytes → Option (List Value × Bytes)
  | 0, _ => none
  | fuel + 1, s => do
    let (v, s) ← value fuel s
    match expect 93 (skipWs s) with
    | some rest => some ([v], rest)
    | none =>
      let s ← expect 44 (skipWs s)
      let (vs, rest) ← items fuel s
      some (v :: vs, rest)

end

/-- The value of a text; every call takes a byte of it, so its length is fuel enough. -/
def parse (s : Bytes) : Option Value :=
  if ValidUtf8 s then
    match value (s.length + 1) s with
    | some (v, rest) => if skipWs rest = [] then some v else none
    | none => none
  else none

/-! ## Printing -/

def escapeByte (c : UInt8) : Bytes :=
  if c = 34 ∨ c = 92 then [92, c]
  else if c < 32 then 92 :: 117 :: hex 4 c.toNat
  else [c]

def escape (s : Bytes) : Bytes := s.flatMap escapeByte

def quote (s : Bytes) : Bytes := 34 :: (escape s ++ [34])

/-- A text or a whole number. -/
inductive Scalar
  | str (s : Bytes)
  | int (n : ℤ)
deriving DecidableEq

def Scalar.value : Scalar → Value
  | .str s => .str s
  | .int n => .num (decimalInt n)

def Scalar.print : Scalar → Bytes
  | .str s => quote s
  | .int n => decimalInt n

def printMember (m : Bytes × Scalar) : Bytes := quote m.1 ++ 58 :: m.2.print

def printMembers : List (Bytes × Scalar) → Bytes
  | [] => [125]
  | [m] => printMember m ++ [125]
  | m :: ms => printMember m ++ 44 :: printMembers ms

def printObject (ms : List (Bytes × Scalar)) : Bytes := 123 :: printMembers ms

variable {s t rest : Bytes} {c : UInt8} {ms : List (Bytes × Scalar)}

theorem escape_of_plain (h : ∀ c ∈ s, escapeByte c = [c]) : escape s = s := by
  induction s with
  | nil => rfl
  | cons c s ih =>
    rw [List.forall_mem_cons] at h
    have hs : s.flatMap escapeByte = s := ih h.2
    rw [escape, List.flatMap_cons, h.1, hs]
    rfl

theorem escapeByte_digit (h : isDigit c = true) : escapeByte c = [c] := by
  rw [isDigit, Bool.and_eq_true, decide_eq_true_eq, decide_eq_true_eq] at h
  have hspecial : ¬ (c = 34 ∨ c = 92) := by
    rintro (rfl | rfl)
    · exact absurd h (by decide)
    · exact absurd h (by decide)
  have hcontrol : ¬ c < 32 := by
    intro hlt
    have hbound : (32 : UInt8) < 48 := by decide
    exact UInt8.lt_irrefl c (UInt8.lt_of_lt_of_le (UInt8.lt_trans hlt hbound) h.1)
  rw [escapeByte, if_neg hspecial, if_neg hcontrol]

theorem escape_decimalInt (n : ℤ) : escape (decimalInt n) = decimalInt n := by
  have hdecimal : ∀ c ∈ decimal n.natAbs, escapeByte c = [c] := fun c hc =>
    escapeByte_digit (isDigit_of_mem_decimal hc)
  refine escape_of_plain ?_
  unfold decimalInt
  split
  · rw [List.forall_mem_cons]
    exact ⟨rfl, hdecimal⟩
  · exact hdecimal

/-! ## Printed texts are UTF-8 -/

namespace Utf8

variable {u v : Utf8}

theorem after_append (u : Utf8) (s t : Bytes) :
    u.after (s ++ t) = (u.after s).bind fun v => v.after t := by
  induction s generalizing u with
  | nil => rfl
  | cons b s ih =>
    rw [List.cons_append, after, after, Option.bind_assoc]
    exact congrArg _ (funext ih)

theorem next_ascii (hu : u.owed = 0) (hc : c < 128) : u.next c = some start := by
  rw [next, if_pos hu, first, if_pos hc]

theorem after_ascii (hu : u.owed = 0) (h : ∀ c ∈ s, c < 128) (hne : s ≠ []) :
    u.after s = some start := by
  induction s generalizing u with
  | nil => exact absurd rfl hne
  | cons b s ih =>
    rw [after, next_ascii hu (h b List.mem_cons_self), Option.bind_some]
    rcases eq_or_ne s [] with rfl | hs
    · rfl
    · exact ih rfl (fun c hc => h c (List.mem_cons_of_mem _ hc)) hs

theorem low_next (h : u.next c = some v) : 128 ≤ v.low := by
  unfold next at h
  split at h
  · unfold first at h
    repeat' split at h
    all_goals
      cases h <;> decide
  · split at h
    · cases h
      exact UInt8.le_refl 128
    · exact nomatch h

theorem of_next_ascii (hu : 128 ≤ u.low) (hc : c < 128) (h : u.next c = some v) :
    u.owed = 0 ∧ v = start := by
  unfold next at h
  split at h
  · next howed =>
    rw [first, if_pos hc] at h
    exact ⟨howed, (Option.some.inj h).symm⟩
  · split at h
    · next hrange =>
      have hhigh : 128 ≤ c := UInt8.le_trans hu hrange.1
      exact absurd (UInt8.lt_of_lt_of_le hc hhigh) (UInt8.lt_irrefl c)
    · exact nomatch h

/-- What holds between two bytes of a text. -/
structure Sound (u : Utf8) : Prop where
  low : 128 ≤ u.low
  high : u.high ≤ 191
  rest : u.owed = 0 → u = start

theorem sound_start : start.Sound := ⟨by decide, by decide, fun _ => rfl⟩

theorem Sound.next (h : u.next c = some v) : v.Sound := by
  unfold Utf8.next at h
  split at h
  · unfold first at h
    repeat' split at h
    all_goals
      cases h <;> exact ⟨by decide, by decide, by decide⟩
  · split at h
    · cases h
      refine ⟨UInt8.le_refl 128, UInt8.le_refl 191, fun howed => ?_⟩
      rw [start, ← howed]
    · exact nomatch h

theorem Sound.after (hu : u.Sound) (h : u.after s = some v) : v.Sound := by
  induction s generalizing u with
  | nil =>
    cases h
    exact hu
  | cons b s ih =>
    obtain ⟨w, hw, hrest⟩ := Option.bind_eq_some_iff.mp h
    exact ih (Sound.next hw) hrest

/-- A text that may go on stops between characters, or within one whose first byte owes the
bytes that are there and those to come. -/
theorem after_cases (h : start.after s = some v) :
    s = [] ∨ ∃ t lead tail w, s = t ++ lead :: tail ∧ ValidUtf8 t ∧ first lead = some w ∧
      w.owed = tail.length + v.owed ∧ ∀ c ∈ tail, 128 ≤ c ∧ c ≤ 191 := by
  induction s using List.reverseRecOn generalizing v with
  | nil => exact .inl rfl
  | append_singleton s c ih =>
    rw [after_append] at h
    obtain ⟨u, hu, hlast⟩ := Option.bind_eq_some_iff.mp h
    obtain ⟨v', hv, hend⟩ := Option.bind_eq_some_iff.mp hlast
    cases hend
    have hsound := sound_start.after hu
    right
    rw [next] at hv
    split at hv
    · next howed =>
      have hvalid : ValidUtf8 s := by rw [ValidUtf8, hu, hsound.rest howed]
      exact ⟨s, c, [], v, rfl, hvalid, hv, (Nat.zero_add _).symm, List.forall_mem_nil _⟩
    · next howed =>
      split at hv
      · next hc =>
        rcases ih hu with rfl | ⟨t, lead, tail, w, rfl, ht, hlead, hw, htail⟩
        · cases hu
          exact absurd rfl howed
        · cases hv
          refine ⟨t, lead, tail ++ [c], w, by simp, ht, hlead, ?_, ?_⟩
          · rw [hw, List.length_append, List.length_singleton]
            change tail.length + u.owed = tail.length + 1 + (u.owed - 1)
            omega
          · intro b hb
            rcases List.mem_append.mp hb with hb | hb
            · exact htail b hb
            · rw [List.mem_singleton.mp hb]
              exact ⟨UInt8.le_trans hsound.low hc.1, UInt8.le_trans hc.2 hsound.high⟩
      · exact nomatch hv

end Utf8

theorem ValidUtf8.append (hs : ValidUtf8 s) (ht : ValidUtf8 t) : ValidUtf8 (s ++ t) := by
  unfold ValidUtf8 at hs ⊢
  rw [Utf8.after_append, hs]
  exact ht

theorem validUtf8_ascii (h : ∀ c ∈ s, c < 128) : ValidUtf8 s := by
  rcases eq_or_ne s [] with rfl | hs
  · rfl
  · exact Utf8.after_ascii rfl h hs

theorem hexDigit_ascii {d : ℕ} (h : d < 16) : hexDigit d < 128 := by
  revert d
  decide

theorem escapeByte_cases (c : UInt8) :
    (c < 128 ∧ escapeByte c ≠ [] ∧ ∀ b ∈ escapeByte c, b < 128) ∨ escapeByte c = [c] := by
  unfold escapeByte
  split
  · next hspecial =>
    have hc : c < 128 := by
      rcases hspecial with rfl | rfl
      · decide
      · decide
    left
    refine ⟨hc, List.cons_ne_nil _ _, ?_⟩
    simp only [List.forall_mem_cons]
    exact ⟨by decide, hc, nofun⟩
  · split
    · next hcontrol =>
      left
      have hbound : (32 : UInt8) < 128 := by decide
      refine ⟨UInt8.lt_trans hcontrol hbound, List.cons_ne_nil _ _, ?_⟩
      simp only [hex, List.nil_append, List.cons_append, List.forall_mem_cons]
      have hmod : ∀ n, hexDigit (n % 16) < 128 := fun n =>
        hexDigit_ascii (Nat.mod_lt n (by decide))
      exact ⟨by decide, by decide, hmod _, hmod _, hmod _, hmod _, by simp⟩
    · exact .inr rfl

theorem after_escape {u v : Utf8} (hu : 128 ≤ u.low) (h : u.after s = some v) :
    u.after (escape s) = some v := by
  induction s generalizing u with
  | nil => exact h
  | cons c s ih =>
    rw [Utf8.after] at h
    rcases Option.bind_eq_some_iff.mp h with ⟨w, hw, hrest⟩
    have hs := ih (Utf8.low_next hw) hrest
    rw [escape, List.flatMap_cons, Utf8.after_append]
    rcases escapeByte_cases c with ⟨hascii, hne, hall⟩ | hsame
    · -- a byte below 128 stands between two characters, and so may others
      rcases Utf8.of_next_ascii hu hascii hw with ⟨howed, rfl⟩
      rw [Utf8.after_ascii howed hall hne]
      exact hs
    · rw [hsame, Utf8.after, hw]
      exact hs

theorem ValidUtf8.quote (h : ValidUtf8 s) : ValidUtf8 (quote s) := by
  have hmark : ValidUtf8 [34] := rfl
  have hescape : ValidUtf8 (escape s) := after_escape (by decide) h
  exact hmark.append (hescape.append hmark)

/-! ## What is printed is read back -/

theorem skipWs_cons (h : isWs c = false) (s : Bytes) : skipWs (c :: s) = c :: s :=
  List.dropWhile_cons_of_neg (by rw [h]; decide)

@[simp] theorem expect_self (c : UInt8) (s : Bytes) : expect c (c :: s) = some s := by
  simp [expect]

theorem expect_ne {d : UInt8} (h : d ≠ c) (s : Bytes) : expect c (d :: s) = none := by
  simp [expect, h]

theorem hexValue_hexDigit {d : ℕ} (h : d < 16) : hexValue (hexDigit d) = some d := by
  revert d
  decide

theorem unicode_hex (h : c < 32) (rest : Bytes) :
    unicode (hex 4 c.toNat ++ rest) = some ([c], rest) := by
  have hc : c.toNat < 32 := h
  have hvalue : ∀ n, hexValue (hexDigit (n % 16)) = some (n % 16) := fun n =>
    hexValue_hexDigit (Nat.mod_lt n (by decide))
  have hnumber : hex4 (hex 4 c.toNat ++ rest) = some (c.toNat, rest) := by
    simp only [hex, List.nil_append, List.cons_append, hex4, hvalue, Option.bind_eq_bind,
      Option.bind_some, Option.some.injEq, Prod.mk.injEq, and_true]
    omega
  have hencode : Utf8.encode c.toNat = [c] := by
    rw [Utf8.encode, if_pos (by omega), UInt8.ofNat_toNat]
  rw [unicode, hnumber]
  simp only [Option.bind_eq_bind, Option.bind_some]
  rw [if_neg (by omega), if_neg (by omega), hencode]

theorem unit_escapeByte (c : UInt8) (rest : Bytes) :
    unit (escapeByte c ++ rest) = some ([c], rest) := by
  unfold escapeByte
  split
  · next hspecial =>
    rcases hspecial with rfl | rfl
    · rfl
    · rfl
  · next hspecial =>
    rw [not_or] at hspecial
    split
    · next hcontrol => exact unicode_hex hcontrol rest
    · next hplain =>
      simp only [List.singleton_append, unit, if_neg hplain, if_neg hspecial.2]

theorem expect_escapeByte (c : UInt8) (rest : Bytes) : expect 34 (escapeByte c ++ rest) = none := by
  unfold escapeByte
  split
  · exact expect_ne (by decide) _
  · next hspecial =>
    split
    · exact expect_ne (by decide) _
    · exact expect_ne (fun h => hspecial (.inl h)) _

theorem stringRest_escape {fuel : ℕ} (h : s.length < fuel) (rest : Bytes) :
    stringRest fuel (escape s ++ 34 :: rest) = some (s, rest) := by
  induction s generalizing fuel with
  | nil =>
    cases fuel with
    | zero => exact absurd h (Nat.not_lt_zero _)
    | succ fuel => rw [escape, List.flatMap_nil, List.nil_append, stringRest, expect_self]
  | cons c s ih =>
    cases fuel with
    | zero => exact absurd h (Nat.not_lt_zero _)
    | succ fuel =>
      have hrest := ih (Nat.lt_of_succ_lt_succ h)
      have hsplit : escape (c :: s) ++ 34 :: rest =
          escapeByte c ++ (escape s ++ 34 :: rest) := by
        rw [escape, List.flatMap_cons, List.append_assoc]
        rfl
      rw [hsplit, stringRest, expect_escapeByte, unit_escapeByte]
      simp only [Option.bind_eq_bind, Option.bind_some, hrest, List.singleton_append]

theorem length_le_escape (s : Bytes) : s.length ≤ (escape s).length := by
  have hone : ∀ c, 1 ≤ (escapeByte c).length := by
    intro c
    unfold escapeByte
    split
    · exact Nat.le_add_left 1 1
    · split
      · exact Nat.le_add_left 1 _
      · exact Nat.le_refl 1
  induction s with
  | nil => exact Nat.zero_le _
  | cons c s ih =>
    have hc := hone c
    have hlen : (escape (c :: s)).length = (escapeByte c).length + (escape s).length := by
      rw [escape, List.flatMap_cons, List.length_append]
      rfl
    rw [List.length_cons]
    omega

theorem string_quote (s rest : Bytes) : string (quote s ++ rest) = some (s, rest) := by
  have hsplit : quote s ++ rest = 34 :: (escape s ++ 34 :: rest) := by
    rw [quote, List.cons_append, List.append_assoc]
    rfl
  have hlen := length_le_escape s
  rw [hsplit, string, expect_self]
  refine stringRest_escape ?_ rest
  rw [List.length_append]
  omega

/-- A comma or a brace comes next. -/
def Stops (rest : Bytes) : Prop := ∃ c t, rest = c :: t ∧ (c = 44 ∨ c = 125)

theorem digits_decimal (n : ℕ) (h : Stops rest) :
    digits (decimal n ++ rest) = some (decimal n, rest) := by
  rcases h with ⟨c, t, rfl, hc⟩
  have hdigit : ∀ d ∈ decimal n, isDigit d = true := fun d => isDigit_of_mem_decimal
  have hstop : isDigit c = false := by
    rcases hc with rfl | rfl
    · decide
    · decide
  have htake : (decimal n ++ c :: t).takeWhile isDigit = decimal n := by
    rw [List.takeWhile_append_of_pos hdigit, List.takeWhile_cons_of_neg (by rw [hstop]; decide),
      List.append_nil]
  have hdrop : (decimal n ++ c :: t).dropWhile isDigit = c :: t := by
    rw [List.dropWhile_append_of_pos hdigit, List.dropWhile_cons_of_neg (by rw [hstop]; decide)]
  rw [digits, htake, hdrop, if_neg (decimal_ne_nil n)]

theorem number_decimalInt (n : ℤ) (h : Stops rest) :
    number (decimalInt n ++ rest) = some (decimalInt n, rest) := by
  have hint : int (decimal n.natAbs ++ rest) = some (decimal n.natAbs, rest) := by
    -- a number but 0 has no leading zero
    have hzero : ¬ ((decimal n.natAbs).head? = some 48 ∧ decimal n.natAbs ≠ [48]) := by
      rintro ⟨hhead, hne⟩
      exact hne (decimal_of_head hhead)
    rw [int, digits_decimal _ h]
    simp only [Option.bind_eq_bind, Option.bind_some]
    rw [if_neg hzero]
  have hsign : sign (decimalInt n ++ rest) =
      (if n < 0 then [45] else [], decimal n.natAbs ++ rest) := by
    unfold decimalInt
    split
    · rw [sign, List.cons_append, expect_self]
    · rcases hds : decimal n.natAbs with _ | ⟨d, ds⟩
      · exact absurd hds (decimal_ne_nil _)
      · have hd : isDigit d = true :=
          isDigit_of_mem_decimal (hds ▸ List.mem_cons_self)
        have hne : d ≠ 45 := by
          rintro rfl
          exact absurd hd (by decide)
        rw [sign, List.cons_append, expect_ne hne]
  have hrest : frac rest = some ([], rest) ∧ exponent rest = some ([], rest) := by
    rcases h with ⟨c, t, rfl, rfl | rfl⟩
    · exact ⟨rfl, rfl⟩
    · exact ⟨rfl, rfl⟩
  rw [number, hsign]
  simp only [hint, hrest.1, hrest.2, Option.bind_eq_bind, Option.bind_some, List.append_nil]
  unfold decimalInt
  split
  · rfl
  · rfl

/-- Neither white space nor the beginning of another value begins a number. -/
theorem of_number_head (h : c = 45 ∨ isDigit c = true) :
    isWs c = false ∧ c ≠ 34 ∧ c ≠ 123 ∧ c ≠ 91 ∧ c ≠ 110 ∧ c ≠ 116 ∧ c ≠ 102 := by
  rcases h with rfl | hdigit
  · decide
  · have hne : ∀ d, isDigit d = false → c ≠ d := by
      rintro d hd rfl
      exact absurd (hdigit.symm.trans hd) (by decide)
    have hws : isWs c = false := by
      simp [isWs, hne 32 rfl, hne 9 rfl, hne 10 rfl, hne 13 rfl]
    exact ⟨hws, hne _ rfl, hne _ rfl, hne _ rfl, hne _ rfl, hne _ rfl, hne _ rfl⟩

theorem exists_cons_decimalInt (n : ℤ) :
    ∃ c t, decimalInt n = c :: t ∧ (c = 45 ∨ isDigit c = true) := by
  rw [decimalInt]
  split
  · exact ⟨45, _, rfl, .inl rfl⟩
  · rcases hds : decimal n.natAbs with _ | ⟨d, ds⟩
    · exact absurd hds (decimal_ne_nil _)
    · exact ⟨d, ds, rfl, .inr (isDigit_of_mem_decimal (hds ▸ List.mem_cons_self))⟩

theorem value_print (v : Scalar) (fuel : ℕ) (h : Stops rest) :
    value (fuel + 1) (v.print ++ rest) = some (v.value, rest) := by
  cases v with
  | str s =>
    have hstring := string_quote s rest
    have hskip : skipWs (quote s ++ rest) = quote s ++ rest := skipWs_cons (by decide) _
    have hhead : (quote s ++ rest).head? = some 34 := rfl
    rw [Scalar.print, value, hskip, hhead]
    dsimp only
    rw [if_pos rfl, hstring]
    rfl
  | int n =>
    have hnumber := number_decimalInt n h
    rcases exists_cons_decimalInt n with ⟨c, t, heq, hc⟩
    rcases of_number_head hc with ⟨hws, hquote, hbrace, hbracket, hnull, htrue, hfalse⟩
    rw [heq] at hnumber
    rw [Scalar.print, Scalar.value, heq, value, List.cons_append, skipWs_cons hws]
    rw [List.cons_append] at hnumber
    dsimp only [List.head?_cons]
    rw [if_neg hquote, if_neg hbrace, if_neg hbracket, if_neg hnull, if_neg htrue,
      if_neg hfalse, hnumber]
    rfl

theorem members_printMember (m : Bytes × Scalar) (fuel : ℕ) (h : Stops rest) :
    members (fuel + 2) (printMember m ++ rest) =
      match expect 125 (skipWs rest) with
      | some rest => some ([(m.1, m.2.value)], rest)
      | none => (do
        let s ← expect 44 (skipWs rest)
        let (ms, rest) ← members (fuel + 1) s
        some ((m.1, m.2.value) :: ms, rest)) := by
  have hsplit : printMember m ++ rest = quote m.1 ++ 58 :: (m.2.print ++ rest) := by
    rw [printMember, List.append_assoc]
    rfl
  have hskip : skipWs (printMember m ++ rest) = printMember m ++ rest :=
    skipWs_cons (by decide) _
  have hcolon : expect 58 (skipWs (58 :: (m.2.print ++ rest))) = some (m.2.print ++ rest) := by
    rw [skipWs_cons (by decide), expect_self]
  rw [members, hskip, hsplit, string_quote]
  simp only [Option.bind_eq_bind, Option.bind_some, hcolon, value_print m.2 fuel h]

theorem printMembers_cons_cons (m m' : Bytes × Scalar) (ms : List (Bytes × Scalar)) :
    printMembers (m :: m' :: ms) = printMember m ++ 44 :: printMembers (m' :: ms) := rfl

def readMembers (ms : List (Bytes × Scalar)) : List (Bytes × Value) :=
  ms.map fun m => (m.1, m.2.value)

theorem members_printMembers (hne : ms ≠ []) {fuel : ℕ}
    (h : ms.length < fuel) : members fuel (printMembers ms) = some (readMembers ms, []) := by
  induction ms generalizing fuel with
  | nil => exact absurd rfl hne
  | cons m ms ih =>
    rw [List.length_cons] at h
    obtain ⟨fuel, rfl⟩ : ∃ k, fuel = k + 2 := ⟨fuel - 2, by omega⟩
    cases ms with
    | nil =>
      have hstop : Stops [125] := ⟨125, [], rfl, .inr rfl⟩
      rw [printMembers, members_printMember m fuel hstop]
      rfl
    | cons m' ms =>
      have hstop : Stops (44 :: printMembers (m' :: ms)) := ⟨44, _, rfl, .inl rfl⟩
      have hrest := ih (List.cons_ne_nil _ _) (by omega : (m' :: ms).length < fuel + 1)
      rw [printMembers_cons_cons, members_printMember m fuel hstop, skipWs_cons (by decide),
        expect_ne (by decide), expect_self]
      simp only [Option.bind_eq_bind, Option.bind_some, hrest]
      rfl

theorem length_le_printMembers (ms : List (Bytes × Scalar)) :
    ms.length ≤ (printMembers ms).length := by
  induction ms with
  | nil => exact Nat.zero_le _
  | cons m ms ih =>
    cases ms with
    | nil =>
      rw [printMembers, List.length_append]
      exact Nat.le_add_left 1 _
    | cons m' ms =>
      rw [printMembers_cons_cons, List.length_append, List.length_cons, List.length_cons]
      rw [List.length_cons] at ih
      simp only [List.length_cons]
      omega

def Scalar.Printable : Scalar → Prop
  | .str s => ValidUtf8 s
  | .int _ => True

def Printable (ms : List (Bytes × Scalar)) : Prop := ∀ m ∈ ms, ValidUtf8 m.1 ∧ m.2.Printable

theorem validUtf8_decimalInt (n : ℤ) : ValidUtf8 (decimalInt n) := by
  have hdecimal : ∀ c ∈ decimal n.natAbs, c < 128 := by
    intro c hc
    have hdigit := isDigit_of_mem_decimal hc
    rw [isDigit, Bool.and_eq_true, decide_eq_true_eq, decide_eq_true_eq] at hdigit
    have hbound : (57 : UInt8) < 128 := by decide
    exact UInt8.lt_of_le_of_lt hdigit.2 hbound
  unfold decimalInt
  split
  · refine validUtf8_ascii ?_
    rw [List.forall_mem_cons]
    exact ⟨by decide, hdecimal⟩
  · exact validUtf8_ascii hdecimal

theorem Printable.printMembers (h : Printable ms) :
    ValidUtf8 (printMembers ms) := by
  have hmember : ∀ m ∈ ms, ValidUtf8 (printMember m) := by
    rintro ⟨name, v⟩ hm
    have hcolon : ValidUtf8 [58] := rfl
    have hname := (h _ hm).1.quote
    cases v with
    | str s =>
      have hs : ValidUtf8 s := (h _ hm).2
      exact hname.append (hcolon.append hs.quote)
    | int n => exact hname.append (hcolon.append (validUtf8_decimalInt n))
  have hcomma : ValidUtf8 [44] := rfl
  have hbrace : ValidUtf8 [125] := rfl
  clear h
  induction ms with
  | nil => exact hbrace
  | cons m ms ih =>
    rw [List.forall_mem_cons] at hmember
    cases ms with
    | nil => exact hmember.1.append hbrace
    | cons m' ms => exact hmember.1.append (hcomma.append (ih hmember.2))

theorem printMembers_head (hne : ms ≠ []) :
    ∃ t, printMembers ms = 34 :: t := by
  cases ms with
  | nil => exact absurd rfl hne
  | cons m ms =>
    cases ms with
    | nil => exact ⟨_, rfl⟩
    | cons m' ms => exact ⟨_, rfl⟩

theorem parse_printObject (h : Printable ms) :
    parse (printObject ms) = some (.obj (readMembers ms)) := by
  have hbrace : ValidUtf8 [123] := rfl
  have hvalid : ValidUtf8 (printObject ms) := hbrace.append h.printMembers
  have hvalue : value ((printObject ms).length + 1) (printObject ms) =
      some (.obj (readMembers ms), []) := by
    rw [printObject, value, skipWs_cons (by decide)]
    dsimp only [List.head?_cons]
    rw [if_neg (by decide), if_pos rfl]
    rcases eq_or_ne ms [] with rfl | hne
    · rfl
    · rcases printMembers_head hne with ⟨t, ht⟩
      have hlen := length_le_printMembers ms
      have hmembers := members_printMembers hne (Nat.lt_succ_of_le hlen)
      have hopen : expect 125 (skipWs (printMembers ms)) = none := by
        rw [ht, skipWs_cons (by decide), expect_ne (by decide)]
      have hdrop : List.drop 1 (123 :: printMembers ms) = printMembers ms := rfl
      rw [hdrop, hopen, List.length_cons, hmembers]
      rfl
  rw [parse, if_pos hvalid, hvalue]
  rfl

end FlyBoard.Json

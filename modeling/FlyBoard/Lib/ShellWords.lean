import FlyBoard.Lib.Bytes

/-!
# The words of a shell command

How `sh` splits a simple command into words: blanks separate them, single quotes keep what is
between them, and a backslash outside of quotes keeps the next byte. A command with anything
else that means something to the shell has no words here. When the arguments of a command are
written in quotes, with each quote in them as `'\''`, they come back as they are.
-/

namespace FlyBoard.ShellWords

open Bytes

inductive Mode where
  | outside
  | quoted
  | escaped

/-- The words that are complete, and the one that has begun. -/
structure State where
  words : List Bytes
  word : Option Bytes
  mode : Mode

/-- A byte that stands for itself outside of quotes. -/
def isPlain (c : UInt8) : Bool :=
  isDigit c || isLower c || 65 ≤ c && c ≤ 90 || [45, 95, 46, 47, 58, 43].contains c

def State.add (st : State) (s : Bytes) (mode : Mode) : State :=
  { st with word := some (st.word.getD [] ++ s), mode := mode }

def step (st : State) (c : UInt8) : Option State :=
  match st.mode with
  | .quoted => some (if c = 39 then st.add [] .outside else st.add [c] .quoted)
  | .escaped => if c = 10 then none else some (st.add [c] .outside)
  | .outside =>
    if c = 39 then some (st.add [] .quoted)
    else if c = 92 then some (st.add [] .escaped)
    else if c = 32 then some ⟨st.words ++ st.word.toList, none, .outside⟩
    else if isPlain c then some (st.add [c] .outside)
    else none

def State.finish (st : State) : Option (List Bytes) :=
  match st.mode with
  | .outside => some (st.words ++ st.word.toList)
  | _ => none

def split (command : Bytes) : Option (List Bytes) :=
  (command.foldlM step ⟨[], none, .outside⟩).bind State.finish

/-- A text for between single quotes. -/
def escape (arg : Bytes) : Bytes :=
  arg.flatMap fun c => if c = 39 then [39, 92, 39, 39] else [c]

/-- What a quoted word is written of; only an argument is escaped. -/
inductive Part where
  | text (s : Bytes)
  | number (n : ℤ)
  | arg (s : Bytes)

namespace Part

def written : Part → Bytes
  | text s => s
  | number n => decimalInt n
  | arg s => escape s

def value : Part → Bytes
  | text s => s
  | number n => decimalInt n
  | arg s => s

def sound : Part → Bool
  | text s => !s.contains 39
  | _ => true

end Part

inductive Word where
  | plain (s : Bytes)
  | quoted (parts : List Part)

def Word.written : Word → Bytes
  | plain s => s
  | quoted parts => 39 :: parts.flatMap Part.written ++ [39]

def Word.value : Word → Bytes
  | plain s => s
  | quoted parts => parts.flatMap Part.value

/-- Nothing but the arguments needs to be escaped. -/
def Word.sound : Word → Bool
  | plain s => !s.isEmpty && s.all isPlain
  | quoted parts => parts.all Part.sound

/-- Options that are written without quotes. -/
def plains (options : List String) : List Word := options.map fun s => .plain (bytes s)

def command : List Word → Bytes
  | [] => []
  | [w] => w.written
  | w :: ws => w.written ++ 32 :: command ws

variable {ws : List Bytes} {s : Bytes}

theorem step_plain {st : State} (hst : st.mode = .outside) {c : UInt8} (hc : isPlain c = true) :
    step st c = some (st.add [c] .outside) := by
  have hquote : c ≠ 39 := by rintro rfl; exact absurd hc (by decide)
  have hslash : c ≠ 92 := by rintro rfl; exact absurd hc (by decide)
  have hblank : c ≠ 32 := by rintro rfl; exact absurd hc (by decide)
  rw [step, hst]
  dsimp only
  rw [if_neg hquote, if_neg hslash, if_neg hblank, if_pos hc]

theorem foldlM_plain (hs : ∀ c ∈ s, isPlain c = true) (w : Bytes) :
    s.foldlM step ⟨ws, some w, .outside⟩ = some ⟨ws, some (w ++ s), .outside⟩ := by
  induction s generalizing w with
  | nil => simp
  | cons c s ih =>
    rw [List.foldlM_cons, step_plain rfl (hs c List.mem_cons_self)]
    refine (ih (fun d hd => hs d (List.mem_cons_of_mem _ hd)) (w ++ [c])).trans ?_
    rw [List.append_assoc, List.singleton_append]

theorem foldlM_text (hs : (39 : UInt8) ∉ s) (w : Bytes) :
    s.foldlM step ⟨ws, some w, .quoted⟩ = some ⟨ws, some (w ++ s), .quoted⟩ := by
  induction s generalizing w with
  | nil => simp
  | cons c s ih =>
    rw [List.mem_cons, not_or] at hs
    have hstep : step ⟨ws, some w, .quoted⟩ c = some ⟨ws, some (w ++ [c]), .quoted⟩ := by
      simp [step, State.add, Ne.symm hs.1]
    rw [List.foldlM_cons, hstep]
    refine (ih hs.2 (w ++ [c])).trans ?_
    rw [List.append_assoc, List.singleton_append]

/-- Each quote closes the quotes, stands for itself behind a backslash, and opens them again. -/
theorem foldlM_escape (s w : Bytes) :
    (escape s).foldlM step ⟨ws, some w, .quoted⟩ = some ⟨ws, some (w ++ s), .quoted⟩ := by
  induction s generalizing w with
  | nil => simp [escape]
  | cons c s ih =>
    have hfirst : (if c = 39 then [39, 92, 39, 39] else [c]).foldlM step
        ⟨ws, some w, .quoted⟩ = some ⟨ws, some (w ++ [c]), .quoted⟩ := by
      split
      next hc => simp [step, State.add, hc]
      next hc => simp [step, State.add, hc]
    have hsplit : escape (c :: s) = (if c = 39 then [39, 92, 39, 39] else [c]) ++ escape s := rfl
    rw [hsplit, List.foldlM_append, hfirst]
    refine (ih (w ++ [c])).trans ?_
    rw [List.append_assoc, List.singleton_append]

theorem quote_not_mem_decimalInt (n : ℤ) : (39 : UInt8) ∉ decimalInt n := by
  unfold decimalInt
  split
  · rw [List.mem_cons, not_or]
    exact ⟨by decide, not_mem_decimal (by decide)⟩
  · exact not_mem_decimal (by decide)

theorem foldlM_part {p : Part} (hp : p.sound = true) (w : Bytes) :
    p.written.foldlM step ⟨ws, some w, .quoted⟩ = some ⟨ws, some (w ++ p.value), .quoted⟩ := by
  cases p with
  | text s =>
    have hs : (39 : UInt8) ∉ s := by simpa [Part.sound] using hp
    exact foldlM_text hs w
  | number n => exact foldlM_text (quote_not_mem_decimalInt n) w
  | arg s => exact foldlM_escape s w

theorem foldlM_parts {parts : List Part} (h : parts.all Part.sound = true) (w : Bytes) :
    (parts.flatMap Part.written).foldlM step ⟨ws, some w, .quoted⟩ =
      some ⟨ws, some (w ++ parts.flatMap Part.value), .quoted⟩ := by
  induction parts generalizing w with
  | nil => simp
  | cons p parts ih =>
    rw [List.all_cons, Bool.and_eq_true] at h
    rw [List.flatMap_cons, List.foldlM_append, foldlM_part h.1]
    refine (ih h.2 _).trans ?_
    rw [List.flatMap_cons, List.append_assoc]

theorem foldlM_word {a : Word} (ha : a.sound = true) (ws : List Bytes) :
    a.written.foldlM step ⟨ws, none, .outside⟩ = some ⟨ws, some a.value, .outside⟩ := by
  cases a with
  | plain s =>
    cases s with
    | nil => exact absurd ha Bool.false_ne_true
    | cons c s =>
      have hs : ∀ d ∈ c :: s, isPlain d = true := List.all_eq_true.mp ha
      refine (List.foldlM_cons ..).trans ?_
      rw [step_plain rfl (hs c List.mem_cons_self)]
      exact foldlM_plain (fun d hd => hs d (List.mem_cons_of_mem _ hd)) [c]
  | quoted parts =>
    refine (List.foldlM_append ..).trans ?_
    rw [List.foldlM_cons]
    change ((parts.flatMap Part.written).foldlM step ⟨ws, some [], .quoted⟩ >>= _) = _
    rw [foldlM_parts ha]
    simp [step, State.add, Word.value]

theorem split_command {as : List Word} (h : as.all Word.sound = true) :
    split (command as) = some (as.map Word.value) := by
  have hrun : ∀ ws, ((command as).foldlM step ⟨ws, none, .outside⟩).bind State.finish =
      some (ws ++ as.map Word.value) := by
    induction as with
    | nil => intro ws; rfl
    | cons a as ih =>
      intro ws
      rw [List.all_cons, Bool.and_eq_true] at h
      have ha := foldlM_word h.1 ws
      have hrest := ih h.2 (ws ++ [a.value])
      rw [List.append_assoc, List.singleton_append, ← List.map_cons] at hrest
      cases as with
      | nil => rw [command, ha]; rfl
      | cons b as =>
        have hsplit : command (a :: b :: as) = a.written ++ 32 :: command (b :: as) := rfl
        rw [hsplit, List.foldlM_append, ha, ← hrest]
        rfl
  exact hrun []

end FlyBoard.ShellWords

import FlyBoard.Lib.Bytes
import Mathlib.Data.List.Count
import Mathlib.Tactic.Common

/-!
# A receiver of mail

The receiving side of RFC 5321, for a receiver that answers every command with success. It
cuts what it is sent into lines at CRLF and nowhere else. Outside of a message a line is a
command; after DATA lines belong to the message, until one that is a single dot, and a dot
before other text is taken away. `Session` keeps what was read, in order, and the replies
that the sender has not taken yet.
-/

namespace FlyBoard.Smtp

open Bytes

/-! ## Lines -/

def consHead (c : UInt8) : List Bytes → List Bytes
  | [] => [[c]]
  | l :: ls => (c :: l) :: ls

def crlfLines : Bytes → List Bytes
  | [] => [[]]
  | [c] => [[c]]
  | c :: d :: t =>
    if c = 13 ∧ d = 10 then [] :: crlfLines t else consHead c (crlfLines (d :: t))

def joinLines : List Bytes → Bytes
  | [] => []
  | [l] => l
  | l :: ls => l ++ 13 :: 10 :: joinLines ls

def OneLine (text : Bytes) : Prop := (crlfLines text).length = 1

instance : DecidablePred OneLine := fun _ => inferInstanceAs (Decidable (_ = _))

theorem crlfLines_cons_cons (c d : UInt8) (t : Bytes) :
    crlfLines (c :: d :: t) =
      if c = 13 ∧ d = 10 then [] :: crlfLines t else consHead c (crlfLines (d :: t)) := rfl

variable {ls : List Bytes}

theorem consHead_append (c : UInt8) (h : ls ≠ []) (ls' : List Bytes) :
    consHead c (ls ++ ls') = consHead c ls ++ ls' := by
  cases ls with
  | nil => exact absurd rfl h
  | cons l ls => rfl

theorem length_consHead (c : UInt8) (h : ls ≠ []) :
    (consHead c ls).length = ls.length := by
  cases ls with
  | nil => exact absurd rfl h
  | cons l ls => rfl

theorem crlfLines_ne_nil (text : Bytes) : crlfLines text ≠ [] := by
  induction text using crlfLines.induct with
  | case1 => exact List.cons_ne_nil _ _
  | case2 c => exact List.cons_ne_nil _ _
  | case3 c d t h ih =>
    rw [crlfLines_cons_cons, if_pos h]
    exact List.cons_ne_nil _ _
  | case4 c d t h ih =>
    rw [crlfLines_cons_cons, if_neg h]
    cases hls : crlfLines (d :: t) with
    | nil => exact absurd hls ih
    | cons l ls => exact List.cons_ne_nil _ _

/-- CRLF always ends a line, whatever stands before and after it. -/
theorem crlfLines_append_crlf (a b : Bytes) :
    crlfLines (a ++ 13 :: 10 :: b) = crlfLines a ++ crlfLines b := by
  induction a using crlfLines.induct with
  | case1 => rfl
  | case2 c =>
    have hc : ¬ (c = 13 ∧ (13 : UInt8) = 10) := by
      intro h
      exact absurd h.2 (by decide)
    have hb : crlfLines (13 :: 10 :: b) = [] :: crlfLines b := rfl
    rw [List.cons_append, List.nil_append, crlfLines_cons_cons, if_neg hc, hb]
    rfl
  | case3 c d t h ih =>
    rw [List.cons_append, List.cons_append, crlfLines_cons_cons, if_pos h, ih, crlfLines_cons_cons,
      if_pos h]
    rfl
  | case4 c d t h ih =>
    rw [List.cons_append] at ih
    rw [List.cons_append, List.cons_append, crlfLines_cons_cons, if_neg h, ih, crlfLines_cons_cons,
      if_neg h, consHead_append c (crlfLines_ne_nil _)]

theorem joinLines_cons (l : Bytes) (h : ls ≠ []) :
    joinLines (l :: ls) = l ++ 13 :: 10 :: joinLines ls := by
  cases ls with
  | nil => exact absurd rfl h
  | cons l' ls => rfl

theorem joinLines_consHead (c : UInt8) (ls : List Bytes) :
    joinLines (consHead c ls) = c :: joinLines ls := by
  cases ls with
  | nil => rfl
  | cons l ls =>
    cases ls with
    | nil => rfl
    | cons l' ls => rfl

theorem joinLines_crlfLines (text : Bytes) : joinLines (crlfLines text) = text := by
  induction text using crlfLines.induct with
  | case1 => rfl
  | case2 c => rfl
  | case3 c d t h ih =>
    rw [crlfLines_cons_cons, if_pos h, joinLines_cons [] (crlfLines_ne_nil t), ih, h.1, h.2]
    rfl
  | case4 c d t h ih => rw [crlfLines_cons_cons, if_neg h, joinLines_consHead, ih]

theorem OneLine.eq {text : Bytes} (h : OneLine text) : crlfLines text = [text] := by
  obtain ⟨l, hl⟩ := List.length_eq_one_iff.mp h
  have hjoin := joinLines_crlfLines text
  rw [hl] at hjoin ⊢
  rw [← hjoin]
  rfl

theorem length_head_of_not_oneLine {text l : Bytes}
    (hl : crlfLines text = l :: ls) (h : ¬ OneLine text) : l.length + 2 ≤ text.length := by
  have hne : ls ≠ [] := by
    rintro rfl
    exact h (by rw [OneLine, hl]; rfl)
  have hjoin := joinLines_crlfLines text
  rw [hl, joinLines_cons l hne] at hjoin
  rw [← hjoin, List.length_append, List.length_cons, List.length_cons]
  omega

theorem crlfLines_append_of_not_mem {pre text l : Bytes} (hpre : 13 ∉ pre)
    (hl : crlfLines text = l :: ls) : crlfLines (pre ++ text) = (pre ++ l) :: ls := by
  induction pre with
  | nil => exact hl
  | cons c pre ih =>
    rw [List.mem_cons, not_or] at hpre
    obtain ⟨hc, hpre⟩ := hpre
    have htail := ih hpre
    cases hrest : pre ++ text with
    | nil =>
      obtain ⟨rfl, rfl⟩ := List.append_eq_nil_iff.mp hrest
      cases hl
      rfl
    | cons d t =>
      rw [List.cons_append, hrest, crlfLines_cons_cons, if_neg (fun h => hc h.1.symm), ← hrest,
        htail]
      rfl

theorem oneLine_append_of_not_mem {pre text : Bytes} (hpre : 13 ∉ pre) :
    OneLine (pre ++ text) ↔ OneLine text := by
  obtain ⟨l, ls, hl⟩ := List.exists_cons_of_ne_nil (crlfLines_ne_nil text)
  rw [OneLine, OneLine, crlfLines_append_of_not_mem hpre hl, hl, List.length_cons, List.length_cons]

theorem oneLine_append_singleton {text : Bytes} {c : UInt8} (hc : c ≠ 10) :
    OneLine (text ++ [c]) ↔ OneLine text := by
  have hlength : (crlfLines (text ++ [c])).length = (crlfLines text).length := by
    induction text using crlfLines.induct with
    | case1 => rfl
    | case2 d =>
      rw [List.cons_append, List.nil_append, crlfLines_cons_cons, if_neg (fun h => hc h.2)]
      rfl
    | case3 a b t h ih =>
      rw [List.cons_append, List.cons_append, crlfLines_cons_cons, if_pos h, crlfLines_cons_cons,
        if_pos h, List.length_cons, List.length_cons, ih]
    | case4 a b t h ih =>
      rw [List.cons_append] at ih
      rw [List.cons_append, List.cons_append, crlfLines_cons_cons, if_neg h, crlfLines_cons_cons,
        if_neg h, length_consHead a (crlfLines_ne_nil _), length_consHead a (crlfLines_ne_nil _), ih]
  rw [OneLine, OneLine, hlength]

theorem oneLine_of_not_mem {text : Bytes} (h : 13 ∉ text) : OneLine text := by
  have happend : OneLine (text ++ []) := (oneLine_append_of_not_mem h).mpr rfl
  rwa [List.append_nil] at happend

/-! ## Commands -/

/-- What stands before the closing bracket of a path, and after it. A bracket in a quoted
string does not close it. -/
def scanPath : (quoted : Bool) → Bytes → Option (Bytes × Bytes)
  | _, [] => none
  | true, 92 :: c :: t => (scanPath true t).map fun r => (92 :: c :: r.1, r.2)
  | true, 34 :: t => (scanPath false t).map fun r => (34 :: r.1, r.2)
  | false, 34 :: t => (scanPath true t).map fun r => (34 :: r.1, r.2)
  | false, 62 :: t => some ([], t)
  | quoted, c :: t => (scanPath quoted t).map fun r => (c :: r.1, r.2)

def readPath : Bytes → Option (Bytes × Bytes)
  | 60 :: t => scanPath false t
  | _ => none

theorem length_scanPath {quoted : Bool} {s path rest : Bytes}
    (h : scanPath quoted s = some (path, rest)) : path.length + 1 + rest.length = s.length := by
  induction quoted, s using scanPath.induct generalizing path rest with
  | case1 => exact nomatch h
  | case5 t =>
    rw [scanPath] at h
    cases h
    rw [List.length_nil, List.length_cons]
    omega
  | case2 c t ih =>
    rw [scanPath, Option.map_eq_some_iff] at h
    obtain ⟨r, hr, heq⟩ := h
    have hlen := ih hr
    cases heq
    simp only [List.length_cons]
    omega
  | case3 t ih =>
    rw [scanPath, Option.map_eq_some_iff] at h
    obtain ⟨r, hr, heq⟩ := h
    have hlen := ih hr
    cases heq
    simp only [List.length_cons]
    omega
  | case4 t ih =>
    rw [scanPath, Option.map_eq_some_iff] at h
    obtain ⟨r, hr, heq⟩ := h
    have hlen := ih hr
    cases heq
    simp only [List.length_cons]
    omega
  | case6 quoted c t h₁ h₂ h₃ h₄ ih =>
    rw [scanPath, Option.map_eq_some_iff] at h
    · obtain ⟨r, hr, heq⟩ := h
      have hlen := ih hr
      cases heq
      simp only [List.length_cons]
      omega
    all_goals assumption

def IsPath (address : Bytes) : Prop := scanPath false (address ++ [62]) = some (address, [])

instance : DecidablePred IsPath := fun _ => inferInstanceAs (Decidable (_ = _))

inductive Event
  | hello (domain : Bytes)
  | starttls
  | authLogin
  | credential (line : Bytes)
  | mail (path : Option (Bytes × Bytes))
  | rcpt (path : Option (Bytes × Bytes))
  | data
  | message (lines : List Bytes)
  | quit
  | other (line : Bytes)
deriving DecidableEq

def commandEvent (line : Bytes) : Event :=
  if startsWithCI line (bytes "EHLO ") then .hello (line.drop 5)
  else if eqCI line (bytes "STARTTLS") then .starttls
  else if eqCI line (bytes "AUTH LOGIN") then .authLogin
  else if startsWithCI line (bytes "MAIL FROM:") then .mail (readPath (line.drop 10))
  else if startsWithCI line (bytes "RCPT TO:") then .rcpt (readPath (line.drop 8))
  else if eqCI line (bytes "DATA") then .data
  else if eqCI line (bytes "QUIT") then .quit
  else .other line

/-! ## Sessions -/

/-- What the next line is: a command, one of so many more credentials, a line of a message,
or nothing. -/
inductive Mode
  | command
  | credentials (more : ℕ)
  | data (lines : List Bytes)
  | closed
deriving DecidableEq

structure Session where
  mode : Mode
  rest : Bytes
  log : List Event
  replies : List ℕ
deriving DecidableEq

def successCode : Event → ℕ
  | .starttls => 220
  | .authLogin => 334
  | .data => 354
  | .quit => 221
  | _ => 250

def modeAfter : Event → Mode
  | .authLogin => .credentials 1
  | .data => .data []
  | .quit => .closed
  | _ => .command

def Session.record (s : Session) (mode : Mode) (e : Event) (code : ℕ) : Session :=
  { s with mode := mode, log := s.log ++ [e], replies := s.replies ++ [code] }

def undot : Bytes → Bytes
  | 46 :: t => t
  | l => l

def handleLine (s : Session) (line : Bytes) : Session :=
  match s.mode with
  | .command =>
    let e := commandEvent line
    s.record (modeAfter e) e (successCode e)
  | .credentials 0 => s.record .command (.credential line) 235
  | .credentials (more + 1) => s.record (.credentials more) (.credential line) 334
  | .data lines =>
    if line = [46] then s.record .command (.message lines) 250
    else { s with mode := .data (lines ++ [undot line]) }
  | .closed => s

def Session.feed (s : Session) (input : Bytes) : Session :=
  let pieces := crlfLines (s.rest ++ input)
  { pieces.dropLast.foldl handleLine s with rest := pieces.getLastD [] }

def Session.takeReply (s : Session) : Session × Option ℕ :=
  match s.replies with
  | [] => (s, none)
  | code :: replies => ({ s with replies := replies }, some code)

def Session.opened : Session := ⟨.command, [], [], [220]⟩

def headerLines (lines : List Bytes) : List Bytes := lines.takeWhile (· ≠ [])

/-- The body of a message: the text after the first empty line. -/
def bodyText (lines : List Bytes) : Bytes := joinLines ((lines.dropWhile (· ≠ [])).drop 1)

variable {l : Bytes}

theorem headerLines_cons (h : l ≠ []) (lines : List Bytes) :
    headerLines (l :: lines) = l :: headerLines lines := by
  have hkept : decide (l ≠ []) = true := decide_eq_true h
  rw [headerLines, List.takeWhile_cons, hkept, if_pos rfl, headerLines]

theorem headerLines_empty (lines : List Bytes) : headerLines ([] :: lines) = [] := rfl

theorem bodyText_cons (h : l ≠ []) (lines : List Bytes) :
    bodyText (l :: lines) = bodyText lines := by
  have hkept : decide (l ≠ []) = true := decide_eq_true h
  rw [bodyText, List.dropWhile_cons, hkept, if_pos rfl, bodyText]

theorem bodyText_empty (lines : List Bytes) : bodyText ([] :: lines) = joinLines lines := rfl

def normalise : Bytes → Bytes
  | [] => []
  | [c] => [c]
  | c :: d :: t => if c = 13 ∧ d = 10 then 10 :: normalise t else c :: normalise (d :: t)

/-! ## What a session does with lines -/

variable {s : Session} {lines more : List Bytes} {line text : Bytes}

theorem rest_handleLine (s : Session) (line : Bytes) : (handleLine s line).rest = s.rest := by
  unfold handleLine
  split
  · rfl
  · rfl
  · rfl
  · split <;> rfl
  · rfl

theorem rest_foldl (s : Session) (lines : List Bytes) :
    (lines.foldl handleLine s).rest = s.rest := by
  induction lines generalizing s with
  | nil => rfl
  | cons l lines ih => rw [List.foldl_cons, ih, rest_handleLine]

theorem log_handleLine (s : Session) (line : Bytes) : s.log <+: (handleLine s line).log := by
  unfold handleLine
  split
  · exact List.prefix_append _ _
  · exact List.prefix_append _ _
  · exact List.prefix_append _ _
  · split
    · exact List.prefix_append _ _
    · exact List.prefix_refl _
  · exact List.prefix_refl _

theorem log_foldl (s : Session) (lines : List Bytes) :
    s.log <+: (lines.foldl handleLine s).log := by
  induction lines generalizing s with
  | nil => exact List.prefix_refl _
  | cons l lines ih =>
    rw [List.foldl_cons]
    exact (log_handleLine s l).trans (ih _)

theorem feed_crlf (hrest : s.rest = []) (text : Bytes) :
    s.feed (text ++ [13, 10]) = (crlfLines text).foldl handleLine s := by
  have hpieces : crlfLines (text ++ [13, 10]) = crlfLines text ++ [[]] :=
    crlfLines_append_crlf text []
  have hkept := rest_foldl s (crlfLines text)
  rw [hrest] at hkept
  rw [Session.feed, hrest, List.nil_append, hpieces]
  simp only [List.dropLast_concat, List.getLastD_concat, ← hkept]

theorem log_feed_command (hmode : s.mode = .command) (hrest : s.rest = [])
    (hl : crlfLines text = line :: more) :
    s.log ++ [commandEvent line] <+: (s.feed (text ++ [13, 10])).log := by
  have hfirst : (handleLine s line).log = s.log ++ [commandEvent line] := by
    rw [handleLine, hmode]
    rfl
  rw [feed_crlf hrest, hl, List.foldl_cons, ← hfirst]
  exact log_foldl _ _

theorem feed_command (hmode : s.mode = .command) (hrest : s.rest = []) (hline : OneLine text) :
    s.feed (text ++ [13, 10]) =
      s.record (modeAfter (commandEvent text)) (commandEvent text)
        (successCode (commandEvent text)) := by
  rw [feed_crlf hrest, hline.eq, List.foldl_cons, List.foldl_nil, handleLine, hmode]

theorem foldl_data {kept : List Bytes} (hmode : s.mode = .data kept)
    (hdot : ∀ l ∈ lines, l ≠ [46]) :
    lines.foldl handleLine s = { s with mode := .data (kept ++ lines.map undot) } := by
  induction lines generalizing s kept with
  | nil =>
    rw [List.map_nil, List.append_nil, ← hmode]
    rfl
  | cons l lines ih =>
    obtain ⟨hl, hlines⟩ := List.forall_mem_cons.mp hdot
    have hstep : handleLine s l = { s with mode := .data (kept ++ [undot l]) } := by
      rw [handleLine, hmode]
      exact if_neg hl
    rw [List.foldl_cons, hstep, ih rfl hlines, List.map_cons, List.append_assoc]
    rfl

theorem foldl_message (hmode : s.mode = .data []) (lines : List Bytes)
    (hdot : ∀ l ∈ lines, l ≠ [46]) (more : List Bytes) :
    (lines ++ [46] :: more).foldl handleLine s =
      more.foldl handleLine (s.record .command (.message (lines.map undot)) 250) := by
  have hend : handleLine { s with mode := .data (lines.map undot) } [46] =
      s.record .command (.message (lines.map undot)) 250 := by
    rw [handleLine]
    exact if_pos rfl
  rw [List.foldl_append, List.foldl_cons, foldl_data hmode hdot, List.nil_append, hend]

/-! ## Dots -/

theorem undot_eq (h : l.head? ≠ some 46) : undot l = l := by
  cases l with
  | nil => rfl
  | cons c l =>
    have hc : c ≠ 46 := fun hc => h (congrArg some hc)
    unfold undot
    split
    · next heq => exact absurd (List.cons.inj heq).1 hc
    · rfl

theorem count_undot_le (l : Bytes) : (undot l).count 46 ≤ l.count 46 := by
  unfold undot
  split
  · exact List.count_le_count_cons
  · exact le_rfl

theorem count_undot_lt (h : l.head? = some 46) : (undot l).count 46 < l.count 46 := by
  cases l with
  | nil => exact nomatch h
  | cons c l =>
    have hc : c = 46 := Option.some.inj h
    subst hc
    rw [List.count_cons_self]
    exact Nat.lt_succ_self _

theorem count_normalise (t : Bytes) : (normalise t).count 46 = t.count 46 := by
  induction t using normalise.induct with
  | case1 => rfl
  | case2 c => rfl
  | case3 c d t h ih =>
    rw [normalise, if_pos h, h.1, h.2, List.count_cons_of_ne (by decide),
      List.count_cons_of_ne (by decide), List.count_cons_of_ne (by decide), ih]
  | case4 c d t h ih => rw [normalise, if_neg h, List.count_cons, List.count_cons, ih]

def dots (lines : List Bytes) : ℕ := (lines.map (·.count 46)).sum

theorem dots_cons (l : Bytes) (lines : List Bytes) : dots (l :: lines) = l.count 46 + dots lines :=
  List.sum_cons

theorem count_joinLines (lines : List Bytes) : (joinLines lines).count 46 = dots lines := by
  induction lines with
  | nil => rfl
  | cons l lines ih =>
    cases lines with
    | nil => simp [joinLines, dots]
    | cons l' lines =>
      rw [joinLines_cons l (List.cons_ne_nil _ _), List.count_append,
        List.count_cons_of_ne (by decide), List.count_cons_of_ne (by decide), ih, dots_cons l]

def received (lines : List Bytes) : List Bytes := (lines.takeWhile (· ≠ [46])).map undot

theorem received_cons (h : l ≠ [46]) (lines : List Bytes) :
    received (l :: lines) = undot l :: received lines := by
  have hkept : decide (l ≠ [46]) = true := decide_eq_true h
  rw [received, List.takeWhile_cons, hkept, if_pos rfl, List.map_cons, received]

theorem received_cons_dot (lines : List Bytes) : received ([46] :: lines) = [] := by
  rw [received, List.takeWhile_cons_of_neg (by decide), List.map_nil]

theorem dots_received_le (lines : List Bytes) : dots (received lines) ≤ dots lines := by
  induction lines with
  | nil => exact le_rfl
  | cons l lines ih =>
    by_cases hl : l = [46]
    · rw [hl, received_cons_dot]
      exact Nat.zero_le _
    · rw [received_cons hl, dots_cons, dots_cons]
      exact Nat.add_le_add (count_undot_le l) ih

theorem dots_received_lt (h : ∃ l ∈ lines, l.head? = some 46) :
    dots (received lines) < dots lines := by
  induction lines with
  | nil =>
    obtain ⟨l, hl, -⟩ := h
    exact absurd hl List.not_mem_nil
  | cons l lines ih =>
    by_cases hl : l = [46]
    · rw [hl, received_cons_dot, dots_cons]
      exact Nat.add_pos_left (by decide) _
    · rw [received_cons hl, dots_cons, dots_cons]
      by_cases hdot : l.head? = some 46
      · exact Nat.add_lt_add_of_lt_of_le (count_undot_lt hdot) (dots_received_le lines)
      · obtain ⟨l', hmem, hdot'⟩ := h
        rcases List.mem_cons.mp hmem with rfl | hmem
        · exact absurd hdot' hdot
        · exact Nat.add_lt_add_of_le_of_lt (count_undot_le l) (ih ⟨l', hmem, hdot'⟩)

theorem exists_first_dot (lines : List Bytes) :
    ∃ more, lines ++ [[46]] = lines.takeWhile (· ≠ [46]) ++ [46] :: more := by
  induction lines with
  | nil => exact ⟨[], rfl⟩
  | cons l lines ih =>
    by_cases hl : l = [46]
    · subst hl
      exact ⟨lines ++ [[46]], rfl⟩
    · obtain ⟨more, hmore⟩ := ih
      have hkept : decide (l ≠ [46]) = true := decide_eq_true hl
      refine ⟨more, ?_⟩
      rw [List.takeWhile_cons, hkept, if_pos rfl, List.cons_append, hmore, List.cons_append]

theorem log_message (hmode : s.mode = .data []) (lines : List Bytes) :
    s.log ++ [.message (received lines)] <+:
      ((lines ++ [[46]]).foldl handleLine s).log := by
  obtain ⟨more, hmore⟩ := exists_first_dot lines
  have hdot : ∀ l ∈ lines.takeWhile (· ≠ [46]), l ≠ [46] := by
    intro l hl
    have hkept := List.mem_takeWhile_imp hl
    exact of_decide_eq_true hkept
  rw [hmore, foldl_message hmode _ hdot]
  exact log_foldl (s.record .command (.message (received lines)) 250) more

theorem takeWhile_ne_dot (h : ∀ l ∈ lines, l ≠ [46]) : lines.takeWhile (· ≠ [46]) = lines := by
  rw [List.takeWhile_eq_self_iff]
  exact fun l hl => decide_eq_true (h l hl)

theorem foldl_whole_message (hmode : s.mode = .data []) (h : ∀ l ∈ lines, l ≠ [46]) :
    (lines ++ [[46]]).foldl handleLine s =
      s.record .command (.message (received lines)) 250 := by
  rw [foldl_message hmode lines h [], List.foldl_nil, received, takeWhile_ne_dot h]

theorem received_eq (h : ∀ l ∈ lines, l.head? ≠ some 46) : received lines = lines := by
  have hkeep : lines.takeWhile (· ≠ [46]) = lines := by
    refine takeWhile_ne_dot fun l hl => ?_
    rintro rfl
    exact h _ hl rfl
  have hmap : lines.map undot = lines.map id := List.map_congr_left fun l hl => undot_eq (h l hl)
  rw [received, hkeep, hmap, List.map_id]

/-- A body arrives as it was given just when no line of it begins with a dot. -/
theorem received_body_iff (body : Bytes) :
    normalise (joinLines (received (crlfLines body))) = normalise body ↔
      ∀ l ∈ crlfLines body, l.head? ≠ some 46 := by
  constructor
  · intro heq l hl hdot
    have hless := dots_received_lt ⟨l, hl, hdot⟩
    rw [← count_joinLines, ← count_joinLines (crlfLines body), joinLines_crlfLines,
      ← count_normalise, heq, count_normalise] at hless
    exact lt_irrefl _ hless
  · intro h
    rw [received_eq h, joinLines_crlfLines]

end FlyBoard.Smtp

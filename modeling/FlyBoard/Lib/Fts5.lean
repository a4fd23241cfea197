import FlyBoard.Lib.Bytes
import Mathlib.Data.List.Induction

/-!
# The query language of FTS5

`lex` cuts a query into tokens: strings in quotes, barewords and punctuation; `AND`, `OR` and
`NOT` are tokens of their own. `Derives` is the grammar over tokens, with the trees that its
derivations build: `OR` binds least, then `AND`, then `NOT`, and strings side by side are an
`AND` that binds most.

A tree has exactly the strings and the `OR`s of the query (`Derives.marks`), and where barewords
end the tokens of two texts side by side are those of the one and of the other (`lex_append`).
-/

namespace FlyBoard.Fts5

open Bytes

/-! ## Tokens -/

inductive Token
  | lp
  | rp
  | lcp
  | rcp
  | colon
  | comma
  | plus
  | star
  | minus
  | caret
  | and
  | or
  | not
  | str (bare : Bool) (s : Bytes)
deriving DecidableEq

def isWordByte (c : UInt8) : Bool :=
  128 ≤ c || isDigit c || (65 ≤ c && c ≤ 90) || isLower c || c == 95 || c == 26

def wordToken (s : Bytes) : Token :=
  if s = bytes "AND" then .and
  else if s = bytes "OR" then .or
  else if s = bytes "NOT" then .not
  else .str true s

def punctuation : List (UInt8 × Token) :=
  [(40, .lp), (41, .rp), (123, .lcp), (125, .rcp), (58, .colon), (44, .comma), (43, .plus),
    (42, .star), (45, .minus), (94, .caret)]

/-- Where the lexer stands: between tokens, in a bareword, in quotes, or behind a quote that may
be the first of two. -/
inductive Mode
  | between
  | word (s : Bytes)
  | quote (s : Bytes)
  | quoteEnd (s : Bytes)

def start (c : UInt8) : Option (List Token × Mode) :=
  if c == 32 || c == 9 || c == 10 || c == 13 then some ([], .between)
  else if c == 34 then some ([], .quote [])
  else if isWordByte c then some ([], .word [c])
  else (punctuation.lookup c).map fun t => ([t], .between)

def step : Mode → UInt8 → Option (List Token × Mode)
  | .between, c => start c
  | .word s, c =>
    if isWordByte c then some ([], .word (s ++ [c]))
    else (start c).map fun r => (wordToken s :: r.1, r.2)
  | .quote s, c => if c == 34 then some ([], .quoteEnd s) else some ([], .quote (s ++ [c]))
  | .quoteEnd s, c =>
    if c == 34 then some ([], .quote (s ++ [34]))
    else (start c).map fun r => (.str false s :: r.1, r.2)

def finish : Mode → Option (List Token)
  | .between => some []
  | .word s => some [wordToken s]
  | .quote _ => none
  | .quoteEnd s => some [.str false s]

def lexFrom : Mode → Bytes → Option (List Token)
  | m, [] => finish m
  | m, c :: s => (step m c).bind fun r => (lexFrom r.2 s).map (r.1 ++ ·)

def lex (s : Bytes) : Option (List Token) := lexFrom .between s

/-! ## The grammar -/

/-- A string of a phrase; `star` stands for all texts that it begins. -/
structure Term where
  text : Bytes
  star : Bool

abbrev Phrase := List Term

inductive Expr
  | phrase (p : Phrase)
  /-- The phrase at the beginning of a column. -/
  | first (p : Phrase)
  | near (ps : List Phrase) (distance : Option Bytes)
  /-- In these columns, or in the others. -/
  | columns (others : Bool) (names : List Bytes) (e : Expr)
  | and (a b : Expr)
  | or (a b : Expr)
  | not (a b : Expr)

def starOpt (star : Bool) : List Token := if star then [.star] else []
def minusOpt (minus : Bool) : List Token := if minus then [.minus] else []

def distanceOpt : Option Bytes → List Token
  | none => []
  | some n => [.comma, .str true n]

inductive PhraseOf : List Token → Phrase → Prop
  | one (bare : Bool) (s : Bytes) (star : Bool) :
    PhraseOf (.str bare s :: starOpt star) [⟨s, star⟩]
  | plus {ts : List Token} {p : Phrase} (h : PhraseOf ts p) (bare : Bool) (s : Bytes)
    (star : Bool) : PhraseOf (ts ++ .plus :: .str bare s :: starOpt star) (p ++ [⟨s, star⟩])

inductive NearPhrases : List Token → List Phrase → Prop
  | one {ts : List Token} {p : Phrase} (h : PhraseOf ts p) : NearPhrases ts [p]
  | more {ts us : List Token} {ps : List Phrase} {p : Phrase} (h : NearPhrases ts ps)
    (hp : PhraseOf us p) : NearPhrases (ts ++ us) (ps ++ [p])

inductive NearSet : List Token → Expr → Prop
  | phrase {ts : List Token} {p : Phrase} (h : PhraseOf ts p) : NearSet ts (.phrase p)
  | first {ts : List Token} {p : Phrase} (h : PhraseOf ts p) : NearSet (.caret :: ts) (.first p)
  | near {ts : List Token} {ps : List Phrase} (h : NearPhrases ts ps) (distance : Option Bytes) :
    NearSet (.str true (bytes "NEAR") :: .lp :: ts ++ distanceOpt distance ++ [.rp])
      (.near ps distance)

inductive ColSet : List Token → Bool → List Bytes → Prop
  | one (others bare : Bool) (s : Bytes) : ColSet (minusOpt others ++ [.str bare s]) others [s]
  | list (others : Bool) (names : List (Bool × Bytes)) (h : names ≠ []) :
    ColSet (minusOpt others ++ .lcp :: names.map (fun n => .str n.1 n.2) ++ [.rcp]) others
      (names.map Prod.snd)

inductive ColNearSet : List Token → Expr → Prop
  | plain {ts : List Token} {e : Expr} (h : NearSet ts e) : ColNearSet ts e
  | columns {cs ts : List Token} {others : Bool} {names : List Bytes} {e : Expr}
    (hc : ColSet cs others names) (h : NearSet ts e) :
    ColNearSet (cs ++ .colon :: ts) (.columns others names e)

inductive ExprList : List Token → Expr → Prop
  | one {ts : List Token} {e : Expr} (h : ColNearSet ts e) : ExprList ts e
  | more {ts us : List Token} {a b : Expr} (ha : ExprList ts a) (hb : ColNearSet us b) :
    ExprList (ts ++ us) (.and a b)

/-- How far up an expression may stand. -/
inductive Level
  | or
  | and
  | not
  | atom

/-- `input ::= expr` at the level `or`. -/
inductive Derives : Level → List Token → Expr → Prop
  | or {ts us : List Token} {a b : Expr} (ha : Derives .or ts a) (hb : Derives .and us b) :
    Derives .or (ts ++ .or :: us) (.or a b)
  | ofAnd {ts : List Token} {e : Expr} (h : Derives .and ts e) : Derives .or ts e
  | and {ts us : List Token} {a b : Expr} (ha : Derives .and ts a) (hb : Derives .not us b) :
    Derives .and (ts ++ .and :: us) (.and a b)
  | ofNot {ts : List Token} {e : Expr} (h : Derives .not ts e) : Derives .and ts e
  | not {ts us : List Token} {a b : Expr} (ha : Derives .not ts a) (hb : Derives .atom us b) :
    Derives .not (ts ++ .not :: us) (.not a b)
  | ofAtom {ts : List Token} {e : Expr} (h : Derives .atom ts e) : Derives .not ts e
  | paren {ts : List Token} {e : Expr} (h : Derives .or ts e) :
    Derives .atom (.lp :: ts ++ [.rp]) e
  | columns {cs ts : List Token} {others : Bool} {names : List Bytes} {e : Expr}
    (hc : ColSet cs others names) (h : Derives .or ts e) :
    Derives .atom (cs ++ .colon :: .lp :: ts ++ [.rp]) (.columns others names e)
  | list {ts : List Token} {e : Expr} (h : ExprList ts e) : Derives .atom ts e

def Parses (s : Bytes) (e : Expr) : Prop := ∃ ts, lex s = some ts ∧ Derives .or ts e

def literal (s : Bytes) : Expr := .phrase [⟨s, false⟩]

def conj (s : Bytes) (rest : List Bytes) : Expr :=
  rest.foldl (fun e m => .and e (literal m)) (literal s)

/-! ## What a derivation keeps -/

variable {s t : Bytes} {ts us : List Token} {e : Expr}

/-- A string, or an `OR`. -/
def Token.mark : Token → Option (Option Bytes)
  | .str _ s => some (some s)
  | .or => some none
  | _ => none

def marks (ts : List Token) : List (Option Bytes) := ts.filterMap Token.mark

def Phrase.marks (p : Phrase) : List (Option Bytes) := p.map fun t => some t.text

def Expr.marks : Expr → List (Option Bytes)
  | .phrase p => p.marks
  | .first p => p.marks
  | .near ps distance =>
    some (bytes "NEAR") :: ps.flatMap Phrase.marks ++ distance.toList.map some
  | .columns _ names e => names.map some ++ e.marks
  | .and a b => a.marks ++ b.marks
  | .or a b => a.marks ++ none :: b.marks
  | .not a b => a.marks ++ b.marks

theorem marks_append (ts us : List Token) : marks (ts ++ us) = marks ts ++ marks us :=
  List.filterMap_append

theorem marks_str (bare : Bool) (s : Bytes) (ts : List Token) :
    marks (.str bare s :: ts) = some s :: marks ts := rfl

theorem marks_starOpt (star : Bool) : marks (starOpt star) = [] := by
  cases star <;> rfl

theorem marks_minusOpt (minus : Bool) : marks (minusOpt minus) = [] := by
  cases minus <;> rfl

theorem marks_distanceOpt (distance : Option Bytes) :
    marks (distanceOpt distance) = distance.toList.map some := by
  cases distance <;> rfl

theorem PhraseOf.marks {p : Phrase} (h : PhraseOf ts p) : marks ts = p.marks := by
  induction h with
  | one bare s star => rw [marks_str, marks_starOpt]; rfl
  | plus h bare s star ih =>
    have hlast : Fts5.marks (.plus :: .str bare s :: starOpt star) = [some s] := by
      change some s :: Fts5.marks (starOpt star) = _
      rw [marks_starOpt]
    rw [marks_append, ih, hlast, Phrase.marks, Phrase.marks, List.map_append]
    rfl

theorem NearPhrases.marks {ps : List Phrase} (h : NearPhrases ts ps) :
    marks ts = ps.flatMap Phrase.marks := by
  induction h with
  | one h => rw [h.marks, List.flatMap_singleton]
  | more h hp ih => rw [marks_append, ih, hp.marks, List.flatMap_append, List.flatMap_singleton]

theorem NearSet.marks (h : NearSet ts e) : marks ts = e.marks := by
  cases h with
  | phrase h => exact h.marks
  | first h => exact h.marks
  | near h distance =>
    have hlast : Fts5.marks [.rp] = [] := rfl
    rw [marks_append, marks_append, hlast, marks_distanceOpt, List.append_nil]
    exact congrArg (some (bytes "NEAR") :: · ++ distance.toList.map some) h.marks

theorem ColSet.marks {others : Bool} {names : List Bytes} (h : ColSet ts others names) :
    marks ts = names.map some := by
  cases h with
  | one _ bare s =>
    rw [marks_append, marks_minusOpt]
    rfl
  | list _ pairs hne =>
    have hlast : Fts5.marks [.rcp] = [] := rfl
    have hnames : Fts5.marks (pairs.map fun n => .str n.1 n.2) =
        (pairs.map Prod.snd).map some := by
      rw [Fts5.marks, List.filterMap_map, List.map_map, ← List.filterMap_eq_map]
      rfl
    rw [marks_append, marks_append, marks_minusOpt, hlast, List.append_nil, List.nil_append]
    exact hnames

theorem ColNearSet.marks (h : ColNearSet ts e) : marks ts = e.marks := by
  cases h with
  | plain h => exact h.marks
  | columns hc h =>
    rw [marks_append, hc.marks]
    exact congrArg _ h.marks

theorem ExprList.marks (h : ExprList ts e) : marks ts = e.marks := by
  induction h with
  | one h => exact h.marks
  | more ha hb ih =>
    rw [marks_append, ih, hb.marks]
    rfl

/-- The tree has the strings and the `OR`s of the tokens, in their order. -/
theorem Derives.marks {l : Level} (h : Derives l ts e) : marks ts = e.marks := by
  induction h with
  | or ha hb iha ihb =>
    rw [marks_append, iha]
    exact congrArg _ (congrArg (none :: ·) ihb)
  | ofAnd h ih => exact ih
  | and ha hb iha ihb =>
    rw [marks_append, iha]
    exact congrArg _ ihb
  | ofNot h ih => exact ih
  | not ha hb iha ihb =>
    rw [marks_append, iha]
    exact congrArg _ ihb
  | ofAtom h ih => exact ih
  | paren h ih =>
    have hlast : Fts5.marks [.rp] = [] := rfl
    rw [marks_append, hlast, List.append_nil]
    exact ih
  | columns hc h ih =>
    have hlast : Fts5.marks [.rp] = [] := rfl
    rw [marks_append, marks_append, hlast, List.append_nil, hc.marks]
    exact congrArg _ ih
  | list h => exact h.marks

theorem marks_conj (s : Bytes) (rest : List Bytes) :
    (conj s rest).marks = (s :: rest).map some := by
  induction rest using List.reverseRecOn with
  | nil => rfl
  | append_singleton rest m ih =>
    rw [conj, List.foldl_append, ← List.cons_append, List.map_append, ← ih]
    rfl

/-! ## Derivations of literals -/

theorem derives_literal (bare : Bool) (s : Bytes) (l : Level) :
    Derives l [.str bare s] (literal s) := by
  have hlist : ExprList [.str bare s] (literal s) := .one (.plain (.phrase (.one bare s false)))
  cases l with
  | or => exact .ofAnd (.ofNot (.ofAtom (.list hlist)))
  | and => exact .ofNot (.ofAtom (.list hlist))
  | not => exact .ofAtom (.list hlist)
  | atom => exact .list hlist

theorem derives_conj (s : Bytes) (rest : List Bytes) :
    Derives .and (.str true s :: rest.flatMap fun m => [.and, .str true m]) (conj s rest) := by
  induction rest using List.reverseRecOn with
  | nil => exact derives_literal true s .and
  | append_singleton rest m ih =>
    rw [conj, List.foldl_append, List.flatMap_append, ← List.cons_append]
    exact .and ih (derives_literal true m .not)

/-! ## Tokens of texts side by side -/

variable {m : Mode} {c : UInt8} {r : List Token × Mode}

def Mode.Plain : Mode → Prop
  | .between => True
  | .word _ => True
  | .quote _ => False
  | .quoteEnd _ => False

theorem start_plain (hc : c ≠ 34) (h : start c = some r) : r.2.Plain := by
  unfold start at h
  split at h
  · cases h
    trivial
  split at h
  · next hquote => exact absurd (beq_iff_eq.mp hquote) hc
  split at h
  · cases h
    trivial
  · obtain ⟨t, -, rfl⟩ := Option.map_eq_some_iff.mp h
    trivial

theorem step_plain (hm : m.Plain) (hc : c ≠ 34) (h : step m c = some r) : r.2.Plain := by
  cases m with
  | between => exact start_plain hc h
  | word w =>
    rw [step] at h
    split at h
    · cases h
      trivial
    · obtain ⟨r', hr, rfl⟩ := Option.map_eq_some_iff.mp h
      have hplain := start_plain hc hr
      exact hplain
  | quote w => exact hm.elim
  | quoteEnd w => exact hm.elim

theorem lexFrom_append (hm : m.Plain) (hs : 34 ∉ s) (hc : isWordByte c = false) :
    lexFrom m (s ++ c :: t) = (lexFrom m s).bind fun ts => (lex (c :: t)).map (ts ++ ·) := by
  induction s generalizing m with
  | nil =>
    cases m with
    | between => exact Option.map_id'.symm
    | word w =>
      change ((step (.word w) c).bind fun r => (lexFrom r.2 t).map (r.1 ++ ·)) =
        ((start c).bind fun r => (lexFrom r.2 t).map (r.1 ++ ·)).map ([wordToken w] ++ ·)
      rw [step, hc, if_neg Bool.false_ne_true]
      cases start c with
      | none => rfl
      | some r => simp [Function.comp_def]
    | quote w => exact hm.elim
    | quoteEnd w => exact hm.elim
  | cons b s ih =>
    rw [List.cons_append, lexFrom, lexFrom]
    rw [List.mem_cons, not_or] at hs
    cases hstep : step m b with
    | none => rfl
    | some r =>
      rw [Option.bind_some, Option.bind_some, ih (step_plain hm (Ne.symm hs.1) hstep) hs.2]
      cases lexFrom r.2 s with
      | none => rfl
      | some ts => simp [Function.comp_def]

/-- Where barewords end, the tokens of the two texts are side by side. -/
theorem lex_append (hs : 34 ∉ s) (hc : isWordByte c = false) :
    lex (s ++ c :: t) = (lex s).bind fun ts => (lex (c :: t)).map (ts ++ ·) :=
  lexFrom_append trivial hs hc

theorem lex_space (t : Bytes) : lex (32 :: t) = lex t := by
  change (lexFrom .between t).map _ = lexFrom .between t
  exact Option.map_id'

theorem lex_lp (t : Bytes) : lex (40 :: t) = (lex t).map (.lp :: ·) := rfl

theorem lexFrom_word (w : Bytes) (h : ∀ c ∈ s, isWordByte c = true) :
    lexFrom (.word w) s = some [wordToken (w ++ s)] := by
  induction s generalizing w with
  | nil => rw [List.append_nil, lexFrom, finish]
  | cons c s ih =>
    rw [List.forall_mem_cons] at h
    rw [lexFrom, step, if_pos h.1, Option.bind_some, ih (w ++ [c]) h.2, List.append_cons w c s]
    rfl

theorem start_word (h : isWordByte c = true) : start c = some ([], .word [c]) := by
  have hspace : (c == 32 || c == 9 || c == 10 || c == 13) = false := by
    by_contra hsp
    rw [Bool.not_eq_false] at hsp
    simp only [Bool.or_eq_true, beq_iff_eq] at hsp
    rcases hsp with ((rfl | rfl) | rfl) | rfl <;> exact absurd h (by decide)
  have hquote : (c == 34) = false := by
    rw [beq_eq_false_iff_ne]
    rintro rfl
    exact absurd h (by decide)
  rw [start, hspace, if_neg Bool.false_ne_true, hquote, if_neg Bool.false_ne_true, if_pos h]

theorem lex_word (hne : s ≠ []) (h : ∀ c ∈ s, isWordByte c = true) :
    lex s = some [wordToken s] := by
  rcases s with _ | ⟨c, s⟩
  · exact absurd rfl hne
  rw [List.forall_mem_cons] at h
  rw [lex, lexFrom, step, start_word h.1, Option.bind_some, lexFrom_word [c] h.2]
  rfl

theorem lexFrom_quote (w : Bytes) (hs : 34 ∉ s) :
    lexFrom (.quote w) (s ++ 34 :: t) = lexFrom (.quoteEnd (w ++ s)) t := by
  induction s generalizing w with
  | nil =>
    rw [List.nil_append, List.append_nil, lexFrom]
    exact Option.map_id'
  | cons c s ih =>
    rw [List.mem_cons, not_or] at hs
    have hc : (c == 34) = false := beq_eq_false_iff_ne.mpr (Ne.symm hs.1)
    rw [List.cons_append, lexFrom, step, hc, if_neg Bool.false_ne_true, Option.bind_some,
      ih (w ++ [c]) hs.2, List.append_cons w c s]
    exact Option.map_id'

theorem lex_quoted_end (hs : 34 ∉ s) : lex (34 :: (s ++ [34])) = some [.str false s] := by
  change (lexFrom (.quote []) (s ++ 34 :: [])).map ([] ++ ·) = _
  rw [lexFrom_quote [] hs]
  rfl

theorem lex_quoted (hs : 34 ∉ s) (hc : c ≠ 34) :
    lex (34 :: (s ++ 34 :: c :: t)) = (lex (c :: t)).map (.str false s :: ·) := by
  have hc : (c == 34) = false := beq_eq_false_iff_ne.mpr hc
  change (lexFrom (.quote []) (s ++ 34 :: c :: t)).map ([] ++ ·) = _
  rw [lexFrom_quote [] hs, lexFrom, step, hc, if_neg Bool.false_ne_true, lex, lexFrom, step]
  cases start c with
  | none => rfl
  | some r => simp [Function.comp_def]

theorem lex_and (hs : 34 ∉ s) :
    lex (s ++ bytes " AND " ++ t) =
      (lex s).bind fun ts => (lex t).map fun us => ts ++ .and :: us := by
  have hop : bytes " AND " ++ t = 32 :: (bytes "AND" ++ 32 :: t) := rfl
  have hand : lex (bytes "AND" ++ 32 :: t) = (lex t).map (.and :: ·) := by
    rw [lex_append (by decide) (by decide), lex_space]
    rfl
  rw [List.append_assoc, hop, lex_append hs (by decide), lex_space, hand]
  cases lex t with
  | none => rfl
  | some us => rfl

/-! ## The bytes of the strings -/

def weight (ms : List (Option Bytes)) : ℕ := (ms.map fun m => (m.getD []).length).sum

def stringBytes (s : Bytes) : ℕ := ((lex s).map fun ts => weight (marks ts)).getD 0

/-- The bytes of the bareword under way. -/
def Mode.pending : Mode → ℕ
  | .word s => s.length
  | _ => 0

theorem weight_append (ms ns : List (Option Bytes)) :
    weight (ms ++ ns) = weight ms + weight ns := by
  rw [weight, List.map_append, List.sum_append]
  rfl

theorem weight_wordToken (s : Bytes) : weight (marks [wordToken s]) ≤ s.length := by
  unfold wordToken
  split
  · exact Nat.zero_le _
  split
  · exact Nat.zero_le _
  split
  · exact Nat.zero_le _
  · simp [weight, marks, Token.mark]

theorem weight_start (h : start c = some r) :
    weight (marks r.1) + r.2.pending ≤ if isWordByte c then 1 else 0 := by
  unfold start at h
  split at h
  · cases h
    exact Nat.zero_le _
  split at h
  · cases h
    exact Nat.zero_le _
  split at h
  · next hword =>
    cases h
    rw [if_pos hword]
    exact Nat.le_refl 1
  · obtain ⟨t, ht, rfl⟩ := Option.map_eq_some_iff.mp h
    obtain ⟨l, l', hsplit, -⟩ := List.lookup_eq_some_iff.mp ht
    have hmem : (c, t) ∈ punctuation := by
      rw [hsplit]
      exact List.mem_append_right _ List.mem_cons_self
    have hall : ∀ p ∈ punctuation, p.2.mark = none := by decide
    have hmark : t.mark = none := hall (c, t) hmem
    rw [marks, List.filterMap_cons_none hmark]
    exact Nat.zero_le _

theorem weight_step (hm : m.Plain) (h : step m c = some r) :
    weight (marks r.1) + r.2.pending ≤ m.pending + if isWordByte c then 1 else 0 := by
  cases m with
  | between =>
    exact (weight_start h).trans_eq (Nat.zero_add _).symm
  | word w =>
    rw [step] at h
    split at h
    · next hword =>
      cases h
      rw [if_pos hword, Mode.pending, List.length_append]
      exact Nat.le_of_eq (Nat.zero_add _)
    · obtain ⟨r', hr, rfl⟩ := Option.map_eq_some_iff.mp h
      have hrest := weight_start hr
      have hfirst := weight_wordToken w
      have hsplit : marks (wordToken w :: r'.1) = marks [wordToken w] ++ marks r'.1 :=
        marks_append [wordToken w] r'.1
      rw [hsplit, weight_append, Mode.pending]
      change weight (marks [wordToken w]) + weight (marks r'.1) + r'.2.pending ≤ _
      omega
  | quote w => exact hm.elim
  | quoteEnd w => exact hm.elim

theorem weight_lexFrom (hm : m.Plain) (hs : 34 ∉ s) (h : lexFrom m s = some ts) :
    weight (marks ts) ≤ m.pending + s.countP isWordByte := by
  induction s generalizing m ts with
  | nil =>
    cases m with
    | between =>
      cases h
      exact Nat.zero_le _
    | word w =>
      cases h
      exact weight_wordToken w
    | quote w => exact hm.elim
    | quoteEnd w => exact hm.elim
  | cons c s ih =>
    rw [List.mem_cons, not_or] at hs
    obtain ⟨r, hstep, hrest⟩ := Option.bind_eq_some_iff.mp h
    obtain ⟨us, hus, rfl⟩ := Option.map_eq_some_iff.mp hrest
    have hfirst := weight_step hm hstep
    have hlast := ih (step_plain hm (Ne.symm hs.1) hstep) hs.2 hus
    rw [marks_append, weight_append, List.countP_cons]
    omega

theorem stringBytes_le (hs : 34 ∉ s) : stringBytes s ≤ s.countP isWordByte := by
  rw [stringBytes]
  cases hlex : lex s with
  | none => exact Nat.zero_le _
  | some ts =>
    have hplain : Mode.between.Plain := trivial
    exact (weight_lexFrom hplain hs hlex).trans_eq (Nat.zero_add _)

theorem wordToken_of_stringBytes (hs : 34 ∉ s) (hne : s ≠ []) (h : stringBytes s = s.length) :
    (∀ c ∈ s, isWordByte c = true) ∧ wordToken s = .str true s := by
  have hle := stringBytes_le hs
  have hall : ∀ c ∈ s, isWordByte c = true := by
    rw [← List.countP_eq_length]
    exact Nat.le_antisymm List.countP_le_length (h ▸ hle)
  refine ⟨hall, ?_⟩
  have hpos : 0 < s.length := List.length_pos_iff.mpr hne
  rw [stringBytes, lex_word hne hall, Option.map_some, Option.getD_some] at h
  unfold wordToken at h ⊢
  split
  · next hand =>
    rw [if_pos hand] at h
    exact absurd h hpos.ne
  split
  · next hand hor =>
    rw [if_neg hand, if_pos hor] at h
    exact absurd h hpos.ne
  split
  · next hand hor hnot =>
    rw [if_neg hand, if_neg hor, if_pos hnot] at h
    exact absurd h hpos.ne
  · rfl

end FlyBoard.Fts5

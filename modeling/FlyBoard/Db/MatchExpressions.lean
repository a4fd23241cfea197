import FlyBoard.Db.Search
import FlyBoard.Lib.Fts5
import Mathlib.Algebra.Order.BigOperators.Group.List
import Mathlib.Algebra.Order.Group.Nat

/-!
# MATCH expressions (`src/db/search.c`)

`build_fts_expr` puts a term in quotes, and where MeCab splits it, its morphemes without quotes
beside it. FTS5 reads the text by its own rules: it is the expression that is meant where every
morpheme is a bareword and all of them fit into `morph`.
-/

namespace FlyBoard.MatchExpressions

open Bytes Fts5
open Search (Env Tokenizer MatchExpr buildFtsExpr fts5MecabSplitTerm searchSplitTerms isBareword
  termIsMatchSafe termHasHangul cutTerm boundary morphemes)

variable {env : Env} {g : Option Tokenizer} {query : Option Bytes} {term m : Bytes}
  {ms rest : List Bytes} {us : List Token}

/-! ## Statements -/

/-- What `build_fts_expr` appends. -/
def exprText (env : Env) (g : Option Tokenizer) (term : Bytes) : Bytes :=
  ((buildFtsExpr env g term).1.map MatchExpr.text).getD []

/-- The pieces of every term are non-empty and make up the term. -/
def Splits (env : Env) (query : Option Bytes) : Prop :=
  ∀ term ∈ searchSplitTerms query, (env.analyse term).flatten = term ∧ [] ∉ env.analyse term

/-- There is no expression, or FTS5 reads it as the quoted term, or as that or all of the
morphemes. -/
def WellFormed (env : Env) (g : Option Tokenizer) (term : Bytes) : Prop :=
  exprText env g term = [] ∨ Parses (exprText env g term) (literal term) ∨
    ∃ m rest, env.analyse term = m :: rest ∧
      Parses (exprText env g term) (.or (literal term) (conj m rest))

def Spliced (g : Option Tokenizer) (term : Bytes) (ms : List Bytes) : Prop :=
  g = some .mecab ∧ termIsMatchSafe term = true ∧ termHasHangul term = true ∧ 1 < ms.length

instance (g : Option Tokenizer) (term : Bytes) (ms : List Bytes) : Decidable (Spliced g term ms) :=
  inferInstanceAs (Decidable (_ ∧ _ ∧ _ ∧ _))

/-! ## Terms and morphemes -/

theorem boundary_le (s : Bytes) (k : ℕ) : boundary s k ≤ k := by
  induction k with
  | zero => exact Nat.le_refl 0
  | succ k ih =>
    rw [boundary]
    split
    · exact Nat.le_succ_of_le ih
    · exact Nat.le_refl _

theorem length_term (h : term ∈ searchSplitTerms query) : term.length ≤ 63 := by
  have hmem := (List.mem_filter.mp (List.mem_of_mem_take h)).1
  obtain ⟨s, -, rfl⟩ := List.mem_map.mp hmem
  rw [cutTerm]
  split
  · next hlt => exact Nat.le_of_lt_succ hlt
  · rw [List.length_take]
    exact (Nat.min_le_left _ _).trans (boundary_le s 63)

theorem subset_term (hflat : ms.flatten = term) (hm : m ∈ ms) : ∀ c ∈ m, c ∈ term := by
  intro c hc
  rw [← hflat]
  exact List.mem_flatten_of_mem hm hc

theorem fts5MecabSplitTerm_eq (hlen : term.length ≤ 63)
    (hflat : (env.analyse term).flatten = term) (hne : [] ∉ env.analyse term) :
    fts5MecabSplitTerm env term = (env.analyse term).take 8 := by
  have hall : morphemes env term = env.analyse term := by
    rw [morphemes, List.filter_eq_self]
    intro m hm
    rw [Bool.not_eq_true', List.isEmpty_eq_false_iff]
    rintro rfl
    exact hne hm
  have hwhole : ∀ m ∈ (env.analyse term).take 8, m.take 63 = m := by
    intro m hm
    have hsub := List.sublist_flatten_of_mem (List.mem_of_mem_take hm)
    rw [hflat] at hsub
    exact List.take_of_length_le (hsub.length_le.trans hlen)
  rw [fts5MecabSplitTerm, hall, List.map_congr_left hwhole, List.map_id']

theorem not_mem_quote (h : termIsMatchSafe term = true) : 34 ∉ term := by
  intro hmem
  exact absurd (List.all_eq_true.mp h 34 hmem) (by decide)

theorem exprText_spliced (hlen : term.length ≤ 63)
    (hflat : (env.analyse term).flatten = term) (hne : [] ∉ env.analyse term)
    (h : Spliced g term (env.analyse term)) :
    exprText env g term = (MatchExpr.branch term ((env.analyse term).take 8)).text := by
  obtain ⟨rfl, hsafe, hhangul, htwo⟩ := h
  have hmany : 1 < (fts5MecabSplitTerm env term).length := by
    rw [fts5MecabSplitTerm_eq hlen hflat hne, List.length_take]
    omega
  have hgo : ¬(some Tokenizer.mecab = none ∨ termIsMatchSafe term = false) := by simp [hsafe]
  rw [exprText, buildFtsExpr, if_neg hgo, if_neg (by simp), if_pos ⟨rfl, hhangul, hmany⟩,
    fts5MecabSplitTerm_eq hlen hflat hne]
  rfl

theorem exprText_whole (hlen : term.length ≤ 63)
    (hflat : (env.analyse term).flatten = term) (hne : [] ∉ env.analyse term)
    (h : ¬Spliced g term (env.analyse term)) :
    exprText env g term = [] ∨
      exprText env g term = (MatchExpr.quoted term).text ∧ termIsMatchSafe term = true := by
  rw [exprText, buildFtsExpr]
  split
  · exact .inl rfl
  · next hgo =>
    rw [not_or, Bool.not_eq_false] at hgo
    split
    · exact .inl rfl
    · rw [if_neg]
      · exact .inr ⟨rfl, hgo.2⟩
      · rintro ⟨rfl, hhangul, hmany⟩
        rw [fts5MecabSplitTerm_eq hlen hflat hne, List.length_take] at hmany
        exact h ⟨rfl, hgo.2, hhangul, by omega⟩

/-! ## The tokens of the expression -/

theorem lex_quotedText (hterm : 34 ∉ term) :
    lex (MatchExpr.quoted term).text = some [.str false term] := by
  have htext : (MatchExpr.quoted term).text = 34 :: (term ++ [34]) := rfl
  rw [htext, lex_quoted_end hterm]

theorem lex_branchText (hterm : 34 ∉ term) (ms : List Bytes) :
    lex (MatchExpr.branch term ms).text =
      (lex ((bytes " AND ").intercalate ms ++ [41, 41])).map
        fun us => .lp :: .str false term :: .or :: .lp :: us := by
  have htext : (MatchExpr.branch term ms).text = 40 :: 34 :: (term ++ 34 :: 32 ::
      (bytes "OR" ++ 32 :: 40 :: ((bytes " AND ").intercalate ms ++ [41, 41]))) := by
    simp [MatchExpr.text, bytes]
  have hor : lex (bytes "OR") = some [.or] := rfl
  rw [htext, lex_lp, lex_quoted hterm (by decide), lex_space, lex_append (by decide) (by decide),
    lex_space, lex_lp, hor]
  cases lex ((bytes " AND ").intercalate ms ++ [41, 41]) with
  | none => rfl
  | some us => rfl

theorem isBareword_iff :
    isBareword m = true ↔ m ≠ [] ∧ (∀ c ∈ m, isWordByte c = true) ∧ wordToken m = .str true m := by
  have hword : wordToken m = .str true m ↔ m ∉ ["AND", "OR", "NOT"].map bytes := by
    simp only [List.map_cons, List.map_nil, List.mem_cons, List.not_mem_nil, or_false, not_or]
    unfold wordToken
    split
    · next h => simp [h]
    split
    · next h => simp [h]
    split
    · next h => simp [h]
    · next hand hor hnot => simp [hand, hor, hnot]
  rw [hword, isBareword]
  simp [isWordByte, List.isEmpty_eq_false_iff, and_assoc]

theorem lex_barewords (h : ∀ m' ∈ m :: rest, isBareword m' = true)
    (hquote : ∀ m' ∈ m :: rest, 34 ∉ m') :
    lex ((bytes " AND ").intercalate (m :: rest) ++ [41, 41]) =
      some (.str true m :: (rest.flatMap fun m => [.and, .str true m]) ++ [.rp, .rp]) := by
  induction rest generalizing m with
  | nil =>
    obtain ⟨hne, hall, hword⟩ := isBareword_iff.mp (h m List.mem_cons_self)
    have hm := hquote m List.mem_cons_self
    rw [List.intercalate_singleton, lex_append hm (by decide), lex_word hne hall, hword]
    rfl
  | cons m' rest ih =>
    obtain ⟨hne, hall, hword⟩ := isBareword_iff.mp (h m List.mem_cons_self)
    have hm := hquote m List.mem_cons_self
    rw [List.intercalate_cons_cons, List.append_assoc, lex_and hm, lex_word hne hall, hword,
      ih (fun x hx => h x (List.mem_cons_of_mem _ hx))
        (fun x hx => hquote x (List.mem_cons_of_mem _ hx))]
    rfl

/-- Whatever the morphemes are, the strings of the conjunction are those of the morphemes. -/
theorem weight_conj (hquote : ∀ m' ∈ m :: rest, 34 ∉ m')
    (h : lex ((bytes " AND ").intercalate (m :: rest) ++ [41, 41]) = some us) :
    weight (marks us) = ((m :: rest).map stringBytes).sum := by
  induction rest generalizing m us with
  | nil =>
    have hm := hquote m List.mem_cons_self
    rw [List.intercalate_singleton, lex_append hm (by decide)] at h
    obtain ⟨ts, hts, hend⟩ := Option.bind_eq_some_iff.mp h
    obtain ⟨vs, hvs, rfl⟩ := Option.map_eq_some_iff.mp hend
    cases hvs
    rw [marks_append, weight_append, List.map_singleton, List.sum_singleton, stringBytes, hts]
    rfl
  | cons m' rest ih =>
    have hm := hquote m List.mem_cons_self
    rw [List.intercalate_cons_cons, List.append_assoc, lex_and hm] at h
    obtain ⟨ts, hts, hend⟩ := Option.bind_eq_some_iff.mp h
    obtain ⟨vs, hvs, rfl⟩ := Option.map_eq_some_iff.mp hend
    have hrest := ih (fun x hx => hquote x (List.mem_cons_of_mem _ hx)) hvs
    have hfirst : stringBytes m = weight (marks ts) := by rw [stringBytes, hts]; rfl
    rw [marks_append, weight_append, List.map_cons, List.sum_cons, hfirst, ← hrest]
    rfl

theorem eq_of_sum_le {f k : Bytes → ℕ} (hle : ∀ m ∈ ms, f m ≤ k m)
    (h : (ms.map k).sum ≤ (ms.map f).sum) : ∀ m ∈ ms, f m = k m := by
  induction ms with
  | nil => exact List.forall_mem_nil _
  | cons m ms ih =>
    rw [List.forall_mem_cons] at hle ⊢
    have hrest : (ms.map f).sum ≤ (ms.map k).sum := List.sum_le_sum hle.2
    have hfirst := hle.1
    rw [List.map_cons, List.sum_cons, List.map_cons, List.sum_cons] at h
    exact ⟨by omega, ih hle.2 (by omega)⟩

/-! ## What FTS5 reads -/

theorem parses_quoted (hterm : 34 ∉ term) : Parses (MatchExpr.quoted term).text (literal term) :=
  ⟨_, lex_quotedText hterm, derives_literal false term .or⟩

theorem parses_branch (hterm : 34 ∉ term) (hquote : ∀ m' ∈ m :: rest, 34 ∉ m')
    (h : ∀ m' ∈ m :: rest, isBareword m' = true) :
    Parses (MatchExpr.branch term (m :: rest)).text (.or (literal term) (conj m rest)) := by
  have hlex := lex_branchText hterm (m :: rest)
  rw [lex_barewords h hquote] at hlex
  have hconj := derives_conj m rest
  have hpair := Derives.or (derives_literal false term .or)
    (.ofNot (.ofAtom (.paren (.ofAnd hconj))))
  have hall := Derives.ofAnd (.ofNot (.ofAtom (.paren hpair)))
  refine ⟨_, hlex, ?_⟩
  simpa using hall

/-- A tree with all the morphemes leaves no byte of theirs for anything but strings. -/
theorem barewords_of_parses (hterm : 34 ∉ term) (hquote : ∀ m ∈ ms, 34 ∉ m)
    (hne : [] ∉ ms) (hmany : 1 < ms.length) {e : Expr}
    (h : Parses (MatchExpr.branch term (ms.take 8)).text e)
    (hmarks : e.marks = some term :: none :: ms.map some) :
    ms.length ≤ 8 ∧ ∀ m ∈ ms, isBareword m = true := by
  obtain ⟨ts, hlex, hderives⟩ := h
  rw [lex_branchText hterm] at hlex
  obtain ⟨us, hus, rfl⟩ := Option.map_eq_some_iff.mp hlex
  have hyield := hderives.marks
  rw [hmarks] at hyield
  have hus' : marks us = ms.map some := List.tail_eq_of_cons_eq (List.tail_eq_of_cons_eq hyield)
  have hbytes : weight (ms.map some) = (ms.map List.length).sum := by
    rw [weight, List.map_map]
    rfl
  have htake : ∀ m ∈ ms.take 8, m ∈ ms := fun m hm => List.mem_of_mem_take hm
  have hsum : ((ms.take 8).map stringBytes).sum = (ms.map List.length).sum := by
    rw [← hbytes, ← hus']
    cases hms : ms.take 8 with
    | nil =>
      have hlen : (ms.take 8).length = min 8 ms.length := List.length_take
      rw [hms, List.length_nil] at hlen
      omega
    | cons m rest =>
      rw [hms] at hus htake
      exact (weight_conj (fun x hx => hquote x (htake x hx)) hus).symm
  have hsplit : (ms.map List.length).sum =
      ((ms.take 8).map List.length).sum + ((ms.drop 8).map List.length).sum := by
    rw [← List.sum_append, ← List.map_append, List.take_append_drop]
  have hle : ∀ m ∈ ms.take 8, stringBytes m ≤ m.length := fun m hm =>
    (stringBytes_le (hquote m (htake m hm))).trans List.countP_le_length
  have htotal : ((ms.take 8).map stringBytes).sum ≤ ((ms.take 8).map List.length).sum :=
    List.sum_le_sum hle
  have hall := eq_of_sum_le hle (by omega)
  have hrest : ((ms.drop 8).map List.length).sum = 0 := by omega
  have hfew : ms.length ≤ 8 := by
    by_contra hlong
    have hpos : 0 < (ms.drop 8).length := by
      rw [List.length_drop]
      omega
    obtain ⟨m, hm⟩ := List.exists_mem_of_length_pos hpos
    have hzero := List.sum_eq_zero_iff.mp hrest m.length (List.mem_map_of_mem hm)
    rw [List.length_eq_zero_iff] at hzero
    subst hzero
    exact hne (List.mem_of_mem_drop hm)
  refine ⟨hfew, fun m hm => ?_⟩
  have hm' : m ∈ ms.take 8 := by rwa [List.take_of_length_le hfew]
  have hmne : m ≠ [] := by
    rintro rfl
    exact hne hm
  exact isBareword_iff.mpr ⟨hmne, wordToken_of_stringBytes (hquote m hm) hmne (hall m hm')⟩

theorem wellFormed_iff (hlen : term.length ≤ 63) (hflat : (env.analyse term).flatten = term)
    (hne : [] ∉ env.analyse term) :
    WellFormed env g term ↔ (Spliced g term (env.analyse term) →
      (env.analyse term).length ≤ 8 ∧ ∀ m ∈ env.analyse term, isBareword m = true) := by
  constructor
  · intro h hspliced
    have hterm := not_mem_quote hspliced.2.1
    have hquote : ∀ m ∈ env.analyse term, 34 ∉ m := fun m hm hmem =>
      hterm (subset_term hflat hm 34 hmem)
    rw [WellFormed, exprText_spliced hlen hflat hne hspliced] at h
    rcases h with hnil | hone | ⟨m, rest, hms, hboth⟩
    · exact nomatch hnil
    · obtain ⟨ts, hlex, hderives⟩ := hone
      rw [lex_branchText hterm] at hlex
      obtain ⟨us, -, rfl⟩ := Option.map_eq_some_iff.mp hlex
      exact nomatch hderives.marks
    · refine barewords_of_parses hterm hquote hne hspliced.2.2.2 hboth ?_
      rw [hms, ← marks_conj]
      rfl
  · intro h
    by_cases hspliced : Spliced g term (env.analyse term)
    · obtain ⟨hfew, hall⟩ := h hspliced
      have hterm := not_mem_quote hspliced.2.1
      have hquote : ∀ m ∈ env.analyse term, 34 ∉ m := fun m hm hmem =>
        hterm (subset_term hflat hm 34 hmem)
      rw [WellFormed, exprText_spliced hlen hflat hne hspliced, List.take_of_length_le hfew]
      cases hms : env.analyse term with
      | nil =>
        rw [hms] at hspliced
        exact absurd hspliced.2.2.2 (by decide)
      | cons m rest =>
        rw [hms] at hall hquote
        exact .inr (.inr ⟨m, rest, rfl, parses_branch hterm hquote hall⟩)
    · rcases exprText_whole hlen hflat hne hspliced with hnil | ⟨hquoted, hsafe⟩
      · exact .inl hnil
      · right
        left
        rw [hquoted]
        exact parses_quoted (not_mem_quote hsafe)

/-- FTS5 reads every expression of a query as it is meant exactly where each term whose
morphemes go into its expression has at most eight, all of them barewords. -/
theorem wellFormed_query_iff (hsplit : Splits env query) :
    (∀ term ∈ searchSplitTerms query, WellFormed env g term) ↔
      ∀ term ∈ searchSplitTerms query, Spliced g term (env.analyse term) →
        (env.analyse term).length ≤ 8 ∧ ∀ m ∈ env.analyse term, isBareword m = true := by
  refine forall₂_congr fun term hmem => ?_
  obtain ⟨hflat, hne⟩ := hsplit term hmem
  exact wellFormed_iff (length_term hmem) hflat hne

def gaebal : Bytes := [0xEA, 0xB0, 0x9C, 0xEB, 0xB0, 0x9C]
def ilji : Bytes := [0xEC, 0x9D, 0xBC, 0xEC, 0xA7, 0x80]

/-- MeCab on two words: one with two nouns, one with a mark behind a noun. -/
def twoWords : Env where
  fold := List.map toLower
  analyse word :=
    if word = gaebal ++ ilji then [gaebal, ilji]
    else if word = gaebal ++ bytes "!" then [gaebal, bytes "!"]
    else [word]

theorem journal_wellFormed : WellFormed twoWords (some .mecab) (gaebal ++ ilji) := by
  have hterms : searchSplitTerms (some (gaebal ++ ilji)) = [gaebal ++ ilji] := by decide +kernel
  have hsplit : Splits twoWords (some (gaebal ++ ilji)) := by
    rw [Splits, hterms]
    decide +kernel
  refine (wellFormed_query_iff hsplit).mpr ?_ _ (hterms ▸ List.mem_singleton_self _)
  rw [hterms]
  decide +kernel

/-- The mark is spliced into the expression, and FTS5 has no token for it. -/
theorem mark_not_wellFormed : ¬∀ env g query, Splits env query →
    ∀ term ∈ searchSplitTerms query, WellFormed env g term := by
  intro h
  have hterms : searchSplitTerms (some (gaebal ++ bytes "!")) = [gaebal ++ bytes "!"] := by
    decide +kernel
  have hsplit : Splits twoWords (some (gaebal ++ bytes "!")) := by
    rw [Splits, hterms]
    decide +kernel
  have hmem : gaebal ++ bytes "!" ∈ searchSplitTerms (some (gaebal ++ bytes "!")) := by
    rw [hterms]
    exact List.mem_singleton.mpr rfl
  have hwell := h twoWords (some .mecab) _ hsplit _ hmem
  rw [wellFormed_iff (by decide) (by decide +kernel) (by decide +kernel)] at hwell
  exact absurd hwell (by decide +kernel)

end FlyBoard.MatchExpressions

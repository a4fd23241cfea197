import FlyBoard.Lib.Bytes
import FlyBoard.Lib.Like
import FlyBoard.Lib.PhraseIndex
import FlyBoard.Lib.Run
import Mathlib.Data.List.Nodup
import Mathlib.Logic.Function.Basic

/-!
# Searching posts (`src/db/search.c`, `src/db/fts5_mecab_tokenizer.c`)

`search_query_build` turns a query into conditions on a post: a `MATCH` against the FTS5 table
`posts_fts` and a `LIKE` on the requested field. The table is built by `db_search_migrate` and
kept in step by the functions that write posts; a post that is deleted leaves its row.

MeCab and the case folding of FTS5 are parameters, SQLite's `LIKE` and the matching of phrases
are the definitions of the libraries. The optional filters are left out, and of a post all
columns but its two texts.
-/

namespace FlyBoard.Search

open Bytes Run PhraseIndex

/-! ## Terms -/

/-- `SEARCH_MAX_TERMS` and `SEARCH_TERM_MAX_BYTES`. -/
def maxTerms : ℕ := 8
def termMaxBytes : ℕ := 64

/-- A byte inside of a code point. -/
def isContinuation (c : UInt8) : Bool := c &&& 0xC0 == 0x80

/-- `utf8_cp_count` -/
def utf8CpCount (s : Bytes) : ℕ := s.countP fun c => !isContinuation c

/-- `term_is_match_safe` -/
def termIsMatchSafe (term : Bytes) : Bool :=
  term.all fun c => !(c < 0x20 || c == 34 || c == 40 || c == 41 || c == 58 || c == 42 || c == 94)

/-- `term_has_hangul` -/
def termHasHangul (term : Bytes) : Bool := term.any fun c => 0xEA ≤ c && c ≤ 0xED

/-- The texts between white space, as both loops find them. -/
def words (s : Bytes) : List Bytes := (s.splitOnP isSpace).filter fun w => !w.isEmpty

def boundary (s : Bytes) : ℕ → ℕ
  | 0 => 0
  | k + 1 => if isContinuation (s.getD (k + 1) 0) then boundary s k else k + 1

def cutTerm (s : Bytes) : Bytes :=
  if s.length < termMaxBytes then s else s.take (boundary s (termMaxBytes - 1))

/-- `search_split_terms` -/
def searchSplitTerms (query : Option Bytes) : List Bytes :=
  (((words (query.getD [])).map cutTerm).filter fun t => !t.isEmpty).take maxTerms

/-- `%`, `_` and the escape character of the statements. -/
def likeSyntax : Like.Syntax UInt8 := ⟨37, 95, 92, by decide, by decide⟩

/-- `escape_like` -/
def escapeLike (term : Bytes) : Bytes := Like.containing likeSyntax term

/-- `LIKE … ESCAPE '\'`, which takes ASCII letters of both cases for the same. -/
def sqlLike (pattern text : Bytes) : Bool := Like.like toLower likeSyntax pattern text

/-! ## The full-text index -/

inductive Tokenizer
  | mecab
  | trigram
deriving DecidableEq

/-- `fold` is the case folding of the trigram tokenizer; `analyse` gives the surfaces of the
nodes of MeCab's answer. -/
structure Env where
  fold : Bytes → Bytes
  analyse : Bytes → List Bytes

/-- What is relied on: texts that are the same for `LIKE` are the same for the tokenizer. -/
def Env.Folds (env : Env) : Prop :=
  ∀ t s : Bytes, t.map toLower <:+: s.map toLower → env.fold t <:+: env.fold s

section Env

variable (env : Env)

def morphemes (text : Bytes) : List Bytes := (env.analyse text).filter fun m => !m.isEmpty

def nodeTokens : List Bytes → List (Token Bytes)
  | [] => []
  | m :: ms => ⟨m, true⟩ :: ms.map (⟨·, false⟩)

def wordTokens (word : Bytes) : List (Token Bytes) :=
  ⟨word, false⟩ :: nodeTokens (morphemes env word)

/-- `mecab_xTokenize` -/
def mecabXTokenize (text : Bytes) : List (Token Bytes) := (words text).flatMap (wordTokens env)

def columnMatches (tokenizer : Tokenizer) (text column : Bytes) : Bool :=
  match tokenizer with
  | .trigram => decide (env.fold text <:+: env.fold column)
  | .mecab => occurs (places (mecabXTokenize env text)) (places (mecabXTokenize env column))

def rowMatches (tokenizer : Tokenizer) (text : Bytes) (row : Bytes × Bytes) : Bool :=
  columnMatches env tokenizer text row.1 || columnMatches env tokenizer text row.2

/-- `fts5_mecab_split_term`, into `char morph[8][64]` -/
def fts5MecabSplitTerm (term : Bytes) : List Bytes :=
  ((morphemes env term).take 8).map (List.take 63)

end Env

/-- The expressions of `build_fts_expr`. -/
inductive MatchExpr
  | quoted (term : Bytes)
  | branch (term : Bytes) (morph : List Bytes)
deriving DecidableEq

def MatchExpr.text : MatchExpr → Bytes
  | .quoted term => bytes "\"" ++ term ++ bytes "\""
  | .branch term morph =>
    bytes "(\"" ++ term ++ bytes "\" OR (" ++ (bytes " AND ").intercalate morph ++ bytes "))"

/-- A string that FTS5 takes without quotes. -/
def isBareword (s : Bytes) : Bool :=
  !s.isEmpty && s.all (fun c => 128 ≤ c || isDigit c || (65 ≤ c && c ≤ 90) || isLower c ||
    c == 95 || c == 26) && !(["AND", "OR", "NOT"].map bytes).contains s

/-- A row matches the expression. One that FTS5 cannot parse fails the statement, which gives
no row. -/
def MatchExpr.matches (env : Env) (tokenizer : Tokenizer) (row : Bytes × Bytes) : MatchExpr → Bool
  | .quoted term => rowMatches env tokenizer term row
  | .branch term morph =>
    morph.all isBareword &&
      (rowMatches env tokenizer term row || morph.all fun m => rowMatches env tokenizer m row)

/-- `build_fts_expr`, with `branched`. -/
def buildFtsExpr (env : Env) (gSearchTokenizer : Option Tokenizer) (term : Bytes) :
    Option MatchExpr × Bool :=
  if gSearchTokenizer = none ∨ termIsMatchSafe term = false then (none, false)
  else if gSearchTokenizer = some .trigram ∧ utf8CpCount term < 3 then (none, false)
  else
    let morph := fts5MecabSplitTerm env term
    if gSearchTokenizer = some .mecab ∧ termHasHangul term = true ∧ 1 < morph.length then
      (some (.branch term morph), true)
    else (some (.quoted term), false)

/-! ## The query -/

inductive Clause
  | boardLike (pattern : Bytes)
  | ftsMatch (expr : MatchExpr)
  | titleLike (pattern : Bytes)
  | contentLike (pattern : Bytes)
  | eitherLike (pattern : Bytes)
deriving DecidableEq

def Clause.sql : Clause → String
  | .boardLike _ => " AND b.name LIKE ? ESCAPE '\\'"
  | .ftsMatch _ => " AND p.id IN (SELECT rowid FROM posts_fts WHERE posts_fts MATCH ?)"
  | .titleLike _ => " AND p.title LIKE ? ESCAPE '\\'"
  | .contentLike _ => " AND p.content LIKE ? ESCAPE '\\'"
  | .eitherLike _ => " AND (p.title LIKE ? ESCAPE '\\' OR p.content LIKE ? ESCAPE '\\')"

def Clause.binds : Clause → List Bytes
  | .boardLike pattern | .titleLike pattern | .contentLike pattern => [pattern]
  | .ftsMatch expr => [expr.text]
  | .eitherLike pattern => [pattern, pattern]

theorem count_sql (c : Clause) : c.sql.toList.count '?' = c.binds.length := by
  cases c with
  | _ =>
    simp only [Clause.sql, Clause.binds, List.length_cons, List.length_nil]
    decide +kernel

/-- `search_query` -/
structure SearchQuery where
  where_ : List Clause
  titleRank : List Bytes
  terms : List Bytes

def termClauses (env : Env) (gSearchTokenizer : Option Tokenizer) (searchType : Option Bytes)
    (term : Bytes) : List Clause :=
  let pattern := escapeLike term
  if searchType = some (bytes "board") then [.boardLike pattern]
  else
    let (expr, branched) := buildFtsExpr env gSearchTokenizer term
    expr.toList.map .ftsMatch ++
      if branched then []
      else if searchType = some (bytes "title") then [.titleLike pattern]
      else if searchType = some (bytes "body") then [.contentLike pattern]
      else [.eitherLike pattern]

/-- `search_query_build` without filters -/
def searchQueryBuild (env : Env) (gSearchTokenizer : Option Tokenizer)
    (query searchType : Option Bytes) : SearchQuery where
  where_ := (searchSplitTerms query).flatMap (termClauses env gSearchTokenizer searchType)
  titleRank :=
    if searchType = some (bytes "board") then [] else (searchSplitTerms query).map escapeLike
  terms := searchSplitTerms query

/-! ## The tables -/

structure Post where
  id : ℕ
  title : Bytes
  content : Bytes
deriving DecidableEq

/-- `posts_fts`: its tokenizer and the row of an id. -/
structure Table where
  tokenizer : Tokenizer
  rows : ℕ → Option (Bytes × Bytes)

/-- The posts and the next id, `posts_fts` when it exists, the two rows of `site_settings` and
`g_search_tokenizer`. -/
structure State where
  posts : List Post
  nextId : ℕ
  postsFts : Option Table
  searchIndexVersion : Bytes
  searchTokenizer : Option Tokenizer
  gSearchTokenizer : Option Tokenizer

def init : State := ⟨[], 1, none, [], none, none⟩

/-- `SEARCH_INDEX_VERSION` -/
def indexVersion : Bytes := bytes "2"

/-- `index_post_text`; no text is a post that is gone. -/
def indexPostText (t : Table) (id : ℕ) (text : Option (Bytes × Bytes)) : Table :=
  { t with rows := Function.update t.rows id text }

def textOf (posts : List Post) (id : ℕ) : Option (Bytes × Bytes) :=
  (posts.find? fun p => p.id == id).map fun p => (p.title, p.content)

/-- `db_search_index_post` -/
def dbSearchIndexPost (s : State) (id : ℕ) : State :=
  { s with postsFts := s.postsFts.map fun t => indexPostText t id (textOf s.posts id) }

/-- `db_post_create` -/
def dbPostCreate (s : State) (title content : Bytes) : State :=
  dbSearchIndexPost
    { s with posts := s.posts ++ [⟨s.nextId, title, content⟩], nextId := s.nextId + 1 } s.nextId

/-- `db_post_create_with_auto_slug` -/
def dbPostCreateWithAutoSlug (s : State) (slugBase title content : Bytes) : State :=
  if slugBase = [] then s else dbPostCreate s title content

/-- `db_post_update` -/
def dbPostUpdate (s : State) (id : ℕ) (title content : Bytes) : State :=
  dbSearchIndexPost
    { s with posts := s.posts.map fun p => if p.id = id then ⟨id, title, content⟩ else p } id

/-- `db_post_delete` -/
def dbPostDelete (s : State) (id : ℕ) : State :=
  { s with posts := s.posts.filter fun p => p.id ≠ id }

/-- `db_search_migrate`; `mecabTable` tells whether the table can be created with MeCab. -/
def dbSearchMigrate (s : State) (preferred : Tokenizer) (mecabTable : Bool) : State :=
  let fresh := s.searchIndexVersion ≠ indexVersion ∨ s.searchTokenizer ≠ some preferred ∨
    s.postsFts.isNone = true
  let stored := if s.postsFts.isSome = true ∧ s.searchTokenizer.isSome = true then
    s.searchTokenizer else some preferred
  if ¬fresh then { s with gSearchTokenizer := stored }
  else
    let chosen := if preferred = .mecab ∧ mecabTable = true then .mecab else .trigram
    { s with
      postsFts := some (s.posts.foldl (fun t p => indexPostText t p.id (some (p.title, p.content)))
        ⟨chosen, fun _ => none⟩)
      searchTokenizer := some chosen
      searchIndexVersion := indexVersion
      gSearchTokenizer := some chosen }

inductive Op
  | create (title content : Bytes)
  | createWithAutoSlug (slugBase title content : Bytes)
  | update (id : ℕ) (title content : Bytes)
  | delete (id : ℕ)
  | migrate (preferred : Tokenizer) (mecabTable : Bool)

def step (s : State) : Op → State
  | .create title content => dbPostCreate s title content
  | .createWithAutoSlug slugBase title content => dbPostCreateWithAutoSlug s slugBase title content
  | .update id title content => dbPostUpdate s id title content
  | .delete id => dbPostDelete s id
  | .migrate preferred mecabTable => dbSearchMigrate s preferred mecabTable

/-- A post meets a condition; `boardName` is the name of its board. -/
def Clause.holds (env : Env) (postsFts : Option Table) (boardName : Option Bytes) (p : Post) :
    Clause → Bool
  | .boardLike pattern => (boardName.map (sqlLike pattern)).getD false
  | .ftsMatch expr =>
    match postsFts with
    | none => false
    | some t => ((t.rows p.id).map fun row => expr.matches env t.tokenizer row).getD false
  | .titleLike pattern => sqlLike pattern p.title
  | .contentLike pattern => sqlLike pattern p.content
  | .eitherLike pattern => sqlLike pattern p.title || sqlLike pattern p.content

def Selected (env : Env) (s : State) (boardName : Post → Option Bytes)
    (query searchType : Option Bytes) (p : Post) : Prop :=
  ∀ c ∈ (searchQueryBuild env s.gSearchTokenizer query searchType).where_,
    c.holds env s.postsFts (boardName p) p = true

/-! ## What is asked of the search -/

/-- The text has the term in it, as `LIKE` sees it. -/
def Contains (text term : Bytes) : Prop := term.map toLower <:+: text.map toLower

def InField (searchType : Option Bytes) (p : Post) (term : Bytes) : Prop :=
  if searchType = some (bytes "title") then Contains p.title term
  else if searchType = some (bytes "body") then Contains p.content term
  else Contains p.title term ∨ Contains p.content term

def HasPhrase (env : Env) (p : Post) (term : Bytes) : Prop :=
  rowMatches env .mecab term (p.title, p.content) = true

def Branches (env : Env) (gSearchTokenizer : Option Tokenizer) (term : Bytes) : Prop :=
  (buildFtsExpr env gSearchTokenizer term).2 = true

instance (env : Env) (g : Option Tokenizer) (term : Bytes) : Decidable (Branches env g term) :=
  inferInstanceAs (Decidable (_ = true))

/-- A term that is split is there with its surface or with all its morphemes; another one is in
the requested field, and under MeCab with its tokens, too. -/
def Found (env : Env) (s : State) (searchType : Option Bytes) (p : Post) (term : Bytes) : Prop :=
  if Branches env s.gSearchTokenizer term then
    HasPhrase env p term ∨ ∀ m ∈ fts5MecabSplitTerm env term, HasPhrase env p m
  else
    InField searchType p term ∧
      (s.gSearchTokenizer = some .mecab → termIsMatchSafe term = true → HasPhrase env p term)

section Decide

variable (env : Env) (p : Post) (term : Bytes)

instance (text : Bytes) : Decidable (Contains text term) :=
  inferInstanceAs (Decidable (_ <:+: _))

instance : Decidable (HasPhrase env p term) := inferInstanceAs (Decidable (_ = true))

instance (searchType : Option Bytes) : Decidable (InField searchType p term) :=
  inferInstanceAs (Decidable
    (if searchType = some (bytes "title") then Contains p.title term
    else if searchType = some (bytes "body") then Contains p.content term
    else Contains p.title term ∨ Contains p.content term))

end Decide

/-! ## The index is in step -/

/-- Ids are keys, every post has its texts in the index, and its tokenizer is the one that the
settings and `g_search_tokenizer` name. -/
structure Inv (s : State) : Prop where
  below : ∀ p ∈ s.posts, p.id < s.nextId
  keys : (s.posts.map Post.id).Nodup
  indexed : ∀ t ∈ s.postsFts, ∀ p ∈ s.posts, t.rows p.id = some (p.title, p.content)
  stored : s.searchTokenizer = s.postsFts.map Table.tokenizer
  named : s.gSearchTokenizer = s.postsFts.map Table.tokenizer

theorem init_inv : Inv init where
  below := List.forall_mem_nil _
  keys := List.nodup_nil
  indexed := fun _ h => nomatch h
  stored := rfl
  named := rfl

theorem textOf_of_mem {posts : List Post} (hkeys : (posts.map Post.id).Nodup) {p : Post}
    (hp : p ∈ posts) : textOf posts p.id = some (p.title, p.content) := by
  unfold textOf
  induction posts with
  | nil => exact nomatch hp
  | cons q posts ih =>
    rw [List.map_cons, List.nodup_cons] at hkeys
    rw [List.find?_cons]
    rcases List.mem_cons.mp hp with rfl | htail
    · rw [beq_self_eq_true]
      rfl
    · have hne : (q.id == p.id) = false := by
        rw [beq_eq_false_iff_ne]
        intro heq
        exact hkeys.1 (heq ▸ List.mem_map_of_mem htail)
      rw [hne]
      exact ih hkeys.2 htail

variable {s : State} {id : ℕ}

/-- A post that is indexed anew is in step again, when all others still are. -/
theorem Inv.index (hbelow : ∀ p ∈ s.posts, p.id < s.nextId) (hkeys : (s.posts.map Post.id).Nodup)
    (hother : ∀ t ∈ s.postsFts, ∀ p ∈ s.posts, p.id ≠ id →
      t.rows p.id = some (p.title, p.content))
    (hstored : s.searchTokenizer = s.postsFts.map Table.tokenizer)
    (hnamed : s.gSearchTokenizer = s.postsFts.map Table.tokenizer) :
    Inv (dbSearchIndexPost s id) where
  below := hbelow
  keys := hkeys
  indexed := by
    intro t' ht' p hp
    obtain ⟨t, ht, rfl⟩ := Option.map_eq_some_iff.mp ht'
    change Function.update t.rows id (textOf s.posts id) p.id = _
    by_cases hid : p.id = id
    · rw [← hid, Function.update_self, textOf_of_mem hkeys hp]
    · rw [Function.update_of_ne hid, hother t ht p hp hid]
  stored := by
    change s.searchTokenizer = (s.postsFts.map _).map _
    rw [Option.map_map, hstored]
    rfl
  named := by
    change s.gSearchTokenizer = (s.postsFts.map _).map _
    rw [Option.map_map, hnamed]
    rfl

theorem Inv.create (h : Inv s) (title content : Bytes) : Inv (dbPostCreate s title content) := by
  have hold : ∀ p ∈ s.posts, p.id ≠ s.nextId := fun p hp => Nat.ne_of_lt (h.below p hp)
  refine Inv.index ?_ ?_ ?_ h.stored h.named
  · intro p hp
    rcases List.mem_append.mp hp with hp | hp
    · exact Nat.lt_succ_of_lt (h.below p hp)
    · rw [List.mem_singleton.mp hp]
      exact Nat.lt_succ_self _
  · rw [List.map_append, List.nodup_append]
    refine ⟨h.keys, List.nodup_singleton _, ?_⟩
    intro i hi j hj
    obtain ⟨p, hp, rfl⟩ := List.mem_map.mp hi
    rw [List.map_singleton, List.mem_singleton] at hj
    rw [hj]
    exact hold p hp
  · intro t ht p hp hid
    rcases List.mem_append.mp hp with hp | hp
    · exact h.indexed t ht p hp
    · rw [List.mem_singleton.mp hp] at hid
      exact absurd rfl hid

theorem Inv.update (h : Inv s) (id : ℕ) (title content : Bytes) :
    Inv (dbPostUpdate s id title content) := by
  have hids : ∀ p : Post, (if p.id = id then ⟨id, title, content⟩ else p : Post).id = p.id := by
    intro p
    split_ifs with hid
    · exact hid.symm
    · rfl
  refine Inv.index ?_ ?_ ?_ h.stored h.named
  · intro p hp
    obtain ⟨q, hq, rfl⟩ := List.mem_map.mp hp
    rw [hids q]
    exact h.below q hq
  · rw [List.map_map, show Post.id ∘ _ = Post.id from funext hids]
    exact h.keys
  · intro t ht p hp hid
    obtain ⟨q, hq, rfl⟩ := List.mem_map.mp hp
    rw [hids q] at hid
    rw [if_neg hid]
    exact h.indexed t ht q hq

theorem Inv.delete (h : Inv s) (id : ℕ) : Inv (dbPostDelete s id) where
  below := fun p hp => h.below p (List.mem_filter.mp hp).1
  keys := h.keys.sublist (List.filter_sublist.map _)
  indexed := fun t ht p hp => h.indexed t ht p (List.mem_filter.mp hp).1
  stored := h.stored
  named := h.named

theorem rows_foldl {posts : List Post} (hkeys : (posts.map Post.id).Nodup) (t : Table) :
    let t' := posts.foldl (fun t p => indexPostText t p.id (some (p.title, p.content))) t
    t'.tokenizer = t.tokenizer ∧ (∀ p ∈ posts, t'.rows p.id = some (p.title, p.content)) ∧
      ∀ i, i ∉ posts.map Post.id → t'.rows i = t.rows i := by
  induction posts generalizing t with
  | nil => exact ⟨rfl, List.forall_mem_nil _, fun _ _ => rfl⟩
  | cons q posts ih =>
    rw [List.map_cons, List.nodup_cons] at hkeys
    obtain ⟨htok, hrows, hrest⟩ := ih hkeys.2 (indexPostText t q.id (some (q.title, q.content)))
    refine ⟨htok, ?_, ?_⟩
    · rw [List.forall_mem_cons]
      refine ⟨?_, hrows⟩
      rw [List.foldl_cons, hrest q.id hkeys.1]
      exact Function.update_self ..
    · intro i hi
      rw [List.map_cons, List.mem_cons, not_or] at hi
      rw [List.foldl_cons, hrest i hi.2]
      exact Function.update_of_ne hi.1 ..

theorem Inv.migrate (h : Inv s) (preferred : Tokenizer) (mecabTable : Bool) :
    Inv (dbSearchMigrate s preferred mecabTable) := by
  unfold dbSearchMigrate
  dsimp only
  by_cases hfresh : s.searchIndexVersion ≠ indexVersion ∨ s.searchTokenizer ≠ some preferred ∨
      s.postsFts.isNone = true
  · rw [if_neg (not_not_intro hfresh)]
    generalize (if preferred = .mecab ∧ mecabTable = true then Tokenizer.mecab
      else .trigram) = chosen
    obtain ⟨htok, hrows, -⟩ := rows_foldl h.keys ⟨chosen, fun _ => none⟩
    refine ⟨h.below, h.keys, ?_, congrArg some htok.symm, congrArg some htok.symm⟩
    rintro t ⟨⟩
    exact hrows
  · rw [if_pos hfresh]
    refine ⟨h.below, h.keys, h.indexed, h.stored, ?_⟩
    rw [← h.stored]
    dsimp only
    split_ifs with hboth
    · rfl
    · rw [not_or, not_or] at hfresh
      exact (not_not.mp hfresh.2.1).symm

theorem step_inv (h : Inv s) (op : Op) : Inv (step s op) := by
  cases op with
  | create title content => exact h.create title content
  | createWithAutoSlug slugBase title content =>
    unfold step dbPostCreateWithAutoSlug
    dsimp only
    split_ifs
    · exact h
    · exact h.create title content
  | update id title content => exact h.update id title content
  | delete id => exact h.delete id
  | migrate preferred mecabTable => exact h.migrate preferred mecabTable

/-! ## One term -/

section Term

variable {env : Env} {p : Post} {term : Bytes} {searchType : Option Bytes} {name : Option Bytes}

theorem sqlLike_escapeLike (text : Bytes) :
    sqlLike (escapeLike term) text = true ↔ Contains text term :=
  Like.like_containing likeSyntax term text

/-- The `LIKE` for a term. -/
def likeClause (searchType : Option Bytes) (term : Bytes) : Clause :=
  if searchType = some (bytes "title") then .titleLike (escapeLike term)
  else if searchType = some (bytes "body") then .contentLike (escapeLike term)
  else .eitherLike (escapeLike term)

theorem likeClause_holds (postsFts : Option Table) :
    (likeClause searchType term).holds env postsFts name p = true ↔ InField searchType p term := by
  unfold likeClause InField
  split_ifs
  · exact sqlLike_escapeLike p.title
  · exact sqlLike_escapeLike p.content
  · refine Bool.or_eq_true_iff.trans (or_congr ?_ ?_)
    · exact sqlLike_escapeLike p.title
    · exact sqlLike_escapeLike p.content

/-- The conditions for a term: its expression, and the `LIKE` where it is not split. -/
theorem termClauses_eq (g : Option Tokenizer) (hboard : searchType ≠ some (bytes "board")) :
    termClauses env g searchType term =
      (buildFtsExpr env g term).1.toList.map .ftsMatch ++
        if (buildFtsExpr env g term).2 then [] else [likeClause searchType term] := by
  unfold termClauses likeClause
  dsimp only
  rw [if_neg hboard]
  congr 1
  split_ifs
  all_goals rfl

theorem ftsMatch_holds {t : Table} (ht : s.postsFts = some t) (h : Inv s) (hp : p ∈ s.posts)
    (expr : MatchExpr) :
    (Clause.ftsMatch expr).holds env s.postsFts name p = true ↔
      expr.matches env t.tokenizer (p.title, p.content) = true := by
  unfold Clause.holds
  rw [ht]
  dsimp only
  rw [h.indexed t ht p hp]
  rfl

theorem rowMatches_trigram (hfold : env.Folds) (h : InField searchType p term) :
    rowMatches env .trigram term (p.title, p.content) = true := by
  have hcolumn : ∀ column, Contains column term → columnMatches env .trigram term column = true :=
    fun column hc => decide_eq_true (hfold term column hc)
  have heither : Contains p.title term ∨ Contains p.content term := by
    unfold InField at h
    split_ifs at h
    · exact .inl h
    · exact .inr h
    · exact h
  exact Bool.or_eq_true_iff.mpr (heither.imp (hcolumn _) (hcolumn _))

theorem buildFtsExpr_cases (env : Env) (g : Option Tokenizer) (term : Bytes) :
    (buildFtsExpr env g term = (none, false) ∧
        ¬(g = some .mecab ∧ termIsMatchSafe term = true)) ∨
      (buildFtsExpr env g term = (some (.quoted term), false) ∧ termIsMatchSafe term = true ∧
        g ≠ none) ∨
      (buildFtsExpr env g term = (some (.branch term (fts5MecabSplitTerm env term)), true) ∧
        g = some .mecab) := by
  unfold buildFtsExpr
  by_cases hskip : g = none ∨ termIsMatchSafe term = false
  · rw [if_pos hskip]
    refine .inl ⟨rfl, ?_⟩
    rintro ⟨rfl, hsafe⟩
    rcases hskip with hnone | hunsafe
    · exact nomatch hnone
    · exact nomatch hsafe.symm.trans hunsafe
  · rw [if_neg hskip]
    rw [not_or, Bool.not_eq_false] at hskip
    by_cases hshort : g = some .trigram ∧ utf8CpCount term < 3
    · rw [if_pos hshort]
      refine .inl ⟨rfl, ?_⟩
      rintro ⟨hmecab, -⟩
      exact nomatch hmecab.symm.trans hshort.1
    · rw [if_neg hshort]
      dsimp only
      by_cases hsplit : g = some .mecab ∧ termHasHangul term = true ∧
          1 < (fts5MecabSplitTerm env term).length
      · rw [if_pos hsplit]
        exact .inr (.inr ⟨rfl, hsplit.1⟩)
      · rw [if_neg hsplit]
        exact .inr (.inl ⟨rfl, hskip.2, hskip.1⟩)

theorem termClauses_hold_iff (hfold : env.Folds) (h : Inv s) (hp : p ∈ s.posts)
    (hboard : searchType ≠ some (bytes "board"))
    (hbareword : Branches env s.gSearchTokenizer term →
      ∀ m ∈ fts5MecabSplitTerm env term, isBareword m = true) :
    (∀ c ∈ termClauses env s.gSearchTokenizer searchType term,
      c.holds env s.postsFts name p = true) ↔ Found env s searchType p term := by
  rw [termClauses_eq _ hboard]
  unfold Found
  have htable : ∀ tok, s.gSearchTokenizer = some tok →
      ∃ t, s.postsFts = some t ∧ t.tokenizer = tok := by
    intro tok htok
    exact Option.map_eq_some_iff.mp (h.named.symm.trans htok)
  rcases buildFtsExpr_cases env s.gSearchTokenizer term with
    ⟨heq, hno⟩ | ⟨heq, hsafe, hsome⟩ | ⟨heq, hmecab⟩
  · -- only the `LIKE` is left
    have hbranches : ¬Branches env s.gSearchTokenizer term := by
      unfold Branches
      rw [heq]
      exact Bool.false_ne_true
    rw [if_neg hbranches, heq]
    simp only [Option.toList_none, List.map_nil, Bool.false_eq_true, if_false, List.nil_append,
      List.forall_mem_singleton]
    rw [likeClause_holds]
    exact (and_iff_left fun hm hs => absurd ⟨hm, hs⟩ hno).symm
  · have hbranches : ¬Branches env s.gSearchTokenizer term := by
      unfold Branches
      rw [heq]
      exact Bool.false_ne_true
    obtain ⟨tok, htok⟩ := Option.ne_none_iff_exists'.mp hsome
    obtain ⟨t, ht, rfl⟩ := htable tok htok
    rw [if_neg hbranches, heq]
    simp only [Option.toList_some, List.map_singleton, Bool.false_eq_true, if_false,
      List.singleton_append]
    rw [List.forall_mem_cons, List.forall_mem_singleton, likeClause_holds,
      ftsMatch_holds ht h hp, htok]
    change rowMatches env t.tokenizer term _ = true ∧ _ ↔ _
    cases hkind : t.tokenizer with
    | mecab =>
      constructor
      · rintro ⟨hphrase, hfield⟩
        exact ⟨hfield, fun _ _ => hphrase⟩
      · rintro ⟨hfield, hphrase⟩
        exact ⟨hphrase rfl hsafe, hfield⟩
    | trigram =>
      constructor
      · rintro ⟨-, hfield⟩
        exact ⟨hfield, fun hm => nomatch hm⟩
      · rintro ⟨hfield, -⟩
        exact ⟨rowMatches_trigram hfold hfield, hfield⟩
  · have hbranches : Branches env s.gSearchTokenizer term := by
      unfold Branches
      rw [heq]
    obtain ⟨t, ht, htok⟩ := htable .mecab hmecab
    rw [if_pos hbranches, heq]
    simp only [Option.toList_some, List.map_singleton, if_true, List.append_nil,
      List.forall_mem_singleton]
    rw [ftsMatch_holds ht h hp, htok, MatchExpr.matches, Bool.and_eq_true, Bool.or_eq_true,
      List.all_eq_true, List.all_eq_true]
    exact and_iff_right (hbareword hbranches)

end Term

/-- In every state that is reached a search selects what it says: without MeCab the posts that
have every term in the requested field, with it those that have the tokens of every term, too,
or the surface or the morphemes of a term that is split. -/
theorem selected_iff {env : Env} (hfold : env.Folds) (ops : List Op)
    (query searchType : Option Bytes) (boardName : Post → Option Bytes)
    (hboard : searchType ≠ some (bytes "board")) :
    let s := run step init ops
    ((∀ term ∈ searchSplitTerms query, Branches env s.gSearchTokenizer term →
        searchType ≠ some (bytes "title") ∧ searchType ≠ some (bytes "body") ∧
          ∀ m ∈ fts5MecabSplitTerm env term, isBareword m = true) →
      ∀ p ∈ s.posts, Selected env s boardName query searchType p ↔
        ∀ term ∈ searchSplitTerms query, Found env s searchType p term) ∧
    (s.gSearchTokenizer ≠ some .mecab →
      ∀ p ∈ s.posts, Selected env s boardName query searchType p ↔
        ∀ term ∈ searchSplitTerms query, InField searchType p term) := by
  intro s
  have hkeep : ∀ s op, Inv s → Inv (step s op) := fun _ op hs => step_inv hs op
  have h : Inv s := run_invariant step hkeep init_inv ops
  have hselected : ∀ p ∈ s.posts,
      (∀ term ∈ searchSplitTerms query, Branches env s.gSearchTokenizer term →
        ∀ m ∈ fts5MecabSplitTerm env term, isBareword m = true) →
      (Selected env s boardName query searchType p ↔
        ∀ term ∈ searchSplitTerms query, Found env s searchType p term) := by
    intro p hp hbareword
    unfold Selected searchQueryBuild
    rw [List.forall_mem_flatMap]
    exact forall₂_congr fun term hterm =>
      termClauses_hold_iff hfold h hp hboard (hbareword term hterm)
  constructor
  · intro hbranch p hp
    exact hselected p hp fun term hterm hb => (hbranch term hterm hb).2.2
  · intro hmecab p hp
    have hnone : ∀ term, ¬Branches env s.gSearchTokenizer term := by
      intro term hb
      rcases buildFtsExpr_cases env s.gSearchTokenizer term with h1 | h2 | h3
      · exact nomatch hb.symm.trans (congrArg Prod.snd h1.1)
      · exact nomatch hb.symm.trans (congrArg Prod.snd h2.1)
      · exact hmecab h3.2
    rw [hselected p hp fun term _ hb => absurd hb (hnone term)]
    refine forall₂_congr fun term _ => ?_
    unfold Found
    rw [if_neg (hnone term)]
    exact and_iff_left fun hm => absurd hm hmecab

def wordEnv : Env := ⟨List.map toLower, fun word => [word]⟩

theorem folds_wordEnv : wordEnv.Folds := fun _ _ h => h

def onePost (title : Bytes) : List Op := [.migrate .mecab true, .create title []]

theorem selected_word :
    Selected wordEnv (run step init (onePost (bytes "Some title"))) (fun _ => none)
      (some (bytes "title")) none ⟨1, bytes "Some title", []⟩ := by
  have hfound := (selected_iff folds_wordEnv (onePost (bytes "Some title")) (some (bytes "title"))
    none (fun _ => none) (by decide)).1 (by decide) _ (List.mem_singleton_self _)
  refine hfound.mpr fun term hterm => ?_
  rw [List.mem_singleton.mp hterm]
  exact ⟨.inl (by decide), fun _ _ => by decide⟩

/-- A term inside of a word is not found under MeCab. -/
theorem not_selected_part_of_word :
    ¬∀ (ops : List Op) (query searchType : Option Bytes),
      searchType ≠ some (bytes "board") → ∀ p ∈ (run step init ops).posts,
        (Selected wordEnv (run step init ops) (fun _ => none) query searchType p ↔
          ∀ term ∈ searchSplitTerms query,
            InField searchType p term ∨
              Branches wordEnv (run step init ops).gSearchTokenizer term ∧
                ∀ m ∈ fts5MecabSplitTerm wordEnv term, InField searchType p m) := by
  intro h
  have hpart := (h (onePost (bytes "subtitle")) (some (bytes "title")) none (by decide)
    ⟨1, bytes "subtitle", []⟩ (List.mem_singleton_self _)).mpr (by decide)
  have hnot : ¬Selected wordEnv (run step init (onePost (bytes "subtitle"))) (fun _ => none)
      (some (bytes "title")) none ⟨1, bytes "subtitle", []⟩ := by
    unfold Selected
    decide
  exact hnot hpart

end FlyBoard.Search

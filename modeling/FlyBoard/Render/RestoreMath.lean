import FlyBoard.Lib.Placeholders
import FlyBoard.Render.FencedCode

/-!
# What was taken out of the markdown comes back (`src/render/render_md.c`)

`restore_math`, `restore_media` and `restore_tikz` run over the HTML one after another and swap the
placeholders of `protect_math` for what the registries hold. md4c stands between them and leaves
the text of these results as it is.

The placeholders are strings of the text, so each pass also swaps what an author has typed like
one. A part is back exactly when its pass finds the placeholders that `protect_math` wrote and no
others.
-/

namespace FlyBoard.Render

open Bytes Scan Placeholders

/-! ## The passes -/

/-- A placeholder at the front: the digits of its number and what stands behind it. A number that
does not fit an `int` is not defined in the source. -/
def placeholderAt (stem : Bytes) (s : Bytes) : Option (Bytes × Bytes) :=
  if startsWith s (bytes "@@" ++ stem) then
    let behind := s.drop (2 + stem.length)
    let rest := behind.dropWhile isDigit
    if startsWith rest (bytes "@@") then some (behind.takeWhile isDigit, rest.drop 2) else none
  else none

def mathSpan (cls text : Bytes) : Bytes :=
  bytes "<span class=\"" ++ cls ++ bytes "\">" ++ escapedMath text ++ bytes "</span>"

/-- `append_tikz_block` -/
def tikzBlock (code : Bytes) : Bytes :=
  bytes "<div class=\"tikz-block\"" ++
    (if hasSub code (bytes "\\usetikzlibrary") || hasSub code (bytes "\\usepackage") then
      bytes " data-has-packages=\"true\"" else []) ++
    bytes ">\n" ++ escapedMath code ++ bytes "\n</div>"

def Registry.shown : Registry → Bytes → Bytes
  | .blocks, text => mathSpan (bytes "math-block") text
  | .inlines, text => mathSpan (bytes "math-inline") text
  | .media, text => text
  | .tikz, text => tikzBlock text

section Passes

variable (entries : Registry → List Bytes)

/-- The text for a number; without an entry a formula is empty and the others are nothing. -/
def shownAt (r : Registry) (digits : Bytes) : Bytes :=
  match (entries r)[digitsValue digits]? with
  | some text => r.shown text
  | none =>
    match r with
    | .blocks | .inlines => r.shown []
    | .media | .tikz => []

/-- A round of `restore_math`. -/
def findMath (s : Bytes) : Option (Bytes × Bytes) :=
  if startsWith s (bytes "@@MATH_BLOCK_") then
    (placeholderAt Registry.blocks.stem s).map fun r => (shownAt entries .blocks r.1, r.2)
  else if startsWith s (bytes "@@MATHDOLLAR@@") then some (bytes "$", s.drop 14)
  else (placeholderAt Registry.inlines.stem s).map fun r => (shownAt entries .inlines r.1, r.2)

/-- A round of `restore_media`. -/
def findMedia (s : Bytes) : Option (Bytes × Bytes) :=
  (placeholderAt Registry.media.stem s).map fun r => (shownAt entries .media r.1, r.2)

/-- `parse_tikz_placeholder` -/
def parseTikzPlaceholder (s : Bytes) : Option (Bytes × Bytes) :=
  (placeholderAt Registry.tikz.stem s).filter fun r => !r.1.isEmpty

/-- A round of `restore_tikz`. -/
def findTikz (s : Bytes) : Option (Bytes × Bytes) :=
  if startsWith s (bytes "<p>") then
    match parseTikzPlaceholder (s.drop 3) with
    | none => none
    | some (digits, after) =>
      if startsWith after (bytes "</p>") then some (shownAt entries .tikz digits, after.drop 4)
      else none
  else (parseTikzPlaceholder s).map fun r => (shownAt entries .tikz r.1, r.2)

/-- `restore_math` -/
def restoreMath (html : Bytes) : Bytes := swap (findMath entries) html

/-- `restore_media` and `restore_tikz` return at once without entries. -/
def itemsUnlessEmpty (find : Bytes → Option (Bytes × Bytes)) (registry : List Bytes)
    (html : Bytes) : List (Item UInt8) :=
  if registry = [] then html.map .kept else items find html

def restoreMedia (html : Bytes) : Bytes :=
  (itemsUnlessEmpty (findMedia entries) (entries .media) html).flatMap Item.text

def restoreTikz (html : Bytes) : Bytes :=
  (itemsUnlessEmpty (findTikz entries) (entries .tikz) html).flatMap Item.text

def restore (html : Bytes) : Bytes :=
  restoreTikz entries (restoreMedia entries (restoreMath entries html))

end Passes

/-! ## What is written for the parts -/

/-- The pass that puts the entries of a registry back. -/
def Registry.rank : Registry → ℕ
  | .blocks | .inlines => 0
  | .media => 1
  | .tikz => 2

/-- The text that is to stand for a captured part: a formula and TikZ code escaped, a media tag
as it was sanitized. -/
def Registry.own (r : Registry) (expr : Bytes) : Bytes :=
  match r with
  | .media => expr
  | _ => r.shown (registryText expr (r == .tikz))

def Part.own : Part → Bytes
  | .text c _ => [c]
  | .dollar => [36]
  | .capture r _ expr _ => r.own expr
  | .dropped _ => []

/-- What has been written, with the parts behind the placeholders, and what was captured. -/
structure Laid where
  pieces : List (Piece UInt8)
  exprs : Registry → List Bytes

def Laid.out (l : Laid) : Bytes := stream 64 0 l.pieces

def breakBefore (out : Bytes) : List (Piece UInt8) :=
  if out.getLast? = some 10 ∧ out.dropLast.getLast? ≠ some 10 then [.kept 10] else []

def breaksAfter (textFollows : Bool) : List (Piece UInt8) :=
  if textFollows then [.kept 10, .kept 10] else [.kept 10]

def Laid.put (l : Laid) : Part → Laid
  | .text c _ => { l with pieces := l.pieces ++ [.kept c] }
  | .dollar => { l with pieces := l.pieces ++ [.token 0 (bytes "MATHDOLLAR") (bytes "$")] }
  | .capture r _ expr place =>
    let token := Piece.token r.rank (r.body (l.exprs r).length) (r.own expr)
    let exprs := Function.update l.exprs r (l.exprs r ++ [expr])
    match place with
    | .line => ⟨l.pieces ++ [token], exprs⟩
    | .block textFollows =>
      ⟨l.pieces ++ (breakBefore l.out ++ [token] ++ breaksAfter textFollows), exprs⟩
  | .dropped _ => l

def laid (md : Bytes) : Laid :=
  (division md).foldl Laid.put ⟨[], fun _ => []⟩

/-! ## Placeholders of the registries -/

def numbered (stem b : Bytes) : Bool :=
  startsWith b stem && (b.drop stem.length).all isDigit

theorem placeholder_append (stem digits : Bytes) (s : Bytes) :
    placeholder 64 (stem ++ digits) ++ s = bytes "@@" ++ stem ++ (digits ++ 64 :: 64 :: s) := by
  simp only [placeholder, List.append_assoc, List.cons_append, List.nil_append]
  rfl

theorem placeholderAt_placeholder {stem digits : Bytes} (h : ∀ d ∈ digits, isDigit d = true)
    (s : Bytes) : placeholderAt stem (placeholder 64 (stem ++ digits) ++ s) = some (digits, s) := by
  have hstop : Stops isDigit (64 :: 64 :: s) := by
    rintro d ⟨⟩
    rfl
  have hdrop : (bytes "@@" ++ stem ++ (digits ++ 64 :: 64 :: s)).drop (2 + stem.length) =
      digits ++ 64 :: 64 :: s := by
    rw [show 2 + stem.length = (bytes "@@" ++ stem).length by rw [List.length_append]; rfl,
      List.drop_left]
  rw [placeholder_append]
  unfold placeholderAt
  rw [if_pos (startsWith_iff.mpr (List.prefix_append _ _))]
  simp only [hdrop, dropWhile_append_stop h hstop, takeWhile_append_stop h hstop]
  exact if_pos (startsWith_iff.mpr ⟨s, rfl⟩)

theorem placeholderAt_iff {stem s : Bytes} {r : Bytes × Bytes} :
    placeholderAt stem s = some r ↔
      (∀ d ∈ r.1, isDigit d = true) ∧ s = placeholder 64 (stem ++ r.1) ++ r.2 := by
  constructor
  · intro h
    unfold placeholderAt at h
    simp only at h
    split_ifs at h with hstem hmarks
    cases h
    obtain ⟨t, rfl⟩ := startsWith_iff.mp hstem
    have hdrop : (bytes "@@" ++ stem ++ t).drop (2 + stem.length) = t := by
      rw [show 2 + stem.length = (bytes "@@" ++ stem).length by rw [List.length_append]; rfl,
        List.drop_left]
    rw [hdrop] at hmarks ⊢
    obtain ⟨u, hu⟩ := startsWith_iff.mp hmarks
    have hrest : t.dropWhile isDigit = 64 :: 64 :: u := hu.symm
    refine ⟨fun d hd => List.mem_takeWhile_imp hd, ?_⟩
    rw [placeholder_append, hrest]
    conv_lhs => rw [← List.takeWhile_append_dropWhile (p := isDigit) (l := t), hrest]
    rfl
  · rintro ⟨hdigits, rfl⟩
    exact placeholderAt_placeholder hdigits r.2

theorem not_mem_digits {digits : Bytes} (h : ∀ d ∈ digits, isDigit d = true) : 64 ∉ digits :=
  fun hmem => absurd (h 64 hmem) (by decide)

theorem numbered_iff {stem b : Bytes} :
    numbered stem b = true ↔ ∃ digits, (∀ d ∈ digits, isDigit d = true) ∧ b = stem ++ digits := by
  unfold numbered
  rw [Bool.and_eq_true, List.all_eq_true, startsWith_iff]
  constructor
  · rintro ⟨⟨digits, rfl⟩, hdigits⟩
    rw [List.drop_left] at hdigits
    exact ⟨digits, hdigits, rfl⟩
  · rintro ⟨digits, hdigits, rfl⟩
    rw [List.drop_left]
    exact ⟨List.prefix_append _ _, hdigits⟩

theorem isSome_placeholderAt {stem : Bytes} (hstem : 64 ∉ stem) (s : Bytes) :
    (placeholderAt stem s).isSome = opens 64 (numbered stem) s := by
  rw [Bool.eq_iff_iff, Option.isSome_iff_exists, opens_iff]
  constructor
  · rintro ⟨r, hr⟩
    obtain ⟨hdigits, hs⟩ := placeholderAt_iff.mp hr
    refine ⟨stem ++ r.1, r.2, ?_, numbered_iff.mpr ⟨r.1, hdigits, rfl⟩, hs⟩
    rw [List.mem_append]
    exact not_or.mpr ⟨hstem, not_mem_digits hdigits⟩
  · rintro ⟨b, t, -, hb, rfl⟩
    obtain ⟨digits, hdigits, rfl⟩ := numbered_iff.mp hb
    exact ⟨(digits, t), placeholderAt_placeholder hdigits t⟩

def mathBodies (b : Bytes) : Bool :=
  (numbered Registry.blocks.stem b || b == bytes "MATHDOLLAR") ||
    numbered Registry.inlines.stem b

def mediaBodies : Bytes → Bool := numbered Registry.media.stem

def tikzBodies (b : Bytes) : Bool := numbered Registry.tikz.stem b && b != Registry.tikz.stem

section Finds

variable (entries : Registry → List Bytes) {r : Bytes × Bytes}

theorem shortens_placeholderAt {stem s : Bytes}
    (h : placeholderAt stem s = some r) : r.2.length + 4 ≤ s.length := by
  obtain ⟨-, rfl⟩ := placeholderAt_iff.mp h
  simp only [placeholder, List.length_append, List.length_cons, List.length_nil]
  omega

theorem findMath_shortens : Shortens (findMath entries) := by
  intro s text rest h
  unfold findMath at h
  split_ifs at h with hblock hdollar
  · obtain ⟨r, hr, heq⟩ := Option.map_eq_some_iff.mp h
    cases heq
    have hlength := shortens_placeholderAt hr
    omega
  · cases h
    obtain ⟨t, rfl⟩ := startsWith_iff.mp hdollar
    rw [List.length_drop, List.length_append]
    have hpos : (bytes "@@MATHDOLLAR@@").length = 14 := by decide
    omega
  · obtain ⟨r, hr, heq⟩ := Option.map_eq_some_iff.mp h
    cases heq
    have hlength := shortens_placeholderAt hr
    omega

theorem findMedia_shortens : Shortens (findMedia entries) := by
  intro s text rest h
  obtain ⟨r, hr, heq⟩ := Option.map_eq_some_iff.mp h
  cases heq
  have hlength := shortens_placeholderAt hr
  omega

theorem parseTikz_shortens {s : Bytes} (h : parseTikzPlaceholder s = some r) :
    r.2.length + 4 ≤ s.length :=
  shortens_placeholderAt (Option.filter_eq_some_iff.mp h).1

theorem findTikz_shortens : Shortens (findTikz entries) := by
  intro s text rest h
  unfold findTikz at h
  split_ifs at h
  · split at h
    · cases h
    · rename_i digits after hparse
      split_ifs at h
      cases h
      have hlength := parseTikz_shortens hparse
      simp only [List.length_drop] at hlength ⊢
      omega
  · obtain ⟨r, hr, heq⟩ := Option.map_eq_some_iff.mp h
    cases heq
    have hlength := parseTikz_shortens hr
    omega

theorem not_mem_stem (r : Registry) : 64 ∉ r.stem := by
  cases r <;> decide

theorem opens_dollar (s : Bytes) :
    opens 64 (fun b => b == bytes "MATHDOLLAR") s = startsWith s (bytes "@@MATHDOLLAR@@") := by
  rw [Bool.eq_iff_iff, opens_iff, startsWith_iff]
  constructor
  · rintro ⟨b, r, -, hb, rfl⟩
    rw [beq_iff_eq.mp hb]
    exact ⟨r, rfl⟩
  · rintro ⟨r, rfl⟩
    exact ⟨bytes "MATHDOLLAR", r, by decide, beq_self_eq_true _, rfl⟩

theorem prefix_of_placeholderAt {stem s : Bytes} (h : (placeholderAt stem s).isSome = true) :
    bytes "@@" ++ stem <+: s := by
  unfold placeholderAt at h
  split_ifs at h with hstem
  · exact startsWith_iff.mp hstem
  · cases h

theorem isSome_findMath (s : Bytes) : (findMath entries s).isSome = opens 64 mathBodies s := by
  have hbodies : opens 64 mathBodies s =
      (((placeholderAt Registry.blocks.stem s).isSome || startsWith s (bytes "@@MATHDOLLAR@@")) ||
        (placeholderAt Registry.inlines.stem s).isSome) := by
    rw [isSome_placeholderAt (not_mem_stem _), isSome_placeholderAt (not_mem_stem _),
      ← opens_dollar, ← opens_or, ← opens_or]
    rfl
  -- no text begins in two of the three ways
  have hblocks : startsWith s (bytes "@@MATH_BLOCK_") = true →
      startsWith s (bytes "@@MATHDOLLAR@@") = false ∧
        (placeholderAt Registry.inlines.stem s).isSome = false := by
    intro h
    have hprefix := startsWith_iff.mp h
    refine ⟨Bool.eq_false_iff.mpr fun hd => ?_, Bool.eq_false_iff.mpr fun hi => ?_⟩
    · have hle := List.prefix_of_prefix_length_le hprefix (startsWith_iff.mp hd) (by decide)
      exact absurd hle (by decide)
    · have hle := List.prefix_of_prefix_length_le hprefix (prefix_of_placeholderAt hi) (by decide)
      exact absurd hle (by decide)
  have hnone : startsWith s (bytes "@@MATH_BLOCK_") ≠ true →
      (placeholderAt Registry.blocks.stem s).isSome = false := by
    intro h
    exact Bool.eq_false_iff.mpr fun hb => h (startsWith_iff.mpr (prefix_of_placeholderAt hb))
  rw [hbodies]
  unfold findMath
  split_ifs with h1 h2
  · rw [(hblocks h1).1, (hblocks h1).2, Bool.or_false, Bool.or_false, Option.isSome_map]
  · rw [h2, Bool.or_true, Bool.true_or]
    rfl
  · rw [hnone h1, Bool.eq_false_iff.mpr h2, Bool.or_self, Bool.false_or, Option.isSome_map]

theorem isSome_findMedia (s : Bytes) : (findMedia entries s).isSome = opens 64 mediaBodies s := by
  unfold findMedia
  rw [Option.isSome_map, isSome_placeholderAt (not_mem_stem _)]
  rfl

theorem isSome_parseTikz (s : Bytes) :
    (parseTikzPlaceholder s).isSome = opens 64 tikzBodies s := by
  rw [Bool.eq_iff_iff, Option.isSome_iff_exists, opens_iff]
  constructor
  · rintro ⟨r, hr⟩
    obtain ⟨hsome, hne⟩ := Option.filter_eq_some_iff.mp hr
    obtain ⟨hdigits, hs⟩ := placeholderAt_iff.mp hsome
    refine ⟨Registry.tikz.stem ++ r.1, r.2, ?_, ?_, hs⟩
    · rw [List.mem_append]
      exact not_or.mpr ⟨not_mem_stem _, not_mem_digits hdigits⟩
    · unfold tikzBodies
      rw [numbered_iff.mpr ⟨r.1, hdigits, rfl⟩, Bool.true_and, bne_iff_ne]
      intro h
      have hnil : r.1 = [] := List.append_right_eq_self.mp h
      rw [hnil] at hne
      cases hne
  · rintro ⟨b, t, -, hb, rfl⟩
    obtain ⟨hnum, hne⟩ := Bool.and_eq_true_iff.mp hb
    obtain ⟨digits, hdigits, rfl⟩ := numbered_iff.mp hnum
    refine ⟨(digits, t), Option.filter_eq_some_iff.mpr
      ⟨placeholderAt_placeholder hdigits t, ?_⟩⟩
    cases digits with
    | nil => exact absurd (List.append_nil _) (bne_iff_ne.mp hne)
    | cons d digits => rfl

def wrapped (s : Bytes) : Bool :=
  startsWith s (bytes "<p>") &&
    (parseTikzPlaceholder (s.drop 3)).any fun r => startsWith r.2 (bytes "</p>")

theorem isSome_findTikz (s : Bytes) :
    (findTikz entries s).isSome = (opens 64 tikzBodies s || wrapped s) := by
  unfold findTikz wrapped
  split_ifs with hp
  · obtain ⟨t, rfl⟩ := startsWith_iff.mp hp
    have hhead : opens 64 tikzBodies (bytes "<p>" ++ t) = false :=
      opens_of_head_ne (by decide) (bytes "p>" ++ t)
    rw [hhead, hp, Bool.false_or, Bool.true_and]
    split
    · rename_i hnone
      rw [hnone]
      rfl
    · rename_i digits after hsome
      rw [hsome]
      split_ifs with hafter
      · exact hafter.symm
      · exact (Bool.eq_false_iff.mpr hafter).symm
  · rw [Bool.eq_false_iff.mpr hp, Bool.false_and, Bool.or_false, Option.isSome_map,
      isSome_parseTikz]

end Finds

/-- The place is a `<p>` with a TikZ placeholder and `</p>` directly behind it. -/
def wrappedAt : List (Chunk UInt8) → Bool
  | .kept 60 :: .kept 112 :: .kept 62 :: .token _ _ :: cs => startsWith (read cs) (bytes "</p>")
  | _ => false

variable {cs : List (Chunk UInt8)}

theorem kept_of_read
    (hmark : ∀ p part, Chunk.token p part ∈ cs → p.head? = some 64) {b : UInt8} {t : Bytes}
    (hb : b ≠ 64) (h : read cs = b :: t) : ∃ cs', cs = .kept b :: cs' ∧ read cs' = t := by
  cases cs with
  | nil => cases h
  | cons c cs =>
    cases c with
    | kept a =>
      cases h
      exact ⟨cs, rfl, rfl⟩
    | token p part =>
      have hp := hmark p part List.mem_cons_self
      cases p with
      | nil => cases hp
      | cons d p =>
        cases hp
        exact absurd (List.cons.inj h).1.symm hb

/-- What stands behind `<p>` decides, and only a placeholder that was written can. -/
theorem wrapped_eq {a : UInt8} (htoken : ∀ p part, Chunk.token p part ∈ cs →
      ∃ digits, ∀ s, parseTikzPlaceholder (p ++ s) = some (digits, s))
    (hmark : ∀ p part, Chunk.token p part ∈ cs → p.head? = some 64)
    (h : Untouched (opens 64 tikzBodies) cs) :
    wrapped (a :: read cs) = wrappedAt (.kept a :: cs) := by
  by_cases hp : startsWith (a :: read cs) (bytes "<p>") = true
  · obtain ⟨t, ht⟩ := startsWith_iff.mp hp
    have hfront : 60 :: 112 :: 62 :: t = a :: read cs := ht
    obtain ⟨rfl, hread⟩ := List.cons.inj hfront
    obtain ⟨cs', rfl, hread'⟩ := kept_of_read hmark (b := 112) (by decide) hread.symm
    have hmark' : ∀ p part, Chunk.token p part ∈ cs' → p.head? = some 64 :=
      fun p part hmem => hmark p part (List.mem_cons_of_mem _ hmem)
    obtain ⟨rest, rfl, -⟩ := kept_of_read hmark' (b := 62) (by decide) hread'
    have hdrop : (60 :: read (.kept 112 :: .kept 62 :: rest)).drop 3 = read rest := rfl
    unfold wrapped
    rw [hp, Bool.true_and, hdrop]
    cases rest with
    | nil => rfl
    | cons c rest =>
      cases c with
      | kept b =>
        have hnone : parseTikzPlaceholder (b :: read rest) = none := by
          rw [← Option.isNone_iff_eq_none, ← Option.isSome_eq_false_iff, isSome_parseTikz]
          exact h.2.2.1
        rw [read_kept, hnone]
        rfl
      | token p part =>
        obtain ⟨digits, hdigits⟩ := htoken p part (by simp)
        rw [read_token, hdigits]
        rfl
  · have hfalse : wrapped (a :: read cs) = false := by
      unfold wrapped
      rw [Bool.eq_false_iff.mpr hp, Bool.false_and]
    rw [hfalse]
    unfold wrappedAt
    split
    · rename_i hpattern
      cases hpattern
      exact absurd (startsWith_iff.mpr ⟨_, rfl⟩) hp
    · rfl

theorem untouched_wrapped_iff (htoken : ∀ p part, Chunk.token p part ∈ cs →
      ∃ digits, ∀ s, parseTikzPlaceholder (p ++ s) = some (digits, s))
    (hmark : ∀ p part, Chunk.token p part ∈ cs → p.head? = some 64)
    (h : Untouched (opens 64 tikzBodies) cs) :
    Untouched wrapped cs ↔ ∀ t ∈ cs.tails, wrappedAt t = false := by
  induction cs with
  | nil =>
    refine iff_of_true trivial fun t ht => ?_
    cases List.mem_singleton.mp ht
    rfl
  | cons c cs ih =>
    have htoken' : ∀ p part, Chunk.token p part ∈ cs →
        ∃ digits, ∀ s, parseTikzPlaceholder (p ++ s) = some (digits, s) :=
      fun p part hmem => htoken p part (List.mem_cons_of_mem _ hmem)
    have hmark' : ∀ p part, Chunk.token p part ∈ cs → p.head? = some 64 :=
      fun p part hmem => hmark p part (List.mem_cons_of_mem _ hmem)
    rw [List.tails_cons, List.forall_mem_cons]
    cases c with
    | kept a =>
      rw [Untouched, ih htoken' hmark' h.2, wrapped_eq htoken' hmark' h.2]
    | token p part =>
      rw [Untouched, ih htoken' hmark' h]
      exact (and_iff_right rfl).symm

/-! ## The registries and what was written -/

/-- Every placeholder stands for an entry, and every entry has one. -/
structure Laid.Ok (l : Laid) : Prop where
  token : ∀ rank body part, Piece.token rank body part ∈ l.pieces →
    (rank = 0 ∧ body = bytes "MATHDOLLAR" ∧ part = bytes "$") ∨
      ∃ (r : Registry) (n : ℕ) (expr : Bytes), (l.exprs r)[n]? = some expr ∧ rank = r.rank ∧
        body = r.body n ∧ part = r.own expr
  entry : ∀ (r : Registry) (n : ℕ) (expr : Bytes), (l.exprs r)[n]? = some expr →
    Piece.token r.rank (r.body n) (r.own expr) ∈ l.pieces

/-- The registries hold what was captured, and `out` is what was written. -/
structure Agrees (p : Protected) (l : Laid) : Prop where
  out : p.out = l.out
  entries : ∀ r, p.entries r = (l.exprs r).map (registryText · (r == .tikz))

theorem stream_append (k : ℕ) (ps qs : List (Piece UInt8)) :
    stream 64 k (ps ++ qs) = stream 64 k ps ++ stream 64 k qs := by
  unfold stream chunks
  rw [List.flatMap_append, read_append]

theorem stream_token (rank : ℕ) (body part : Bytes) :
    stream 64 0 [.token rank body part] = placeholder 64 body := by
  rw [stream_cons]
  rcases Nat.eq_zero_or_pos rank with rfl | hpos
  · rw [chunks_self]
    exact (List.append_nil _).trans (List.append_nil _)
  · rw [chunks_of_gt 64 hpos, read_map_kept]
    exact List.append_nil _

theorem addPlaceholder_eq (out : Bytes) (r : Registry) (n : ℕ) (part : Bytes) :
    addPlaceholder out r n = out ++ stream 64 0 [.token r.rank (r.body n) part] := by
  rw [stream_token]
  simp only [addPlaceholder, placeholder, List.append_assoc]
  rfl

theorem beginBlock_eq (out : Bytes) : beginBlock out = out ++ stream 64 0 (breakBefore out) := by
  unfold beginBlock breakBefore
  split_ifs
  · rfl
  · exact (List.append_nil out).symm

theorem endBlock_eq (out : Bytes) (textFollows : Bool) :
    endBlock out textFollows = out ++ stream 64 0 (breaksAfter textFollows) := by
  cases textFollows <;> rfl

variable {l : Laid}

theorem Agrees.put {p : Protected} (h : Agrees p l) (part : Part) :
    Agrees (p.put part) (l.put part) := by
  cases part with
  | text c code =>
    refine ⟨?_, h.entries⟩
    change p.out ++ [c] = stream 64 0 (l.pieces ++ [.kept c])
    rw [h.out, stream_append]
    rfl
  | dollar =>
    refine ⟨?_, h.entries⟩
    change p.out ++ _ = stream 64 0 (l.pieces ++ [_])
    rw [h.out, stream_append, stream_token]
    rfl
  | dropped source => exact h
  | capture r source expr place =>
    have hlength : (p.entries r).length = (l.exprs r).length := by rw [h.entries, List.length_map]
    have hentries : ∀ r', Function.update p.entries r
        (p.entries r ++ [registryText expr (r == .tikz)]) r' =
          (Function.update l.exprs r (l.exprs r ++ [expr]) r').map
            (registryText · (r' == .tikz)) := by
      intro r'
      by_cases hr : r' = r
      · subst hr
        rw [Function.update_self, Function.update_self, h.entries, List.map_append]
        rfl
      · rw [Function.update_of_ne hr, Function.update_of_ne hr, h.entries]
    cases place with
    | line =>
      refine ⟨?_, hentries⟩
      change addPlaceholder p.out r _ = stream 64 0 (l.pieces ++ [_])
      rw [h.out, hlength, stream_append]
      exact addPlaceholder_eq _ _ _ _
    | block textFollows =>
      refine ⟨?_, hentries⟩
      change endBlock (addPlaceholder (beginBlock p.out) r _) textFollows =
        stream 64 0 (l.pieces ++ (breakBefore l.out ++ [_] ++ breaksAfter textFollows))
      rw [h.out, hlength, stream_append, stream_append, stream_append, endBlock_eq,
        addPlaceholder_eq, beginBlock_eq, List.append_assoc, List.append_assoc, List.append_assoc]
      rfl

theorem not_token_mem_breaks (out : Bytes) (textFollows : Bool) {rank : ℕ} {body part : Bytes} :
    Piece.token rank body part ∉ breakBefore out ∧
      Piece.token rank body part ∉ breaksAfter textFollows := by
  constructor
  · unfold breakBefore
    split_ifs <;> simp
  · cases textFollows <;> simp [breaksAfter]

theorem Laid.token_mem_put {r : Registry} {source expr : Bytes} {place : Place}
    {rank : ℕ} {body part : Bytes} :
    Piece.token rank body part ∈ (l.put (.capture r source expr place)).pieces ↔
      Piece.token rank body part ∈ l.pieces ∨
        Piece.token rank body part =
          Piece.token r.rank (r.body (l.exprs r).length) (r.own expr) := by
  cases place with
  | line =>
    change _ ∈ l.pieces ++ [_] ↔ _
    rw [List.mem_append, List.mem_singleton]
  | block textFollows =>
    change _ ∈ l.pieces ++ (breakBefore l.out ++ [_] ++ breaksAfter textFollows) ↔ _
    rw [List.mem_append, List.mem_append, List.mem_append, List.mem_singleton,
      or_iff_left (not_token_mem_breaks l.out textFollows).2,
      or_iff_right (not_token_mem_breaks l.out textFollows).1]

theorem Laid.exprs_put (l : Laid) (r : Registry) (source expr : Bytes) (place : Place) :
    (l.put (.capture r source expr place)).exprs =
      Function.update l.exprs r (l.exprs r ++ [expr]) := by
  cases place <;> rfl

theorem Laid.Ok.put (h : l.Ok) (part : Part) : (l.put part).Ok := by
  cases part with
  | text c code =>
    refine ⟨fun rank body part hmem => ?_, fun r n expr hn => ?_⟩
    · rcases List.mem_append.mp hmem with hmem | hmem
      · exact h.token rank body part hmem
      · exact nomatch List.mem_singleton.mp hmem
    · exact List.mem_append_left _ (h.entry r n expr hn)
  | dollar =>
    refine ⟨fun rank body part hmem => ?_, fun r n expr hn => ?_⟩
    · rcases List.mem_append.mp hmem with hmem | hmem
      · exact h.token rank body part hmem
      · cases List.mem_singleton.mp hmem
        exact .inl ⟨rfl, rfl, rfl⟩
    · exact List.mem_append_left _ (h.entry r n expr hn)
  | dropped source => exact h
  | capture r source expr place =>
    refine ⟨fun rank body part hmem => ?_, fun r' n expr' hn => ?_⟩
    · rw [Laid.exprs_put]
      rcases Laid.token_mem_put.mp hmem with hmem | heq
      · refine (h.token rank body part hmem).imp_right ?_
        rintro ⟨r', n, expr', hn, heqs⟩
        refine ⟨r', n, expr', ?_, heqs⟩
        by_cases hr : r' = r
        · subst hr
          rw [Function.update_self]
          have hlt : n < (l.exprs r').length := (List.getElem?_eq_some_iff.mp hn).1
          rw [List.getElem?_append_left hlt]
          exact hn
        · rw [Function.update_of_ne hr]
          exact hn
      · cases heq
        refine .inr ⟨r, _, expr, ?_, rfl, rfl, rfl⟩
        rw [Function.update_self]
        exact List.getElem?_concat_length
    · rw [Laid.exprs_put] at hn
      refine Laid.token_mem_put.mpr ?_
      by_cases hr : r' = r
      · subst hr
        rw [Function.update_self, List.getElem?_append] at hn
        split_ifs at hn with hlt
        · exact .inl (h.entry r' n expr' hn)
        · obtain ⟨hn0, rfl⟩ : n - (l.exprs r').length = 0 ∧ expr = expr' := by
            rw [List.getElem?_singleton] at hn
            split_ifs at hn with h0
            exact ⟨h0, Option.some.inj hn⟩
          obtain rfl : n = (l.exprs r').length := by omega
          exact .inr rfl
      · rw [Function.update_of_ne hr] at hn
        exact .inl (h.entry r' n expr' hn)

def captured (r : Registry) : Part → Option Bytes
  | .capture r' _ expr _ => if r' = r then some expr else none
  | _ => none

def expressions (md : Bytes) (r : Registry) : List Bytes :=
  (division md).filterMap (captured r)

theorem Laid.exprs_put_part (l : Laid) (part : Part) (r : Registry) :
    (l.put part).exprs r = l.exprs r ++ (captured r part).toList := by
  cases part with
  | text c code => exact (List.append_nil _).symm
  | dollar => exact (List.append_nil _).symm
  | dropped source => exact (List.append_nil _).symm
  | capture r' source expr place =>
    rw [Laid.exprs_put]
    by_cases hr : r' = r
    · subst hr
      rw [Function.update_self, captured, if_pos rfl]
      rfl
    · rw [Function.update_of_ne (Ne.symm hr), captured, if_neg hr]
      exact (List.append_nil _).symm

/-- What holds of the source in its parts, as the loop has written it. -/
theorem laid_spec (md : Bytes) :
    (laid md).Ok ∧ Agrees (protectMath md) (laid md) ∧
      ∀ r, (laid md).exprs r = expressions md r := by
  have hfold : ∀ (parts : List Part) (p : Protected) (l : Laid), l.Ok → Agrees p l →
      (parts.foldl Laid.put l).Ok ∧ Agrees (parts.foldl Protected.put p) (parts.foldl Laid.put l) ∧
        ∀ r, (parts.foldl Laid.put l).exprs r = l.exprs r ++ parts.filterMap (captured r) := by
    intro parts
    induction parts with
    | nil => exact fun p l hok h => ⟨hok, h, fun r => (List.append_nil _).symm⟩
    | cons part parts ih =>
      intro p l hok h
      obtain ⟨hok', h', hexprs⟩ := ih (p.put part) (l.put part) (hok.put part) (h.put part)
      refine ⟨hok', h', fun r => ?_⟩
      rw [List.foldl_cons, hexprs, Laid.exprs_put_part, List.append_assoc, List.filterMap_cons]
      cases captured r part <;> rfl
  have hok : Laid.Ok ⟨[], fun _ => []⟩ :=
    ⟨fun _ _ _ h => (List.not_mem_nil h).elim, fun _ _ _ h => nomatch h⟩
  exact hfold (division md) ⟨[], fun _ => []⟩ ⟨[], fun _ => []⟩ hok
    ⟨rfl, fun _ => rfl⟩

/-! ## What each pass finds -/

section Found

variable {p : Protected} {c : UInt8}

theorem shownAt_decimal (hagrees : Agrees p l) {r : Registry} {n : ℕ} {expr : Bytes}
    (h : (l.exprs r)[n]? = some expr) :
    shownAt p.entries r (decimal n) = r.shown (registryText expr (r == .tikz)) := by
  unfold shownAt
  rw [digitsValue_decimal, hagrees.entries, List.getElem?_map, h]
  rfl

theorem placeholderAt_body (r : Registry) (n : ℕ) (s : Bytes) :
    placeholderAt r.stem (placeholder 64 (r.body n) ++ s) = some (decimal n, s) :=
  placeholderAt_placeholder (fun _ hd => isDigit_of_mem_decimal hd) s

theorem not_startsWith_of_prefix {q t s : Bytes} (ht : t <+: s) (hle : q.length ≤ t.length)
    (hq : ¬q <+: t) : startsWith s q = false :=
  Bool.eq_false_iff.mpr fun h => hq (List.prefix_of_prefix_length_le (startsWith_iff.mp h) ht hle)

theorem begins_with_stem (r : Registry) (n : ℕ) (s : Bytes) :
    bytes "@@" ++ r.stem <+: placeholder 64 (r.body n) ++ s := by
  refine prefix_of_placeholderAt ?_
  rw [placeholderAt_body]
  rfl

theorem findMath_token (hok : l.Ok) (hagrees : Agrees p l) {body part : Bytes}
    (h : Piece.token 0 body part ∈ l.pieces) (s : Bytes) :
    findMath p.entries (placeholder 64 body ++ s) = some (part, s) := by
  rcases hok.token _ _ _ h with ⟨-, rfl, rfl⟩ | ⟨r, n, expr, hn, hrank, rfl, rfl⟩
  · have hblock : startsWith (placeholder 64 (bytes "MATHDOLLAR") ++ s)
        (bytes "@@MATH_BLOCK_") = false :=
      not_startsWith_of_prefix (List.prefix_append _ _) (by decide) (by decide)
    have hdollar : startsWith (placeholder 64 (bytes "MATHDOLLAR") ++ s)
        (bytes "@@MATHDOLLAR@@") = true := startsWith_iff.mpr ⟨s, rfl⟩
    unfold findMath
    rw [hblock, hdollar]
    rfl
  · cases r with
    | blocks =>
      have hblock : startsWith (placeholder 64 (Registry.blocks.body n) ++ s)
          (bytes "@@MATH_BLOCK_") = true := startsWith_iff.mpr (begins_with_stem .blocks n s)
      unfold findMath
      rw [hblock, placeholderAt_body, Option.map_some, shownAt_decimal hagrees hn]
      rfl
    | inlines =>
      have hprefix := begins_with_stem .inlines n s
      have hblock : startsWith (placeholder 64 (Registry.inlines.body n) ++ s)
          (bytes "@@MATH_BLOCK_") = false :=
        not_startsWith_of_prefix hprefix (by decide) (by decide)
      have hdollar : startsWith (placeholder 64 (Registry.inlines.body n) ++ s)
          (bytes "@@MATHDOLLAR@@") = false :=
        not_startsWith_of_prefix hprefix (by decide) (by decide)
      unfold findMath
      rw [hblock, hdollar, placeholderAt_body, Option.map_some, shownAt_decimal hagrees hn]
      rfl
    | media => cases hrank
    | tikz => cases hrank

theorem findMedia_token (hok : l.Ok) (hagrees : Agrees p l) {body part : Bytes}
    (h : Piece.token 1 body part ∈ l.pieces) :
    part ∈ l.exprs .media ∧
      ∀ s, findMedia p.entries (placeholder 64 body ++ s) = some (registryText part false, s) := by
  rcases hok.token _ _ _ h with ⟨hrank, -, -⟩ | ⟨r, n, expr, hn, hrank, rfl, rfl⟩
  · cases hrank
  · cases r with
    | media =>
      refine ⟨List.mem_of_getElem? hn, fun s => ?_⟩
      unfold findMedia
      rw [placeholderAt_body, Option.map_some, shownAt_decimal hagrees hn]
      rfl
    | blocks => cases hrank
    | inlines => cases hrank
    | tikz => cases hrank

theorem parseTikz_token (hok : l.Ok) {body part : Bytes}
    (h : Piece.token 2 body part ∈ l.pieces) :
    ∃ n expr, (l.exprs .tikz)[n]? = some expr ∧ part = Registry.tikz.own expr ∧
      ∀ s, parseTikzPlaceholder (placeholder 64 body ++ s) = some (decimal n, s) := by
  rcases hok.token _ _ _ h with ⟨hrank, -, -⟩ | ⟨r, n, expr, hn, hrank, rfl, rfl⟩
  · cases hrank
  · cases r with
    | tikz =>
      refine ⟨n, expr, hn, rfl, fun s => ?_⟩
      unfold parseTikzPlaceholder
      rw [placeholderAt_body, Option.filter_some_pos]
      simpa using decimal_ne_nil n
    | blocks => cases hrank
    | inlines => cases hrank
    | media => cases hrank

theorem findTikz_token (hok : l.Ok) (hagrees : Agrees p l) {body part : Bytes}
    (h : Piece.token 2 body part ∈ l.pieces) (s : Bytes) :
    findTikz p.entries (placeholder 64 body ++ s) = some (part, s) := by
  obtain ⟨n, expr, hn, rfl, hparse⟩ := parseTikz_token hok h
  have hparagraph : startsWith (placeholder 64 body ++ s) (bytes "<p>") = false := by
    refine Bool.eq_false_iff.mpr fun hp => ?_
    obtain ⟨t, ht⟩ := startsWith_iff.mp hp
    have hhead : 60 :: 112 :: 62 :: t = 64 :: 64 :: (body ++ [64, 64] ++ s) := ht
    exact absurd (List.cons.inj hhead).1 (by decide)
  unfold findTikz
  rw [hparagraph, hparse]
  exact congrArg some (Prod.ext (shownAt_decimal hagrees hn) rfl)

theorem told (hok : l.Ok) {k : ℕ} {B : Bytes → Bool}
    (hB : ∀ b, B b = true → b.head? = some c) (hc : c ≠ 0)
    (hlater : ∀ r : Registry, k < r.rank → r.stem.head? ≠ some c) : Told 64 0 B k l.pieces where
  nil := Bool.eq_false_iff.mpr fun h => nomatch hB [] h
  blot := by decide
  blotted b := Bool.eq_false_iff.mpr fun h => hc (Option.some.inj (hB (0 :: b) h)).symm
  body rank body part h := by
    rcases hok.token _ _ _ h with ⟨-, rfl, -⟩ | ⟨r, n, expr, -, -, rfl, -⟩
    · decide
    · rw [Registry.body, List.mem_append]
      exact not_or.mpr ⟨not_mem_stem r, not_mem_decimal (by decide)⟩
  later rank body part h hrank := by
    rcases hok.token _ _ _ h with ⟨rfl, -, -⟩ | ⟨r, n, expr, -, rfl, rfl, -⟩
    · exact absurd hrank (Nat.not_lt_zero _)
    · have hhead : (r.body n).head? = r.stem.head? := by cases r <;> rfl
      refine ⟨fun hnil => ?_, Bool.eq_false_iff.mpr fun h => ?_⟩
      · rw [hnil] at hhead
        cases r <;> cases hhead
      · exact hlater r hrank (hhead.symm.trans (hB _ h))

theorem head?_of_numbered {stem b : Bytes} (hstem : stem.head? = some c)
    (h : numbered stem b = true) : b.head? = some c := by
  obtain ⟨digits, -, rfl⟩ := numbered_iff.mp h
  rw [List.head?_append, hstem]
  rfl

theorem told_math (hok : l.Ok) : Told 64 0 mathBodies 0 l.pieces := by
  refine told hok (c := 77) (fun b hb => ?_) (by decide) fun r hr => ?_
  · unfold mathBodies at hb
    rw [Bool.or_eq_true, Bool.or_eq_true, beq_iff_eq] at hb
    rcases hb with (hb | rfl) | hb
    · exact head?_of_numbered rfl hb
    · rfl
    · exact head?_of_numbered rfl hb
  · cases r <;> first | exact absurd hr (by decide) | decide

theorem told_media (hok : l.Ok) : Told 64 0 mediaBodies 1 l.pieces := by
  refine told hok (c := 82) (fun b hb => head?_of_numbered rfl hb) (by decide) fun r hr => ?_
  cases r <;> first | exact absurd hr (by decide) | decide

theorem told_tikz (hok : l.Ok) : Told 64 0 tikzBodies 2 l.pieces := by
  refine told hok (c := 84) (fun b hb => ?_) (by decide) fun r hr => ?_
  · exact head?_of_numbered rfl (Bool.and_eq_true_iff.mp hb).1
  · cases r <;> exact absurd hr (by decide)

end Found

/-! ## Everything is back -/

/-- The parts with their own texts, up to line breaks around the blocks. -/
inductive UpToBreaks : List Part → Bytes → Prop
  | nil : UpToBreaks [] []
  | part (p : Part) {ps : List Part} {t : Bytes} : UpToBreaks ps t →
      UpToBreaks (p :: ps) (p.own ++ t)
  | block (r : Registry) (source expr : Bytes) (textFollows : Bool) {before after : Bytes}
      {ps : List Part} {t : Bytes} : (∀ c ∈ before, c = 10) → (∀ c ∈ after, c = 10) →
      UpToBreaks ps t →
      UpToBreaks (.capture r source expr (.block textFollows) :: ps)
        (before ++ r.own expr ++ after ++ t)

/-- The HTML of a markdown text that md4c leaves as it is. -/
def roundTrip (md : Bytes) : Bytes := restore (protectMath md).entries (protectMath md).out

/-- What was taken out of the markdown is back. Each pass, place by place, puts what is its own
where it was and keeps all else; the result is the source with the parts in their own texts; and
what stands in fenced blocks and code spans is literal. -/
structure Restores (md : Bytes) : Prop where
  whole : (division md).flatMap Part.source = md
  math : items (findMath (protectMath md).entries) (protectMath md).out =
    (chunks 64 0 (laid md).pieces).map Chunk.item
  media : itemsUnlessEmpty (findMedia (protectMath md).entries) ((protectMath md).entries .media)
      (restoreMath (protectMath md).entries (protectMath md).out) =
    (chunks 64 1 (laid md).pieces).map Chunk.item
  tikz : itemsUnlessEmpty (findTikz (protectMath md).entries) ((protectMath md).entries .tikz)
      (restoreMedia (protectMath md).entries
        (restoreMath (protectMath md).entries (protectMath md).out)) =
    (chunks 64 2 (laid md).pieces).map Chunk.item
  text : UpToBreaks (division md) (roundTrip md)
  code : ∀ i : ℕ, (fencedCode md)[i]? = some true ∨
      ((division md).flatMap Part.inCode)[i]? = some true →
    ((division md).flatMap Part.isLiteral)[i]? = some true

/-- No author has typed what a pass takes for a placeholder: with the placeholders that were
written blotted out, the text that each pass meets has none. -/
structure NothingTyped (md : Bytes) : Prop where
  math : Free 64 mathBodies (outline 64 0 0 (laid md).pieces)
  media : expressions md .media ≠ [] → Free 64 mediaBodies (outline 64 0 1 (laid md).pieces)
  tikz : expressions md .tikz ≠ [] → Free 64 tikzBodies (outline 64 0 2 (laid md).pieces) ∧
    ∀ t ∈ (chunks 64 2 (laid md).pieces).tails, wrappedAt t = false

/-- The normalizing of formulas leaves the sanitized tags as they are. -/
def TagsKept (md : Bytes) : Prop := ∀ tag ∈ expressions md .media, registryText tag false = tag

section Back

variable (md : Bytes) {k : ℕ}

theorem math_iff : items (findMath (protectMath md).entries) (protectMath md).out =
      (chunks 64 0 (laid md).pieces).map Chunk.item ↔
    Free 64 mathBodies (outline 64 0 0 (laid md).pieces) := by
  obtain ⟨hok, hagrees, -⟩ := laid_spec md
  have hfound : ∀ body part, Piece.token 0 body part ∈ (laid md).pieces →
      ∀ s, findMath (protectMath md).entries (placeholder 64 body ++ s) = some (part, s) :=
    fun body part h => findMath_token hok hagrees h
  rw [hagrees.out, Laid.out, items_stream_iff 64 (findMath_shortens _)
    fun body part h => ⟨part, hfound body part h⟩]
  simp only [isSome_findMath]
  rw [untouched_chunks_iff (told_math hok)]
  exact and_iff_left hfound

theorem media_iff : items (findMedia (protectMath md).entries) (stream 64 1 (laid md).pieces) =
      (chunks 64 1 (laid md).pieces).map Chunk.item ↔
    Free 64 mediaBodies (outline 64 0 1 (laid md).pieces) ∧ TagsKept md := by
  obtain ⟨hok, hagrees, hexprs⟩ := laid_spec md
  rw [items_stream_iff 64 (findMedia_shortens _)
    fun body part h => ⟨_, (findMedia_token hok hagrees h).2⟩]
  simp only [isSome_findMedia]
  rw [untouched_chunks_iff (told_media hok)]
  refine and_congr_right fun _ => ⟨fun h tag htag => ?_, fun h body part hmem s => ?_⟩
  · rw [← hexprs] at htag
    obtain ⟨n, hn⟩ := List.getElem?_of_mem htag
    have hmem := hok.entry .media n tag hn
    have hput := (findMedia_token hok hagrees hmem).2 []
    rw [h _ _ hmem []] at hput
    exact (congrArg Prod.fst (Option.some.inj hput)).symm
  · obtain ⟨htag, hput⟩ := findMedia_token hok hagrees hmem
    rw [hexprs] at htag
    rw [hput, h part htag]

theorem tikz_iff : items (findTikz (protectMath md).entries) (stream 64 2 (laid md).pieces) =
      (chunks 64 2 (laid md).pieces).map Chunk.item ↔
    Free 64 tikzBodies (outline 64 0 2 (laid md).pieces) ∧
      ∀ t ∈ (chunks 64 2 (laid md).pieces).tails, wrappedAt t = false := by
  obtain ⟨hok, hagrees, -⟩ := laid_spec md
  have hfound : ∀ body part, Piece.token 2 body part ∈ (laid md).pieces →
      ∀ s, findTikz (protectMath md).entries (placeholder 64 body ++ s) = some (part, s) :=
    fun body part h => findTikz_token hok hagrees h
  rw [items_stream_iff 64 (findTikz_shortens _) fun body part h => ⟨part, hfound body part h⟩,
    and_iff_left hfound]
  simp only [isSome_findTikz]
  rw [untouched_or, ← untouched_chunks_iff (told_tikz hok)]
  refine and_congr_right fun huntouched => untouched_wrapped_iff ?_ ?_ huntouched
  · intro p part hmem
    obtain ⟨body, hbody, rfl⟩ := mem_of_token_mem 64 hmem
    obtain ⟨n, -, -, -, hparse⟩ := parseTikz_token hok hbody
    exact ⟨decimal n, hparse⟩
  · intro p part hmem
    obtain ⟨body, -, rfl⟩ := mem_of_token_mem 64 hmem
    rfl

/-- A registry without entries: the pass is left out, and nothing stands for it. -/
theorem itemsUnlessEmpty_iff {r : Registry} (hpos : 0 < k)
    (hr : ∀ r' : Registry, r'.rank = k → r' = r) {find : Bytes → Option (Bytes × Bytes)}
    {C : Prop} (h : items find (stream 64 k (laid md).pieces) =
      (chunks 64 k (laid md).pieces).map Chunk.item ↔ C) :
    itemsUnlessEmpty find ((protectMath md).entries r) (stream 64 k (laid md).pieces) =
        (chunks 64 k (laid md).pieces).map Chunk.item ↔
      (expressions md r ≠ [] → C) := by
  obtain ⟨hok, hagrees, hexprs⟩ := laid_spec md
  have hentries : (protectMath md).entries r = [] ↔ expressions md r = [] := by
    rw [hagrees.entries, List.map_eq_nil_iff, hexprs]
  unfold itemsUnlessEmpty
  by_cases hnil : expressions md r = []
  · rw [if_pos (hentries.mpr hnil)]
    have hnone : ∀ body part, Piece.token k body part ∉ (laid md).pieces := by
      intro body part hmem
      rcases hok.token _ _ _ hmem with ⟨hzero, -, -⟩ | ⟨r', n, expr, hn, hrank', -, -⟩
      · omega
      · rw [hr r' hrank'.symm, hexprs, hnil] at hn
        cases hn
    exact iff_of_true (map_item_of_no_token 64 hnone).symm fun h => absurd hnil h
  · rw [if_neg (mt hentries.mp hnil), h]
    exact (imp_iff_right hnil).symm

theorem text_of_items {is : List (Item UInt8)}
    (h : is = (chunks 64 k (laid md).pieces).map Chunk.item) :
    is.flatMap Item.text = stream 64 (k + 1) (laid md).pieces := by
  rw [h, List.flatMap_map, ← restored_chunks]
  rfl

theorem restoreMath_eq (h : items (findMath (protectMath md).entries) (protectMath md).out =
      (chunks 64 0 (laid md).pieces).map Chunk.item) :
    restoreMath (protectMath md).entries (protectMath md).out = stream 64 1 (laid md).pieces :=
  text_of_items md h

end Back

theorem stream_own {rank : ℕ} (h : rank < 3) (body part : Bytes) :
    stream 64 3 [.token rank body part] = part := by
  rw [stream_cons, chunks_of_lt 64 h, read_map_kept]
  exact List.append_nil part

/-- Every part has written its own text, a block with line breaks around it. -/
theorem upToBreaks_foldl (parts : List Part) (l : Laid) :
    ∃ t, stream 64 3 (parts.foldl Laid.put l).pieces = stream 64 3 l.pieces ++ t ∧
      UpToBreaks parts t := by
  induction parts generalizing l with
  | nil => exact ⟨[], (List.append_nil _).symm, .nil⟩
  | cons part parts ih =>
    obtain ⟨t, ht, hbreaks⟩ := ih (l.put part)
    rw [List.foldl_cons, ht]
    cases part with
    | text c code =>
      refine ⟨[c] ++ t, ?_, .part (.text c code) hbreaks⟩
      change stream 64 3 (l.pieces ++ [.kept c]) ++ t = _
      rw [stream_append, List.append_assoc]
      rfl
    | dollar =>
      refine ⟨[36] ++ t, ?_, .part .dollar hbreaks⟩
      change stream 64 3 (l.pieces ++ [_]) ++ t = _
      rw [stream_append, stream_own (by decide), List.append_assoc]
      rfl
    | dropped source => exact ⟨[] ++ t, rfl, .part (.dropped source) hbreaks⟩
    | capture r source expr place =>
      have hrank : r.rank < 3 := by cases r <;> decide
      cases place with
      | line =>
        refine ⟨r.own expr ++ t, ?_, .part (.capture r source expr .line) hbreaks⟩
        change stream 64 3 (l.pieces ++ [_]) ++ t = _
        rw [stream_append, stream_own hrank, List.append_assoc]
      | block textFollows =>
        refine ⟨stream 64 3 (breakBefore l.out) ++ r.own expr ++
          stream 64 3 (breaksAfter textFollows) ++ t, ?_, .block r source expr textFollows ?_ ?_
            hbreaks⟩
        · change stream 64 3 (l.pieces ++ (breakBefore l.out ++ [_] ++ breaksAfter textFollows)) ++
            t = _
          rw [stream_append, stream_append, stream_append, stream_own hrank, List.append_assoc]
        · intro c hc
          unfold breakBefore at hc
          split_ifs at hc
          · exact List.mem_singleton.mp hc
          · exact absurd hc List.not_mem_nil
        · intro c hc
          cases textFollows with
          | false => exact List.mem_singleton.mp hc
          | true => exact (List.mem_cons.mp hc).elim id List.mem_singleton.mp

theorem literal_of_inCode (parts : List Part) (i : ℕ)
    (h : (parts.flatMap Part.inCode)[i]? = some true) :
    (parts.flatMap Part.isLiteral)[i]? = some true := by
  induction parts generalizing i with
  | nil => exact h
  | cons part parts ih =>
    rw [List.flatMap_cons, List.getElem?_append] at h ⊢
    have hbyte : ∀ code : Bool, (if i < [code].length then [code][i]?
        else (parts.flatMap Part.inCode)[i - [code].length]?) = some true →
        (if i < [true].length then [true][i]?
          else (parts.flatMap Part.isLiteral)[i - [true].length]?) = some true := by
      intro code hcode
      cases i with
      | zero => rfl
      | succ i => exact ih i hcode
    -- nothing in a captured part is code
    have hspan : ∀ source : Bytes,
        (if i < (source.map fun _ => false).length then (source.map fun _ => false)[i]?
          else (parts.flatMap Part.inCode)[i - (source.map fun _ => false).length]?) = some true →
        (if i < (source.map fun _ => false).length then (source.map fun _ => false)[i]?
          else (parts.flatMap Part.isLiteral)[i - (source.map fun _ => false).length]?) =
            some true := by
      intro source hsource
      split_ifs at hsource ⊢ with hlt
      · rw [List.getElem?_map] at hsource
        obtain ⟨_, _, hfalse⟩ := Option.map_eq_some_iff.mp hsource
        cases hfalse
      · exact ih _ hsource
    cases part with
    | text c code => exact hbyte code h
    | dollar => exact hbyte true h
    | capture r source expr place => exact hspan source h
    | dropped source => exact hspan source h

/-- A formula, a dollar in code, a tag and a TikZ block. -/
def sampleText : Bytes :=
  bytes "a $x$ `$` <video src=\"/v\"></video>\n\x60\x60\x60tikz\n\\draw;\n\x60\x60\x60\nb"

end FlyBoard.Render

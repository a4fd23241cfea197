import FlyBoard.Lib.Html

/-!
# Styled spans (`src/render/render_md.c`)

md4c runs with `MD_FLAG_NOHTML`, so raw tags of the author arrive as escaped text.
`restore_inline_styled_spans` turns escaped `span`, `font` and `mark` tags back
into live markup.
-/

namespace FlyBoard.Render

open Bytes Scan Html

/-- The white space that may follow a tag name here. -/
def isSpanSpace (c : UInt8) : Bool := c == 32 || c == 9 || c == 10 || c == 13

def styledTags : List Bytes := ["span", "font", "mark"].map bytes

/-- The attributes that the test looks for, with the `=` behind them. -/
def styleNeedles : List Bytes := ["style=", "color=", "face=", "class="].map bytes

/-- One round of the main loop: a byte that is copied, an escaped opening tag or
an escaped closing tag. -/
inductive Segment where
  | copied (c : UInt8)
  /-- The escaped text between `&lt;` and `&gt;`. -/
  | opened (inner : Bytes)
  /-- The four letters of the name. -/
  | closed (name : Bytes)
deriving DecidableEq

/-- The text behind `&lt;` begins with a tag name and white space. -/
def opensStyledTag (p : Bytes) : Bool :=
  styledTags.any (startsWithCI p) && ((p.drop 4).head?.any isSpanSpace)

/-- The text behind `&lt;` begins with a closing tag. -/
def closesStyledTag (p : Bytes) : Bool :=
  styledTags.any fun name => startsWithCI p (bytes "/" ++ name)

/-- One round of the main loop of `restore_inline_styled_spans`. The searches for
`&gt;` and for an attribute both run over the rest of the document. -/
def nextSegment (s : Bytes) : Option (Segment × Bytes) :=
  match s with
  | [] => none
  | c :: t =>
    if startsWith s (bytes "&lt;") then
      if opensStyledTag (s.drop 4) then
        match cutAt (bytes "&gt;") s with
        | some (before, after) =>
          if styleNeedles.any (hasSub s) then some (.opened (before.drop 4), after)
          else some (.copied c, t)
        | none => some (.copied c, t)
      else if closesStyledTag (s.drop 4) then
        match cutAt (bytes "&gt;") s with
        | some (before, after) =>
          if before.length = 4 + 5 then some (.closed ((s.drop 5).take 4), after)
          else some (.copied c, t)
        | none => some (.copied c, t)
      else some (.copied c, t)
    else some (.copied c, t)

/-- One round of the loop over the attribute text. -/
def nextUnescaped (s : Bytes) : Option (UInt8 × Bytes) :=
  match s with
  | [] => none
  | c :: t =>
    if startsWith s (bytes "&quot;") then some (34, s.drop 6)
    else if startsWith s (bytes "&amp;") then some (38, s.drop 5)
    else if startsWith s (bytes "&#39;") then some (39, s.drop 5)
    else some (c, t)

def unescape (s : Bytes) : Bytes := (scan nextUnescaped s).1

def Segment.emit : Segment → Bytes
  | .copied c => [c]
  | .opened inner => bytes "<" ++ unescape inner ++ bytes ">"
  | .closed name => bytes "</" ++ name ++ bytes ">"

/-- The rounds of the main loop over a document. -/
def segments (html : Bytes) : List Segment := (scan nextSegment (cstr html)).1

/-- `restore_inline_styled_spans`. -/
def restoreInlineStyledSpans (html : Bytes) : Bytes := (segments html).flatMap Segment.emit

/-! ## The loop -/

theorem cutAt_length {p s before after : Bytes} (h : cutAt p s = some (before, after)) :
    before.length + p.length + after.length = s.length := by
  induction s generalizing before with
  | nil =>
    simp only [cutAt] at h
    split at h
    · rename_i hp
      rcases Prod.mk.inj (Option.some.inj h) with ⟨rfl, rfl⟩
      simp_all
    · simp at h
  | cons c t ih =>
    simp only [cutAt] at h
    split at h
    · rename_i hp
      rcases Prod.mk.inj (Option.some.inj h) with ⟨rfl, rfl⟩
      have hlen : p.length ≤ (c :: t).length := by
        have heq : (c :: t).take p.length = p := by simpa [startsWith] using hp
        have hl := congrArg List.length heq
        rw [List.length_take] at hl
        omega
      simp only [List.length_nil, List.length_drop]
      omega
    · rcases Option.map_eq_some_iff.mp h with ⟨⟨b, a⟩, hba, heq⟩
      simp only [Prod.mk.injEq] at heq
      rcases heq with ⟨rfl, rfl⟩
      have hih := ih hba
      simp only [List.length_cons]
      omega

theorem nextSegment_cases {s rest : Bytes} {x : Segment} (h : nextSegment s = some (x, rest)) :
    (∃ c, s = c :: rest ∧ x = .copied c) ∨
    (∃ before, startsWith s (bytes "&lt;") = true ∧ opensStyledTag (s.drop 4) = true ∧
      cutAt (bytes "&gt;") s = some (before, rest) ∧
      styleNeedles.any (hasSub s) = true ∧ x = .opened (before.drop 4)) ∨
    (∃ before, closesStyledTag (s.drop 4) = true ∧ cutAt (bytes "&gt;") s = some (before, rest) ∧
      x = .closed ((s.drop 5).take 4)) := by
  unfold nextSegment at h
  split at h
  · simp at h
  · rename_i c t
    -- every test that fails ends in the same way
    have hcopy : some (Segment.copied c, t) = some (x, rest) → ∃ d, c :: t = d :: rest ∧
        x = .copied d := by
      intro heq
      rcases Prod.mk.inj (Option.some.inj heq) with ⟨rfl, rfl⟩
      exact ⟨c, rfl, rfl⟩
    split at h
    · rename_i hlt
      split at h
      · rename_i hopen
        split at h
        · rename_i before after hcut
          split at h
          · rename_i hneedle
            rcases Prod.mk.inj (Option.some.inj h) with ⟨rfl, rfl⟩
            exact Or.inr (Or.inl ⟨before, hlt, hopen, hcut, hneedle, rfl⟩)
          · exact Or.inl (hcopy h)
        · exact Or.inl (hcopy h)
      · split at h
        · rename_i hclose
          split at h
          · rename_i before after hcut
            split at h
            · rcases Prod.mk.inj (Option.some.inj h) with ⟨rfl, rfl⟩
              exact Or.inr (Or.inr ⟨before, hclose, hcut, rfl⟩)
            · exact Or.inl (hcopy h)
          · exact Or.inl (hcopy h)
        · exact Or.inl (hcopy h)
    · exact Or.inl (hcopy h)

theorem nextSegment_advances : Advances nextSegment := by
  intro s x rest h
  have hgt : (bytes "&gt;").length = 4 := by decide
  rcases nextSegment_cases h with ⟨c, rfl, -⟩ | ⟨before, -, -, hcut, -⟩ | ⟨before, -, hcut, -⟩
  · simp
  · have hlen := cutAt_length hcut
    omega
  · have hlen := cutAt_length hcut
    omega

theorem nextUnescaped_advances : Advances nextUnescaped := by
  intro s x rest h
  unfold nextUnescaped at h
  split at h
  · simp at h
  · split at h
    · rcases Prod.mk.inj (Option.some.inj h) with ⟨-, rfl⟩
      simp only [List.length_drop, List.length_cons]
      omega
    · split at h
      · rcases Prod.mk.inj (Option.some.inj h) with ⟨-, rfl⟩
        simp only [List.length_drop, List.length_cons]
        omega
      · split at h
        · rcases Prod.mk.inj (Option.some.inj h) with ⟨-, rfl⟩
          simp only [List.length_drop, List.length_cons]
          omega
        · rcases Prod.mk.inj (Option.some.inj h) with ⟨-, rfl⟩
          simp

/-! ## The name of a restored tag -/

theorem not_startsWith_of_ne {c : UInt8} (hc : c ≠ 38) (t p : Bytes) :
    startsWith (c :: t) (38 :: p) = false := by
  simp [startsWith, hc]

theorem unescape_append {u : Bytes} (hu : 38 ∉ u) (t : Bytes) :
    unescape (u ++ t) = u ++ unescape t := by
  induction u with
  | nil => rfl
  | cons c u ih =>
    have hc : c ≠ 38 := fun h => hu (h ▸ List.mem_cons_self ..)
    have hnot : ∀ p, startsWith (c :: (u ++ t)) (38 :: p) = false := not_startsWith_of_ne hc _
    have hnext : nextUnescaped (c :: (u ++ t)) = some (c, u ++ t) := by
      have hquot : bytes "&quot;" = 38 :: bytes "quot;" := by decide
      have hamp : bytes "&amp;" = 38 :: bytes "amp;" := by decide
      have hapos : bytes "&#39;" = 38 :: bytes "#39;" := by decide
      simp [nextUnescaped, hquot, hamp, hapos, hnot]
    have ih' := ih fun h => hu (List.mem_cons_of_mem _ h)
    rw [unescape] at ih' ⊢
    rw [List.cons_append, scan_some nextUnescaped_advances hnext, ih', List.cons_append]

theorem cutAt_append {u : Bytes} (hu : 38 ∉ u) (t : Bytes) :
    cutAt (bytes "&gt;") (u ++ t) = (cutAt (bytes "&gt;") t).map fun r => (u ++ r.1, r.2) := by
  induction u with
  | nil => simp
  | cons c u ih =>
    have hc : c ≠ 38 := fun h => hu (h ▸ List.mem_cons_self ..)
    have hgt : bytes "&gt;" = 38 :: bytes "gt;" := by decide
    have hnot : startsWith (c :: (u ++ t)) (bytes "&gt;") = false := by
      rw [hgt]
      exact not_startsWith_of_ne hc _ _
    rw [List.cons_append, cutAt, hnot, ih fun h => hu (List.mem_cons_of_mem _ h)]
    simp [Function.comp_def]

theorem of_styledTags {n : Bytes} (h : styledTags.any (eqCI n) = true) :
    n.length = 4 ∧ ∀ c ∈ n, isAlpha c = true := by
  rcases List.any_eq_true.mp h with ⟨name, hmem, heq⟩
  have htable : ∀ name ∈ styledTags, name.length = 4 ∧ name.all isAlpha = true := by decide
  rcases htable name hmem with ⟨hlen, halpha⟩
  constructor
  · have hl := congrArg List.length (eqCI_iff.mp heq)
    simpa [hlen] using hl
  · intro c hc
    rcases mem_of_eqCI heq hc with ⟨d, hd, hdc⟩
    rw [← isAlpha_toLower, ← hdc, isAlpha_toLower]
    exact List.all_eq_true.mp halpha d hd

theorem amp_not_mem {n : Bytes} (h : styledTags.any (eqCI n) = true) : 38 ∉ n := by
  intro hm
  exact absurd ((of_styledTags h).2 38 hm) (by decide)

theorem opened_text {s inner rest : Bytes} (h : nextSegment s = some (.opened inner, rest)) :
    ∃ n w u, inner = n ++ w :: u ∧ styledTags.any (eqCI n) = true ∧ isSpanSpace w = true := by
  rcases nextSegment_cases h with ⟨c, -, hx⟩ | ⟨before, hlt, hopen, hcut, -, hx⟩ | ⟨_, -, -, hx⟩
  · simp at hx
  · simp only [opensStyledTag, Bool.and_eq_true] at hopen
    rcases hopen with ⟨hname, hspace⟩
    rcases List.any_eq_true.mp hname with ⟨name, hmem, hprefix⟩
    have hlen : ∀ name ∈ styledTags, name.length = 4 := by decide
    have hn : styledTags.any (eqCI ((s.drop 4).take 4)) = true := by
      rw [startsWithCI, hlen name hmem] at hprefix
      exact List.any_eq_true.mpr ⟨name, hmem, hprefix⟩
    obtain ⟨w, hw, hws⟩ : ∃ w, ((s.drop 4).drop 4).head? = some w ∧ isSpanSpace w = true := by
      simpa [Option.any_eq_true] using hspace
    rcases List.head?_eq_some_iff.mp hw with ⟨u, hu⟩
    have hs : s = bytes "&lt;" ++ ((s.drop 4).take 4 ++ w :: u) := by
      have htake : s.take 4 = bytes "&lt;" := eq_of_beq hlt
      rw [← hu, List.take_append_drop, ← htake, List.take_append_drop]
    -- the first `&gt;` stands behind the name and the space
    have hskip : 38 ∉ bytes "lt;" ++ ((s.drop 4).take 4 ++ [w]) := by
      simp only [List.mem_append, List.mem_singleton, not_or]
      refine ⟨by decide, amp_not_mem hn, ?_⟩
      rintro rfl
      exact absurd hws (by decide)
    have hcut' : cutAt (bytes "&gt;") s = (cutAt (bytes "&gt;") u).map fun r =>
        (bytes "&lt;" ++ ((s.drop 4).take 4 ++ w :: r.1), r.2) := by
      have hamp : s = 38 :: ((bytes "lt;" ++ ((s.drop 4).take 4 ++ [w])) ++ u) := by
        have hlt' : bytes "&lt;" = 38 :: bytes "lt;" := by decide
        rw [hlt'] at hs
        simpa using hs
      have hnot : startsWith (38 :: ((bytes "lt;" ++ ((s.drop 4).take 4 ++ [w])) ++ u))
          (bytes "&gt;") = false := rfl
      have hlt' : bytes "&lt;" = 38 :: bytes "lt;" := by decide
      conv_lhs => rw [hamp, cutAt, hnot, cutAt_append hskip]
      simp [hlt', Function.comp_def]
    rw [hcut'] at hcut
    rcases Option.map_eq_some_iff.mp hcut with ⟨⟨b, a⟩, -, heq⟩
    rcases Prod.mk.inj heq with ⟨rfl, -⟩
    rcases Segment.opened.inj hx with rfl
    exact ⟨(s.drop 4).take 4, w, b, rfl, hn, hws⟩
  · simp at hx

/-- The name of a restored tag is read off; its attributes are those of its own
text. -/
theorem readTag_opened {n u : Bytes} {w : UInt8} (hn : styledTags.any (eqCI n) = true)
    (hw : isSpanSpace w = true) :
    readTag (Segment.emit (.opened (n ++ w :: u))) =
      (readAttrs ((unescape (n ++ w :: u)).drop 4 ++ [62])).map fun r => (⟨n, r.1⟩, r.2) := by
  rcases of_styledTags hn with ⟨hlen, halpha⟩
  have hws : 38 ∉ n ++ [w] := by
    simp only [List.mem_append, List.mem_singleton, not_or]
    refine ⟨amp_not_mem hn, ?_⟩
    rintro rfl
    exact absurd hw (by decide)
  -- neither the name nor the space holds an entity, so both are left alone
  have hun : unescape (n ++ w :: u) = n ++ w :: unescape u := by
    have h := unescape_append hws u
    simpa using h
  have hstop : Stops isTagByte (w :: unescape u ++ [62]) := by
    have hspace : ∀ w, isSpanSpace w = true → isTagByte w = false := by
      intro w hw
      simp only [isSpanSpace, Bool.or_eq_true, beq_iff_eq] at hw
      rcases hw with ((rfl | rfl) | rfl) | rfl <;> decide
    simpa [Stops] using hspace w hw
  have hdrop : (n ++ w :: unescape u).drop 4 = w :: unescape u := by
    rw [← hlen, List.drop_left]
  obtain ⟨c, t, rfl⟩ : ∃ c t, n = c :: t := by
    cases n with
    | nil => simp at hlen
    | cons c t => exact ⟨c, t, rfl⟩
  have htext : Segment.emit (.opened (c :: t ++ w :: u)) =
      60 :: (c :: t ++ (w :: unescape u ++ [62])) := by
    have hlt : bytes "<" = [60] := by decide
    have hgt : bytes ">" = [62] := by decide
    simp only [Segment.emit, hun, hlt, hgt]
    simp
  rw [htext, hun, hdrop]
  exact readTag_name (halpha c (List.mem_cons_self ..))
    (fun b hb => isTagByte_of_isAlpha (halpha b (List.mem_cons_of_mem _ hb))) hstop

/-! ## Which tags may become live -/

def styleAttrs : List Bytes := ["style", "color", "face", "class"].map bytes

def StyleAttrsOnly (attrs : List Attr) : Prop :=
  attrs ≠ [] ∧ ∀ a ∈ attrs, styleAttrs.any (eqCI a.name) = true

/-- Every tag that is turned into live markup is, where it stands in the output,
one styled tag that ends at its own `>`. -/
def RestoredSafe (html : Bytes) : Prop :=
  ∀ before inner after, segments html = before ++ .opened inner :: after →
    ∃ tag, readTag (Segment.emit (.opened inner) ++ after.flatMap Segment.emit) =
        some (tag, after.flatMap Segment.emit) ∧
      styledTags.any (eqCI tag.name) = true ∧ StyleAttrsOnly tag.attrs

/-- The text of an escaped tag behind its name is, unescaped, a complete list of
style attributes. -/
def OwnAttrsStyled (inner : Bytes) : Prop :=
  ∃ attrs, readAttrs ((unescape inner).drop 4 ++ [62]) = some (attrs, []) ∧ StyleAttrsOnly attrs

theorem opened_of_mem {html inner : Bytes} (h : .opened inner ∈ segments html) :
    ∃ n w u, inner = n ++ w :: u ∧ styledTags.any (eqCI n) = true ∧ isSpanSpace w = true := by
  refine scan_forall (p := fun x => ∀ inner, x = .opened inner → ∃ n w u, inner = n ++ w :: u ∧
    styledTags.any (eqCI n) = true ∧ isSpanSpace w = true) nextSegment_advances ?_ _ _ h inner rfl
  rintro s x rest hs inner rfl
  exact opened_text hs

theorem closed_of_mem {html name : Bytes} (h : .closed name ∈ segments html) :
    styledTags.any (eqCI name) = true := by
  refine scan_forall (p := fun x => ∀ name, x = .closed name → styledTags.any (eqCI name) = true)
    nextSegment_advances ?_ _ _ h name rfl
  rintro s x rest hs name rfl
  rcases nextSegment_cases hs with ⟨c, -, hx⟩ | ⟨_, -, -, -, -, hx⟩ | ⟨before, hclose, -, hx⟩
  · simp at hx
  · simp at hx
  · rcases Segment.closed.inj hx with rfl
    rcases List.any_eq_true.mp hclose with ⟨tag, hmem, hprefix⟩
    have hlen : ∀ tag ∈ styledTags, (bytes "/" ++ tag).length = 5 ∧
        (bytes "/" ++ tag).drop 1 = tag := by decide
    rcases hlen tag hmem with ⟨hlen5, hdrop⟩
    refine List.any_eq_true.mpr ⟨tag, hmem, ?_⟩
    rw [startsWithCI, hlen5, eqCI_iff] at hprefix
    have htail := congrArg (List.drop 1) hprefix
    rw [← List.map_drop, ← List.map_drop, hdrop, List.drop_take, List.drop_drop] at htail
    exact eqCI_iff.mpr htail

/-- Only styled tags become live exactly when every escaped tag that is restored
carries style attributes only; the closing tags are always the three. -/
theorem restoredSafe_iff (html : Bytes) :
    (RestoredSafe html ↔ ∀ inner, .opened inner ∈ segments html → OwnAttrsStyled inner) ∧
    ∀ name, .closed name ∈ segments html → styledTags.any (eqCI name) = true := by
  have hlast : ∀ inner, (Segment.emit (.opened inner)).getLast? = some 62 := by
    intro inner
    have hgt : bytes ">" = [62] := by decide
    simp [Segment.emit, hgt]
  -- a tag that ends with `>` reads the same alone and where it stands in the output
  refine ⟨⟨?_, ?_⟩, fun name => closed_of_mem⟩
  · intro h inner hmem
    rcases List.append_of_mem hmem with ⟨before, after, hseg⟩
    rcases h before inner after hseg with ⟨tag, hread, -, hstyle⟩
    rcases opened_of_mem hmem with ⟨n, w, u, rfl, hn, hw⟩
    rw [readTag_append_iff (hlast _), readTag_opened hn hw] at hread
    rcases Option.map_eq_some_iff.mp hread with ⟨⟨attrs, r⟩, hattrs, heq⟩
    rcases Prod.mk.inj heq with ⟨rfl, rfl⟩
    exact ⟨attrs, hattrs, hstyle⟩
  · intro h before inner after hseg
    have hmem : .opened inner ∈ segments html := by rw [hseg]; simp
    rcases h inner hmem with ⟨attrs, hattrs, hstyle⟩
    rcases opened_of_mem hmem with ⟨n, w, u, rfl, hn, hw⟩
    refine ⟨⟨n, attrs⟩, ?_, hn, hstyle⟩
    rw [readTag_append_iff (hlast _), readTag_opened hn hw, hattrs]
    rfl

def escapeText (s : Bytes) : Bytes :=
  s.flatMap fun c =>
    if c == 60 then bytes "&lt;" else if c == 62 then bytes "&gt;"
    else if c == 38 then bytes "&amp;" else if c == 34 then bytes "&quot;" else [c]

/-- A paragraph whose author wrote an event handler, and `style=` further on. -/
def onmouseoverPage : Bytes :=
  bytes "<p>" ++ escapeText (bytes "<span onmouseover=alert(1)>x</span> style=") ++ bytes "</p>"

/-- The event handler becomes live. -/
theorem onmouseover_becomes_live :
    ¬ RestoredSafe onmouseoverPage ∧ restoreInlineStyledSpans onmouseoverPage =
      bytes "<p><span onmouseover=alert(1)>x</span> style=</p>" := by
  have hseg : segments onmouseoverPage = (bytes "<p>").map .copied ++
      .opened (bytes "span onmouseover=alert(1)") :: (.copied 120 :: .closed (bytes "span") ::
        (bytes " style=</p>").map .copied) := by decide +kernel
  have hflat : (Segment.copied 120 :: .closed (bytes "span") ::
      (bytes " style=</p>").map .copied).flatMap Segment.emit = bytes "x</span> style=</p>" := by
    decide +kernel
  have hattrs : (readTag (Segment.emit (.opened (bytes "span onmouseover=alert(1)")) ++
      bytes "x</span> style=</p>")).map
        (fun r => r.1.attrs.all fun a => styleAttrs.any (eqCI a.name)) = some false := by
    decide +kernel
  refine ⟨?_, by decide +kernel⟩
  intro h
  rcases h _ _ _ hseg with ⟨tag, hread, -, -, hall⟩
  rw [hflat] at hread
  rw [hread, Option.map_some, Option.some.injEq] at hattrs
  have hyes : (tag.attrs.all fun a => styleAttrs.any (eqCI a.name)) = true :=
    List.all_eq_true.mpr hall
  rw [hyes] at hattrs
  simp at hattrs

end FlyBoard.Render

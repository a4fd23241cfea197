import FlyBoard.Render.Media

/-!
# Formulas, media and TikZ out of the markdown (`src/render/render_md.c`)

`protect_math` walks over the markdown source and writes it again for md4c. What it captures goes
to one of four registries and a placeholder with the number of the entry is written for it;
dollars in code are masked. Everything else is copied.

A place of the source is a `Cursor`. The recognisers of the source get one and give lengths where
the source gives positions.
-/

namespace FlyBoard.Render

open Bytes Html

/-- `md` and `i`: the bytes before the place, the nearest first, and those from it on. -/
structure Cursor where
  before : Bytes
  rest : Bytes

def Cursor.forward (cur : Cursor) (k : ℕ) : Cursor :=
  ⟨(cur.rest.take k).reverse ++ cur.before, cur.rest.drop k⟩

/-! ## Registries -/

inductive Registry
  | blocks
  | inlines
  | media
  | tikz
deriving DecidableEq

def minusRun : Bytes → ℕ × ℕ
  | 45 :: s => ((minusRun s).1 + 1, (minusRun s).2 + 1)
  | 0xE2 :: 0x88 :: 0x92 :: s => ((minusRun s).1 + 3, (minusRun s).2 + 1)
  | _ => (0, 0)

/-- The loop of `normalize_operator_runs`; `last` is `expr[read - 1]`. -/
def normalizeLoop (tikz : Bool) : ℕ → Option UInt8 → Bytes → Bytes
  | 0, _, _ => []
  | _, _, [] => []
  | n + 1, last, c :: s =>
    let lineEnd := s.dropWhile isBlank
    if c = 92 ∧ last ≠ some 92 ∧ s.head? ≠ some 92 ∧
        (lineEnd.head? = some 10 ∨ lineEnd.head? = some 13) then
      92 :: 92 :: normalizeLoop tikz n ((c :: s.takeWhile isBlank).getLast?) lineEnd
    else if c = 61 then 61 :: normalizeLoop tikz n (some 61) (s.dropWhile (· == 61))
    else
      match minusRun (c :: s) with
      | (0, _) => c :: normalizeLoop tikz n (some c) s
      | (length, operators) =>
        (if tikz = false ∧ 2 ≤ operators then [45] else (c :: s).take length) ++
          normalizeLoop tikz n ((c :: s).take length).getLast? ((c :: s).drop length)

/-- `normalize_operator_runs` -/
def normalizeOperatorRuns (expr : Bytes) (tikz : Bool) : Bytes :=
  normalizeLoop tikz expr.length none expr

def stripHeading (expr : Bytes) : Bytes :=
  if expr.head? = some 35 then
    let s := (expr.drop 1).dropWhile isBlank
    if s.head? = some 36 ∨ s.head? = some 92 then s else expr
  else expr

/-- The copy that `math_registry_add_ex` keeps. -/
def registryText (expr : Bytes) (tikz : Bool) : Bytes :=
  let s := stripHeading (trimRight isSpace4 (trimLeft isSpace4 expr))
  normalizeOperatorRuns (if s.isEmpty then [32] else s) tikz

/-- `append_escaped_math` -/
def escapedMath (text : Bytes) : Bytes := text.flatMap fun c =>
  if c = 60 then bytes "&lt;" else if c = 62 then bytes "&gt;"
  else if c = 38 then bytes "&amp;" else if c = 34 then bytes "&quot;" else [c]

/-! ## Lines and delimiters -/

/-- `is_line_start` -/
def Cursor.isLineStart (cur : Cursor) : Bool := cur.before.head?.all (· == 10)

/-- `is_escaped` -/
def isEscaped (before : Bytes) : Bool := (before.takeWhile (· == 92)).length % 2 == 1

def isLineBlank (c : UInt8) : Bool := isBlank c || c == 13

/-- White space up to the end of the line, and the line break. -/
def lineTail (s : Bytes) : Option ℕ :=
  let blanks := (s.takeWhile isLineBlank).length
  match (s.drop blanks).head? with
  | none => some blanks
  | some c => if c = 10 then some (blanks + 1) else none

/-- `is_block_position`: the match has `k` bytes; the result counts up to the next line. -/
def Cursor.isBlockPosition (cur : Cursor) (k : ℕ) : Option ℕ :=
  if cur.isLineStart then (lineTail (cur.rest.drop k)).map (k + ·) else none

def isAlnum (c : UInt8) : Bool := isAlpha c || isDigit c

def closesInline (next : Option UInt8) : Bool :=
  next.all fun c => !(c == 36 || isAlnum c || c == 95)

/-- `find_math_delimiter`; line breaks are allowed for two dollars. -/
def findMathDelimiter (double : Bool) : Bytes → Bytes → Option ℕ
  | _, [] => none
  | before, c :: s =>
    if double = false ∧ c = 10 then none
    else if c = 36 ∧ isEscaped before = false ∧
        (if double then s.head? == some 36 else closesInline s.head?) then some 0
    else (findMathDelimiter double (c :: before) s).map (· + 1)

/-- `find_latex_delimiter` -/
def findLatexDelimiter (closing : UInt8) : Bytes → Bytes → Option ℕ
  | _, [] => none
  | before, c :: s =>
    if c = 92 ∧ s.head? = some closing ∧ isEscaped before = false then some 0
    else (findLatexDelimiter closing (c :: before) s).map (· + 1)

/-! ## Bare formulas -/

/-- `is_bare_bracket_line` -/
def Cursor.isBareBracketLine (cur : Cursor) (bracket : UInt8) : Option ℕ :=
  if cur.isLineStart ∧ cur.rest.head? = some bracket then
    (lineTail (cur.rest.drop 1)).map (1 + ·)
  else none

/-- `looks_like_latex`. The keywords that are looked for behind the loop begin with a backslash,
which the loop has found. -/
def looksLikeLatex (s : Bytes) : Bool := s.any (bytes "\\^_\x7b\x7d=+*&").contains

/-- The loop of `find_bare_bracket_math`: the first bracket line, and the line behind it. -/
def findBracketLine : Bytes → Bytes → Option (ℕ × ℕ)
  | _, [] => none
  | before, c :: s =>
    match Cursor.isBareBracketLine ⟨before, c :: s⟩ 93 with
    | some after => some (0, after)
    | none => (findBracketLine (c :: before) s).map fun r => (r.1 + 1, r.2 + 1)

/-- `find_bare_bracket_math` -/
def Cursor.findBareBracketMath (cur : Cursor) : Option (ℕ × ℕ) :=
  (findBracketLine cur.before cur.rest).filter fun r => looksLikeLatex (cur.rest.take r.1)

def hasCommand : Bytes → Bool
  | [] => false
  | c :: s => (c == 92 && s.head?.any isAlpha) || hasCommand s

def isNumbered (s : Bytes) : Bool :=
  let behind := s.dropWhile isDigit
  s.head?.any isDigit && behind.head?.any (bytes ".)").contains && (behind.drop 1).head?.any isBlank

def mathEnvironments : List Bytes :=
  ["array", "matrix", "aligned", "cases", "equation", "gather"].map bytes

def mathCommands : List Bytes :=
  ["\\binom", "\\frac", "\\partial", "\\sum", "\\prod", "\\int", "\\lim", "\\sqrt", "\\mathbf",
    "\\mathbb", "\\mathcal", "\\over"].map bytes

/-- `looks_like_bare_latex_expression` of the line at the front. The names of the environments are
looked for in the whole rest of the source. -/
def looksLikeBareLatexExpression (rest : Bytes) : Bool :=
  let line := rest.takeWhile (· != 10)
  let lead := (line.takeWhile isLineBlank).length
  let s := trimRight isLineBlank (line.drop lead)
  if s.isEmpty then false
  else if s.head?.any (bytes "#>|\x60~").contains then false
  else if s.head?.any (bytes "-*+").contains && (s.drop 1).head?.any isBlank then false
  else if s.any (128 ≤ ·) then false
  else if isNumbered s then false
  else if 12 ≤ s.length && startsWith s (bytes "\\begin\x7b") &&
      mathEnvironments.any (hasSub (rest.drop lead)) then true
  else if s.any (bytes "|$").contains then false
  else if mathCommands.any (hasSub s) then true
  else hasCommand s && s.any (bytes "=^_\x7b\x7d&+*/-").contains

/-- The loop of `skip_brace_group` and `skip_bracket_group`. -/
def groupEnd (opening closing : UInt8) : ℤ → Bytes → Bytes → Option ℕ
  | _, _, [] => none
  | depth, before, c :: s =>
    if c = opening ∧ isEscaped before = false then
      (groupEnd opening closing (depth + 1) (c :: before) s).map (· + 1)
    else if c = closing ∧ isEscaped before = false then
      if depth - 1 = 0 then some 1
      else (groupEnd opening closing (depth - 1) (c :: before) s).map (· + 1)
    else (groupEnd opening closing depth (c :: before) s).map (· + 1)

def Cursor.skipGroup (cur : Cursor) (opening closing : UInt8) : ℕ :=
  if cur.rest.head? = some opening then
    (groupEnd opening closing 0 cur.before cur.rest).getD 0
  else 0

/-- `skip_brace_group` and `skip_bracket_group` -/
def Cursor.skipBraceGroup (cur : Cursor) : ℕ := cur.skipGroup 123 125
def Cursor.skipBracketGroup (cur : Cursor) : ℕ := cur.skipGroup 91 93

/-- `skip_sub_sup` -/
def skipSubSup : ℕ → Cursor → ℕ
  | 0, _ => 0
  | n + 1, cur =>
    if cur.rest.head? = some 95 ∨ cur.rest.head? = some 94 then
      let behind := cur.forward 1
      match behind.rest with
      | [] => 1
      | c :: s =>
        if c = 123 then
          let group := behind.skipBraceGroup
          if group = 0 then 1 else 1 + group + skipSubSup n (behind.forward group)
        else if isAlnum c then 2 + skipSubSup n (behind.forward 1)
        else if c = 92 then
          let command := 1 + (s.takeWhile isAlpha).length
          1 + command + skipSubSup n (behind.forward command)
        else 1
    else 0

/-- The tables of `is_bare_latex_math_command`. -/
def twoArgCmds : List Bytes :=
  ["frac", "dfrac", "tfrac", "cfrac", "binom", "dbinom", "tbinom", "over"].map bytes

def oneArgCmds : List Bytes :=
  ["mathbf", "mathbb", "mathcal", "mathrm", "mathit", "mathsf", "mathtt", "bm", "textbf", "textit",
    "text", "operatorname", "vec", "hat", "bar", "tilde", "dot", "ddot", "acute", "grave", "check",
    "breve", "overline", "underline", "overbrace", "underbrace", "boxed", "color"].map bytes

def symCmds : List Bytes :=
  ["sum", "prod", "coprod", "int", "iint", "iiint", "oint", "lim", "limsup", "liminf", "partial",
    "nabla", "infty", "pm", "mp", "times", "div", "cdot", "circ", "bullet", "star", "ast", "oplus",
    "otimes", "odot", "leq", "geq", "neq", "approx", "equiv", "sim", "simeq", "ll", "gg", "subset",
    "supset", "subseteq", "supseteq", "in", "notin", "ni", "cap", "cup", "setminus", "forall",
    "exists", "neg", "to", "mapsto", "leftarrow", "rightarrow", "Leftarrow", "Rightarrow",
    "leftrightarrow", "Leftrightarrow", "alpha", "beta", "gamma", "delta", "epsilon", "varepsilon",
    "zeta", "eta", "theta", "vartheta", "iota", "kappa", "lambda", "mu", "nu", "xi", "pi", "varpi",
    "rho", "varrho", "sigma", "varsigma", "tau", "upsilon", "phi", "varphi", "chi", "psi", "omega",
    "Gamma", "Delta", "Theta", "Lambda", "Xi", "Pi", "Sigma", "Upsilon", "Phi", "Psi", "Omega",
    "sin", "cos", "tan", "cot", "sec", "csc", "arcsin", "arccos", "arctan", "sinh", "cosh", "tanh",
    "log", "ln", "exp", "det", "gcd", "deg", "dim", "ker", "max", "min"].map bytes

/-- `is_bare_latex_math_command`: the arguments of the command, and whether it takes one in
brackets. -/
def isBareLatexMathCommand (cmd : Bytes) : Option (ℕ × Bool) :=
  if twoArgCmds.contains cmd then some (2, false)
  else if cmd = bytes "sqrt" then some (1, true)
  else if oneArgCmds.contains cmd then some (1, false)
  else if symCmds.contains cmd then some (0, false)
  else none

def skipArgs : ℕ → Cursor → Option ℕ
  | 0, _ => some 0
  | n + 1, cur =>
    let blanks := (cur.rest.takeWhile isBlank).length
    let group := (cur.forward blanks).skipBraceGroup
    if group = 0 then none
    else (skipArgs n (cur.forward (blanks + group))).map (blanks + group + ·)

def skipOptional (cur : Cursor) (hasOptional : Bool) : ℕ :=
  if hasOptional then
    let blanks := (cur.rest.takeWhile isBlank).length
    blanks + (cur.forward blanks).skipBracketGroup
  else 0

/-- One round of the loop of `parse_bare_inline_math`: a command with all it takes. -/
def bareCommand (cur : Cursor) : Option ℕ :=
  if cur.rest.head? = some 92 ∧ isEscaped cur.before = false then
    let cmd := (cur.rest.drop 1).takeWhile isAlpha
    match isBareLatexMathCommand cmd with
    | none => none
    | some (args, hasOptional) =>
      let p := 1 + cmd.length + skipOptional (cur.forward (1 + cmd.length)) hasOptional
      (skipArgs args (cur.forward p)).map fun k =>
        p + k + skipSubSup cur.rest.length (cur.forward (p + k))
  else none

def operatorLength (s : Bytes) : Option ℕ :=
  let blanks := (s.takeWhile isBlank).length
  let behind := (s.drop (blanks + 1)).takeWhile isBlank
  if (s.drop blanks).head?.any (bytes "+-*/=<>").contains ∧
      (s.drop (blanks + 1 + behind.length)).head? = some 92 then
    some (blanks + 1 + behind.length)
  else none

/-- The loop of `parse_bare_inline_math`. -/
def bareRun : ℕ → Cursor → Option ℕ
  | 0, _ => none
  | n + 1, cur => (bareCommand cur).map fun p =>
    match operatorLength (cur.forward p).rest with
    | none => p
    | some k => p + k + (bareRun n (cur.forward (p + k))).getD 0

/-- `parse_bare_inline_math` -/
def parseBareInlineMath (cur : Cursor) : Option ℕ := bareRun cur.rest.length cur

/-! ## Fences and tags -/

/-- The line that opens a fenced block. -/
structure Fence where
  char : UInt8
  length : ℕ
deriving DecidableEq

/-- `is_code_fence_line` -/
def isCodeFenceLine (s : Bytes) : Option Fence :=
  let line := s.dropWhile isBlank
  let backticks := (line.takeWhile (· == 96)).length
  let tildes := (line.takeWhile (· == 126)).length
  if 3 ≤ backticks then some ⟨96, backticks⟩
  else if 3 ≤ tildes then some ⟨126, tildes⟩
  else none

/-- The run of a fence behind at most three spaces, and what stands before its end. -/
def fenceRun (char : UInt8) (s : Bytes) : Option (ℕ × ℕ) :=
  let indent := (s.takeWhile (· == 32)).length
  let run := ((s.drop indent).takeWhile (· == char)).length
  if 3 < indent ∨ run = 0 then none else some (run, indent + run)

/-- `tikz_fence_open`: the fence, and the length of the line. -/
def Cursor.tikzFenceOpen (cur : Cursor) : Option (Fence × ℕ) :=
  if cur.isLineStart then
    match (cur.rest.dropWhile (· == 32)).head? with
    | none => none
    | some char =>
      if char = 96 ∨ char = 126 then
        match fenceRun char cur.rest with
        | none => none
        | some (run, p) =>
          let info := (cur.rest.drop p).dropWhile isBlank
          if 3 ≤ run ∧ startsWithCI info (bytes "tikz") ∧ (info.drop 4).head?.all isSpace4 then
            some (⟨char, run⟩, (cur.rest.takeWhile (· != 10)).length +
              ((cur.rest.dropWhile (· != 10)).take 1).length)
          else none
      else none
  else none

/-- `tikz_fence_close` -/
def Cursor.tikzFenceClose (cur : Cursor) (fence : Fence) : Option ℕ :=
  if cur.isLineStart then
    match fenceRun fence.char cur.rest with
    | none => none
    | some (run, p) =>
      if run < fence.length then none else (lineTail (cur.rest.drop p)).map (p + ·)
  else none

/-- The search for the closing line: where it begins and where it ends. -/
def findTikzFenceClose (fence : Fence) : Bytes → Bytes → Option (ℕ × ℕ)
  | _, [] => none
  | before, c :: s =>
    match Cursor.tikzFenceClose ⟨before, c :: s⟩ fence with
    | some after => some (0, after)
    | none => (findTikzFenceClose fence (c :: before) s).map fun r => (r.1 + 1, r.2 + 1)

/-- `find_closing_tag` -/
def findClosingTag (needle : Bytes) : Bytes → Option ℕ
  | [] => none
  | c :: s =>
    if startsWithCI (c :: s) needle then some 0 else (findClosingTag needle s).map (· + 1)

/-- A raw tag at the front: the bytes of the tag, and those up to the end of its closing tag. -/
def rawTag (name : Bytes) (s : Bytes) : Option (ℕ × ℕ) :=
  let opening := 60 :: name
  let behind := s.drop opening.length
  let inner := behind.dropWhile (· != 62)
  if startsWithCI s opening ∧ behind.head?.all (fun c => isSpace4 c || c == 62 || c == 47) ∧
      inner ≠ [] then
    let tag := s.length - inner.length + 1
    let block :=
      match findClosingTag (bytes "</" ++ name) (s.drop tag) with
      | none => tag
      | some close =>
        let closing := s.drop (tag + close)
        if 62 ∈ closing then tag + close + (closing.takeWhile (· != 62)).length + 1 else tag
    if block ≤ 4096 then some (tag, block) else none
  else none

/-! ## The rounds of the loop -/

/-- Where a captured part stands: in a line, or in lines of its own with text in the next one or
not. -/
inductive Place
  | line
  | block (textFollows : Bool)
deriving DecidableEq

/-- A part of the source and what becomes of it: a byte that is copied, in code or not, a dollar
of code, a text for a registry, or a rejected tag. -/
inductive Part
  | text (c : UInt8) (code : Bool)
  | dollar
  | capture (registry : Registry) (source expr : Bytes) (place : Place)
  | dropped (source : Bytes)
deriving DecidableEq

def Part.source : Part → Bytes
  | .text c _ => [c]
  | .dollar => [36]
  | .capture _ source _ _ => source
  | .dropped source => source

structure Round where
  parts : List Part
  length : ℕ

section Rounds

variable (cur : Cursor)

def inLine (registry : Registry) (expr : Bytes) (length : ℕ) : Round :=
  ⟨[.capture registry (cur.rest.take length) expr .line], length⟩

/-- Between `begin_block_placeholder` and `end_block_placeholder`. -/
def inBlock (registry : Registry) (expr : Bytes) (length : ℕ) : Round :=
  ⟨[.capture registry (cur.rest.take length) expr
    (.block ((cur.rest.drop length).head?.any (· != 10)))], length⟩

def tikzFence : Option Round :=
  match cur.tikzFenceOpen with
  | none => none
  | some (fence, start) =>
    let content := cur.forward start
    (findTikzFenceClose fence content.before content.rest).map fun r =>
      inBlock cur .tikz (content.rest.take r.1) (start + r.2)

def codePart (c : UInt8) : Part := if c = 36 then .dollar else .text c true

def codeByte : Round := ⟨(cur.rest.take 1).map codePart, 1⟩

def closingLine : Round :=
  let line := cur.rest.takeWhile (· != 10) ++ (cur.rest.dropWhile (· != 10)).take 1
  ⟨line.map (Part.text · true), line.length⟩

def findCodeSpanEnd (run : ℕ) : ℕ → Bytes → Option ℕ
  | 0, _ => none
  | _, [] => none
  | n + 1, c :: s =>
    if c != 96 then (findCodeSpanEnd run n s).map (· + 1)
    else
      let crun := ((c :: s).takeWhile (· == 96)).length
      if crun = run then some crun
      else (findCodeSpanEnd run n ((c :: s).drop crun)).map (· + crun)

def codeSpan : Option Round :=
  let run := (cur.rest.takeWhile (· == 96)).length
  if run = 0 then none
  else (findCodeSpanEnd run cur.rest.length (cur.rest.drop run)).map fun k =>
    ⟨(cur.rest.take (run + k)).map codePart, run + k⟩

/-- `<video>` and `<audio>` -/
def mediaTag (tag : MediaTag) : Option Round :=
  (rawTag tag.name cur.rest).map fun r =>
    inLine cur .media (sanitizeMediaTag (cur.rest.take r.1) tag) r.2

def iframeTag : Option Round :=
  (rawTag (bytes "iframe") cur.rest).map fun r =>
    match sanitizeIframeTag (cur.rest.take r.1) with
    | some sanitized => inLine cur .media sanitized r.2
    | none => ⟨[.dropped (cur.rest.take r.2)], r.2⟩

/-- `tikzpicture` and `tikzcd` -/
def tikzEnvironment (name : Bytes) : Option Round :=
  let opening := bytes "\\begin\x7b" ++ name ++ bytes "\x7d"
  let closing := bytes "\\end\x7b" ++ name ++ bytes "\x7d"
  if startsWith cur.rest opening then
    (cutAt closing (cur.rest.drop opening.length)).map fun r =>
      let total := opening.length + r.1.length + closing.length
      match cur.isBlockPosition total with
      | some after => inBlock cur .tikz (cur.rest.take total) after
      | none => inLine cur .tikz (cur.rest.take total) total
  else none

/-- White space behind an environment, and one line break. -/
def environmentTail (s : Bytes) : ℕ :=
  let blanks := (s.takeWhile isLineBlank).length
  if (s.drop blanks).head? = some 10 then blanks + 1 else blanks

def latexEnvironment : Option Round :=
  if cur.isLineStart ∧ startsWith cur.rest (bytes "\\begin\x7b") ∧ 125 ∈ cur.rest.drop 7 then
    let name := (cur.rest.drop 7).takeWhile (· != 125)
    if name.length < 64 ∧ name ≠ bytes "tikzpicture" ∧ name ≠ bytes "tikzcd" then
      let opening := 7 + name.length + 1
      let closing := bytes "\\end\x7b" ++ name ++ bytes "\x7d"
      (cutAt closing (cur.rest.drop opening)).map fun r =>
        let total := opening + r.1.length + closing.length
        inBlock cur .blocks (cur.rest.take total) (total + environmentTail (cur.rest.drop total))
    else none
  else none

def bareExpression : Option Round :=
  if cur.isLineStart ∧ looksLikeBareLatexExpression cur.rest then
    let line := cur.rest.takeWhile (· != 10)
    some (inBlock cur .blocks line
      (line.length + ((cur.rest.dropWhile (· != 10)).take 1).length))
  else none

def bareBrackets : Option Round :=
  match cur.isBareBracketLine 91 with
  | none => none
  | some start =>
    let content := cur.forward start
    content.findBareBracketMath.map fun r =>
      inBlock cur .blocks (content.rest.take r.1) (start + r.2)

def displayBrackets : Option Round :=
  if startsWith cur.rest (bytes "\\[") then
    let content := cur.forward 2
    (findLatexDelimiter 93 content.before content.rest).map fun k =>
      match cur.isBlockPosition (2 + k + 2) with
      | some after => inBlock cur .blocks (content.rest.take k) after
      | none => inLine cur .blocks (content.rest.take k) (2 + k + 2)
  else none

def dollars : Option Round :=
  if cur.rest.head? = some 36 ∧ isEscaped cur.before = false then
    let double := (cur.rest.drop 1).head? == some 36
    let delimiter := if double then 2 else 1
    let content := cur.forward delimiter
    match findMathDelimiter double content.before content.rest with
    | none => none
    | some k =>
      if k = 0 then none
      else if double then
        match cur.isBlockPosition (2 + k + 2) with
        | some after => some (inBlock cur .blocks (content.rest.take k) after)
        | none => some (inLine cur .blocks (content.rest.take k) (2 + k + 2))
      else some (inLine cur .inlines (content.rest.take k) (1 + k + 1))
  else none

def parentheses : Option Round :=
  if startsWith cur.rest (bytes "\\(") then
    let content := cur.forward 2
    match findLatexDelimiter 41 content.before content.rest with
    | none => none
    | some k => if k = 0 then none else some (inLine cur .inlines (content.rest.take k) (2 + k + 2))
  else none

def bareInline : Option Round :=
  (parseBareInlineMath cur).map fun k => inLine cur .inlines (cur.rest.take k) k

def plainByte : Round := ⟨(cur.rest.take 1).map (Part.text · false), 1⟩

/-- Outside of fenced blocks the first recogniser that takes the place has it. -/
def captures : List (Option Round) :=
  [codeSpan cur, mediaTag cur .video, mediaTag cur .audio, iframeTag cur,
    tikzEnvironment cur (bytes "tikzpicture"), tikzEnvironment cur (bytes "tikzcd"),
    latexEnvironment cur, bareExpression cur, bareBrackets cur, displayBrackets cur, dollars cur,
    parentheses cur, bareInline cur]

def openRound : Round := ((captures cur).findSome? id).getD (plainByte cur)

end Rounds

/-! ## `protect_math` -/

def endsBlock (fence : Fence) (line : Bytes) : Bool :=
  (isCodeFenceLine line).any fun f => fence.length ≤ f.length

/-- `i` and the fenced block around it. `current_fence_len` is the length, the character is not
kept by the source. -/
structure Loop where
  cur : Cursor
  fence : Option Fence

/-- One round: TikZ fences, the tracking of fenced blocks, code, and then everything else. -/
def round (l : Loop) : Round × Option Fence :=
  match tikzFence l.cur with
  | some r => (r, l.fence)
  | none =>
    match l.fence with
    | some fence =>
      if l.cur.isLineStart && endsBlock fence l.cur.rest then (closingLine l.cur, none)
      else (codeByte l.cur, some fence)
    | none =>
      match if l.cur.isLineStart then isCodeFenceLine l.cur.rest else none with
      | some fence => (codeByte l.cur, some fence)
      | none => (openRound l.cur, none)

def Loop.step (l : Loop) : Loop := ⟨l.cur.forward (round l).1.length, (round l).2⟩

def divide : ℕ → Loop → List Part
  | 0, _ => []
  | n + 1, l => if l.cur.rest = [] then [] else (round l).1.parts ++ divide n l.step

def division (md : Bytes) : List Part := divide md.length ⟨⟨[], md⟩, none⟩

/-- What stands between the marks of a placeholder, before its number. -/
def Registry.stem : Registry → Bytes
  | .blocks => bytes "MATH_BLOCK_"
  | .inlines => bytes "MATH_INLINE_"
  | .media => bytes "RAW_MEDIA_"
  | .tikz => bytes "TIKZ_BLOCK_"

def Registry.body (r : Registry) (n : ℕ) : Bytes := r.stem ++ decimal n

/-- `out` and the registries. -/
structure Protected where
  out : Bytes
  entries : Registry → List Bytes

/-- `begin_block_placeholder` -/
def beginBlock (out : Bytes) : Bytes :=
  if out.getLast? = some 10 ∧ out.dropLast.getLast? ≠ some 10 then out ++ [10] else out

/-- `end_block_placeholder` -/
def endBlock (out : Bytes) (textFollows : Bool) : Bytes :=
  if textFollows then out ++ [10, 10] else out ++ [10]

def addPlaceholder (out : Bytes) (r : Registry) (n : ℕ) : Bytes :=
  out ++ bytes "@@" ++ r.body n ++ bytes "@@"

def Protected.put (p : Protected) : Part → Protected
  | .text c _ => { p with out := p.out ++ [c] }
  | .dollar => { p with out := p.out ++ bytes "@@MATHDOLLAR@@" }
  | .capture r _ expr place =>
    let n := (p.entries r).length
    let entries := Function.update p.entries r (p.entries r ++ [registryText expr (r == .tikz)])
    match place with
    | .line => ⟨addPlaceholder p.out r n, entries⟩
    | .block textFollows =>
      ⟨endBlock (addPlaceholder (beginBlock p.out) r n) textFollows, entries⟩
  | .dropped _ => p

/-- `protect_math` -/
def protectMath (md : Bytes) : Protected :=
  (division md).foldl Protected.put ⟨[], fun _ => []⟩

/-! ## Every round reads on -/

structure Round.Reads (r : Round) (cur : Cursor) : Prop where
  sources : r.parts.flatMap Part.source = cur.rest.take r.length
  advances : 0 < r.length

variable {cur : Cursor} {fence : Fence} {r : Round}

theorem inLine_reads (registry : Registry) (expr : Bytes) {length : ℕ} (h : 0 < length) :
    (inLine cur registry expr length).Reads cur := ⟨List.append_nil _, h⟩

theorem inBlock_reads (registry : Registry) (expr : Bytes) {length : ℕ} (h : 0 < length) :
    (inBlock cur registry expr length).Reads cur := ⟨List.append_nil _, h⟩

theorem source_codePart (c : UInt8) : (codePart c).source = [c] := by
  unfold codePart
  split_ifs with hc
  · exact congrArg (fun x => [x]) hc.symm
  · rfl

theorem flatMap_source_map {f : UInt8 → Part} (hf : ∀ c, (f c).source = [c]) (s : Bytes) :
    (s.map f).flatMap Part.source = s := by
  rw [List.flatMap_map]
  simp only [hf, List.flatMap_singleton']

theorem codeByte_reads : (codeByte cur).Reads cur :=
  ⟨flatMap_source_map source_codePart _, Nat.one_pos⟩

theorem plainByte_reads : (plainByte cur).Reads cur :=
  ⟨flatMap_source_map (fun _ => rfl) _, Nat.one_pos⟩

theorem line_eq_take (s : Bytes) :
    s.takeWhile (· != 10) ++ (s.dropWhile (· != 10)).take 1 =
      s.take ((s.takeWhile (· != 10)).length + ((s.dropWhile (· != 10)).take 1).length) := by
  have hsplit := List.takeWhile_append_dropWhile (p := (· != 10)) (l := s)
  have hdrop : (s.dropWhile (· != 10)).take 1 = (s.dropWhile (· != 10)).take
      ((s.dropWhile (· != 10)).take 1).length := by
    cases s.dropWhile (· != 10) <;> rfl
  calc s.takeWhile (· != 10) ++ (s.dropWhile (· != 10)).take 1
      = (s.takeWhile (· != 10) ++ s.dropWhile (· != 10)).take
          ((s.takeWhile (· != 10)).length + ((s.dropWhile (· != 10)).take 1).length) := by
        rw [List.take_length_add_append, ← hdrop]
    _ = _ := by rw [hsplit]

theorem line_pos {s : Bytes} (h : s ≠ []) :
    0 < (s.takeWhile (· != 10)).length + ((s.dropWhile (· != 10)).take 1).length := by
  cases s with
  | nil => exact absurd rfl h
  | cons c s =>
    by_cases hc : c = 10
    · simp [hc]
    · have htake : (c :: s).takeWhile (· != 10) = c :: s.takeWhile (· != 10) :=
        List.takeWhile_cons_of_pos (bne_iff_ne.mpr hc)
      rw [htake]
      exact Nat.add_pos_left (Nat.succ_pos _) _

theorem closingLine_reads (h : cur.rest ≠ []) : (closingLine cur).Reads cur := by
  refine ⟨?_, ?_⟩
  · rw [closingLine, flatMap_source_map fun _ => rfl, List.length_append]
    exact line_eq_take cur.rest
  · rw [closingLine, List.length_append]
    exact line_pos h

theorem le_of_isBlockPosition {k after : ℕ} (h : cur.isBlockPosition k = some after) :
    k ≤ after := by
  unfold Cursor.isBlockPosition at h
  split_ifs at h
  obtain ⟨j, -, rfl⟩ := Option.map_eq_some_iff.mp h
  exact Nat.le_add_right k j

theorem pos_of_tikzFenceClose {after : ℕ}
    (h : cur.tikzFenceClose fence = some after) : 0 < after := by
  unfold Cursor.tikzFenceClose at h
  split_ifs at h
  split at h
  · cases h
  · rename_i run p hrun
    have hp : 0 < p := by
      unfold fenceRun at hrun
      simp only at hrun
      split_ifs at hrun with hnone
      cases hrun
      omega
    split_ifs at h
    obtain ⟨j, -, rfl⟩ := Option.map_eq_some_iff.mp h
    exact Nat.add_pos_left hp j

theorem pos_of_findTikzFenceClose {before rest : Bytes} {r : ℕ × ℕ}
    (h : findTikzFenceClose fence before rest = some r) : 0 < r.2 := by
  cases rest with
  | nil => cases h
  | cons c s =>
    unfold findTikzFenceClose at h
    split at h
    · rename_i after hafter
      cases h
      exact pos_of_tikzFenceClose hafter
    · obtain ⟨r', -, rfl⟩ := Option.map_eq_some_iff.mp h
      exact Nat.succ_pos _

theorem tikzFence_reads (h : tikzFence cur = some r) : r.Reads cur := by
  unfold tikzFence at h
  split at h
  · cases h
  · rename_i fence start hopen
    obtain ⟨close, hclose, rfl⟩ := Option.map_eq_some_iff.mp h
    exact inBlock_reads _ _ (Nat.add_pos_right start (pos_of_findTikzFenceClose hclose))

theorem codeSpan_reads (h : codeSpan cur = some r) : r.Reads cur := by
  unfold codeSpan at h
  simp only at h
  split_ifs at h with hrun
  obtain ⟨k, -, rfl⟩ := Option.map_eq_some_iff.mp h
  exact ⟨flatMap_source_map source_codePart _, Nat.add_pos_left (Nat.pos_of_ne_zero hrun) k⟩

theorem pos_of_rawTag {name s : Bytes} {r : ℕ × ℕ} (h : rawTag name s = some r) : 0 < r.2 := by
  unfold rawTag at h
  simp only at h
  split_ifs at h
  cases h
  simp only
  split
  · exact Nat.succ_pos _
  · split_ifs <;> exact Nat.succ_pos _

theorem mediaTag_reads {tag : MediaTag} (h : mediaTag cur tag = some r) :
    r.Reads cur := by
  obtain ⟨lengths, htag, rfl⟩ := Option.map_eq_some_iff.mp h
  exact inLine_reads _ _ (pos_of_rawTag htag)

theorem iframeTag_reads (h : iframeTag cur = some r) : r.Reads cur := by
  obtain ⟨lengths, htag, hr⟩ := Option.map_eq_some_iff.mp h
  subst hr
  split
  · exact inLine_reads _ _ (pos_of_rawTag htag)
  · exact ⟨List.append_nil _, pos_of_rawTag htag⟩

theorem inPlace_reads {registry : Registry} {expr : Bytes} {k : ℕ} (hk : 0 < k) :
    Round.Reads (match cur.isBlockPosition k with
      | some after => inBlock cur registry expr after
      | none => inLine cur registry expr k) cur := by
  split
  · rename_i after hafter
    exact inBlock_reads _ _ (hk.trans_le (le_of_isBlockPosition hafter))
  · exact inLine_reads _ _ hk

theorem tikzEnvironment_reads {name : Bytes} (h : tikzEnvironment cur name = some r) :
    r.Reads cur := by
  unfold tikzEnvironment at h
  simp only at h
  split_ifs at h
  obtain ⟨cut, -, rfl⟩ := Option.map_eq_some_iff.mp h
  refine inPlace_reads ?_
  rw [List.length_append, List.length_append]
  have hpos : 0 < (bytes "\\begin\x7b").length := by decide
  omega

theorem latexEnvironment_reads (h : latexEnvironment cur = some r) :
    r.Reads cur := by
  unfold latexEnvironment at h
  simp only at h
  split_ifs at h
  obtain ⟨cut, -, rfl⟩ := Option.map_eq_some_iff.mp h
  exact inBlock_reads _ _ (by omega)

theorem bareExpression_reads (hrest : cur.rest ≠ [])
    (h : bareExpression cur = some r) : r.Reads cur := by
  unfold bareExpression at h
  split_ifs at h
  cases h
  exact inBlock_reads _ _ (line_pos hrest)

theorem bareBrackets_reads (h : bareBrackets cur = some r) : r.Reads cur := by
  unfold bareBrackets at h
  split at h
  · cases h
  · rename_i start hstart
    obtain ⟨found, -, rfl⟩ := Option.map_eq_some_iff.mp h
    unfold Cursor.isBareBracketLine at hstart
    split_ifs at hstart
    obtain ⟨k, -, rfl⟩ := Option.map_eq_some_iff.mp hstart
    exact inBlock_reads _ _ (by omega)

theorem displayBrackets_reads (h : displayBrackets cur = some r) : r.Reads cur := by
  unfold displayBrackets at h
  split_ifs at h
  obtain ⟨k, -, rfl⟩ := Option.map_eq_some_iff.mp h
  exact inPlace_reads (by omega)

theorem dollars_reads (h : dollars cur = some r) : r.Reads cur := by
  unfold dollars at h
  generalize ((cur.rest.drop 1).head? == some 36) = double at h
  split_ifs at h
  simp only at h
  split at h
  · cases h
  · rename_i k hk
    cases double with
    | false =>
      simp only [Bool.false_eq_true, ↓reduceIte] at h
      split_ifs at h
      cases h
      exact inLine_reads _ _ (by omega)
    | true =>
      simp only [↓reduceIte] at h
      split_ifs at h
      split at h
      · rename_i after hafter
        cases h
        have hle := le_of_isBlockPosition hafter
        exact inBlock_reads _ _ (by omega)
      · cases h
        exact inLine_reads _ _ (by omega)

theorem parentheses_reads (h : parentheses cur = some r) : r.Reads cur := by
  unfold parentheses at h
  split_ifs at h
  simp only at h
  split at h
  · cases h
  · split_ifs at h
    cases h
    exact inLine_reads _ _ (by omega)

theorem bareInline_reads (h : bareInline cur = some r) : r.Reads cur := by
  obtain ⟨k, hk, rfl⟩ := Option.map_eq_some_iff.mp h
  refine inLine_reads _ _ ?_
  unfold parseBareInlineMath bareRun at hk
  split at hk
  · cases hk
  · obtain ⟨p, hp, rfl⟩ := Option.map_eq_some_iff.mp hk
    have hpos : 0 < p := by
      unfold bareCommand at hp
      split_ifs at hp
      simp only at hp
      split at hp
      · cases hp
      · obtain ⟨j, -, rfl⟩ := Option.map_eq_some_iff.mp hp
        omega
    split <;> omega

theorem openRound_reads (hrest : cur.rest ≠ []) : (openRound cur).Reads cur := by
  unfold openRound
  cases hfound : (captures cur).findSome? id with
  | none => exact plainByte_reads
  | some r =>
    obtain ⟨o, ho, hr⟩ := List.exists_of_findSome?_eq_some hfound
    obtain rfl : o = some r := hr
    simp only [captures, List.mem_cons, List.not_mem_nil, or_false] at ho
    rcases ho with h | h | h | h | h | h | h | h | h | h | h | h | h
    · exact codeSpan_reads h.symm
    · exact mediaTag_reads h.symm
    · exact mediaTag_reads h.symm
    · exact iframeTag_reads h.symm
    · exact tikzEnvironment_reads h.symm
    · exact tikzEnvironment_reads h.symm
    · exact latexEnvironment_reads h.symm
    · exact bareExpression_reads hrest h.symm
    · exact bareBrackets_reads h.symm
    · exact displayBrackets_reads h.symm
    · exact dollars_reads h.symm
    · exact parentheses_reads h.symm
    · exact bareInline_reads h.symm

theorem round_reads {l : Loop} (hrest : l.cur.rest ≠ []) :
    (round l).1.Reads l.cur := by
  unfold round
  split
  · rename_i r hr
    exact tikzFence_reads hr
  · split
    · split_ifs
      · exact closingLine_reads hrest
      · exact codeByte_reads
    · split
      · exact codeByte_reads
      · exact openRound_reads hrest

theorem flatMap_source_division (md : Bytes) : (division md).flatMap Part.source = md := by
  have hdivide : ∀ n l, l.cur.rest.length ≤ n →
      (divide n l).flatMap Part.source = l.cur.rest := by
    intro n
    induction n with
    | zero =>
      intro l hl
      exact (List.eq_nil_of_length_eq_zero (Nat.le_zero.mp hl)).symm
    | succ n ih =>
      intro l hl
      unfold divide
      split_ifs with hrest
      · exact hrest.symm
      · have hreads := round_reads hrest
        have hstep : l.step.cur.rest = l.cur.rest.drop (round l).1.length := rfl
        have hpos : 0 < l.cur.rest.length := List.length_pos_iff.mpr hrest
        have hlength : l.step.cur.rest.length ≤ n := by
          have hadvances := hreads.advances
          rw [hstep, List.length_drop]
          omega
        rw [List.flatMap_append, hreads.sources, ih _ hlength, hstep, List.take_append_drop]
  exact hdivide md.length _ le_rfl

end FlyBoard.Render

import FlyBoard.Handlers.Autosave
import FlyBoard.Lib.Buffer
import FlyBoard.Lib.Json
import FlyBoard.Lib.Scan

/-!
# String utilities (`src/utils/strutil_pure.h`)

The escape functions and the slug of a title, with the buffers that they allocate and every
write to them. The text of a slug is the one that a new post gets.
-/

namespace FlyBoard.StrUtil

open Bytes Autosave

/-! ## Escaping -/

def escapeByte (c : UInt8) : Bytes :=
  if c = 38 then bytes "&amp;"
  else if c = 60 then bytes "&lt;"
  else if c = 62 then bytes "&gt;"
  else if c = 34 then bytes "&quot;"
  else if c = 39 then bytes "&#x27;"
  else [c]

def escapeExtra (c : UInt8) : ℕ :=
  if c = 38 then 4
  else if c = 60 then 3
  else if c = 62 then 3
  else if c = 34 then 5
  else if c = 39 then 5
  else 0

def escapeFrom : Bytes → ℕ → Buffer UInt8 → Buffer UInt8
  | [], j, out => out.put j 0
  | c :: rest, j, out => escapeFrom rest (j + (escapeByte c).length) (out.puts j (escapeByte c))

/-- `fb_sql_escape` -/
def fbSqlEscape (src : Bytes) : Buffer UInt8 :=
  escapeFrom src 0 (.alloc (src.length + (src.map escapeExtra).sum + 1))

/-- One round of the loop that decodes: the byte that is written, and what is left. -/
def unescapeNext : Bytes → Option (UInt8 × Bytes)
  | [] => none
  | c :: rest =>
    let src := c :: rest
    if startsWith src (bytes "&amp;") then some (38, src.drop 5)
    else if startsWith src (bytes "&lt;") then some (60, src.drop 4)
    else if startsWith src (bytes "&gt;") then some (62, src.drop 4)
    -- a bug of `append_escaped`
    else if startsWith src (bytes "&gtl") then some (62, src.drop 4)
    else if startsWith src (bytes "&quot;") then some (34, src.drop 6)
    else if startsWith src (bytes "&#x27;") then some (39, src.drop 6)
    else if startsWith src (bytes "&#39;") then some (39, src.drop 5)
    else some (c, rest)

/-- `fb_sql_unescape` -/
def fbSqlUnescape (src : Bytes) : Buffer UInt8 :=
  let out := (Scan.scan unescapeNext src).1
  ((Buffer.alloc (src.length + 1)).puts 0 out).put out.length 0

def text (out : Buffer UInt8) : Bytes := out.upTo 0

theorem length_escapeByte (c : UInt8) : (escapeByte c).length = escapeExtra c + 1 := by
  unfold escapeByte escapeExtra
  split_ifs <;> rfl

theorem mem_escapeByte {c d : UInt8} (h : d ∈ escapeByte c) :
    d = c ∧ c ≠ 38 ∧ c ≠ 60 ∧ c ≠ 62 ∧ c ≠ 34 ∧ c ≠ 39 ∨
      d ≠ 0 ∧ d ≠ 60 ∧ d ≠ 62 ∧ d ≠ 34 ∧ d ≠ 39 := by
  have hentity : ∀ s : Bytes,
      s.all (fun d => d != 0 && (d != 60 && (d != 62 && (d != 34 && d != 39)))) = true → d ∈ s →
        d ≠ 0 ∧ d ≠ 60 ∧ d ≠ 62 ∧ d ≠ 34 ∧ d ≠ 39 := by
    intro s hall hd
    have hok := List.all_eq_true.mp hall d hd
    simpa only [Bool.and_eq_true, bne_iff_ne] using hok
  unfold escapeByte at h
  split_ifs at h with h38 h60 h62 h34 h39
  · exact .inr (hentity _ (by decide) h)
  · exact .inr (hentity _ (by decide) h)
  · exact .inr (hentity _ (by decide) h)
  · exact .inr (hentity _ (by decide) h)
  · exact .inr (hentity _ (by decide) h)
  · exact .inl ⟨List.mem_singleton.mp h, h38, h60, h62, h34, h39⟩

theorem escapeFrom_eq (rest : Bytes) (j : ℕ) (out : Buffer UInt8) :
    escapeFrom rest j out =
      (out.puts j (rest.flatMap escapeByte)).put (j + (rest.flatMap escapeByte).length) 0 := by
  induction rest generalizing j out with
  | nil => rfl
  | cons c rest ih =>
    rw [escapeFrom, ih, List.flatMap_cons, Buffer.puts_append, List.length_append, Nat.add_assoc]

theorem length_escape (src : Bytes) :
    (src.flatMap escapeByte).length = src.length + (src.map escapeExtra).sum := by
  induction src with
  | nil => rfl
  | cons c src ih =>
    rw [List.flatMap_cons, List.length_append, ih, length_escapeByte, List.length_cons,
      List.map_cons, List.sum_cons]
    omega

theorem fbSqlEscape_eq (src : Bytes) : fbSqlEscape src =
    ((Buffer.alloc ((src.flatMap escapeByte).length + 1)).puts 0 (src.flatMap escapeByte)).put
      (src.flatMap escapeByte).length 0 := by
  rw [fbSqlEscape, escapeFrom_eq, length_escape, Nat.zero_add]

variable {s : Bytes}

theorem text_written (size : ℕ) (hs : 0 ∉ s) :
    text (((Buffer.alloc size).puts 0 s).put s.length 0) = s :=
  Buffer.upTo_of_holds ((Buffer.holds_nil.puts s).put 0) hs

variable {src : Bytes}

theorem zero_not_mem_escape (h : 0 ∉ src) : 0 ∉ src.flatMap escapeByte := by
  intro hmem
  rcases List.mem_flatMap.mp hmem with ⟨c, hc, hd⟩
  rcases mem_escapeByte hd with ⟨rfl, -⟩ | hne
  · exact h hc
  · exact hne.1 rfl

theorem advances_unescapeNext : Scan.Advances unescapeNext := by
  intro s c rest h
  cases s with
  | nil => exact nomatch h
  | cons d s =>
    unfold unescapeNext at h
    dsimp only at h
    split_ifs at h <;> cases h <;> simp only [List.length_drop, List.length_cons] <;> omega

theorem unescapeNext_escapeByte (c : UInt8) (rest : Bytes) :
    unescapeNext (escapeByte c ++ rest) = some (c, rest) := by
  unfold escapeByte
  split_ifs with h38 h60 h62 h34 h39
  · rw [h38]; rfl
  · rw [h60]; rfl
  · rw [h62]; rfl
  · rw [h34]; rfl
  · rw [h39]; rfl
  · -- no entity begins with another byte than `&`
    have hplain : ∀ p : Bytes, startsWith (c :: rest) (38 :: p) = false := by
      intro p
      rw [startsWith, List.length_cons, List.take_succ_cons]
      exact beq_eq_false_iff_ne.mpr fun heq => h38 (List.cons.inj heq).1
    rw [List.singleton_append]
    unfold unescapeNext
    dsimp only
    rw [show bytes "&amp;" = 38 :: bytes "amp;" from rfl,
      show bytes "&lt;" = 38 :: bytes "lt;" from rfl, show bytes "&gt;" = 38 :: bytes "gt;" from rfl,
      show bytes "&gtl" = 38 :: bytes "gtl" from rfl,
      show bytes "&quot;" = 38 :: bytes "quot;" from rfl,
      show bytes "&#x27;" = 38 :: bytes "#x27;" from rfl,
      show bytes "&#39;" = 38 :: bytes "#39;" from rfl]
    simp only [hplain, Bool.false_eq_true, if_false]

theorem scan_unescape (src : Bytes) : (Scan.scan unescapeNext (src.flatMap escapeByte)).1 = src := by
  induction src with
  | nil => rfl
  | cons c src ih =>
    rw [List.flatMap_cons, Scan.scan_some advances_unescapeNext (unescapeNext_escapeByte c _), ih]

theorem text_fbSqlEscape (h : 0 ∉ src) :
    text (fbSqlEscape src) = src.flatMap escapeByte := by
  rw [fbSqlEscape_eq]
  exact text_written _ (zero_not_mem_escape h)

/-- What is escaped is read back, without a quote or a bracket on the way; and the escaped text
fills its buffer, each offset written once. -/
theorem unescape_escape {src : Bytes} (h : 0 ∉ src) :
    text (fbSqlUnescape (text (fbSqlEscape src))) = src ∧
      (∀ c ∈ text (fbSqlEscape src), c ≠ 60 ∧ c ≠ 62 ∧ c ≠ 34 ∧ c ≠ 39) ∧
      (fbSqlEscape src).offsets = List.range (fbSqlEscape src).size := by
  rw [text_fbSqlEscape h]
  refine ⟨?_, fun d hd => ?_, ?_⟩
  · rw [fbSqlUnescape, scan_unescape]
    exact text_written _ h
  · rcases List.mem_flatMap.mp hd with ⟨c, -, hd⟩
    rcases mem_escapeByte hd with ⟨rfl, -, hplain⟩ | ⟨-, hentity⟩
    · exact hplain
    · exact hentity
  · have hsize : ∀ n, (Buffer.alloc (n + 1) : Buffer UInt8).size = n + 1 := fun _ => rfl
    rw [fbSqlEscape_eq, Buffer.offsets_put, Buffer.offsets_puts, Buffer.size_put,
      Buffer.size_puts, hsize, List.range_succ, List.range_eq_range']
    rfl

/-- A text that looks escaped already. -/
theorem unescape_escape_entity : let src := bytes "&gtl&#39;<'&quot"
    text (fbSqlUnescape (text (fbSqlEscape src))) = src ∧
      (∀ c ∈ text (fbSqlEscape src), c ≠ 60 ∧ c ≠ 62 ∧ c ≠ 34 ∧ c ≠ 39) ∧
      (fbSqlEscape src).offsets = List.range (fbSqlEscape src).size :=
  unescape_escape (by decide)

/-! ## Slugs -/

/-- `isalnum` in the C locale. -/
def isAlnum (c : UInt8) : Bool := isDigit c || isLower (toLower c)

/-- The loop over the title, as long as less than `limit` is written: the next offset, and the
buffer. -/
def slugFrom (limit : ℕ) : Bytes → ℕ → Buffer UInt8 → ℕ × Buffer UInt8
  | [], j, slug => (j, slug)
  | c :: rest, j, slug =>
    if j < limit then
      if isAlnum c then slugFrom limit rest (j + 1) (slug.put j (toLower c))
      else if c == 32 || c == 45 || c == 95 then
        if j = 0 ∨ slug.get? (j - 1) ≠ some 45 then slugFrom limit rest (j + 1) (slug.put j 45)
        else slugFrom limit rest j slug
      else slugFrom limit rest j slug
    else (j, slug)

/-- `fb_generate_slug` -/
def fbGenerateSlug (title : Bytes) : Buffer UInt8 :=
  let len := title.length
  let (j, slug) := slugFrom (len * 3) title 0 (.alloc (len * 3 + 1))
  let j := if 0 < j ∧ slug.get? (j - 1) = some 45 then j - 1 else j
  let slug := slug.put j 0
  if j = 0 then slug.puts 0 (bytes "post" ++ [0]) else slug

/-- Lower-case letters, digits and single dashes. -/
structure SlugText (s : Bytes) : Prop where
  chars : ∀ c ∈ s, isLower c = true ∨ isDigit c = true ∨ c = 45
  dashes : s.IsChain fun c d => ¬ (c = 45 ∧ d = 45)

/-- The slug of a title stays in its buffer, has the form of a slug and is its own slug. -/
def SlugOk (title : Bytes) : Prop :=
  let slug := fbGenerateSlug title
  slug.InBounds ∧ text slug ≠ [] ∧ SlugText (text slug) ∧ (text slug).getLast? ≠ some 45 ∧
    text (fbGenerateSlug (text slug)) = text slug

/-- What the loop leaves in the buffer: the text, from its beginning. -/
structure Written (size limit : ℕ) (r : ℕ × Buffer UInt8) (s : Bytes) : Prop where
  holds : r.2.Holds s
  offset : r.1 = s.length
  size : r.2.size = size
  bounds : r.2.InBounds
  le : s.length ≤ limit

section Loop

variable {size limit : ℕ} {r : ℕ × Buffer UInt8}

theorem Written.put (h : Written size limit r s) (hlimit : limit < size) (hlt : s.length < limit)
    (c : UInt8) : Written size limit (r.1 + 1, r.2.put r.1 c) (s ++ [c]) where
  holds := h.offset ▸ h.holds.put c
  offset := by rw [h.offset, List.length_append, List.length_singleton]
  size := h.size
  bounds := Buffer.inBounds_put.mpr ⟨h.bounds, by rw [h.offset, h.size]; omega⟩
  le := by rw [List.length_append, List.length_singleton]; omega

theorem Written.dash_iff (h : Written size limit r s) :
    (0 < r.1 ∧ r.2.get? (r.1 - 1) = some 45) ↔ s.getLast? = some 45 := by
  rw [h.offset]
  by_cases hne : s = []
  · rw [hne]
    exact iff_of_false (fun hlt => absurd hlt.1 (Nat.not_lt_zero _)) (fun h => nomatch h)
  · rw [h.holds.get?_last hne]
    exact and_iff_right (List.length_pos_of_ne_nil hne)

theorem Written.slugFrom (hlimit : limit < size) {rest : Bytes} (h : Written size limit r s)
    (hrest : s.length + rest.length ≤ limit) :
    Written size limit (slugFrom limit rest r.1 r.2) (s ++ slugBytes s.getLast? rest) := by
  induction rest generalizing r s with
  | nil =>
    rw [slugBytes, List.append_nil]
    exact h
  | cons c rest ih =>
    rw [List.length_cons] at hrest
    have hlt : s.length < limit := by omega
    have hput : ∀ d, Written size limit (StrUtil.slugFrom limit rest (r.1 + 1) (r.2.put r.1 d))
        (s ++ d :: slugBytes (some d) rest) := by
      intro d
      have hnext := ih (h.put hlimit hlt d) (by rw [List.length_append, List.length_singleton]; omega)
      rwa [List.getLast?_concat, List.append_assoc, List.singleton_append] at hnext
    have hskip := ih h (by omega)
    have hroom : r.1 < limit := h.offset ▸ hlt
    rw [StrUtil.slugFrom, if_pos hroom, slugBytes]
    by_cases halnum : isAlnum c = true
    · rw [if_pos halnum, if_pos (show (isDigit c || isLower (toLower c)) = true from halnum)]
      exact hput (toLower c)
    · rw [if_neg halnum, if_neg (show ¬ (isDigit c || isLower (toLower c)) = true from halnum)]
      by_cases hsep : (c == 32 || c == 45 || c == 95) = true
      · have hlast : (r.1 = 0 ∨ r.2.get? (r.1 - 1) ≠ some 45) ↔ s.getLast? ≠ some 45 := by
          rw [ne_eq, ne_eq, ← h.dash_iff, not_and_or, Nat.not_lt, Nat.le_zero]
        rw [if_pos hsep, hsep, Bool.true_and]
        by_cases hdash : s.getLast? = some 45
        · rw [if_neg fun hor => hlast.mp hor hdash, hdash]
          rw [hdash] at hskip
          exact hskip
        · rw [if_pos (hlast.mpr hdash), if_pos (bne_iff_ne.mpr hdash)]
          exact hput 45
      · rw [if_neg hsep, Bool.eq_false_iff.mpr hsep, Bool.false_and, if_neg Bool.false_ne_true]
        exact hskip

end Loop

def trimmedSlug (title : Bytes) : Bytes :=
  let slug := slugBytes none title
  if slug.getLast? = some 45 then slug.dropLast else slug

theorem generateSlug_eq (title : Bytes) : generateSlug title =
    if trimmedSlug title = [] then bytes "post" else trimmedSlug title := rfl

/-- The buffer when the terminator is written, and what is written last. -/
theorem fbGenerateSlug_eq (title : Bytes) : ∃ slug : Buffer UInt8,
    slug.Holds (trimmedSlug title ++ [0]) ∧ slug.InBounds ∧ slug.size = title.length * 3 + 1 ∧
      fbGenerateSlug title =
        if trimmedSlug title = [] then slug.puts 0 (bytes "post" ++ [0]) else slug := by
  have hstart : Written (title.length * 3 + 1) (title.length * 3)
      (0, .alloc (title.length * 3 + 1)) [] :=
    ⟨Buffer.holds_nil, rfl, rfl, Buffer.inBounds_alloc _, Nat.zero_le _⟩
  have hroom : ([] : Bytes).length + title.length ≤ title.length * 3 := by
    rw [List.length_nil]
    omega
  have h := hstart.slugFrom (Nat.lt_succ_self _) hroom
  rw [List.nil_append, List.getLast?_nil] at h
  unfold fbGenerateSlug
  dsimp only
  generalize slugFrom (title.length * 3) title 0 (.alloc (title.length * 3 + 1)) = r at h ⊢
  have hj : (if 0 < r.1 ∧ r.2.get? (r.1 - 1) = some 45 then r.1 - 1 else r.1) =
      (trimmedSlug title).length := by
    unfold trimmedSlug
    dsimp only
    by_cases hdash : (slugBytes none title).getLast? = some 45
    · rw [if_pos (h.dash_iff.mpr hdash), if_pos hdash, List.length_dropLast, h.offset]
    · rw [if_neg fun hlast => hdash (h.dash_iff.mp hlast), if_neg hdash, h.offset]
  have hholds : r.2.Holds (trimmedSlug title) := by
    unfold trimmedSlug
    dsimp only
    by_cases hdash : (slugBytes none title).getLast? = some 45
    · have hsplit := List.dropLast_append_getLast? 45 hdash
      rw [if_pos hdash]
      exact Buffer.Holds.left (hsplit ▸ h.holds)
    · rw [if_neg hdash]
      exact h.holds
  have hle : (trimmedSlug title).length ≤ title.length * 3 := by
    have hle := h.le
    unfold trimmedSlug
    dsimp only
    split
    · rw [List.length_dropLast]
      omega
    · exact hle
  rw [hj]
  refine ⟨r.2.put (trimmedSlug title).length 0, hholds.put 0, ?_, h.size, ?_⟩
  · refine Buffer.inBounds_put.mpr ⟨h.bounds, ?_⟩
    rw [h.size]
    omega
  · exact if_congr List.length_eq_zero_iff rfl rfl

/-! ### The form of a slug -/

variable {c : UInt8}

theorem isLower_toLower_of_isLower (h : isLower c = true) : toLower c = c := by
  rw [isLower, Bool.and_eq_true, decide_eq_true_eq, decide_eq_true_eq] at h
  rw [toLower, if_neg]
  intro hupper
  exact absurd (UInt8.le_trans h.1 hupper.2) (by decide)

theorem toLower_of_isDigit (h : isDigit c = true) : toLower c = c := by
  rw [isDigit, Bool.and_eq_true, decide_eq_true_eq, decide_eq_true_eq] at h
  rw [toLower, if_neg]
  intro hupper
  exact absurd (UInt8.le_trans hupper.1 h.2) (by decide)

theorem ne_of_isAlnum (h : isAlnum c = true) : toLower c ≠ 45 ∧ toLower c ≠ 0 := by
  rw [isAlnum, Bool.or_eq_true] at h
  rcases h with h | h
  · rw [toLower_of_isDigit h]
    constructor <;> · rintro rfl; exact absurd h (by decide)
  · constructor <;> · intro heq; rw [heq] at h; exact absurd h (by decide)

theorem slugText_slugBytes (last : Option UInt8) (title : Bytes) :
    SlugText (slugBytes last title) ∧
      (last = some 45 → (slugBytes last title).head? ≠ some 45) := by
  induction title generalizing last with
  | nil => exact ⟨⟨fun _ h => absurd h List.not_mem_nil, List.isChain_nil⟩, fun _ h => nomatch h⟩
  | cons c title ih =>
    have hcons : ∀ d : UInt8, (isLower d = true ∨ isDigit d = true ∨ d = 45) →
        SlugText (d :: slugBytes (some d) title) := by
      intro d hd
      obtain ⟨⟨hchars, hdashes⟩, hhead⟩ := ih (some d)
      refine ⟨List.forall_mem_cons.mpr ⟨hd, hchars⟩, ?_⟩
      rw [List.isChain_cons]
      refine ⟨fun e he hboth => ?_, hdashes⟩
      rw [hboth.2] at he
      exact hhead (by rw [hboth.1]) he
    rw [slugBytes]
    split
    · next halnum =>
      have hkept : isLower (toLower c) = true ∨ isDigit (toLower c) = true := by
        rcases (Bool.or_eq_true _ _).mp halnum with hdigit | hlower
        · exact .inr (by rw [toLower_of_isDigit hdigit]; exact hdigit)
        · exact .inl hlower
      refine ⟨hcons _ (hkept.imp_right .inl), fun _ h => ?_⟩
      exact (ne_of_isAlnum halnum).1 (Option.some.inj h)
    · split
      · next hsep =>
        refine ⟨hcons 45 (.inr (.inr rfl)), fun hlast => ?_⟩
        rw [hlast] at hsep
        simp at hsep
      · exact ih last

theorem slugBytes_eq_self (h : SlugText s) {last : Option UInt8}
    (hlast : last = some 45 → s.head? ≠ some 45) : slugBytes last s = s := by
  induction s generalizing last with
  | nil => rfl
  | cons c s ih =>
    obtain ⟨hchars, hdashes⟩ := h
    rw [List.isChain_cons] at hdashes
    have hrest : slugBytes (some c) s = s := by
      refine ih ⟨fun d hd => hchars d (List.mem_cons_of_mem _ hd), hdashes.2⟩ fun heq hhead => ?_
      exact hdashes.1 45 hhead ⟨Option.some.inj heq, rfl⟩
    rw [slugBytes]
    rcases hchars c List.mem_cons_self with hlower | hdigit | rfl
    · have hsame := isLower_toLower_of_isLower hlower
      rw [hsame, hlower, Bool.or_true, if_pos rfl, hrest]
    · rw [toLower_of_isDigit hdigit, hdigit, Bool.true_or, if_pos rfl, hrest]
    · have hne : last ≠ some 45 := fun heq => hlast heq rfl
      rw [if_neg (by decide), if_pos (by simpa using hne), hrest]

theorem slugText_trimmedSlug (title : Bytes) :
    SlugText (trimmedSlug title) ∧ (trimmedSlug title).getLast? ≠ some 45 := by
  obtain ⟨⟨hchars, hdashes⟩, -⟩ := slugText_slugBytes none title
  unfold trimmedSlug
  dsimp only
  split
  · next hlast =>
    have hsplit := List.dropLast_append_getLast? 45 hlast
    refine ⟨⟨fun c hc => hchars c (List.mem_of_mem_dropLast hc), hdashes.dropLast⟩, fun hdash => ?_⟩
    rw [← hsplit, List.isChain_append] at hdashes
    exact hdashes.2.2 45 hdash 45 rfl ⟨rfl, rfl⟩
  · next hlast => exact ⟨⟨hchars, hdashes⟩, hlast⟩

theorem slugText_generateSlug (title : Bytes) : generateSlug title ≠ [] ∧
    SlugText (generateSlug title) ∧ (generateSlug title).getLast? ≠ some 45 := by
  rw [generateSlug_eq]
  split
  · exact ⟨by decide, ⟨forall_mem_of_all (by decide), by decide⟩, by decide⟩
  · next hne => exact ⟨hne, slugText_trimmedSlug title⟩

theorem generateSlug_eq_self (h : SlugText s) (hne : s ≠ [])
    (hlast : s.getLast? ≠ some 45) : generateSlug s = s := by
  have htrimmed : trimmedSlug s = s := by
    have hself : slugBytes none s = s := slugBytes_eq_self h fun heq => nomatch heq
    unfold trimmedSlug
    dsimp only
    rw [hself, if_neg hlast]
  rw [generateSlug_eq, htrimmed, if_neg hne]

theorem SlugText.zero_not_mem (h : SlugText s) : 0 ∉ s := by
  intro hmem
  rcases h.chars 0 hmem with hlower | hdigit | hdash
  · exact absurd hlower (by decide)
  · exact absurd hdigit (by decide)
  · exact absurd hdash (by decide)

theorem text_fbGenerateSlug (title : Bytes) : text (fbGenerateSlug title) = generateSlug title := by
  obtain ⟨slug, hholds, -, -, heq⟩ := fbGenerateSlug_eq title
  rw [heq, generateSlug_eq]
  split
  · exact Buffer.upTo_of_holds (Buffer.holds_nil.puts (bytes "post" ++ [0])) (by decide)
  · exact Buffer.upTo_of_holds hholds (slugText_trimmedSlug title).1.zero_not_mem

theorem inBounds_fbGenerateSlug_iff (title : Bytes) :
    (fbGenerateSlug title).InBounds ↔ trimmedSlug title ≠ [] ∨ 2 ≤ title.length := by
  obtain ⟨slug, -, hbounds, hsize, heq⟩ := fbGenerateSlug_eq title
  rw [heq]
  split
  · next hempty =>
    rw [Buffer.inBounds_iff, Buffer.offsets_puts, Buffer.size_puts, hsize]
    constructor
    · intro h
      have hlast := h 4 (List.mem_append_right _ (by decide))
      exact .inr (by omega)
    · intro h i hi
      have hlen := h.resolve_left fun hne => hne hempty
      rcases List.mem_append.mp hi with hold | hnew
      · exact hsize ▸ Buffer.inBounds_iff.mp hbounds i hold
      · have hlt := (List.mem_range'_1.mp hnew).2
        have hpost : (bytes "post" ++ [0]).length = 5 := rfl
        omega
  · next hne => exact iff_of_true hbounds (.inl hne)

theorem trimmedSlug_singleton (c : UInt8) : trimmedSlug [c] ≠ [] ↔ isAlnum c = true := by
  unfold trimmedSlug
  dsimp only
  by_cases halnum : isAlnum c = true
  · have hslug : slugBytes none [c] = [toLower c] := if_pos halnum
    have hne : ([toLower c] : Bytes).getLast? ≠ some 45 :=
      fun h => (ne_of_isAlnum halnum).1 (Option.some.inj h)
    rw [hslug, if_neg hne]
    exact iff_of_true (List.cons_ne_nil _ _) halnum
  · -- a separator alone is a dash, which is taken off
    have hslug : slugBytes none [c] =
        if (c == 32 || c == 45 || c == 95) && (none : Option UInt8) != some 45 then [45] else [] :=
      if_neg halnum
    refine iff_of_false (not_not.mpr ?_) halnum
    rw [hslug]
    split <;> rfl

/-- Only a title of one byte that gives no slug, and the empty one, overflow the buffer: the
fallback does not fit. -/
theorem slugOk_iff (title : Bytes) :
    SlugOk title ↔ 2 ≤ title.length ∨ ∃ c, title = [c] ∧ isAlnum c = true := by
  obtain ⟨hne, hform, hlast⟩ := slugText_generateSlug title
  have hok : SlugOk title ↔ (fbGenerateSlug title).InBounds := by
    unfold SlugOk
    dsimp only
    rw [text_fbGenerateSlug, text_fbGenerateSlug, generateSlug_eq_self hform hne hlast]
    exact and_iff_left ⟨hne, hform, hlast, rfl⟩
  rw [hok, inBounds_fbGenerateSlug_iff]
  match title with
  | [] => exact iff_of_false (by decide) (by simp)
  | [c] =>
    have hshort : ¬ 2 ≤ [c].length := Nat.not_succ_le_self 1
    rw [trimmedSlug_singleton]
    constructor
    · exact fun h => .inr ⟨c, rfl, h.resolve_right hshort⟩
    · rintro (hlen | ⟨d, heq, hd⟩)
      · exact absurd hlen hshort
      · rw [(List.cons.inj heq).1]
        exact .inl hd
  | c :: d :: rest =>
    have hlen : 2 ≤ (c :: d :: rest).length := by
      rw [List.length_cons, List.length_cons]
      omega
    exact iff_of_true (.inr hlen) (.inl hlen)

/-- The empty title gets a buffer of one byte, and five are written. -/
theorem slug_of_empty_title_overflows : ¬ SlugOk [] ∧ (fbGenerateSlug []).size = 1 ∧
    (4, 0) ∈ (fbGenerateSlug []).writes := by
  refine ⟨fun h => ?_, rfl, by decide⟩
  exact absurd h.1 (by decide)

/-! ## Cutting a text short -/

section Truncate

open Json (Utf8 ValidUtf8)

def isContinuation (c : UInt8) : Bool := c &&& 0xC0 == 0x80

/-- The loop of `fb_utf8_truncate_len`. -/
def backUp (s : Bytes) : ℕ → ℕ
  | 0 => 0
  | i + 1 => if (s[i + 1]?).any isContinuation then backUp s i else i + 1

/-- `fb_utf8_truncate_len` -/
def fbUtf8TruncateLen (s : Bytes) (maxBytes : ℕ) : ℕ :=
  if s.length ≤ maxBytes then s.length else backUp s maxBytes

variable {s : Bytes} {k m : ℕ}

theorem isContinuation_iff (c : UInt8) : isContinuation c = true ↔ 128 ≤ c ∧ c ≤ 191 := by
  revert c
  refine forall_byte ?_
  decide +kernel

theorem first_eq_none (c : UInt8) (hc : isContinuation c = true) : Utf8.first c = none := by
  revert c
  refine forall_byte ?_
  decide +kernel

/-- A cut leaves whole characters just where the next byte begins one. -/
theorem validUtf8_take_iff (hs : ValidUtf8 s) (k : ℕ) :
    ValidUtf8 (s.take k) ↔ (s[k]?).any isContinuation = false := by
  rcases Nat.lt_or_ge k s.length with hk | hk
  · have hsplit : s = s.take k ++ s[k] :: s.drop (k + 1) := by
      rw [List.cons_getElem_drop_succ, List.take_append_drop]
    have hnext : s[k]? = some s[k] := List.getElem?_eq_getElem hk
    rw [ValidUtf8, hsplit, Utf8.after_append] at hs
    obtain ⟨u, hu, hrest⟩ := Option.bind_eq_some_iff.mp hs
    obtain ⟨v, hv, -⟩ := Option.bind_eq_some_iff.mp hrest
    have hsound := Utf8.sound_start.after hu
    rw [hnext, Option.any_some]
    unfold Utf8.next at hv
    constructor
    · intro hvalid
      have hstart : u = Utf8.start := Option.some.inj (hu.symm.trans hvalid)
      refine Bool.eq_false_iff.mpr fun hcont => ?_
      have howed : u.owed = 0 := by rw [hstart]; rfl
      rw [if_pos howed, first_eq_none _ hcont] at hv
      cases hv
    · intro hnot
      split at hv
      next howed => rw [ValidUtf8, hu, hsound.rest howed]
      next howed =>
        split at hv
        next hc =>
          have hcont := (isContinuation_iff s[k]).mpr
            ⟨UInt8.le_trans hsound.low hc.1, UInt8.le_trans hc.2 hsound.high⟩
          exact absurd hcont (Bool.eq_false_iff.mp hnot)
        next => cases hv
  · rw [List.take_of_length_le hk, List.getElem?_eq_none hk]
    exact ⟨fun _ => rfl, fun _ => hs⟩

theorem backUp_spec (s : Bytes) (m : ℕ) :
    backUp s m ≤ m ∧ ((s[backUp s m]?).any isContinuation = false ∨ backUp s m = 0) ∧
      ∀ k, backUp s m < k → k ≤ m → (s[k]?).any isContinuation = true := by
  induction m with
  | zero => exact ⟨le_rfl, .inr rfl, fun k hlt hle => absurd hle (Nat.not_le.mpr hlt)⟩
  | succ m ih =>
    obtain ⟨hle, hstop, hskip⟩ := ih
    rw [backUp]
    split
    next hcont =>
      refine ⟨Nat.le_succ_of_le hle, hstop, fun k hlt hk => ?_⟩
      rcases Nat.le_or_eq_of_le_succ hk with hk | rfl
      · exact hskip k hlt hk
      · exact hcont
    next hnot =>
      exact ⟨le_rfl, .inl (Bool.eq_false_iff.mpr hnot),
        fun k hlt hk => absurd hk (Nat.not_le.mpr hlt)⟩

/-- A text is cut behind a whole character, and as late as the limit lets it. -/
theorem truncated_longest (hs : ValidUtf8 s) (m : ℕ) :
    ValidUtf8 (s.take (fbUtf8TruncateLen s m)) ∧ fbUtf8TruncateLen s m ≤ m ∧
      ∀ k ≤ m, k ≤ s.length → ValidUtf8 (s.take k) → k ≤ fbUtf8TruncateLen s m := by
  rw [fbUtf8TruncateLen]
  split
  next hle => exact ⟨by rwa [List.take_length], hle, fun k _ hk _ => hk⟩
  next hgt =>
    obtain ⟨hle, hstop, hskip⟩ := backUp_spec s m
    refine ⟨?_, hle, fun k hk _ hvalid => ?_⟩
    · rcases hstop with hstop | hzero
      · exact (validUtf8_take_iff hs _).mpr hstop
      · rw [hzero]
        rfl
    · by_contra hlater
      have hcont := hskip k (Nat.lt_of_not_le hlater) hk
      rw [(validUtf8_take_iff hs k).mp hvalid] at hcont
      exact Bool.false_ne_true hcont

def cafe : Bytes := bytes "caf" ++ [195, 169]

theorem truncated_cafe : ValidUtf8 (cafe.take (fbUtf8TruncateLen cafe 4)) ∧
    fbUtf8TruncateLen cafe 4 ≤ 4 ∧
      ∀ k ≤ 4, k ≤ cafe.length → ValidUtf8 (cafe.take k) → k ≤ fbUtf8TruncateLen cafe 4 :=
  truncated_longest (by decide +kernel) 4

end Truncate

end FlyBoard.StrUtil

import FlyBoard.Lib.Html

/-!
# Raw media tags (`src/render/render_md.c`)

`protect_math` takes raw `<video>`, `<audio>` and `<iframe>` tags out of the
markdown source and puts back what `sanitize_media_tag` and `sanitize_iframe_tag`
rebuild from them. Both walk the attributes by hand and write the ones on their
list again, in double quotes.
-/

namespace FlyBoard.Render

open Bytes Scan Html

/-- A piece of a C string: no NUL inside. -/
structure Snippet where
  text : Bytes
  noNul : 0 ∉ text

/-! ## The attribute walk -/

/-- The white space of the hand-written scanners. -/
def isSpace4 (c : UInt8) : Bool := c == 32 || c == 9 || c == 10 || c == 13

def isRawNameByte (c : UInt8) : Bool := !(c == 61 || c == 62 || isSpace4 c || c == 47)

def isRawBareByte (c : UInt8) : Bool := !(c == 62 || isSpace4 c)

structure RawAttr where
  name : Bytes
  value : Option Bytes
deriving DecidableEq

/-- The value behind a name: in double or single quotes, or bare. -/
def scanValue (p : Bytes) : Option Bytes × Bytes :=
  if p.head? = some 61 then
    match (p.drop 1).dropWhile isSpace4 with
    | [] => (some [], [])
    | q :: r =>
      if q == 34 || q == 39 then
        (some (r.takeWhile (· != q)), (r.dropWhile (· != q)).drop 1)
      else (some ((q :: r).takeWhile isRawBareByte), (q :: r).dropWhile isRawBareByte)
  else (none, p)

/-- One round of the `while (i < len && snippet[i] != '>')` loop that both
sanitizers share. A round that stands on a stray `=` steps over it. -/
def scanAttr (s : Bytes) : Option (Option RawAttr × Bytes) :=
  match s.dropWhile fun c => isSpace4 c || c == 47 with
  | [] => none
  | c :: p =>
    if c == 62 then none
    else
      let name := (c :: p).takeWhile isRawNameByte
      if name.isEmpty then some (none, p)
      else
        let (value, rest) :=
          scanValue (((c :: p).dropWhile isRawNameByte).dropWhile isSpace4)
        some (some ⟨name, value⟩, rest)

/-- The attributes of a snippet whose tag name is `skip - 1` bytes long. -/
def rawAttrs (snippet : Bytes) (skip : Nat) : List RawAttr :=
  (scan scanAttr (snippet.drop skip)).1.filterMap id

/-- Quotes of a value become `&quot;`. -/
def escapeQuotes (v : Bytes) : Bytes := v.flatMap fun c => if c == 34 then bytes "&quot;" else [c]

def RawAttr.written (a : RawAttr) : Written := ⟨a.name, a.value.map escapeQuotes⟩

/-! ## `<video>` and `<audio>` -/

/-- The tags `sanitize_media_tag` is called for. -/
inductive MediaTag where
  | video
  | audio
deriving DecidableEq

/-- `tag_name`. -/
def MediaTag.name : MediaTag → Bytes
  | .video => bytes "video"
  | .audio => bytes "audio"

/-- The table of `media_attr_allowed`. -/
def mediaAllowed : List Bytes :=
  ["src", "poster", "controls", "autoplay", "loop", "muted", "playsinline", "preload", "width",
    "height", "style", "class", "id", "title", "crossorigin", "color", "face", "size"].map bytes

/-- `media_attr_allowed`. -/
def mediaAttrAllowed (name : Bytes) : Bool :=
  startsWithCI name (bytes "data-") || mediaAllowed.any (eqCI name)

/-- `sanitize_media_tag`. -/
def sanitizeMediaTag (snippet : Bytes) (tag : MediaTag) : Bytes :=
  let kept := (rawAttrs snippet (tag.name.length + 1)).filter fun a => mediaAttrAllowed a.name
  bytes "<" ++ tag.name ++ kept.flatMap (·.written.render) ++
    bytes "></" ++ tag.name ++ bytes ">"

/-! ## `<iframe>` -/

/-- `is_youtube_embed_src`. -/
def isYoutubeEmbedSrc (src : Bytes) : Bool :=
  ["https://www.youtube.com/embed/", "http://www.youtube.com/embed/",
    "https://youtube.com/embed/", "http://youtube.com/embed/",
    "https://www.youtube-nocookie.com/embed/", "http://www.youtube-nocookie.com/embed/"].any
    fun p => startsWithCI src (bytes p)

/-- The table of `iframe_attr_allowed`. -/
def iframeAllowed : List Bytes :=
  ["width", "height", "title", "frameborder", "allowfullscreen", "allow", "loading", "class", "id",
    "style", "referrerpolicy"].map bytes

/-- `iframe_attr_allowed`. -/
def iframeAttrAllowed (name : Bytes) : Bool := iframeAllowed.any (eqCI name)

/-- What the loop of `sanitize_iframe_tag` has gathered: `src_val` and `attrs`. -/
structure IframeScan where
  src : Option Bytes
  attrs : Bytes

/-- The body of the loop of `sanitize_iframe_tag`, for one attribute. -/
def iframeStep (st : IframeScan) (a : RawAttr) : IframeScan :=
  if eqCI a.name (bytes "src") then
    match a.value with
    | some v => if isYoutubeEmbedSrc v then { st with src := some v } else st
    | none => st
  else if eqCI a.name (bytes "sandbox") then st
  else if startsWithCI a.name (bytes "on") then st
  else if eqCI a.name (bytes "srcdoc") then st
  else if !iframeAttrAllowed a.name then st
  else { st with attrs := st.attrs ++ a.written.render }

def sandboxValue : Bytes := bytes "allow-scripts allow-same-origin allow-presentation"

/-- The value that is written for `src`: a plain `http` URL is rewritten, and its
rest is copied as it stands. -/
def srcText (v : Bytes) : Bytes :=
  if startsWithCI v (bytes "http://") then bytes "https://" ++ v.drop 7 else escapeQuotes v

/-- `sanitize_iframe_tag`; `attrs->data` is appended as a C string. -/
def sanitizeIframeTag (snippet : Bytes) : Option Bytes :=
  let st := (rawAttrs snippet 7).foldl iframeStep ⟨none, []⟩
  st.src.map fun v =>
    bytes "<iframe src=\"" ++ srcText v ++ bytes "\"" ++ cstr st.attrs ++
      bytes " sandbox=\"allow-scripts allow-same-origin allow-presentation\"" ++
      bytes "></iframe>"

/-! ## What the walk yields -/

theorem scanValue_length_le (p : Bytes) : (scanValue p).2.length ≤ p.length := by
  unfold scanValue
  split
  · have hws : ((p.drop 1).dropWhile isSpace4).length ≤ p.length :=
      (List.length_dropWhile_le _ _).trans (by simp)
    split
    · simp
    · rename_i q r hq
      rw [hq, List.length_cons] at hws
      split
      · have hr : (r.dropWhile (· != q)).length ≤ r.length := List.length_dropWhile_le _ _
        simp only [List.length_drop]
        omega
      · have hr : ((q :: r).dropWhile isRawBareByte).length ≤ (q :: r).length :=
          List.length_dropWhile_le _ _
        simp only [List.length_cons] at hr ⊢
        omega
  · exact le_refl _

theorem scanAttr_cases {s rest : Bytes} {x : Option RawAttr}
    (h : scanAttr s = some (x, rest)) :
    ∃ g c p, s = g ++ c :: p ∧ ((x = none ∧ rest = p) ∨
      (isRawNameByte c = true ∧
        x = some ⟨c :: p.takeWhile isRawNameByte,
          (scanValue ((p.dropWhile isRawNameByte).dropWhile isSpace4)).1⟩ ∧
        rest = (scanValue ((p.dropWhile isRawNameByte).dropWhile isSpace4)).2)) := by
  unfold scanAttr at h
  split at h
  · simp at h
  · rename_i c p hp
    refine ⟨s.takeWhile fun c => isSpace4 c || c == 47, c, p, ?_, ?_⟩
    · rw [← hp, List.takeWhile_append_dropWhile]
    · split at h
      · simp at h
      · by_cases hc : isRawNameByte c = true
        · -- a name is there, with or without a value
          right
          simp only [List.takeWhile_cons_of_pos hc, List.dropWhile_cons_of_pos hc,
            List.isEmpty_cons, Bool.false_eq_true, if_false] at h
          rcases Prod.mk.inj (Option.some.inj h) with ⟨hx, hr⟩
          exact ⟨hc, hx.symm, hr.symm⟩
        · -- a stray `=`: the source steps over it without an attribute
          left
          simp only [List.takeWhile_cons_of_neg hc, List.isEmpty_nil, if_true] at h
          rcases Prod.mk.inj (Option.some.inj h) with ⟨hx, hr⟩
          exact ⟨hx.symm, hr.symm⟩

theorem scanAttr_advances : Advances scanAttr := by
  intro s x rest h
  rcases scanAttr_cases h with ⟨g, c, p, rfl, hcase⟩
  have hlen : (g ++ c :: p).length = g.length + p.length + 1 := by
    simp only [List.length_append, List.length_cons]
    omega
  rcases hcase with ⟨-, rfl⟩ | ⟨-, -, rfl⟩
  · omega
  · have h1 := scanValue_length_le ((p.dropWhile isRawNameByte).dropWhile isSpace4)
    have h2 : ((p.dropWhile isRawNameByte).dropWhile isSpace4).length ≤ p.length :=
      (List.length_dropWhile_le _ _).trans (List.length_dropWhile_le _ _)
    omega

/-- A name of the walk: not empty, and without a byte that ends a name there. -/
def RawAttr.NameOk (a : RawAttr) : Prop := a.name ≠ [] ∧ ∀ c ∈ a.name, isRawNameByte c = true

variable {a : RawAttr} {snippet : Bytes}

theorem nameOk_of_mem_rawAttrs {skip : Nat} (h : a ∈ rawAttrs snippet skip) : a.NameOk := by
  rcases List.mem_filterMap.mp h with ⟨x, hx, hxa⟩
  refine scan_forall (p := fun x => ∀ a, x = some a → RawAttr.NameOk a) scanAttr_advances ?_ _ x hx
    a hxa
  intro s x rest hs a hxa
  rcases scanAttr_cases hs with ⟨g, c, p, -, hcase⟩
  rcases hcase with ⟨rfl, -⟩ | ⟨hc, hx, -⟩
  · simp at hxa
  · rcases Option.some.inj (hx.symm.trans hxa) with rfl
    refine ⟨by simp, ?_⟩
    intro b hb
    rcases List.mem_cons.mp hb with rfl | hb
    · exact hc
    · exact List.mem_takeWhile_imp hb

theorem mem_of_scanValue {p : Bytes} {c : UInt8} :
    (∀ v, (scanValue p).1 = some v → c ∈ v → c ∈ p) ∧ (c ∈ (scanValue p).2 → c ∈ p) := by
  have hdrop : ∀ (f : UInt8 → Bool) (q : Bytes), c ∈ q.dropWhile f → c ∈ q :=
    fun f q h => (List.dropWhile_sublist f).mem h
  have htake : ∀ (f : UInt8 → Bool) (q : Bytes), c ∈ q.takeWhile f → c ∈ q :=
    fun f q h => (List.takeWhile_sublist f).mem h
  unfold scanValue
  split
  · split
    · simp
    · rename_i q r hq
      have hsub : ∀ d, d ∈ q :: r → d ∈ p := by
        intro d hd
        rw [← hq] at hd
        exact List.mem_of_mem_drop ((List.dropWhile_sublist _).mem hd)
      split
      · constructor
        · rintro v ⟨⟩ hv
          exact hsub c (List.mem_cons_of_mem _ (htake _ _ hv))
        · intro h
          exact hsub c (List.mem_cons_of_mem _ (hdrop _ _ (List.mem_of_mem_drop h)))
      · constructor
        · rintro v ⟨⟩ hv
          exact hsub c (htake _ _ hv)
        · intro h
          exact hsub c (hdrop _ _ h)
  · simp

theorem noNul_of_mem_scan {s : Bytes} (hs : 0 ∉ s) :
    ∀ x ∈ (scan scanAttr s).1, ∀ a, x = some a → 0 ∉ a.name ∧ ∀ v, a.value = some v → 0 ∉ v := by
  induction s using scan_induction scanAttr_advances with
  | done s h => simp [scan_none h]
  | item s y rest h ih =>
    rcases scanAttr_cases h with ⟨g, c, p, rfl, hcase⟩
    have hp : 0 ∉ c :: p := fun hm => hs (List.mem_append_right _ hm)
    have hp' : 0 ∉ p := fun hm => hp (List.mem_cons_of_mem _ hm)
    have hrest' : 0 ∉ (p.dropWhile isRawNameByte).dropWhile isSpace4 := fun hm =>
      hp' ((List.dropWhile_sublist _).mem ((List.dropWhile_sublist _).mem hm))
    rw [scan_some scanAttr_advances h]
    intro x hx a hxa
    rcases hcase with ⟨rfl, rfl⟩ | ⟨-, rfl, rfl⟩
    · rcases List.mem_cons.mp hx with rfl | hx
      · simp at hxa
      · exact ih hp' x hx a hxa
    · rcases List.mem_cons.mp hx with rfl | hx
      · rcases Option.some.inj hxa with rfl
        refine ⟨?_, fun v hv hm => hrest' (mem_of_scanValue.1 v hv hm)⟩
        intro hm
        rcases List.mem_cons.mp hm with rfl | hm
        · exact hp (List.mem_cons_self ..)
        · exact hp' ((List.takeWhile_sublist _).mem hm)
      · exact ih (fun hm => hrest' (mem_of_scanValue.2 hm)) x hx a hxa

/-! ## What the lists let through -/

theorem not_mem_escapeQuotes (v : Bytes) : 34 ∉ escapeQuotes v := by
  intro h
  rcases List.mem_flatMap.mp h with ⟨c, -, hc⟩
  split at hc
  · exact absurd hc (by decide)
  · rename_i hne
    simp only [List.mem_singleton] at hc
    simp [← hc] at hne

theorem escapeQuotes_append (u v : Bytes) : escapeQuotes (u ++ v) = escapeQuotes u ++ escapeQuotes v :=
  List.flatMap_append

variable {v : Bytes}

theorem escapeQuotes_of_not_mem (hv : 34 ∉ v) : escapeQuotes v = v := by
  induction v with
  | nil => rfl
  | cons c v ih =>
    have hc : (c == 34) = false := by
      simp only [beq_eq_false_iff_ne, ne_eq]
      rintro rfl
      exact hv (List.mem_cons_self ..)
    have ih' := ih fun h => hv (List.mem_cons_of_mem _ h)
    rw [escapeQuotes] at ih' ⊢
    rw [List.flatMap_cons, ih', hc]
    rfl

theorem written_ok (ha : a.NameOk) (hw : words a.name ≠ []) : a.written.Ok where
  name := by
    intro c hc
    have hraw := ha.2 c hc
    simp only [isRawNameByte, Bool.not_eq_true', Bool.or_eq_false_iff] at hraw
    by_cases hws : isWs c = true
    · exact Or.inr hws
    · refine Or.inl (isNameByte_iff.mpr ⟨?_, ?_, ?_⟩)
      · simp [isGap, hws, hraw.2]
      · simpa using hraw.1.1.2
      · simpa using hraw.1.1.1
  words := hw
  value := by
    intro v hv
    rcases Option.map_eq_some_iff.mp hv with ⟨u, -, rfl⟩
    exact not_mem_escapeQuotes u

/-- The names of a table of words: white space never occurs in them, nor do they
begin like an event handler. -/
theorem of_any_eqCI {table : List Bytes} {name : Bytes} (h : table.any (eqCI name) = true)
    (hws : ∀ w ∈ table, w ≠ [] ∧ w.all (fun c => decide (isWs c = false)) = true)
    (hon : ∀ w ∈ table, startsWithCI w (bytes "on") = false) :
    words name = [name] ∧ startsWithCI name (bytes "on") = false := by
  rcases List.any_eq_true.mp h with ⟨w, hw, heq⟩
  constructor
  · refine words_of_forall (isWs_of_eqCI heq (forall_mem_of_all (hws w hw).2)) ?_
    rintro rfl
    have hnil : w = [] := by simpa using (eqCI_iff.mp heq).symm
    exact (hws w hw).1 hnil
  · rw [startsWithCI_congr heq]
    exact hon w hw

theorem mediaAllowed_words {name : Bytes} (h : mediaAllowed.any (eqCI name) = true) :
    words name = [name] ∧ startsWithCI name (bytes "on") = false :=
  of_any_eqCI h (by decide) (by decide)

theorem iframeAllowed_words {name : Bytes} (h : iframeAttrAllowed name = true) :
    words name = [name] ∧ startsWithCI name (bytes "on") = false :=
  of_any_eqCI h (by decide) (by decide)

theorem not_on_of_mediaAttrAllowed {name : Bytes} (h : mediaAttrAllowed name = true) :
    startsWithCI name (bytes "on") = false := by
  rcases Bool.or_eq_true_iff.mp h with hdata | htable
  · rw [startsWithCI_of_le hdata (by decide)]
    decide
  · exact (mediaAllowed_words htable).2

theorem words_ne_nil_of_mediaAttrAllowed {name : Bytes} (h : mediaAttrAllowed name = true) :
    words name ≠ [] := by
  rcases Bool.or_eq_true_iff.mp h with hdata | htable
  · rcases startsWithCI_iff.mp hdata with ⟨u, t, rfl, hu⟩
    have hws := isWs_of_eqCI hu (forall_mem_of_all (by decide))
    intro hnil
    cases u with
    | nil => exact absurd hu (by decide)
    | cons c u =>
      have hc : isWs c = true := words_eq_nil.mp hnil c (by simp)
      rw [hws c (List.mem_cons_self ..)] at hc
      simp at hc
  · rw [(mediaAllowed_words htable).1]
    simp

variable {ws : List Bytes}

theorem name_of_mem_wordAttrs {a : Attr} (h : a ∈ wordAttrs ws v) :
    a.name ∈ ws := by
  induction ws with
  | nil => simp [wordAttrs] at h
  | cons w ws ih =>
    cases ws with
    | nil =>
      simp only [wordAttrs, List.mem_singleton] at h
      simp [h]
    | cons w' ws =>
      simp only [wordAttrs] at h
      rcases List.mem_cons.mp h with rfl | h
      · simp
      · exact List.mem_cons_of_mem _ (ih h)

theorem exists_mem_wordAttrs (v : Bytes) {w : Bytes} (h : w ∈ ws) :
    ∃ a ∈ wordAttrs ws v, a.name = w := by
  induction ws with
  | nil => simp at h
  | cons w' ws ih =>
    cases ws with
    | nil => exact ⟨⟨w', v⟩, by simp [wordAttrs], (List.mem_singleton.mp h).symm⟩
    | cons w'' ws =>
      rcases List.mem_cons.mp h with rfl | h
      · exact ⟨⟨w, []⟩, by simp [wordAttrs], rfl⟩
      · rcases ih h with ⟨a, ha, hw⟩
        exact ⟨a, by simp only [wordAttrs]; exact List.mem_cons_of_mem _ ha, hw⟩

/-! ## `<video>` and `<audio>`, read back -/

def MediaSafe (tag : MediaTag) (out : Bytes) : Prop :=
  ∃ attrs, readTag out = some (⟨tag.name, attrs⟩, bytes "</" ++ tag.name ++ bytes ">") ∧
    ∀ a ∈ attrs, mediaAttrAllowed a.name = true ∧ startsWithCI a.name (bytes "on") = false

/-- Every word of a `data-` name of the snippet is a name on the list. The form
feed is the only white space that such a name can hold. -/
def DataNamesHarmless (snippet : Bytes) (tag : MediaTag) : Prop :=
  ∀ a ∈ rawAttrs snippet (tag.name.length + 1), startsWithCI a.name (bytes "data-") = true →
    ∀ w ∈ words a.name, mediaAttrAllowed w = true

theorem readTag_tagName (tag : MediaTag) {rest : Bytes} (hrest : Stops isTagByte rest) :
    readTag (bytes "<" ++ tag.name ++ rest) =
      (readAttrs rest).map fun r => (⟨tag.name, r.1⟩, r.2) := by
  cases tag with
  | video =>
    exact readTag_name (c := 118) (t := bytes "ideo") (by decide)
      (forall_mem_of_all (by decide)) hrest
  | audio =>
    exact readTag_name (c := 97) (t := bytes "udio") (by decide)
      (forall_mem_of_all (by decide)) hrest

/-- The attributes that survive `sanitize_media_tag`. -/
def keptMedia (snippet : Bytes) (tag : MediaTag) : List RawAttr :=
  (rawAttrs snippet (tag.name.length + 1)).filter fun a => mediaAttrAllowed a.name

theorem readTag_sanitizeMediaTag (snippet : Bytes) (tag : MediaTag) :
    readTag (sanitizeMediaTag snippet tag) =
      some (⟨tag.name, (keptMedia snippet tag).flatMap (·.written.attrs)⟩,
        bytes "</" ++ tag.name ++ bytes ">") := by
  have hkept : ∀ a ∈ (keptMedia snippet tag).map RawAttr.written, a.Ok := by
    intro w hw
    rcases List.mem_map.mp hw with ⟨a, ha, rfl⟩
    rcases List.mem_filter.mp ha with ⟨hraw, hallowed⟩
    exact written_ok (nameOk_of_mem_rawAttrs hraw) (words_ne_nil_of_mediaAttrAllowed hallowed)
  have hread := (readAttrs_written hkept (ends_gt (bytes "</" ++ tag.name ++ bytes ">"))).2
  have hout : sanitizeMediaTag snippet tag = bytes "<" ++ tag.name ++
      (((keptMedia snippet tag).map RawAttr.written).flatMap Written.render ++
        62 :: (bytes "</" ++ tag.name ++ bytes ">")) := by
    have hgt : bytes "></" = 62 :: bytes "</" := by decide
    simp [sanitizeMediaTag, keptMedia, List.flatMap_map, hgt]
  rw [hout, readTag_tagName tag (stops_written _ _), hread]
  simp [List.flatMap_map]

theorem mediaSafe_iff (snippet : Bytes) (tag : MediaTag) :
    MediaSafe tag (sanitizeMediaTag snippet tag) ↔ DataNamesHarmless snippet tag := by
  unfold MediaSafe
  rw [readTag_sanitizeMediaTag]
  constructor
  · -- every word of a kept name is an attribute of the tag that is read back
    rintro ⟨attrs, heq, hall⟩ a ha hdata w hw
    obtain ⟨rfl, -⟩ : (keptMedia snippet tag).flatMap (·.written.attrs) = attrs ∧ True := by
      simpa using heq
    rcases exists_mem_wordAttrs (a.written.value.getD []) hw with ⟨b, hb, rfl⟩
    have hallowed : mediaAttrAllowed a.name = true := by simp [mediaAttrAllowed, hdata]
    exact (hall b (List.mem_flatMap.mpr ⟨a, List.mem_filter.mpr ⟨ha, hallowed⟩, hb⟩)).1
  · -- a name from the table is one word, so only `data-` names need the condition
    intro h
    refine ⟨_, rfl, ?_⟩
    intro b hb
    rcases List.mem_flatMap.mp hb with ⟨a, ha, hba⟩
    rcases List.mem_filter.mp ha with ⟨hraw, hallowed⟩
    have hw : b.name ∈ words a.name := name_of_mem_wordAttrs hba
    have hb' : mediaAttrAllowed b.name = true := by
      rcases Bool.or_eq_true_iff.mp hallowed with hdata | htable
      · exact h a hraw hdata _ hw
      · rw [(mediaAllowed_words htable).1, List.mem_singleton] at hw
        rw [hw]
        exact hallowed
    exact ⟨hb', not_on_of_mediaAttrAllowed hb'⟩

/-! ## `<iframe>`, read back -/

def iframeName (name : Bytes) : Bool :=
  eqCI name (bytes "src") || eqCI name (bytes "sandbox") || iframeAttrAllowed name

def isHttpsEmbed (v : Bytes) : Bool :=
  ["https://www.youtube.com/embed/", "https://youtube.com/embed/",
    "https://www.youtube-nocookie.com/embed/"].any fun p => startsWithCI v (bytes p)

def IframeNames (attrs : List Attr) : Prop :=
  ∀ a ∈ attrs, iframeName a.name = true ∧ startsWithCI a.name (bytes "on") = false

/-- One element with names on the list only, an embed URL over https and the
injected sandbox in force. -/
def IframeSafe (out : Bytes) : Prop :=
  ∃ attrs, readTag out = some (⟨bytes "iframe", attrs⟩, bytes "</iframe>") ∧ IframeNames attrs ∧
    (∃ v, valueOf attrs (bytes "src") = some v ∧ isHttpsEmbed v = true) ∧
    valueOf attrs (bytes "sandbox") = some sandboxValue

/-- The attributes that `sanitize_iframe_tag` copies. -/
def iframeKeeps (a : RawAttr) : Bool :=
  !eqCI a.name (bytes "src") && !eqCI a.name (bytes "sandbox") &&
    !startsWithCI a.name (bytes "on") && !eqCI a.name (bytes "srcdoc") && iframeAttrAllowed a.name

/-- The URL of an attribute, when it is a `src` with an embed URL. -/
def embedSrc (a : RawAttr) : Option Bytes :=
  if eqCI a.name (bytes "src") then a.value.filter isYoutubeEmbedSrc else none

theorem foldl_iframeStep (as : List RawAttr) (st : IframeScan) :
    as.foldl iframeStep st =
      ⟨((as.filterMap embedSrc).getLast?).or st.src,
        st.attrs ++ (as.filter iframeKeeps).flatMap (·.written.render)⟩ := by
  induction as generalizing st with
  | nil => simp
  | cons a as ih =>
    rw [List.foldl_cons, ih]
    by_cases hsrc : eqCI a.name (bytes "src") = true
    · -- a `src` is never copied; an embed URL replaces the one before it
      have hkeep : iframeKeeps a = false := by simp [iframeKeeps, hsrc]
      cases hv : a.value with
      | none => simp [iframeStep, embedSrc, hsrc, hv, hkeep]
      | some v =>
        by_cases hyt : isYoutubeEmbedSrc v = true
        · have hlast : ∀ l : List Bytes, (l.getLast?).or (some v) = ((v :: l).getLast?).or st.src := by
            intro l
            cases hl : l.getLast? <;> simp [List.getLast?_cons, hl]
          have hembed : embedSrc a = some v := by simp [embedSrc, hsrc, hv, Option.filter, hyt]
          have hstep : iframeStep st a = { st with src := some v } := by
            simp [iframeStep, hsrc, hv, hyt]
          rw [hstep, List.filterMap_cons_some hembed, ← hlast,
            List.filter_cons_of_neg (by simp [hkeep])]
        · simp [iframeStep, embedSrc, hsrc, hv, hyt, hkeep]
    · -- the chain of tests that an attribute has to pass is `iframeKeeps`
      have hembed : embedSrc a = none := by simp [embedSrc, hsrc]
      have hstep : iframeStep st a =
          if iframeKeeps a then { st with attrs := st.attrs ++ a.written.render } else st := by
        unfold iframeStep iframeKeeps
        simp only [hsrc]
        cases eqCI a.name (bytes "sandbox") <;> cases startsWithCI a.name (bytes "on") <;>
          cases eqCI a.name (bytes "srcdoc") <;> cases iframeAttrAllowed a.name <;> rfl
      rw [hstep]
      by_cases hkeep : iframeKeeps a = true
      · simp [hembed, hkeep]
      · simp [hembed, hkeep]

/-- The URL that `sanitize_iframe_tag` ends up with: the last embed URL wins. -/
def chosenSrc (snippet : Bytes) : Option Bytes :=
  ((rawAttrs snippet 7).filterMap embedSrc).getLast?

/-- The attributes that follow the `src` of the rebuilt iframe. -/
def iframeWritten (snippet : Bytes) : List Written :=
  ((rawAttrs snippet 7).filter iframeKeeps).map (·.written) ++ [⟨bytes "sandbox", some sandboxValue⟩]

/-- The text that follows the quote at the end of the `src`. -/
def iframeTail (snippet : Bytes) : Bytes :=
  (iframeWritten snippet).flatMap Written.render ++ 62 :: bytes "</iframe>"

theorem noNul_kept (s : Snippet) :
    0 ∉ ((rawAttrs s.text 7).filter iframeKeeps).flatMap (·.written.render) := by
  intro h
  rcases List.mem_flatMap.mp h with ⟨a, ha, hmem⟩
  rcases List.mem_filterMap.mp (List.mem_filter.mp ha).1 with ⟨x, hx, hxa⟩
  obtain ⟨hname, hvalue⟩ := noNul_of_mem_scan (fun hm => s.noNul (List.mem_of_mem_drop hm)) x hx a hxa
  rw [Written.render, RawAttr.written] at hmem
  rcases List.mem_cons.mp hmem with h32 | hmem
  · simp at h32
  rcases List.mem_append.mp hmem with hm | hm
  · exact hname hm
  · cases hv : a.value with
    | none => simp [hv, renderValue] at hm
    | some v =>
      have hesc : 0 ∈ escapeQuotes v := by simpa [hv, renderValue] using hm
      rcases List.mem_flatMap.mp hesc with ⟨c, hc, h0⟩
      split at h0
      · exact absurd h0 (by decide)
      · rcases List.mem_singleton.mp h0 with rfl
        exact hvalue v hv hc

theorem sanitizeIframeTag_eq (s : Snippet) :
    sanitizeIframeTag s.text = (chosenSrc s.text).map fun v =>
      bytes "<iframe" ++ (bytes " src=\"" ++ (srcText v ++ 34 :: iframeTail s.text)) := by
  have hnul : ∀ b : Bytes, 0 ∉ b → cstr b = b := by
    intro b hb
    exact List.takeWhile_eq_self_iff.mpr (bne_of_not_mem hb)
  have hsandbox : bytes " sandbox=\"allow-scripts allow-same-origin allow-presentation\"" =
      Written.render ⟨bytes "sandbox", some sandboxValue⟩ := by decide
  have hopen : bytes "<iframe src=\"" = bytes "<iframe" ++ bytes " src=\"" := by decide
  have hquote : bytes "\"" = [34] := by decide
  have hclose : bytes "></iframe>" = 62 :: bytes "</iframe>" := by decide
  rw [sanitizeIframeTag, foldl_iframeStep]
  simp only [List.nil_append, hnul _ (noNul_kept s), Option.or_none]
  rw [chosenSrc]
  congr 1
  funext v
  rw [hsandbox, hopen, hquote, hclose, iframeTail, iframeWritten]
  simp [List.flatMap_map]

theorem iframeKeeps_name (h : iframeKeeps a = true) :
    iframeAttrAllowed a.name = true ∧ eqCI a.name (bytes "sandbox") = false := by
  simp only [iframeKeeps, Bool.and_eq_true, Bool.not_eq_true'] at h
  exact ⟨h.2, h.1.1.1.2⟩

theorem iframeWritten_ok {w : Written} (h : w ∈ iframeWritten snippet) : w.Ok := by
  rcases List.mem_append.mp h with h | h
  · rcases List.mem_map.mp h with ⟨a, ha, rfl⟩
    rcases List.mem_filter.mp ha with ⟨hraw, hkeep⟩
    refine written_ok (nameOk_of_mem_rawAttrs hraw) ?_
    rw [(iframeAllowed_words (iframeKeeps_name hkeep).1).1]
    simp
  · rcases List.mem_singleton.mp h with rfl
    exact ⟨forall_mem_of_all (by decide), by decide, by rintro v ⟨⟩; decide⟩

/-- The text behind the `src` reads as names on the list, with the injected
sandbox in force. -/
theorem readAttrs_iframeTail (snippet : Bytes) :
    ∃ attrs, readAttrs (iframeTail snippet) = some (attrs, bytes "</iframe>") ∧
      IframeNames attrs ∧ valueOf attrs (bytes "sandbox") = some sandboxValue := by
  have hok : ∀ w ∈ iframeWritten snippet, w.Ok := fun _ => iframeWritten_ok
  have hread := (readAttrs_written hok (ends_gt (bytes "</iframe>"))).2
  refine ⟨(iframeWritten snippet).flatMap Written.attrs, ?_, ?_, ?_⟩
  · rw [iframeTail, hread]
    simp
  · intro b hb
    rcases List.mem_flatMap.mp hb with ⟨w, hw, hbw⟩
    have hname : b.name ∈ words w.name := name_of_mem_wordAttrs hbw
    rcases List.mem_append.mp hw with hw | hw
    · rcases List.mem_map.mp hw with ⟨a, ha, rfl⟩
      have hallowed := (iframeKeeps_name (List.mem_filter.mp ha).2).1
      rcases iframeAllowed_words hallowed with ⟨hwords, hon⟩
      have hab : b.name = a.name := by simpa [RawAttr.written, hwords] using hname
      rw [hab]
      exact ⟨by simp [iframeName, hallowed], hon⟩
    · rcases List.mem_singleton.mp hw with rfl
      have hwords : words (bytes "sandbox") = [bytes "sandbox"] := by decide
      rw [hwords, List.mem_singleton] at hname
      rw [hname]
      decide
  · -- no copied attribute is a sandbox, so the injected one is the first
    have hkept : (((rawAttrs snippet 7).filter iframeKeeps).flatMap (·.written.attrs)).find?
        (fun a => eqCI a.name (bytes "sandbox")) = none := by
      rw [List.find?_eq_none]
      intro b hb
      rcases List.mem_flatMap.mp hb with ⟨a, ha, hba⟩
      rcases iframeKeeps_name (List.mem_filter.mp ha).2 with ⟨hallowed, hne⟩
      have hname := name_of_mem_wordAttrs hba
      have hab : b.name = a.name := by
        simpa [RawAttr.written, (iframeAllowed_words hallowed).1] using hname
      simp [hab, hne]
    have hwords : words (bytes "sandbox") = [bytes "sandbox"] := by decide
    have heq : eqCI (bytes "sandbox") (bytes "sandbox") = true := by decide
    simp only [valueOf, iframeWritten, List.flatMap_append, List.flatMap_map, List.find?_append]
    rw [hkept]
    simp [Written.attrs, hwords, wordAttrs, heq]

/-! ### The URL -/

/-- `src` in front of any text: the value ends at the first quote, and the text
behind that quote goes on as attributes. -/
theorem readTag_iframe (text : Bytes) :
    readTag (bytes "<iframe" ++ (bytes " src=\"" ++ text)) =
      (readAttrs ((text.dropWhile (· != 34)).drop 1)).map fun r =>
        (⟨bytes "iframe", ⟨bytes "src", text.takeWhile (· != 34)⟩ :: r.1⟩, r.2) := by
  have hws : isWs 34 = false ∧ isWs 61 = false := by decide
  have hvalue : readValue (34 :: text) =
      (text.takeWhile (· != 34), (text.dropWhile (· != 34)).drop 1) := by
    simp [readValue, hws.1]
  have hstop : Stops isTagByte (bytes " src=\"" ++ text) := by
    have h : isTagByte 32 = false := by decide
    rintro b ⟨⟩
    exact h
  have htag : readTag (bytes "<iframe" ++ (bytes " src=\"" ++ text)) = _ :=
    readTag_name (c := 105) (t := bytes "frame") (by decide) (forall_mem_of_all (by decide)) hstop
  have hskip : readAttrs (bytes " src=\"" ++ text) =
      readAttrs (bytes "src" ++ 61 :: 34 :: text) :=
    readAttrs_gap (g := [32]) (forall_mem_of_all (by decide))
  have hnext : nextAttr (bytes "src" ++ 61 :: 34 :: text) = _ :=
    nextAttr_value (c := 115) (t := bytes "rc") (q := 34 :: text) (forall_mem_of_all (by decide))
      (by simp [Stops, isNameByte]) (by simp [hws.2])
  rw [htag, hskip, readAttrs_some hnext, hvalue]
  cases readAttrs ((text.dropWhile (· != 34)).drop 1) with
  | none => rfl
  | some r => rfl

theorem not_mem_of_eqCI {u p : Bytes} (h : eqCI u p = true) (hp : 34 ∉ p) : 34 ∉ u := by
  intro hu
  rcases mem_of_eqCI h hu with ⟨d, hd, hlow⟩
  have hd34 : d = 34 := by
    unfold toLower at hlow
    grind
  exact hp (hd34 ▸ hd)

variable {s p : Bytes}

/-- A prefix without quotes survives both the reader and the escaping. -/
theorem startsWithCI_takeWhile (h : startsWithCI s p = true) (hp : 34 ∉ p)
    (rest : Bytes) : startsWithCI ((s ++ rest).takeWhile (· != 34)) p = true := by
  rcases startsWithCI_iff.mp h with ⟨u, t, rfl, hu⟩
  have hu34 := bne_of_not_mem (not_mem_of_eqCI hu hp)
  rw [List.append_assoc, List.takeWhile_append_of_pos hu34]
  exact startsWithCI_iff.mpr ⟨u, _, rfl, hu⟩

@[inherit_doc startsWithCI_takeWhile]
theorem startsWithCI_escapeQuotes (h : startsWithCI s p = true) (hp : 34 ∉ p) :
    startsWithCI (escapeQuotes s) p = true := by
  rcases startsWithCI_iff.mp h with ⟨u, t, rfl, hu⟩
  rw [escapeQuotes_append, escapeQuotes_of_not_mem (not_mem_of_eqCI hu hp)]
  exact startsWithCI_iff.mpr ⟨u, _, rfl, hu⟩

theorem startsWithCI_https {v p : Bytes} (h : startsWithCI v (bytes "http://" ++ p) = true) :
    startsWithCI (bytes "https://" ++ v.drop 7) (bytes "https://" ++ p) = true := by
  rcases startsWithCI_iff.mp h with ⟨u, t, rfl, hu⟩
  have hlow := congrArg (List.drop 7) (eqCI_iff.mp hu)
  have hlen : 7 ≤ u.length := by
    have hl := congrArg List.length (eqCI_iff.mp hu)
    have h7 : (bytes "http://").length = 7 := by decide
    simp only [List.length_map, List.length_append, h7] at hl
    omega
  have hdrop : eqCI (u.drop 7) p = true := by
    rw [eqCI_iff, List.map_drop, hlow]
    rfl
  refine startsWithCI_iff.mpr ⟨bytes "https://" ++ u.drop 7, t, ?_, ?_⟩
  · rw [List.drop_append_of_le_length hlen, List.append_assoc]
  · exact eqCI_append (by decide) hdrop

def embedHosts : List Bytes :=
  ["www.youtube.com/embed/", "youtube.com/embed/", "www.youtube-nocookie.com/embed/"].map bytes

theorem isYoutubeEmbedSrc_cases (h : isYoutubeEmbedSrc v = true) :
    ∃ p ∈ embedHosts, startsWithCI v (bytes "https://" ++ p) = true ∨
      startsWithCI v (bytes "http://" ++ p) = true := by
  simp only [isYoutubeEmbedSrc, List.any_cons, List.any_nil, Bool.or_false, Bool.or_eq_true] at h
  rcases h with h | h | h | h | h | h
  · exact ⟨bytes "www.youtube.com/embed/", by decide, Or.inl h⟩
  · exact ⟨bytes "www.youtube.com/embed/", by decide, Or.inr h⟩
  · exact ⟨bytes "youtube.com/embed/", by decide, Or.inl h⟩
  · exact ⟨bytes "youtube.com/embed/", by decide, Or.inr h⟩
  · exact ⟨bytes "www.youtube-nocookie.com/embed/", by decide, Or.inl h⟩
  · exact ⟨bytes "www.youtube-nocookie.com/embed/", by decide, Or.inr h⟩

/-- Whatever follows, the `src` that is read back is an embed URL over https. -/
theorem isHttpsEmbed_srcText (hv : isYoutubeEmbedSrc v = true) (rest : Bytes) :
    isHttpsEmbed ((srcText v ++ rest).takeWhile (· != 34)) = true := by
  rcases isYoutubeEmbedSrc_cases hv with ⟨p, hp, hv⟩
  have hscheme : ∀ p ∈ embedHosts, startsWithCI (bytes "https://" ++ p) (bytes "http://") = false ∧
      startsWithCI (bytes "http://" ++ p) (bytes "http://") = true ∧ 34 ∉ bytes "https://" ++ p ∧
      (bytes "http://").length ≤ (bytes "https://" ++ p).length ∧
      (bytes "http://").length ≤ (bytes "http://" ++ p).length := by decide
  rcases hscheme p hp with ⟨hs, hh, h34, hslen, hhlen⟩
  have hsrc : startsWithCI (srcText v) (bytes "https://" ++ p) = true := by
    rcases hv with hv | hv
    · have hnot : startsWithCI v (bytes "http://") = false := by
        rw [startsWithCI_of_le hv hslen, hs]
      rw [srcText, hnot]
      exact startsWithCI_escapeQuotes hv h34
    · have hyes : startsWithCI v (bytes "http://") = true := by
        rw [startsWithCI_of_le hv hhlen, hh]
      rw [srcText, if_pos hyes]
      exact startsWithCI_https hv
  have hread := startsWithCI_takeWhile hsrc h34 rest
  have hmem : ∀ p ∈ embedHosts, ∃ q ∈ ["https://www.youtube.com/embed/", "https://youtube.com/embed/",
      "https://www.youtube-nocookie.com/embed/"], bytes q = bytes "https://" ++ p := by decide
  rcases hmem p hp with ⟨q, hq, heq⟩
  exact List.any_eq_true.mpr ⟨q, hq, heq ▸ hread⟩

/-! ### The theorem -/

/-- What the tag goes on with after the first quote of an unescaped URL `v`. -/
def spilled (snippet v : Bytes) : Bytes :=
  (v.dropWhile (· != 34)).drop 1 ++ 34 :: iframeTail snippet

/-- The chosen URL is no plain `http` URL with a double quote in it; or what
stands behind that quote happens to read as names on the list, with the injected
sandbox still the first. -/
def SrcQuoteHarmless (snippet : Bytes) : Prop :=
  ∀ v, chosenSrc snippet = some v → startsWithCI v (bytes "http://") = true → 34 ∈ v →
    ∃ attrs, readAttrs (spilled snippet v) = some (attrs, bytes "</iframe>") ∧
      IframeNames attrs ∧ valueOf attrs (bytes "sandbox") = some sandboxValue

theorem isYoutubeEmbedSrc_of_chosen {snippet v : Bytes} (h : chosenSrc snippet = some v) :
    isYoutubeEmbedSrc v = true := by
  rcases List.mem_filterMap.mp (List.mem_of_getLast? h) with ⟨a, -, ha⟩
  unfold embedSrc at ha
  split at ha
  · exact (Option.filter_eq_some_iff.mp ha).2
  · simp at ha

/-- The rebuilt iframe is safe exactly when the text behind its `src` is. -/
theorem iframeSafe_iff_tail (s : Snippet) (hv : chosenSrc s.text = some v) {tail : Bytes}
    (htail : tail = ((srcText v ++ 34 :: iframeTail s.text).dropWhile (· != 34)).drop 1) :
    (∀ out, sanitizeIframeTag s.text = some out → IframeSafe out) ↔
      ∃ attrs, readAttrs tail = some (attrs, bytes "</iframe>") ∧ IframeNames attrs ∧
        valueOf attrs (bytes "sandbox") = some sandboxValue := by
  rw [sanitizeIframeTag_eq, hv]
  simp only [Option.map_some, Option.some.injEq, forall_eq']
  unfold IframeSafe
  rw [readTag_iframe, ← htail]
  have hsrc := isHttpsEmbed_srcText (isYoutubeEmbedSrc_of_chosen hv) (34 :: iframeTail s.text)
  have hnames : iframeName (bytes "src") = true ∧ startsWithCI (bytes "src") (bytes "on") = false ∧
      eqCI (bytes "src") (bytes "src") = true ∧ eqCI (bytes "src") (bytes "sandbox") = false := by
    decide
  -- the first attribute is the `src` in both directions, and all others are the tail's
  constructor
  · rintro ⟨attrs, hread, hall, -, hsandbox⟩
    rcases Option.map_eq_some_iff.mp hread with ⟨⟨as, rest⟩, has, heq⟩
    simp only [Prod.mk.injEq, Tag.mk.injEq, true_and] at heq
    rcases heq with ⟨rfl, rfl⟩
    refine ⟨as, has, fun a ha => hall a (List.mem_cons_of_mem _ ha), ?_⟩
    simpa [valueOf, hnames] using hsandbox
  · rintro ⟨as, has, hall, hsandbox⟩
    rw [has]
    refine ⟨_, rfl, ?_, ⟨_, ?_, hsrc⟩, ?_⟩
    · intro a ha
      rcases List.mem_cons.mp ha with rfl | ha
      · exact ⟨hnames.1, hnames.2.1⟩
      · exact hall a ha
    · simp [valueOf, hnames]
    · simpa [valueOf, hnames] using hsandbox

theorem iframeSafe_iff (s : Snippet) :
    (∀ out, sanitizeIframeTag s.text = some out → IframeSafe out) ↔ SrcQuoteHarmless s.text := by
  have hdrop : ∀ u w : Bytes, 34 ∉ u → ((u ++ 34 :: w).dropWhile (· != 34)).drop 1 = w := by
    intro u w hu
    rw [List.dropWhile_append_of_pos (bne_of_not_mem hu)]
    simp
  cases hv : chosenSrc s.text with
  | none =>
    refine iff_of_true ?_ ?_
    · simp [sanitizeIframeTag_eq, hv]
    · simp [SrcQuoteHarmless, hv]
  | some v =>
    by_cases hbad : startsWithCI v (bytes "http://") = true ∧ 34 ∈ v
    · -- the quote ends the value, and the rest of the URL is read as attributes
      rcases hbad with ⟨hhttp, hquote⟩
      rcases List.eq_append_cons_of_mem hquote with ⟨u, w, rfl, hu⟩
      have hlen : 7 ≤ u.length := by
        by_contra hlt
        have htake : eqCI ((u ++ 34 :: w).take 7) (bytes "http://") = true := hhttp
        refine not_mem_of_eqCI htake (by decide) ?_
        rw [List.take_append, List.take_of_length_le (by omega)]
        obtain ⟨k, hk⟩ : ∃ k, 7 - u.length = k + 1 := ⟨6 - u.length, by omega⟩
        simp [hk]
      have hu' : 34 ∉ bytes "https://" ++ u.drop 7 := by
        intro hm
        rcases List.mem_append.mp hm with hm | hm
        · exact absurd hm (by decide)
        · exact hu (List.mem_of_mem_drop hm)
      have hsrc : srcText (u ++ 34 :: w) ++ 34 :: iframeTail s.text =
          (bytes "https://" ++ u.drop 7) ++ 34 :: (w ++ 34 :: iframeTail s.text) := by
        rw [srcText, if_pos hhttp, List.drop_append_of_le_length hlen]
        simp
      have htail : spilled s.text (u ++ 34 :: w) = w ++ 34 :: iframeTail s.text := by
        rw [spilled, hdrop u w hu]
      have hspill : spilled s.text (u ++ 34 :: w) =
          ((srcText (u ++ 34 :: w) ++ 34 :: iframeTail s.text).dropWhile (· != 34)).drop 1 := by
        rw [hsrc, hdrop _ _ hu', htail]
      rw [iframeSafe_iff_tail s hv hspill]
      constructor
      · intro h v' hv' _ _
        rcases Option.some.inj (hv.symm.trans hv') with rfl
        exact h
      · intro h
        exact h _ hv hhttp hquote
    · -- the value ends where it should, and the tail is what the sanitizer wrote
      have hclean : 34 ∉ srcText v := by
        rw [srcText]
        split
        · rename_i hhttp
          intro hm
          rcases List.mem_append.mp hm with hm | hm
          · exact absurd hm (by decide)
          · exact hbad ⟨hhttp, List.mem_of_mem_drop hm⟩
        · exact not_mem_escapeQuotes v
      refine iff_of_true ?_ ?_
      · rw [iframeSafe_iff_tail s hv (hdrop _ _ hclean).symm]
        exact readAttrs_iframeTail s.text
      · intro v' hv' hhttp hquote
        rcases Option.some.inj (hv.symm.trans hv') with rfl
        exact absurd ⟨hhttp, hquote⟩ hbad

/-- The sanitizers keep their promise exactly on the snippets whose `data-` names
hold no foreign name behind a form feed, and whose chosen URL, when it is rewritten
from `http`, does not spill attributes out of its quotes. -/
theorem sanitizers_safe_iff (s : Snippet) :
    (∀ tag, MediaSafe tag (sanitizeMediaTag s.text tag) ↔ DataNamesHarmless s.text tag) ∧
    ((∀ out, sanitizeIframeTag s.text = some out → IframeSafe out) ↔ SrcQuoteHarmless s.text) :=
  ⟨mediaSafe_iff s.text, iframeSafe_iff s⟩

/-- A single-quoted embed URL over http, with an event handler behind a quote. -/
def onloadSnippet : Snippet :=
  ⟨bytes "<iframe src='http://www.youtube.com/embed/x\" onload=\"alert(1)'>", by decide⟩

/-- A `data-` name with an event handler behind a form feed. -/
def onerrorSnippet : Snippet :=
  ⟨bytes "<video data-a" ++ [12] ++ bytes "onerror=alert(1)>", by decide⟩

/-- Both sanitizers let an event handler through. -/
theorem event_handlers_pass :
    ¬ (∀ out, sanitizeIframeTag onloadSnippet.text = some out → IframeSafe out) ∧
      ¬ MediaSafe .video (sanitizeMediaTag onerrorSnippet.text .video) := by
  have hiframe : ((sanitizeIframeTag onloadSnippet.text).bind readTag).map
      (fun r => r.1.attrs.any fun a => startsWithCI a.name (bytes "on")) = some true := by
    decide +kernel
  have hvideo : (readTag (sanitizeMediaTag onerrorSnippet.text .video)).map
      (fun r => r.1.attrs.any fun a => startsWithCI a.name (bytes "on")) = some true := by
    decide +kernel
  constructor
  · intro h
    cases hout : sanitizeIframeTag onloadSnippet.text with
    | none => simp [hout] at hiframe
    | some out =>
      rcases h out hout with ⟨attrs, hread, hall, -⟩
      simp only [hout, Option.bind_some, hread, Option.map_some, Option.some.injEq] at hiframe
      rcases List.any_eq_true.mp hiframe with ⟨a, ha, hon⟩
      rw [(hall a ha).2] at hon
      simp at hon
  · rintro ⟨attrs, hread, hall⟩
    simp only [hread, Option.map_some, Option.some.injEq] at hvideo
    rcases List.any_eq_true.mp hvideo with ⟨a, ha, hon⟩
    rw [(hall a ha).2] at hon
    simp at hon

end FlyBoard.Render

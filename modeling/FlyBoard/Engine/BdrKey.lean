import FlyBoard.Auth.Session
import FlyBoard.Engine.BdrBlob
import FlyBoard.Lib.Markers

/-!
# Keys of stored replies (`engine_bdr_key` in `src/engine/bdr.c`)

A reply is kept under a key that is joined from what the page depends on; a request with a
session cookie or an `Authorization` header has none. Most parts of a key are written by the
client, separators included.
-/

namespace FlyBoard.BdrKey

open Bytes Scan Markers Auth
open BdrBlob (Method)

/-! ## Requests -/

structure Request where
  method : Method
  path : Bytes
  query : Option Bytes
  auth : Auth.Request
  path_ends : 63 ∉ path

/-- `path_is_excluded` -/
def pathIsExcluded (path : Bytes) : Bool :=
  [bytes "/assets/", bytes "/js/", bytes "/sw.js", bytes "/__tasfa_stream__/",
    bytes "/file/download", bytes "/file/preview", bytes "/file/upload", bytes "/api/",
    bytes "/metrics"].any (startsWith path)

/-- `contains_ci` -/
def containsCI : (haystack needle : Bytes) → Bool
  | [], _ => false
  | c :: t, needle => startsWithCI (c :: t) needle || containsCI t needle

/-- `accept_encoding_class` -/
def acceptEncodingClass (env : AuthEnv) (hs : List HeaderNode) : ℕ :=
  match env.headerGet hs (bytes "Accept-Encoding") with
  | none => 0
  | some ae =>
    (if containsCI ae (bytes "br") then 1 else 0) |||
      (if containsCI ae (bytes "zstd") then 2 else 0) |||
        if containsCI ae (bytes "gzip") then 4 else 0

/-- `is_mobile_request` -/
def isMobileRequest (env : AuthEnv) (hs : List HeaderNode) : Bool :=
  match env.headerGet hs (bytes "User-Agent") with
  | none => false
  | some ua =>
    [bytes "Mobile", bytes "Android", bytes "iPhone", bytes "iPad", bytes "Mobi"].any
      (containsCI ua)

/-- The cookies of the `Cookie` headers, in order. -/
def requestCookies (hs : List HeaderNode) : List Cookie :=
  hs.flatMap fun h =>
    match h.key, h.value with
    | some key, some value => if eqCI key (bytes "Cookie") then cookies value else []
    | _, _ => []

/-- `auth_has_session_cookie` -/
def authHasSessionCookie (hs : List HeaderNode) : Bool :=
  (requestCookies hs).any fun c => isAuthCookieName c.name && !c.value.isEmpty

/-- The value of the cookie that `auth_get_cookie` copies. -/
def cookieValue (hs : List HeaderNode) (name : Bytes) : Option Bytes :=
  ((requestCookies hs).find? fun c => c.name == name).map (·.value)

/-- `header_or_empty` -/
def headerOrEmpty (env : AuthEnv) (hs : List HeaderNode) (name : Bytes) : Bytes :=
  (env.headerGet hs name).getD []

/-- What a page depends on, as the handlers read it: a missing query or header is an empty
one, and a missing theme cookie is none. -/
structure Inputs where
  path : Bytes
  query : Bytes
  encoding : ℕ
  theme : Option Bytes
  mobile : Bool
  origin : Bytes
  proto : Bytes
  forwarded : Bytes
  cfVisitor : Bytes
  ssl : Bytes
  scheme : Bytes
deriving DecidableEq

attribute [ext] Inputs

def inputs (env : AuthEnv) (req : Request) : Inputs where
  path := req.path
  query := req.query.getD []
  encoding := acceptEncodingClass env req.auth.headers
  theme := cookieValue req.auth.headers (bytes "theme")
  mobile := isMobileRequest env req.auth.headers
  origin := headerOrEmpty env req.auth.headers (bytes "Origin")
  proto := headerOrEmpty env req.auth.headers (bytes "X-Forwarded-Proto")
  forwarded := headerOrEmpty env req.auth.headers (bytes "Forwarded")
  cfVisitor := headerOrEmpty env req.auth.headers (bytes "CF-Visitor")
  ssl := headerOrEmpty env req.auth.headers (bytes "X-Forwarded-Ssl")
  scheme := headerOrEmpty env req.auth.headers (bytes "X-Forwarded-Scheme")

/-! ## Keys -/

/-- `char theme[128]` -/
def Inputs.themeText (i : Inputs) : Bytes :=
  match i.theme with
  | some t => snprintfS 128 t
  | none => bytes "-"

/-- What `snprintf` is to write. -/
def keyText (i : Inputs) : Bytes :=
  let page := bytes "fb|" ++ i.path ++ bytes "?" ++ i.query
  let settings := bytes "|ae=" ++ decimal i.encoding ++ bytes "|t=" ++ i.themeText ++
    bytes "|m=" ++ decimal (if i.mobile then 1 else 0)
  page ++ settings ++ bytes "|o=" ++ i.origin ++ bytes "|x=" ++ i.proto ++ bytes "," ++
    i.forwarded ++ bytes "," ++ i.cfVisitor ++ bytes "," ++ i.ssl ++ bytes "," ++ i.scheme

def bypassed (env : AuthEnv) (hs : List HeaderNode) : Bool :=
  (env.headerGet hs (bytes "Authorization")).isSome ||
    (env.headerGet hs (bytes "If-None-Match")).isSome ||
    (env.headerGet hs (bytes "If-Modified-Since")).isSome ||
    (env.headerGet hs (bytes "Range")).isSome || authHasSessionCookie hs

/-- `engine_bdr_key`, in a buffer of `ENGINE_BDR_KEY_MAX` bytes. -/
def engineBdrKey (env : AuthEnv) (enabled : Bool) (req : Request) : Option Bytes :=
  if !enabled then none
  else if req.method = .other then none
  else if pathIsExcluded req.path then none
  else if bypassed env req.auth.headers then none
  else
    let text := keyText (inputs env req)
    if 0 < text.length ∧ text.length < 1024 then some text else none

/-! ## Signed-in requests -/

variable {t : Bytes}

theorem authHasSessionCookie_of_token {hs : List HeaderNode}
    (h : t ∈ headerTokens hs) : authHasSessionCookie hs = true := by
  rcases List.mem_flatMap.mp h with ⟨node, hnode, ht⟩
  unfold authHasSessionCookie
  rw [List.any_eq_true]
  split at ht
  · next key value hkey hvalue =>
    split at ht
    · next hcookie =>
      rcases List.mem_map.mp ht with ⟨c, hc, -⟩
      rcases List.mem_filter.mp hc with ⟨hmem, hname⟩
      refine ⟨c, List.mem_flatMap.mpr ⟨node, hnode, ?_⟩, hname⟩
      simp only [hkey, hvalue, hcookie, if_true, hmem]
    · exact absurd ht List.not_mem_nil
  · exact absurd ht List.not_mem_nil

variable {env : AuthEnv} {req : Request}

theorem engineBdrKey_of_verified {enabled : Bool} {b : OutBufs}
    (h : (authJwtVerifyFromRequest env req.auth b).1 = true) :
    engineBdrKey env enabled req = none := by
  have hbypass : bypassed env req.auth.headers = true := by
    rw [authJwtVerifyFromRequest_eq] at h
    cases hsecret : env.jwtSecret with
    | none =>
      rw [hsecret] at h
      exact nomatch h
    | some secret =>
      rw [hsecret] at h
      rcases tryTokens_fst.mp h with ⟨t, ht, -⟩
      unfold bypassed
      rcases List.mem_append.mp ht with hcookie | hbearer
      · rw [authHasSessionCookie_of_token hcookie, Bool.or_true]
      · cases hget : env.headerGet req.auth.headers (bytes "Authorization") with
        | none =>
          rw [hget] at hbearer
          exact absurd hbearer List.not_mem_nil
        | some header => simp only [Option.isSome_some, Bool.true_or]
  unfold engineBdrKey
  rw [hbypass]
  simp only [if_true, ite_self]

/-! ## Readings of a key -/

def settingsMark (encoding : ℕ) (theme : Bytes) (mobile : Bool) : Bytes :=
  bytes "|ae=" ++ decimal encoding ++ bytes "|t=" ++ theme ++ bytes "|m=" ++
    decimal (if mobile then 1 else 0) ++ bytes "|o="

/-- The markers of a key after the query. A theme is a cookie's value, up to the buffer. -/
def keyMarks : List (Set Bytes) :=
  [{m | ∃ encoding theme mobile, encoding < 8 ∧ 59 ∉ theme ∧ theme.length ≤ 127 ∧
      m = settingsMark encoding theme mobile},
   {bytes "|x="}, {bytes ","}, {bytes ","}, {bytes ","}, {bytes ","}]

def Inputs.parts (i : Inputs) : List (Bytes × Bytes) :=
  [(settingsMark i.encoding i.themeText i.mobile, i.origin), (bytes "|x=", i.proto),
   (bytes ",", i.forwarded), (bytes ",", i.cfVisitor), (bytes ",", i.ssl), (bytes ",", i.scheme)]

structure Inputs.Valid (i : Inputs) : Prop where
  path : 63 ∉ i.path
  encoding : i.encoding < 8
  theme : ∀ t ∈ i.theme, 59 ∉ t

def ThemePrinted (theme : Option Bytes) : Prop :=
  ∃ t, theme = some t ∧ t.length < 127 ∧ t ≠ bytes "-"

theorem keyText_eq (i : Inputs) :
    keyText i = bytes "fb|" ++ (i.path ++ 63 :: join i.query i.parts) := by
  have hq : bytes "?" = [63] := rfl
  simp only [keyText, Inputs.parts, join, settingsMark, hq, List.append_assoc,
    List.cons_append, List.nil_append]

theorem length_decimal_encoding {n : ℕ} (h : n < 8) : (decimal n).length = 1 := by
  revert n
  decide

theorem settingsMark_inj {encoding encoding' : ℕ} {theme theme' : Bytes} {mobile mobile' : Bool}
    (hlt : encoding < 8) (hlt' : encoding' < 8)
    (h : settingsMark encoding theme mobile = settingsMark encoding' theme' mobile') :
    encoding = encoding' ∧ theme = theme' ∧ mobile = mobile' := by
  simp only [settingsMark, List.append_assoc] at h
  have hlen : (decimal encoding).length = (decimal encoding').length := by
    rw [length_decimal_encoding hlt, length_decimal_encoding hlt']
  rcases List.append_inj (List.append_cancel_left h) hlen with ⟨henc, hrest⟩
  have hend : (bytes "|m=" ++ (decimal (if mobile then 1 else 0) ++ bytes "|o=")).length =
      (bytes "|m=" ++ (decimal (if mobile' then 1 else 0) ++ bytes "|o=")).length := by
    cases mobile <;> cases mobile' <;> rfl
  rcases List.append_inj' (List.append_cancel_left hrest) hend with ⟨htheme, hflag⟩
  refine ⟨decimal_injective henc, htheme, ?_⟩
  have hmobile := decimal_injective (List.append_cancel_right (List.append_cancel_left hflag))
  cases mobile <;> cases mobile' <;> first | rfl | exact nomatch hmobile

variable {i : Inputs}

theorem Inputs.Valid.themeText (h : i.Valid) :
    59 ∉ i.themeText ∧ i.themeText.length ≤ 127 := by
  unfold Inputs.themeText
  cases htheme : i.theme with
  | none => exact ⟨by decide, by decide⟩
  | some t =>
    refine ⟨fun hmem => h.theme t htheme (List.mem_of_mem_take hmem), ?_⟩
    exact List.length_take_le _ _

theorem Inputs.Valid.marked (h : i.Valid) : Marked keyMarks i.parts :=
  .cons ⟨i.encoding, i.themeText, i.mobile, h.encoding, h.themeText.1, h.themeText.2, rfl⟩
    (.cons rfl (.cons rfl (.cons rfl (.cons rfl (.cons rfl .nil)))))

theorem exists_inputs {path : Bytes} (hpath : 63 ∉ path) {rs : List (Bytes × Bytes)}
    (h : Marked keyMarks rs) (query : Bytes) :
    ∃ i : Inputs, i.Valid ∧ i.path = path ∧ i.query = query ∧ i.parts = rs := by
  cases h with
  | @cons _ r _ rs hr h =>
  cases h with
  | @cons _ r₂ _ rs hr₂ h =>
  cases h with
  | @cons _ r₃ _ rs hr₃ h =>
  cases h with
  | @cons _ r₄ _ rs hr₄ h =>
  cases h with
  | @cons _ r₅ _ rs hr₅ h =>
  cases h with
  | @cons _ r₆ _ rs hr₆ h =>
  cases h
  rcases r with ⟨m, origin⟩
  rcases r₂ with ⟨m₂, proto⟩
  rcases r₃ with ⟨m₃, forwarded⟩
  rcases r₄ with ⟨m₄, cfVisitor⟩
  rcases r₅ with ⟨m₅, ssl⟩
  rcases r₆ with ⟨m₆, scheme⟩
  rcases hr with ⟨encoding, theme, mobile, henc, htheme, hlen, hm⟩
  obtain rfl : m = settingsMark encoding theme mobile := hm
  obtain rfl : m₂ = bytes "|x=" := hr₂
  obtain rfl : m₃ = bytes "," := hr₃
  obtain rfl : m₄ = bytes "," := hr₄
  obtain rfl : m₅ = bytes "," := hr₅
  obtain rfl : m₆ = bytes "," := hr₆
  refine ⟨⟨path, query, encoding, some theme, mobile, origin, proto, forwarded, cfVisitor, ssl,
    scheme⟩, ⟨hpath, henc, ?_⟩, rfl, rfl, ?_⟩
  · intro t ht
    rw [← Option.some.inj ht]
    exact htheme
  · have htext : snprintfS 128 theme = theme := List.take_of_length_le hlen
    simp only [Inputs.parts, Inputs.themeText, htext]

def TextSeparates (i : Inputs) : Prop := ∀ j : Inputs, j.Valid → keyText j = keyText i → j = i

/-- Texts separate inputs exactly when the theme is printed like no other one and the
markers are alone. -/
theorem textSeparates_iff (hi : i.Valid) :
    TextSeparates i ↔ ThemePrinted i.theme ∧ AllLone keyMarks i.query i.parts := by
  constructor
  · intro h
    have hother : ∀ theme, (∀ t ∈ theme, 59 ∉ t) →
        Inputs.themeText { i with theme := theme } = i.themeText → theme = i.theme := by
      intro theme htheme htext
      have hkey : keyText { i with theme := theme } = keyText i := by
        rw [keyText_eq, keyText_eq]
        simp only [Inputs.parts, htext]
      exact congrArg Inputs.theme (h { i with theme := theme } ⟨hi.path, hi.encoding, htheme⟩ hkey)
    refine ⟨?_, ?_⟩
    · cases htheme : i.theme with
      | none =>
        -- a cookie `-` is printed like a missing one
        have hdash := hother (some (bytes "-")) ?_ ?_
        · rw [htheme] at hdash
          exact nomatch hdash
        · intro t ht
          rw [← Option.some.inj ht]
          decide
        · rw [Inputs.themeText, Inputs.themeText, htheme]
          rfl
      | some t =>
        refine ⟨t, rfl, ?_, ?_⟩
        · by_contra hlong
          have hcut : 127 ≤ t.length := Nat.le_of_not_lt hlong
          have hlonger := hother (some (t ++ [97])) ?_ ?_
          · rw [htheme, Option.some.injEq, List.append_right_eq_self] at hlonger
            exact nomatch hlonger
          · intro t' ht'
            rw [← Option.some.inj ht', List.mem_append, List.mem_singleton, not_or]
            exact ⟨hi.theme t htheme, by decide⟩
          · rw [Inputs.themeText, Inputs.themeText, htheme]
            exact List.take_append_of_le_length hcut
        · rintro rfl
          have hnone := hother none nofun ?_
          · rw [htheme] at hnone
            exact nomatch hnone
          · rw [Inputs.themeText, Inputs.themeText, htheme]
            rfl
    · rw [allLone_iff hi.marked]
      intro query rs hmarked hjoin
      rcases exists_inputs hi.path hmarked query with ⟨j, hj, hpath, rfl, rfl⟩
      have hkey : keyText j = keyText i := by
        rw [keyText_eq, keyText_eq, hjoin, hpath]
      have hsame := h j hj hkey
      subst hsame
      exact ⟨rfl, rfl⟩
  · rintro ⟨⟨t, htheme, hlen, hdash⟩, halone⟩ j hj hkey
    rw [keyText_eq, keyText_eq] at hkey
    rcases cut_first hj.path hi.path (List.append_cancel_left hkey) with ⟨hpath, hjoin⟩
    rcases join_inj hi.marked hj.marked halone hjoin.symm with ⟨hquery, hparts⟩
    simp only [Inputs.parts, List.cons.injEq, Prod.mk.injEq, and_true] at hparts
    rcases hparts with ⟨⟨hmark, horigin⟩, ⟨-, hproto⟩, ⟨-, hforwarded⟩, ⟨-, hvisitor⟩, ⟨-, hssl⟩,
      -, hscheme⟩
    rcases settingsMark_inj hi.encoding hj.encoding hmark with ⟨henc, htext, hmobile⟩
    have hsame : j.theme = i.theme := by
      rw [htheme]
      unfold Inputs.themeText at htext
      rw [htheme] at htext
      have hwhole : snprintfS 128 t = t := List.take_of_length_le (Nat.le_of_lt hlen)
      dsimp only at htext
      cases hj' : j.theme with
      | none =>
        rw [hj', hwhole] at htext
        exact absurd htext hdash
      | some t' =>
        rw [hj'] at htext
        exact congrArg some (eq_of_take_eq hlen htext.symm)
    exact Inputs.ext hpath hquery.symm henc.symm hsame hmobile.symm horigin.symm hproto.symm
      hforwarded.symm hvisitor.symm hssl.symm hscheme.symm

/-! ## Inputs of requests -/

theorem mem_of_mem_trimValue {raw : Bytes} {c : UInt8} (h : c ∈ trimValue raw) : c ∈ raw := by
  have htrim : ∀ p : UInt8 → Bool, c ∈ trimRight p raw → c ∈ raw := by
    intro p hmem
    exact List.mem_reverse.mp (List.dropWhile_sublist _ |>.subset (List.mem_reverse.mp hmem))
  unfold trimValue at h
  dsimp only at h
  split at h
  · exact htrim _ (List.mem_of_mem_drop ((List.dropLast_sublist _).subset h))
  · exact htrim _ h

theorem not_mem_cookie_value {header : Bytes} {c : Cookie} (h : c ∈ cookies header) :
    59 ∉ c.value := by
  refine scan_forall authCookieIterNext_advances (p := fun c => 59 ∉ c.value) ?_ header c h
  intro cursor c rest hnext
  unfold authCookieIterNext at hnext
  split at hnext
  · exact nomatch hnext
  · dsimp only at hnext
    split at hnext
    · rw [← (Prod.mk.inj (Option.some.inj hnext)).1]
      intro hmem
      have hbyte := List.mem_takeWhile_imp (mem_of_mem_trimValue hmem)
      exact absurd hbyte (by decide)
    · rw [← (Prod.mk.inj (Option.some.inj hnext)).1]
      exact List.not_mem_nil

theorem inputs_valid (env : AuthEnv) (req : Request) : (inputs env req).Valid where
  path := req.path_ends
  encoding := by
    show acceptEncodingClass env req.auth.headers < 8
    unfold acceptEncodingClass
    split
    · decide
    · split_ifs <;> decide
  theme t ht := by
    have hvalue : cookieValue req.auth.headers (bytes "theme") = some t := ht
    rcases Option.map_eq_some_iff.mp hvalue with ⟨c, hc, rfl⟩
    rcases List.mem_flatMap.mp (List.mem_of_find?_eq_some hc) with ⟨node, -, hmem⟩
    split at hmem
    · split at hmem
      · exact not_mem_cookie_value hmem
      · exact absurd hmem List.not_mem_nil
    · exact absurd hmem List.not_mem_nil

/-! ## Requests of inputs -/

def FindsFirst (env : AuthEnv) : Prop :=
  ∀ hs name, env.headerGet hs name = (hs.find? fun h => h.key.any fun k => eqCI k name).bind (·.value)

def encodingHeader (encoding : ℕ) : Bytes :=
  (if encoding.testBit 0 then bytes "br " else []) ++
    (if encoding.testBit 1 then bytes "zstd " else []) ++
      if encoding.testBit 2 then bytes "gzip" else []

def themeHeader : Option Bytes → List HeaderNode
  | none => []
  | some t => [⟨some (bytes "Cookie"), some (bytes "theme=\"" ++ t ++ bytes "\"")⟩]

def headersOf (i : Inputs) : List HeaderNode :=
  [⟨some (bytes "Accept-Encoding"), some (encodingHeader i.encoding)⟩,
   ⟨some (bytes "User-Agent"), some (if i.mobile then bytes "Mobi" else [])⟩,
   ⟨some (bytes "Origin"), some i.origin⟩,
   ⟨some (bytes "X-Forwarded-Proto"), some i.proto⟩,
   ⟨some (bytes "Forwarded"), some i.forwarded⟩,
   ⟨some (bytes "CF-Visitor"), some i.cfVisitor⟩,
   ⟨some (bytes "X-Forwarded-Ssl"), some i.ssl⟩,
   ⟨some (bytes "X-Forwarded-Scheme"), some i.scheme⟩] ++ themeHeader i.theme

def requestOf (i : Inputs) (hpath : 63 ∉ i.path) : Request where
  method := .get
  path := i.path
  query := some i.query
  auth := ⟨headersOf i, none⟩
  path_ends := hpath

theorem trimValue_quoted (t : Bytes) : trimValue (34 :: (t ++ [34])) = t := by
  have htrim : trimRight (fun c => isBlank c || c == 13 || c == 10) (34 :: (t ++ [34])) =
      34 :: (t ++ [34]) := by
    simp [trimRight, isBlank]
  have hlast : (34 :: (t ++ [34])).getLast? = some 34 := by
    rw [← List.cons_append, List.getLast?_concat]
  simp [trimValue, htrim, hlast]

theorem cookies_themeHeader (ht : 59 ∉ t) :
    cookies (bytes "theme=\"" ++ t ++ bytes "\"") = [⟨bytes "theme", t⟩] := by
  have hend : authCookieIterNext [] = none := rfl
  have hraw : ∀ c ∈ 34 :: (t ++ [34]), (c != 59) = true := by
    intro c hc
    rw [bne_iff_ne]
    rintro rfl
    simp [ht] at hc
  have hnext : authCookieIterNext (bytes "theme=\"" ++ t ++ bytes "\"") =
      some (⟨bytes "theme", t⟩, []) := by
    have hheader : bytes "theme=\"" ++ t ++ bytes "\"" =
        bytes "theme" ++ 61 :: 34 :: (t ++ [34]) := by
      simp only [List.append_assoc]
      rfl
    have hname : ∀ c ∈ bytes "theme", isNameByte c = true := List.all_eq_true.mp rfl
    have hstops : Stops isNameByte (61 :: 34 :: (t ++ [34])) := by
      intro c hc
      rw [← Option.some.inj hc]
      decide
    have hblank : trimLeft isBlank (bytes "theme" ++ 61 :: 34 :: (t ++ [34])) =
        bytes "theme" ++ 61 :: 34 :: (t ++ [34]) := rfl
    have hquote : trimLeft isBlank (34 :: (t ++ [34])) = 34 :: (t ++ [34]) := rfl
    have htrim : trimRight isBlank (bytes "theme") = bytes "theme" := by decide
    have hvalue := List.takeWhile_eq_self_iff.mpr hraw
    have hrest := List.dropWhile_eq_nil_iff.mpr hraw
    rw [hheader, authCookieIterNext, hblank]
    simp [takeWhile_append_stop hname hstops, dropWhile_append_stop hname hstops, hquote, htrim,
      hvalue, hrest, trimValue_quoted]
  rw [cookies_of_next hnext, cookies, scan_none hend]

theorem requestCookies_headersOf (hi : i.Valid) :
    requestCookies (headersOf i) =
      match i.theme with
      | none => []
      | some t => [⟨bytes "theme", t⟩] := by
  have hcookie : eqCI (bytes "Cookie") (bytes "Cookie") = true := by decide
  have hother : requestCookies (headersOf i) = requestCookies (themeHeader i.theme) := rfl
  rw [hother]
  cases htheme : i.theme with
  | none => rfl
  | some t =>
    have ht := cookies_themeHeader (hi.theme t htheme)
    simp only [requestCookies, themeHeader, List.flatMap_cons, hcookie, if_true, ht,
      List.flatMap_nil, List.append_nil]

section Requests

variable (hget : FindsFirst env)

include hget

theorem inputs_requestOf (hi : i.Valid) : inputs env (requestOf i hi.path) = i := by
  have hencoding : acceptEncodingClass env (headersOf i) = i.encoding := by
    have hae : env.headerGet (headersOf i) (bytes "Accept-Encoding") =
        some (encodingHeader i.encoding) := by
      rw [hget]
      rfl
    have hclass : ∀ n < 8, ((if containsCI (encodingHeader n) (bytes "br") then 1 else 0) |||
        (if containsCI (encodingHeader n) (bytes "zstd") then 2 else 0) |||
          if containsCI (encodingHeader n) (bytes "gzip") then 4 else 0) = n := by
      decide +kernel
    rw [acceptEncodingClass, hae]
    exact hclass _ hi.encoding
  have hmobile : isMobileRequest env (headersOf i) = i.mobile := by
    have hua : env.headerGet (headersOf i) (bytes "User-Agent") =
        some (if i.mobile then bytes "Mobi" else []) := by
      rw [hget]
      rfl
    rw [isMobileRequest, hua]
    cases i.mobile <;> decide
  have htheme : cookieValue (headersOf i) (bytes "theme") = i.theme := by
    rw [cookieValue, requestCookies_headersOf hi]
    cases i.theme with
    | none => rfl
    | some t => simp
  have hread : ∀ {name value : Bytes},
      (((headersOf i).find? fun h => h.key.any fun k => eqCI k name).bind (·.value)) = some value →
        headerOrEmpty env (headersOf i) name = value := by
    intro name value h
    rw [headerOrEmpty, hget, h]
    rfl
  exact Inputs.ext rfl rfl hencoding htheme hmobile (hread rfl) (hread rfl) (hread rfl) (hread rfl)
    (hread rfl) (hread rfl)

theorem bypassed_headersOf (hi : i.Valid) : bypassed env (headersOf i) = false := by
  have hmissing : ∀ name ∈ [bytes "Authorization", bytes "If-None-Match",
      bytes "If-Modified-Since", bytes "Range"], env.headerGet (headersOf i) name = none := by
    intro name hname
    rw [hget, headersOf]
    simp only [List.mem_cons, List.not_mem_nil, or_false] at hname
    rcases hname with rfl | rfl | rfl | rfl <;> cases i.theme <;> rfl
  have hsession : authHasSessionCookie (headersOf i) = false := by
    rw [authHasSessionCookie, requestCookies_headersOf hi]
    cases i.theme with
    | none => rfl
    | some t => rfl
  simp [bypassed, hmissing, hsession]

end Requests

/-! ## What the keys separate -/

def Separates (env : AuthEnv) (enabled : Bool) (req : Request) : Prop :=
  ∀ req' key, engineBdrKey env enabled req = some key → engineBdrKey env enabled req' = some key →
    inputs env req' = inputs env req

theorem engineBdrKey_eq_some {enabled : Bool} {key : Bytes}
    (h : engineBdrKey env enabled req = some key) :
    enabled = true ∧ pathIsExcluded req.path = false ∧ key = keyText (inputs env req) ∧
      0 < key.length ∧ key.length < 1024 := by
  simp only [engineBdrKey, Option.ite_none_left_eq_some, Option.ite_none_right_eq_some,
    Bool.not_eq_true', Bool.not_eq_false, Bool.not_eq_true, Option.some.injEq] at h
  rcases h with ⟨henabled, -, hpath, -, hlen, rfl⟩
  exact ⟨henabled, hpath, rfl, hlen⟩

theorem engineBdrKey_requestOf (hget : FindsFirst env)
    (hi : i.Valid) (hpath : pathIsExcluded i.path = false) (hpos : 0 < (keyText i).length)
    (hlen : (keyText i).length < 1024) :
    engineBdrKey env true (requestOf i hi.path) = some (keyText i) := by
  have hother : (requestOf i hi.path).method ≠ .other := nofun
  have hpath' : pathIsExcluded (requestOf i hi.path).path = false := hpath
  have hbypass : bypassed env (requestOf i hi.path).auth.headers = false :=
    bypassed_headersOf hget hi
  rw [engineBdrKey, if_neg (by decide), if_neg hother, hpath', hbypass, inputs_requestOf hget hi]
  simp only [Bool.false_eq_true, if_false, hpos, hlen, and_self, if_true]

theorem separates_iff_textSeparates (hget : FindsFirst env) {enabled : Bool}
    (hkey : (engineBdrKey env enabled req).isSome = true) :
    Separates env enabled req ↔ TextSeparates (inputs env req) := by
  rcases Option.isSome_iff_exists.mp hkey with ⟨key, hkey⟩
  rcases engineBdrKey_eq_some hkey with ⟨henabled, hpath, hkeyText, hpos, hlen⟩
  subst henabled
  constructor
  · intro h i hi htext
    rw [← hkeyText] at htext
    have hsame : i.path = req.path := by
      have hread := htext.trans hkeyText
      rw [keyText_eq, keyText_eq] at hread
      exact (cut_first hi.path req.path_ends (List.append_cancel_left hread)).1
    have hrequest := engineBdrKey_requestOf hget hi (hsame ▸ hpath) (htext ▸ hpos) (htext ▸ hlen)
    rw [htext] at hrequest
    rw [← h _ key hkey hrequest, inputs_requestOf hget hi]
  · intro h req' key' hreq hreq'
    rcases engineBdrKey_eq_some hreq with ⟨-, -, hkey₁, -⟩
    rcases engineBdrKey_eq_some hreq' with ⟨-, -, hkey₂, -⟩
    exact h _ (inputs_valid env req') (hkey₂.symm.trans hkey₁)

/-- A request that is accepted as signed in has no key, and a key separates its request from
all that have other inputs exactly when the theme cookie is printed like no other and the
markers stand alone. -/
theorem shared_key_iff {env : AuthEnv} (hget : FindsFirst env) (enabled : Bool) :
    (∀ req b, (authJwtVerifyFromRequest env req.auth b).1 = true →
      engineBdrKey env enabled req = none) ∧
    ∀ req, (engineBdrKey env enabled req).isSome = true →
      (Separates env enabled req ↔ ThemePrinted (inputs env req).theme ∧
        AllLone keyMarks (inputs env req).query (inputs env req).parts) := by
  refine ⟨fun _ _ => engineBdrKey_of_verified, ?_⟩
  intro req hkey
  rw [separates_iff_textSeparates hget hkey, textSeparates_iff (inputs_valid env req)]

/-! ## A chain of proxies -/

def plainEnv : AuthEnv where
  jwtVerify _ _ := none
  headerGet hs name := (hs.find? fun h => h.key.any fun k => eqCI k name).bind (·.value)
  jwtSecret := none
  siteAdminUid := 0
  adminUsername := []
  communityRoles := false

def SeparatesAll (env : AuthEnv) : Prop := ∀ req, Separates env true req

def proxied (proto forwarded : Bytes) : Inputs :=
  ⟨bytes "/", [], 0, some (bytes "dark"), false, [], proto, forwarded, [], [], []⟩

def proxiedRequest (proto forwarded : Bytes) : Request :=
  requestOf (proxied proto forwarded) (show 63 ∉ bytes "/" by decide)

/-- Two proxies that each name a scheme, and one that names a scheme and forwards, have the
same key. -/
theorem proxies_share_key : ¬ SeparatesAll plainEnv := by
  intro h
  have hkeys : engineBdrKey plainEnv true (proxiedRequest (bytes "https,http") []) =
        some (bytes "fb|/?|ae=0|t=dark|m=0|o=|x=https,http,,,,") ∧
      engineBdrKey plainEnv true (proxiedRequest (bytes "https") (bytes "http,")) =
        some (bytes "fb|/?|ae=0|t=dark|m=0|o=|x=https,http,,,,") ∧
      inputs plainEnv (proxiedRequest (bytes "https") (bytes "http,")) ≠
        inputs plainEnv (proxiedRequest (bytes "https,http") []) := by
    decide +kernel
  exact hkeys.2.2 (h _ _ _ hkeys.1 hkeys.2.1)

def bareRequest : Request :=
  requestOf ⟨bytes "/", [], 0, none, false, [], [], [], [], [], []⟩ (by decide)

/-- It shares its key with one whose cookie is a dash. -/
theorem bareRequest_shares_key : ¬ Separates plainEnv true bareRequest := by
  intro h
  rcases (((shared_key_iff (fun _ _ => rfl) true).2 bareRequest (by decide +kernel)).mp h).1 with
    ⟨t, ht, -⟩
  have hnone : (inputs plainEnv bareRequest).theme = none := by decide +kernel
  rw [hnone] at ht
  exact nomatch ht

end FlyBoard.BdrKey

import FlyBoard.Lib.Bytes

/-!
# Redirects back to where a request came from (`src/handlers/handlers.c`)

`redirect_referer_safe` takes a path over from the referer, or from the redirect field of a
login, in one of three ways: the whole text when it is a local path, what follows the origin of
the site, or what follows the host of any other address.
-/

namespace FlyBoard.Redirect

open Bytes

structure Response where
  statusCode : ℕ
  headers : List (String × Bytes)
  body : Bytes
deriving DecidableEq, Repr

/-- `redirect` -/
def redirect (url : Bytes) : Response :=
  ⟨302, [("Location", url), ("Content-Length", bytes "0")], []⟩

def Response.location (r : Response) : Option Bytes := r.headers.lookup "Location"

def endsHost (c : UInt8) : Bool := c == 47 || c == 63 || c == 35

/-- `site_origin`, for the root address of the configuration. -/
def siteOrigin (rootUrl : Bytes) : Bytes :=
  let url := if rootUrl = [] then bytes "https://localhost" else rootUrl
  match cutAt (bytes "://") url with
  | none => snprintfS 256 url
  | some (scheme, rest) =>
    (scheme ++ bytes "://" ++ rest.takeWhile fun c => !endsHost c).take 255

/-- `is_asset_or_sw_path` -/
def isAssetOrSwPath (path : Bytes) : Bool :=
  startsWith path (bytes "/assets/") || path == bytes "/sw.js" || startsWith path (bytes "/sw.js?")

def localPath (referer : Bytes) : Option Bytes :=
  if referer.head? = some 47 ∧ referer[1]? ≠ some 47 ∧ isAssetOrSwPath referer = false then
    some referer
  else none

def originPath (origin referer : Bytes) : Option Bytes :=
  let path := referer.drop origin.length
  if startsWith referer origin ∧ (path.head? = some 47 ∨ path = []) then
    let target := if path.head? = some 47 then path else bytes "/"
    if isAssetOrSwPath target then none else some target
  else none

def hostPath (referer : Bytes) : Option Bytes :=
  match cutAt (bytes "://") referer with
  | none => none
  | some (_, host) =>
    let path := host.dropWhile (· != 47)
    if path.head? = some 47 ∧ path[1]? ≠ some 47 ∧ isAssetOrSwPath path = false then some path
    else none

def takenPath (rootUrl : Bytes) (referer : Option Bytes) : Option Bytes := do
  let referer ← referer
  if referer = [] then none
  else
    (localPath referer).or ((originPath (siteOrigin rootUrl) referer).or (hostPath referer))

/-- `redirect_referer_safe` -/
def redirectRefererSafe (rootUrl : Bytes) (referer : Option Bytes) (fallback : Bytes) : Response :=
  redirect ((takenPath rootUrl referer).getD fallback)

/-! ## Where a redirect leads -/

def SameSitePath (path : Bytes) : Prop :=
  path.head? = some 47 ∧ path[1]? ≠ some 47 ∧ path[1]? ≠ some 92 ∧ 13 ∉ path ∧ 10 ∉ path

instance (path : Bytes) : Decidable (SameSitePath path) := by
  unfold SameSitePath
  exact inferInstance

/-- The second byte is no backslash, and there is no line break. -/
def Plain (path : Bytes) : Prop := path[1]? ≠ some 92 ∧ 13 ∉ path ∧ 10 ∉ path

/-- The part of the referer that the first matching way takes is plain, and behind the origin of
the site no second slash follows. -/
def RefererPlain (rootUrl : Bytes) (referer : Option Bytes) : Prop :=
  ∀ r ∈ referer, r ≠ [] →
    match localPath r with
    | some path => Plain path
    | none =>
      match originPath (siteOrigin rootUrl) r with
      | some path => Plain path ∧ path[1]? ≠ some 47
      | none => ∀ path ∈ hostPath r, Plain path

theorem location_redirectRefererSafe (rootUrl : Bytes) (referer : Option Bytes) (fallback : Bytes) :
    (redirectRefererSafe rootUrl referer fallback).location =
      some ((takenPath rootUrl referer).getD fallback) := rfl

theorem sameSitePath_iff {path : Bytes} (h : path.head? = some 47) :
    SameSitePath path ↔ Plain path ∧ path[1]? ≠ some 47 := by
  unfold SameSitePath Plain
  constructor
  · rintro ⟨-, hslash, hplain⟩
    exact ⟨hplain, hslash⟩
  · rintro ⟨hplain, hslash⟩
    exact ⟨h, hslash, hplain⟩

theorem localPath_eq_some {r path : Bytes} (h : localPath r = some path) :
    path.head? = some 47 ∧ path[1]? ≠ some 47 := by
  unfold localPath at h
  split_ifs at h with hlocal
  rw [← Option.some.inj h]
  exact ⟨hlocal.1, hlocal.2.1⟩

theorem originPath_eq_some {origin r path : Bytes} (h : originPath origin r = some path) :
    path.head? = some 47 := by
  unfold originPath at h
  dsimp only at h
  split_ifs at h with horigin hslash hasset hasset
  · rw [← Option.some.inj h]
    exact hslash
  · rw [← Option.some.inj h]
    rfl

theorem hostPath_eq_some {r path : Bytes} (h : hostPath r = some path) :
    path.head? = some 47 ∧ path[1]? ≠ some 47 := by
  unfold hostPath at h
  split at h
  · exact nomatch h
  · dsimp only at h
    split_ifs at h with hhost
    rw [← Option.some.inj h]
    exact ⟨hhost.1, hhost.2.1⟩

/-- The location is a path of the same site exactly when what is taken from the referer is
plain: the source looks for a second slash in two of the three ways, and for a backslash or a
line break in none. -/
theorem sameSite_iff {fallback : Bytes} (hfallback : SameSitePath fallback) (rootUrl : Bytes)
    (referer : Option Bytes) :
    (∃ path, (redirectRefererSafe rootUrl referer fallback).location = some path ∧
        SameSitePath path) ↔ RefererPlain rootUrl referer := by
  have hlocation : (∃ path, (redirectRefererSafe rootUrl referer fallback).location = some path ∧
      SameSitePath path) ↔ SameSitePath ((takenPath rootUrl referer).getD fallback) := by
    rw [location_redirectRefererSafe]
    constructor
    · rintro ⟨path, hpath, hsame⟩
      rwa [Option.some.inj hpath]
    · exact fun hsame => ⟨_, rfl, hsame⟩
  rw [hlocation]
  cases referer with
  | none => exact iff_of_true hfallback fun _ h => nomatch h
  | some r =>
    have htaken : takenPath rootUrl (some r) = if r = [] then none
        else (localPath r).or ((originPath (siteOrigin rootUrl) r).or (hostPath r)) := rfl
    rw [htaken]
    by_cases hne : r = []
    · rw [if_pos hne]
      refine iff_of_true hfallback ?_
      rintro _ ⟨⟩ h
      exact absurd hne h
    · have hplain : RefererPlain rootUrl (some r) ↔
          match localPath r with
          | some path => Plain path
          | none =>
            match originPath (siteOrigin rootUrl) r with
            | some path => Plain path ∧ path[1]? ≠ some 47
            | none => ∀ path ∈ hostPath r, Plain path := by
        constructor
        · exact fun h => h r rfl hne
        · rintro h _ ⟨⟩ -
          exact h
      rw [if_neg hne, hplain]
      cases hlocal : localPath r with
      | some path =>
        rcases localPath_eq_some hlocal with ⟨hhead, hslash⟩
        rw [Option.some_or, Option.getD_some, sameSitePath_iff hhead]
        exact and_iff_left hslash
      | none =>
        rw [Option.none_or]
        cases horigin : originPath (siteOrigin rootUrl) r with
        | some path =>
          rw [Option.some_or, Option.getD_some, sameSitePath_iff (originPath_eq_some horigin)]
        | none =>
          rw [Option.none_or]
          cases hhost : hostPath r with
          | some path =>
            rcases hostPath_eq_some hhost with ⟨hhead, hslash⟩
            rw [Option.getD_some, sameSitePath_iff hhead]
            constructor
            · rintro ⟨hpath, -⟩ _ ⟨⟩
              exact hpath
            · exact fun h => ⟨h path rfl, hslash⟩
          | none => exact iff_of_true hfallback fun _ h => nomatch h

def blogRoot : Bytes := bytes "https://blog.example/"

theorem sameSite_of_post : (∃ path, (redirectRefererSafe blogRoot
      (some (bytes "https://blog.example/post/hello")) (bytes "/")).location = some path ∧
        SameSitePath path) ↔ RefererPlain blogRoot (some (bytes "https://blog.example/post/hello")) :=
  sameSite_iff (by decide) blogRoot _

/-- Behind the origin of the site a second slash names another host, a backslash after the first
slash does so too, and a line break gets into the header. -/
theorem open_redirects :
    SameSitePath (bytes "/") ∧
      (redirectRefererSafe blogRoot (some (bytes "https://blog.example//evil.example"))
        (bytes "/")).location = some (bytes "//evil.example") ∧
      (redirectRefererSafe blogRoot (some (bytes "/\\evil.example")) (bytes "/")).location =
        some (bytes "/\\evil.example") ∧
      (redirectRefererSafe blogRoot (some (bytes "/a\r\nX: y")) (bytes "/")).location =
        some (bytes "/a\r\nX: y") ∧
      ¬ SameSitePath (bytes "//evil.example") ∧ ¬ SameSitePath (bytes "/\\evil.example") ∧
      ¬ SameSitePath (bytes "/a\r\nX: y") := by
  refine ⟨by decide, by decide, by decide, by decide, by decide, by decide, by decide⟩

end FlyBoard.Redirect

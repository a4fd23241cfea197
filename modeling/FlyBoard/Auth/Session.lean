import FlyBoard.Db.User
import FlyBoard.Lib.Scan

/-!
# Session verification (`src/auth/auth.c`)

`auth_jwt_verify_from_request` walks the Cookie headers and then the
`Authorization: Bearer` header, and fills the caller's user id and role buffers
from the first token whose account is still good. The token check
(`auth_verify_token`) writes the buffers itself, before the account check
(`auth_current_account`) has had its say.

The JWT library and the header lookup of the web framework are parameters of
`AuthEnv`; nothing below depends on how they decide.
-/

namespace FlyBoard.Auth

open Bytes Scan

/-- A header of the request; either part may be missing. -/
structure HeaderNode where
  key : Option Bytes
  value : Option Bytes

/-- The request as the auth layer reads it. -/
structure Request where
  headers : List HeaderNode
  db : Option UserLookup

/-- The process globals and the library functions that the auth layer uses. -/
structure AuthEnv where
  /-- `cwist_jwt_verify` followed by `cwist_jwt_claims_get`. -/
  jwtVerify : Bytes → Bytes → Option (Bytes → Option Bytes)
  /-- `cwist_http_header_get`. -/
  headerGet : List HeaderNode → Bytes → Option Bytes
  jwtSecret : Option Bytes
  siteAdminUid : Int
  adminUsername : Bytes
  communityRoles : Bool

/-- What a token that passes the token check says about its bearer. -/
structure Identity where
  uid : Int
  role : Bytes
deriving DecidableEq

/-! ## The token check -/

/-- `auth_verify_token`. -/
def authVerifyToken (env : AuthEnv) (token secret : Bytes) : Option Identity :=
  if token.isEmpty || 4096 ≤ token.length then none
  else
    match env.jwtVerify token secret with
    | none => none
    | some claims =>
      match claims (bytes "sub"), claims (bytes "role") with
      | some sub, some role =>
        let uid := atoi sub
        -- before v2 the admin.settings account was always issued sub 1
        let legacySiteAdmin := (claims (bytes "v")).isNone && uid == 1 &&
          env.siteAdminUid != 1 && role == bytes "admin" &&
          claims (bytes "username") == some env.adminUsername
        if 0 < uid && !legacySiteAdmin then some ⟨uid, role⟩ else none
      | _, _ => none

/-- `hex_val`. -/
def hexVal (c : UInt8) : Option UInt8 :=
  if 48 ≤ c ∧ c ≤ 57 then some (c - 48)
  else if 97 ≤ c ∧ c ≤ 102 then some (c - 97 + 10)
  else if 65 ≤ c ∧ c ≤ 70 then some (c - 65 + 10)
  else none

/-- `url_decode_inplace`. -/
def urlDecode : Bytes → Bytes
  | c :: h :: l :: rest =>
    if c == 37 then
      match hexVal h, hexVal l with
      | some x, some y => (x <<< 4 ||| y) :: urlDecode rest
      | _, _ => c :: urlDecode (h :: l :: rest)
    else (if c == 43 then 32 else c) :: urlDecode (h :: l :: rest)
  | c :: rest => (if c == 43 then 32 else c) :: urlDecode rest
  | [] => []

/-- `auth_verify_token_len`. -/
def authVerifyTokenLen (env : AuthEnv) (secret token : Bytes) : Option Identity :=
  if token.isEmpty || 4096 ≤ token.length then none
  else
    let p := trimLeft (fun c => isBlank c || c == 34) token
    let p := trimRight (fun c => isBlank c || c == 13 || c == 10 || c == 34) p
    if p.isEmpty then none
    else
      -- a decoded %00 ends the C string that auth_verify_token sees
      let p := if 37 ∈ cstr p then cstr (urlDecode p) else cstr p
      authVerifyToken env p secret

/-! ## The account check -/

/-- The outcome of `auth_current_account`: `accepted none` leaves the role of
the token in place. -/
inductive AccountCheck where
  | rejected
  | accepted (role : Option Bytes)
deriving DecidableEq

/-- `auth_is_site_admin`. -/
def authIsSiteAdmin (env : AuthEnv) (uid : Int) : Bool := 0 < uid && uid == env.siteAdminUid

/-- `auth_current_account`. -/
def authCurrentAccount (env : AuthEnv) (req : Request) (uid : Int) : AccountCheck :=
  match req.db with
  | none => if env.communityRoles then .rejected else .accepted none
  | some lookup =>
    match lookup uid with
    | none => .rejected
    | some user =>
      let activeOk := match user.active with
        | .num n => n != 0
        | _ => true
      let ghostedOk := match user.ghosted with
        | .num n => n == 0
        | _ => true
      match user.role with
      | .str role =>
        if activeOk && ghostedOk then
          .accepted (some (if authIsSiteAdmin env uid then bytes "admin" else role))
        else .rejected
      | _ => .rejected

/-! ## Cookies -/

/-- A cookie of a Cookie header; a cookie without `=` has an empty value. -/
structure Cookie where
  name : Bytes
  value : Bytes

/-- Trailing blanks and one pair of quotes off a cookie value or a bearer token. -/
def trimValue (raw : Bytes) : Bytes :=
  let v := trimRight (fun c => isBlank c || c == 13 || c == 10) raw
  if 2 ≤ v.length ∧ v.head? = some 34 ∧ v.getLast? = some 34 then (v.drop 1).dropLast else v

/-- A byte that neither ends a cookie's name nor the cookie. -/
def isNameByte (c : UInt8) : Bool := c != 61 && c != 59

/-- `auth_cookie_iter_next`: the next cookie and where the cursor then stands. -/
def authCookieIterNext (cursor : Bytes) : Option (Cookie × Bytes) :=
  match trimLeft isBlank cursor with
  | [] => none
  | p =>
    let name := p.takeWhile isNameByte
    let p := p.dropWhile isNameByte
    let skipSemicolon (q : Bytes) : Bytes := if q.head? = some 59 then q.drop 1 else q
    if p.head? = some 61 then
      let p := trimLeft isBlank (p.drop 1)
      some (⟨trimRight isBlank name, trimValue (p.takeWhile (· != 59))⟩,
        skipSemicolon (p.dropWhile (· != 59)))
    else some (⟨trimRight isBlank name, []⟩, skipSemicolon p)

/-- The cookies of a Cookie header: the loop
`while (auth_cookie_iter_next(&cursor, &cookie))`. -/
def cookies (header : Bytes) : List Cookie := (scan authCookieIterNext header).1

theorem authCookieIterNext_advances : Advances authCookieIterNext := by
  intro cursor c rest h
  have htrim : (trimLeft isBlank cursor).length ≤ cursor.length := List.length_dropWhile_le _ _
  unfold authCookieIterNext at h
  rcases hp : trimLeft isBlank cursor with _ | ⟨d, p⟩
  · simp [hp] at h
  · rw [hp, List.length_cons] at htrim
    simp only [hp] at h
    have hdrop : ∀ f : UInt8 → Bool, (p.dropWhile f).length ≤ p.length :=
      fun f => List.length_dropWhile_le _ _
    have hskip : ∀ q : Bytes, (if q.head? = some 59 then q.drop 1 else q).length ≤ q.length := by
      intro q
      split <;> simp
    split at h
    · -- a cookie with a value: at least the `=` is consumed
      obtain ⟨-, rfl⟩ := Prod.mk.inj (Option.some.inj h)
      have h1 := hskip ((trimLeft isBlank
        (((d :: p).dropWhile isNameByte).drop 1)).dropWhile (· != 59))
      have h2 : ∀ q : Bytes, ((trimLeft isBlank q).dropWhile (· != 59)).length ≤ q.length :=
        fun q => (List.length_dropWhile_le _ _).trans (List.length_dropWhile_le _ _)
      have h3 := h2 (((d :: p).dropWhile isNameByte).drop 1)
      have h4 : (((d :: p).dropWhile isNameByte).drop 1).length ≤ p.length := by
        have h := List.length_dropWhile_le isNameByte (d :: p)
        rw [List.length_drop]
        simp only [List.length_cons] at h
        omega
      omega
    · -- a cookie without a value: the name or the `;` is consumed
      rename_i hne
      obtain ⟨-, rfl⟩ := Prod.mk.inj (Option.some.inj h)
      by_cases hd : isNameByte d = true
      · rw [List.dropWhile_cons_of_pos hd] at hne ⊢
        have h1 := hskip (p.dropWhile isNameByte)
        have h2 := hdrop isNameByte
        omega
      · rw [List.dropWhile_cons_of_neg hd] at hne ⊢
        have hd59 : d = 59 := by
          simp only [isNameByte, Bool.and_eq_true, bne_iff_ne, ne_eq, not_and, not_not] at hd
          refine hd fun h => hne ?_
          simp [h]
        simp only [hd59, List.head?_cons, if_true, List.drop_succ_cons, List.drop_zero]
        omega

/-- The walk goes on behind every cookie: `cookies` is not cut short. -/
theorem cookies_of_next {cursor rest : Bytes} {c : Cookie}
    (h : authCookieIterNext cursor = some (c, rest)) : cookies cursor = c :: cookies rest := by
  rw [cookies, scan_some authCookieIterNext_advances h, cookies]

/-- `is_auth_cookie_name`. -/
def isAuthCookieName (name : Bytes) : Bool :=
  name == bytes "docker_blog_session" || name == bytes "jwt_access"

/-! ## The caller's buffers -/

/-- The caller's output buffers. A missing buffer (NULL, or a role buffer of
length 0) is replaced by a local one and nothing comes back to the caller. -/
structure OutBufs where
  uid : Option Int
  role : Option Bytes
  roleLen : Nat
deriving DecidableEq

namespace OutBufs

/-- `snprintf(out_role, role_len, "%s", role)`. -/
def writeRole (b : OutBufs) (role : Bytes) : OutBufs :=
  if b.roleLen = 0 then b else { b with role := b.role.map fun _ => snprintfS b.roleLen role }

/-- The writes of `auth_verify_token`. -/
def write (b : OutBufs) (id : Identity) : OutBufs :=
  { b with uid := b.uid.map fun _ => id.uid }.writeRole id.role

theorem write_write (b : OutBufs) (id₁ id₂ : Identity) : (b.write id₁).write id₂ = b.write id₂ := by
  obtain ⟨uid, role, roleLen⟩ := b
  by_cases h : roleLen = 0
  · simp [write, writeRole, h, Function.comp_def]
  · simp [write, writeRole, h, Function.comp_def]

end OutBufs

/-! ## The walk over the request -/

section Walk

variable (env : AuthEnv) (req : Request) (secret : Bytes)

/-- One `auth_verify_token_len(..) && auth_current_account(..)` of the walk. -/
def tryToken (b : OutBufs) (token : Bytes) : Bool × OutBufs :=
  match authVerifyTokenLen env secret token with
  | none => (false, b)
  | some id =>
    match authCurrentAccount env req id.uid with
    | .rejected => (false, b.write id)
    | .accepted none => (true, b.write id)
    | .accepted (some role) => (true, (b.write id).writeRole role)

def tryCookies : OutBufs → List Cookie → Bool × OutBufs
  | b, [] => (false, b)
  | b, c :: cs =>
    if !isAuthCookieName c.name || c.value.isEmpty then tryCookies b cs
    else
      match tryToken env req secret b c.value with
      | (true, b') => (true, b')
      | (false, b') => tryCookies b' cs

def tryHeaders : OutBufs → List HeaderNode → Bool × OutBufs
  | b, [] => (false, b)
  | b, h :: hs =>
    match h.key, h.value with
    | some key, some value =>
      if !eqCI key (bytes "Cookie") then tryHeaders b hs
      else
        match tryCookies env req secret b (cookies value) with
        | (true, b') => (true, b')
        | (false, b') => tryHeaders b' hs
    | _, _ => tryHeaders b hs

/-- The token of an `Authorization: Bearer` header value. -/
def bearerToken (header : Bytes) : Bytes :=
  let t := trimLeft isBlank (header.drop 7)
  trimValue t

end Walk

/-- `auth_jwt_verify_from_request`. -/
def authJwtVerifyFromRequest (env : AuthEnv) (req : Request) (b : OutBufs) : Bool × OutBufs :=
  match env.jwtSecret with
  | none => (false, b)
  | some secret =>
    match tryHeaders env req secret b req.headers with
    | (true, b') => (true, b')
    | (false, b') =>
      match env.headerGet req.headers (bytes "Authorization") with
      | none => (false, b')
      | some header =>
        if startsWithCI header (bytes "Bearer ") then
          tryToken env req secret b' (bearerToken header)
        else (false, b')

/-- `auth_is_logged_in`. -/
def authIsLoggedIn (env : AuthEnv) (req : Request) (b : OutBufs) : Bool × OutBufs :=
  authJwtVerifyFromRequest env req b

/-! ## The walk as one list of candidate tokens -/

def cookieTokens (header : Bytes) : List Bytes :=
  ((cookies header).filter fun c => isAuthCookieName c.name && !c.value.isEmpty).map (·.value)

def headerTokens (hs : List HeaderNode) : List Bytes :=
  hs.flatMap fun h =>
    match h.key, h.value with
    | some key, some value => if eqCI key (bytes "Cookie") then cookieTokens value else []
    | _, _ => []

/-- Every token the walk may look at, in the order in which it does. -/
def candidates (env : AuthEnv) (req : Request) : List Bytes :=
  headerTokens req.headers ++
    match env.headerGet req.headers (bytes "Authorization") with
    | some header => if startsWithCI header (bytes "Bearer ") then [bearerToken header] else []
    | none => []

section Candidates

variable (env : AuthEnv) (req : Request) (secret : Bytes)

def tryTokens : OutBufs → List Bytes → Bool × OutBufs
  | b, [] => (false, b)
  | b, t :: ts =>
    match tryToken env req secret b t with
    | (true, b') => (true, b')
    | (false, b') => tryTokens b' ts

theorem tryTokens_append (b : OutBufs) (ts us : List Bytes) :
    tryTokens env req secret b (ts ++ us) =
      match tryTokens env req secret b ts with
      | (true, b') => (true, b')
      | (false, b') => tryTokens env req secret b' us := by
  induction ts generalizing b with
  | nil => rfl
  | cons t ts ih =>
    simp only [List.cons_append, tryTokens]
    rcases tryToken env req secret b t with ⟨ok, b'⟩
    cases ok with
    | true => rfl
    | false => exact ih b'

theorem tryCookies_eq (b : OutBufs) (cs : List Cookie) :
    tryCookies env req secret b cs =
      tryTokens env req secret b
        ((cs.filter fun c => isAuthCookieName c.name && !c.value.isEmpty).map (·.value)) := by
  induction cs generalizing b with
  | nil => rfl
  | cons c cs ih =>
    by_cases h : isAuthCookieName c.name && !c.value.isEmpty
    · have hskip : (!isAuthCookieName c.name || c.value.isEmpty) = false := by
        simp only [Bool.and_eq_true, Bool.not_eq_true'] at h
        simp [h.1, h.2]
      simp only [tryCookies, hskip, List.filter_cons, h, if_true, List.map_cons, tryTokens]
      rcases tryToken env req secret b c.value with ⟨ok, b'⟩
      cases ok with
      | true => rfl
      | false => exact ih b'
    · have hskip : (!isAuthCookieName c.name || c.value.isEmpty) = true := by
        simp only [Bool.and_eq_true, Bool.not_eq_true', not_and, Bool.not_eq_false] at h
        by_cases hn : isAuthCookieName c.name
        · simp [h hn]
        · simp [hn]
      simp only [tryCookies, hskip, List.filter_cons, h, if_true]
      exact ih b

theorem tryHeaders_eq (b : OutBufs) (hs : List HeaderNode) :
    tryHeaders env req secret b hs = tryTokens env req secret b (headerTokens hs) := by
  induction hs generalizing b with
  | nil => rfl
  | cons h hs ih =>
    rcases h with ⟨_ | key, _ | value⟩
    · exact ih b
    · exact ih b
    · exact ih b
    · by_cases hk : eqCI key (bytes "Cookie")
      · have hts : headerTokens (⟨some key, some value⟩ :: hs) =
            cookieTokens value ++ headerTokens hs := by simp [headerTokens, hk]
        rw [hts, tryTokens_append]
        simp only [tryHeaders, hk, Bool.not_true, tryCookies_eq, cookieTokens]
        split <;> simp_all
      · have hts : headerTokens (⟨some key, some value⟩ :: hs) = headerTokens hs := by
          simp [headerTokens, hk]
        rw [hts, ← ih b]
        simp [tryHeaders, hk]

end Candidates

theorem authJwtVerifyFromRequest_eq (env : AuthEnv) (req : Request) (b : OutBufs) :
    authJwtVerifyFromRequest env req b =
      match env.jwtSecret with
      | none => (false, b)
      | some secret => tryTokens env req secret b (candidates env req) := by
  unfold authJwtVerifyFromRequest candidates
  cases env.jwtSecret with
  | none => rfl
  | some secret =>
    simp only [tryTokens_append, tryHeaders_eq]
    rcases tryTokens env req secret b (headerTokens req.headers) with ⟨ok, b'⟩
    cases ok with
    | true => rfl
    | false =>
      cases env.headerGet req.headers (bytes "Authorization") with
      | none => rfl
      | some header =>
        by_cases hb : startsWithCI header (bytes "Bearer ")
        · simp only [hb, if_true, tryTokens]
          rcases tryToken env req secret b' (bearerToken header) with ⟨_ | _, b''⟩ <;> rfl
        · simp [hb, tryTokens]

/-! ## What a failed authentication leaves behind -/

section Failure

variable (env : AuthEnv) (req : Request) (secret : Bytes)

def Granted (token : Bytes) : Prop :=
  ∃ id, authVerifyTokenLen env secret token = some id ∧
    authCurrentAccount env req id.uid ≠ .rejected

def lastIdentity (ts : List Bytes) : Option Identity :=
  (ts.filterMap (authVerifyTokenLen env secret)).getLast?

variable {env req secret} {b : OutBufs} {t : Bytes} {ts : List Bytes}

theorem tryToken_fst :
    (tryToken env req secret b t).1 = true ↔ Granted env req secret t := by
  unfold tryToken Granted
  cases authVerifyTokenLen env secret t with
  | none => simp
  | some id =>
    rcases hc : authCurrentAccount env req id.uid with _ | _ | role
    · simp [hc]
    · simp [hc]
    · simp [hc]

theorem tryToken_snd_of_not_granted (h : ¬ Granted env req secret t) :
    (tryToken env req secret b t).2 =
      match authVerifyTokenLen env secret t with
      | none => b
      | some id => b.write id := by
  unfold tryToken
  cases ht : authVerifyTokenLen env secret t with
  | none => rfl
  | some id =>
    have hr : authCurrentAccount env req id.uid = .rejected := by
      by_contra hne
      exact h ⟨id, ht, hne⟩
    simp [hr]

theorem tryTokens_fst :
    (tryTokens env req secret b ts).1 = true ↔ ∃ t ∈ ts, Granted env req secret t := by
  induction ts generalizing b with
  | nil => simp [tryTokens]
  | cons t ts ih =>
    simp only [tryTokens, List.mem_cons, exists_eq_or_imp]
    rw [← tryToken_fst (b := b), ← ih (b := (tryToken env req secret b t).2)]
    rcases tryToken env req secret b t with ⟨_ | _, b'⟩ <;> simp

/-- A walk that grants nothing leaves the identity of the last token that passed
the token check in the buffers. -/
theorem tryTokens_snd_of_not_granted (h : ∀ t ∈ ts, ¬ Granted env req secret t) :
    (tryTokens env req secret b ts).2 =
      match lastIdentity env secret ts with
      | none => b
      | some id => b.write id := by
  induction ts generalizing b with
  | nil => rfl
  | cons t ts ih =>
    have ht : ¬ Granted env req secret t := h t (List.mem_cons_self ..)
    have hts : ∀ u ∈ ts, ¬ Granted env req secret u := fun u hu => h u (List.mem_cons_of_mem _ hu)
    have hfst : (tryToken env req secret b t).1 = false := by
      rw [← Bool.not_eq_true, tryToken_fst]
      exact ht
    have hsnd := tryToken_snd_of_not_granted (b := b) ht
    have hrun : tryTokens env req secret b (t :: ts) =
        tryTokens env req secret (tryToken env req secret b t).2 ts := by
      rw [tryTokens]
      rcases hx : tryToken env req secret b t with ⟨_ | _, b'⟩
      · rfl
      · simp [hx] at hfst
    rw [hrun, ih hts, hsnd, lastIdentity, lastIdentity]
    -- a later identity overwrites the one this token has left
    cases hv : authVerifyTokenLen env secret t with
    | none => simp [hv]
    | some id =>
      rw [List.filterMap_cons_some hv]
      cases hl : (ts.filterMap (authVerifyTokenLen env secret)).getLast? with
      | none => simp [List.getLast?_cons, hl]
      | some id' => simp [List.getLast?_cons, hl, OutBufs.write_write]

theorem uid_pos_of_authVerifyTokenLen {id : Identity}
    (h : authVerifyTokenLen env secret t = some id) : 0 < id.uid := by
  have hv : ∀ p, authVerifyToken env p secret = some id → 0 < id.uid := by
    intro p hp
    unfold authVerifyToken at hp
    split at hp
    · simp at hp
    · split at hp
      · simp at hp
      · split at hp
        · simp only [Option.ite_none_right_eq_some, Bool.and_eq_true, decide_eq_true_eq] at hp
          obtain ⟨⟨hpos, -⟩, hid⟩ := hp
          rw [← Option.some.inj hid]
          exact hpos
        · simp at hp
  unfold authVerifyTokenLen at h
  split at h
  · simp at h
  · simp only at h
    split at h
    · simp at h
    · exact hv _ h

end Failure

/-- A failed call leaves the caller's buffers as they were. -/
def FailureKeepsBuffers (env : AuthEnv) (req : Request) (b : OutBufs) : Prop :=
  (authIsLoggedIn env req b).1 = false → (authIsLoggedIn env req b).2 = b

/-- The buffers of every handler: user id 0 and an empty role of 32 bytes. -/
def handlerBufs : OutBufs := ⟨some 0, some [], 32⟩

/-- Whom `handler_comment_new_post` takes the visitor for: it calls
`auth_is_logged_in` and reads the buffers without looking at the answer. -/
def commentVisitor (env : AuthEnv) (req : Request) : Option Int × Option Bytes :=
  let b := (authIsLoggedIn env req handlerBufs).2
  (b.uid, b.role)

def anonymous : Option Int × Option Bytes := (some 0, some [])

/-- A call that fails keeps the buffers exactly when no token gets past the token
check, or the last one that does carries what the buffers already hold; and the
comment handler sees an anonymous visitor exactly when no token does. -/
theorem failureKeepsBuffers_iff (env : AuthEnv) (req : Request) (b : OutBufs) :
    (FailureKeepsBuffers env req b ↔
      ∀ secret, env.jwtSecret = some secret →
        (∃ t ∈ candidates env req, Granted env req secret t) ∨
        ∀ id, lastIdentity env secret (candidates env req) = some id → b.write id = b) ∧
    (((authIsLoggedIn env req handlerBufs).1 = false → commentVisitor env req = anonymous) ↔
      ∀ secret, env.jwtSecret = some secret →
        (∃ t ∈ candidates env req, Granted env req secret t) ∨
        ∀ t ∈ candidates env req, authVerifyTokenLen env secret t = none) := by
  unfold FailureKeepsBuffers commentVisitor authIsLoggedIn
  simp only [authJwtVerifyFromRequest_eq]
  cases hs : env.jwtSecret with
  | none => simp [handlerBufs, anonymous]
  | some secret =>
    simp only [Option.some.injEq, forall_eq']
    by_cases hg : ∃ t ∈ candidates env req, Granted env req secret t
    · -- the call succeeds, so both sides hold
      have hok : ∀ b, (tryTokens env req secret b (candidates env req)).1 = true :=
        fun b => tryTokens_fst.mpr hg
      simp [hok, hg]
    · have hfail : ∀ b, (tryTokens env req secret b (candidates env req)).1 = false := by
        intro b
        rw [← Bool.not_eq_true, tryTokens_fst]
        exact hg
      have hnone : ∀ t ∈ candidates env req, ¬ Granted env req secret t :=
        fun t ht hgt => hg ⟨t, ht, hgt⟩
      simp only [hfail, hg, false_or, forall_const, tryTokens_snd_of_not_granted hnone]
      cases hl : lastIdentity env secret (candidates env req) with
      | none =>
        have hall : ∀ t ∈ candidates env req, authVerifyTokenLen env secret t = none := by
          simpa [lastIdentity] using hl
        simpa [handlerBufs, anonymous] using hall
      | some id =>
        -- the last identity stands in the buffers, and its uid is not 0
        obtain ⟨t, ht, hid⟩ : ∃ t ∈ candidates env req,
            authVerifyTokenLen env secret t = some id :=
          List.mem_filterMap.mp (List.mem_of_getLast? hl)
        have hpos := uid_pos_of_authVerifyTokenLen hid
        constructor
        · simp
        · constructor
          · intro hanon
            have huid : id.uid = 0 := by
              simpa [handlerBufs, anonymous, OutBufs.write, OutBufs.writeRole] using
                congrArg Prod.fst hanon
            omega
          · intro hall
            rw [hall t ht] at hid
            simp at hid

/-- A server with one deactivated account (id 2), and a request that still
carries its session cookie. -/
def deactivatedEnv : AuthEnv where
  jwtVerify := fun token secret =>
    if token = bytes "t2" ∧ secret = bytes "k" then
      some fun claim =>
        if claim = bytes "sub" then some (bytes "2")
        else if claim = bytes "role" then some (bytes "admin")
        else if claim = bytes "username" then some (bytes "mallory")
        else if claim = bytes "v" then some (bytes "2")
        else none
    else none
  headerGet := fun hs name =>
    (hs.find? fun h => h.key.any fun k => eqCI k name).bind (·.value)
  jwtSecret := some (bytes "k")
  siteAdminUid := 1
  adminUsername := bytes "admin"
  communityRoles := false

@[inherit_doc deactivatedEnv]
def deactivatedRequest : Request where
  headers := [⟨some (bytes "Cookie"), some (bytes "docker_blog_session=t2")⟩]
  db := some fun id =>
    if id = 2 then
      some ⟨.str (bytes "mallory"), .str [], .str (bytes "user"), .num 0, .num 0, .null, .num 0,
        .null⟩
    else none

/-- The call fails, and yet the handler acts for user 2 in the role of the
token, which is more than the account ever had. -/
theorem deactivated_account_stays_identified :
    (authIsLoggedIn deactivatedEnv deactivatedRequest handlerBufs).1 = false ∧
    ¬ FailureKeepsBuffers deactivatedEnv deactivatedRequest handlerBufs ∧
    commentVisitor deactivatedEnv deactivatedRequest = (some 2, some (bytes "admin")) := by
  refine ⟨by decide +kernel, ?_, by decide +kernel⟩
  intro h
  exact absurd (h (by decide +kernel)) (by decide +kernel)

end FlyBoard.Auth

import FlyBoard.Auth.Session
import FlyBoard.Lib.Json

/-!
# Session and pending tokens (`src/auth/auth.c`, `src/handlers/auth.c`)

A session token and the token that stands between the password and the second factor are
signed with one secret, and both carry the user id in `sub`. Their payloads are JSON objects
that are put together by hand, the one of a session with the user's name and role in it.

Signing is a parameter like verification; `Faithful` says what is relied on: verification of
a token gives the claims of the payload that was signed.
-/

namespace FlyBoard.Tokens

open Bytes Auth Json

/-! ## Payloads -/

/-- `append_json_escaped` -/
def appendJsonEscaped : Option Bytes → Bytes
  | none => []
  | some s => s.flatMap fun c =>
    if c = 34 then bytes "\\\""
    else if c = 92 then bytes "\\\\"
    else if c < 32 then bytes "\\u" ++ hex 4 c.toNat
    else [c]

/-- `AUTH_TIME_LEEWAY_SECONDS` -/
def timeLeewaySeconds : ℤ := 300

/-- `AUTH_SESSION_LIFETIME` -/
def sessionLifetime : ℤ := 43200

/-- The payload that `auth_jwt_issue` builds. -/
def sessionPayload (userId : ℤ) (username role : Option Bytes) (now : ℤ) : Bytes :=
  let issuedAt := now - timeLeewaySeconds
  let exp := now + sessionLifetime + timeLeewaySeconds
  let payload := bytes "\x7b\"sub\":\"" ++ decimalInt userId
  let payload := payload ++ bytes "\",\"username\":\"" ++ appendJsonEscaped username
  let payload := payload ++ bytes "\",\"role\":\"" ++ appendJsonEscaped role
  let payload := payload ++ bytes "\",\"iat\":" ++ decimalInt issuedAt
  let payload := payload ++ bytes ",\"nbf\":" ++ decimalInt issuedAt
  let payload := payload ++ bytes ",\"exp\":" ++ decimalInt exp
  payload ++ bytes ",\"v\":\"2\"\x7d"

/-- The payload of a pending token, `char payload[96]` of `handler_login_post`. -/
def pendingPayload (userId : ℤ) : Bytes :=
  snprintfS 96 (bytes "\x7b\"p\":\"2fa\",\"sub\":\"" ++ decimalInt userId ++ bytes "\"\x7d")

section Issue

variable (env : AuthEnv) (sign : (payload secret : Bytes) → (lifetime : ℤ) → Option Bytes)

/-- `auth_jwt_issue` -/
def authJwtIssue (userId : ℤ) (username role : Option Bytes) (now : ℤ) : Option Bytes :=
  match env.jwtSecret with
  | none => none
  | some secret => sign (sessionPayload userId username role now) secret 0

/-- The token that `handler_login_post` issues before the second factor. -/
def issuePending (userId : ℤ) : Option Bytes :=
  match env.jwtSecret with
  | none => none
  | some secret => sign (pendingPayload userId) secret 300

/-- The user id that `handler_login_2fa_post` takes from a pending token, unless it fails. -/
def login2faUser (pending : Option Bytes) : Option ℤ :=
  match pending, env.jwtSecret with
  | some token, some secret =>
    match env.jwtVerify token secret with
    | none => none
    | some claims =>
      if claims (bytes "p") = some (bytes "2fa") then
        match claims (bytes "sub") with
        | some sub => some (atoi sub)
        | none => some 0
      else none
  | _, _ => none

end Issue

/-! ## Faithful signatures -/

/-- The registered claims besides `sub`, which a library may set by itself. -/
def registeredClaims : List Bytes :=
  [bytes "iss", bytes "aud", bytes "exp", bytes "nbf", bytes "iat", bytes "jti"]

/-- No two members have one name, in whatever case. -/
def DistinctNames (members : List (Bytes × Value)) : Prop :=
  (members.map Prod.fst).Pairwise fun n n' => eqCI n n' = false

/-- What verification says of a token that was signed with the same secret: the texts of the
payload are its claims, and there are no others than the library's own. -/
structure Faithful (sign : (payload secret : Bytes) → (lifetime : ℤ) → Option Bytes)
    (verify : Bytes → Bytes → Option (Bytes → Option Bytes)) : Prop where
  text : ∀ {payload secret lifetime token claims members},
    sign payload secret lifetime = some token → verify token secret = some claims →
    parse payload = some (.obj members) → DistinctNames members →
    ∀ name s, name ∉ registeredClaims → (name, .str s) ∈ members → 0 ∉ s → claims name = some s
  absent : ∀ {payload secret lifetime token claims members},
    sign payload secret lifetime = some token → verify token secret = some claims →
    parse payload = some (.obj members) → DistinctNames members →
    ∀ name, name ∉ registeredClaims → (∀ n ∈ members.map Prod.fst, eqCI n name = false) →
      claims name = none

/-! ## What the payloads say -/

def sessionMembers (userId : ℤ) (username role : Bytes) (now : ℤ) : List (Bytes × Scalar) :=
  [(bytes "sub", .str (decimalInt userId)), (bytes "username", .str username),
    (bytes "role", .str role), (bytes "iat", .int (now - 300)), (bytes "nbf", .int (now - 300)),
    (bytes "exp", .int (now + 43500)), (bytes "v", .str (bytes "2"))]

def pendingMembers (userId : ℤ) : List (Bytes × Scalar) :=
  [(bytes "p", .str (bytes "2fa")), (bytes "sub", .str (decimalInt userId))]

theorem appendJsonEscaped_eq (s : Option Bytes) : appendJsonEscaped s = escape (s.getD []) := by
  cases s with
  | none => rfl
  | some s =>
    have hbyte : ∀ c : UInt8, (if c = 34 then bytes "\\\"" else if c = 92 then bytes "\\\\"
        else if c < 32 then bytes "\\u" ++ hex 4 c.toNat else [c]) = escapeByte c := by
      intro c
      unfold escapeByte
      by_cases hquote : c = 34
      · rw [if_pos hquote, if_pos (.inl hquote), hquote]
        rfl
      · by_cases hslash : c = 92
        · rw [if_neg hquote, if_pos hslash, if_pos (.inr hslash), hslash]
          rfl
        · rw [if_neg hquote, if_neg hslash, if_neg (not_or.mpr ⟨hquote, hslash⟩)]
          rfl
    rw [appendJsonEscaped, Option.getD_some, escape]
    exact congrArg (List.flatMap · s) (funext hbyte)

theorem sessionPayload_eq (userId : ℤ) (username role : Option Bytes) (now : ℤ) :
    sessionPayload userId username role now =
      printObject (sessionMembers userId (username.getD []) (role.getD []) now) := by
  have hexp : now + sessionLifetime + timeLeewaySeconds = now + 43500 := by
    rw [sessionLifetime, timeLeewaySeconds]
    omega
  rw [sessionPayload, hexp, appendJsonEscaped_eq, appendJsonEscaped_eq]
  simp only [sessionMembers, printObject, printMembers, printMember, Scalar.print, quote,
    List.append_assoc, escape_decimalInt, List.cons_append, List.nil_append]
  rfl

theorem pendingPayload_eq {userId : ℤ} (hlow : -2 ^ 31 ≤ userId) (hhigh : userId < 2 ^ 31) :
    pendingPayload userId = printObject (pendingMembers userId) := by
  have hdigits : (decimal userId.natAbs).length ≤ 10 :=
    length_decimal_le (by decide) (by omega)
  have hlen : (decimalInt userId).length ≤ 11 := by
    unfold decimalInt
    split
    · exact Nat.succ_le_succ hdigits
    · exact Nat.le_succ_of_le hdigits
  -- the id of a user has at most ten digits, so nothing is cut
  have hfits : (bytes "\x7b\"p\":\"2fa\",\"sub\":\"" ++ decimalInt userId ++
      bytes "\"\x7d").length ≤ 95 := by
    rw [List.length_append, List.length_append]
    have hopen : (bytes "\x7b\"p\":\"2fa\",\"sub\":\"").length = 18 := rfl
    have hclose : (bytes "\"\x7d").length = 2 := rfl
    omega
  rw [pendingPayload, snprintfS, List.take_of_length_le hfits]
  simp only [pendingMembers, printObject, printMembers, printMember, Scalar.print, quote,
    List.append_assoc, escape_decimalInt, List.cons_append, List.nil_append]
  rfl

theorem printable_sessionMembers {username role : Bytes} (userId now : ℤ)
    (husername : ValidUtf8 username) (hrole : ValidUtf8 role) :
    Printable (sessionMembers userId username role now) := by
  have hsub := validUtf8_decimalInt userId
  have htwo : ValidUtf8 (bytes "2") := rfl
  unfold Printable sessionMembers
  simp only [List.forall_mem_cons]
  exact ⟨⟨rfl, hsub⟩, ⟨rfl, husername⟩, ⟨rfl, hrole⟩, ⟨rfl, trivial⟩, ⟨rfl, trivial⟩,
    ⟨rfl, trivial⟩, ⟨rfl, htwo⟩, nofun⟩

theorem printable_pendingMembers (userId : ℤ) : Printable (pendingMembers userId) := by
  have hsub := validUtf8_decimalInt userId
  have hpurpose : ValidUtf8 (bytes "2fa") := rfl
  unfold Printable pendingMembers
  simp only [List.forall_mem_cons]
  exact ⟨⟨rfl, hpurpose⟩, ⟨rfl, hsub⟩, nofun⟩

/-! ## What the tokens say -/

variable {env : AuthEnv} {sign : (payload secret : Bytes) → (lifetime : ℤ) → Option Bytes}
  {userId now : ℤ} {username role : Bytes} {token secret : Bytes} {lifetime : ℤ}
  {claims : Bytes → Option Bytes}

theorem nul_not_mem_decimalInt (n : ℤ) : 0 ∉ decimalInt n := by
  have hdigits : 0 ∉ decimal n.natAbs := not_mem_decimal (by decide)
  unfold decimalInt
  split
  · rw [List.mem_cons, not_or]
    exact ⟨by decide, hdigits⟩
  · exact hdigits

theorem Faithful.session (h : Faithful sign env.jwtVerify) (husername : ValidUtf8 username)
    (hrole : ValidUtf8 role) (hnul : 0 ∉ role)
    (hsign : sign (printObject (sessionMembers userId username role now)) secret lifetime =
      some token)
    (hverify : env.jwtVerify token secret = some claims) :
    claims (bytes "sub") = some (decimalInt userId) ∧ claims (bytes "role") = some role ∧
      claims (bytes "v") = some (bytes "2") ∧ claims (bytes "p") = none := by
  have hparse := parse_printObject (printable_sessionMembers userId now husername hrole)
  have hdistinct : DistinctNames (readMembers (sessionMembers userId username role now)) := by
    show List.Pairwise _ [bytes "sub", bytes "username", bytes "role", bytes "iat",
      bytes "nbf", bytes "exp", bytes "v"]
    decide
  have htext := h.text hsign hverify hparse hdistinct
  refine ⟨htext _ _ (by decide) ?_ (nul_not_mem_decimalInt userId),
    htext _ _ (by decide) ?_ hnul, htext _ _ (by decide) ?_ (by decide),
    h.absent hsign hverify hparse hdistinct _ (by decide) ?_⟩
  · exact List.mem_cons_self
  · exact List.mem_cons_of_mem _ (List.mem_cons_of_mem _ List.mem_cons_self)
  · exact List.mem_of_getLast? rfl
  · show ∀ n ∈ [bytes "sub", bytes "username", bytes "role", bytes "iat", bytes "nbf",
      bytes "exp", bytes "v"], eqCI n (bytes "p") = false
    decide

theorem Faithful.pending (h : Faithful sign env.jwtVerify)
    (hsign : sign (printObject (pendingMembers userId)) secret lifetime = some token)
    (hverify : env.jwtVerify token secret = some claims) :
    claims (bytes "p") = some (bytes "2fa") ∧ claims (bytes "sub") = some (decimalInt userId) ∧
      claims (bytes "role") = none := by
  have hparse := parse_printObject (printable_pendingMembers userId)
  have hdistinct : DistinctNames (readMembers (pendingMembers userId)) := by
    show List.Pairwise _ [bytes "p", bytes "sub"]
    decide
  have htext := h.text hsign hverify hparse hdistinct
  refine ⟨htext _ _ (by decide) ?_ (by decide),
    htext _ _ (by decide) ?_ (nul_not_mem_decimalInt userId),
    h.absent hsign hverify hparse hdistinct _ (by decide) ?_⟩
  · exact List.mem_cons_self
  · exact List.mem_cons_of_mem _ List.mem_cons_self
  · show ∀ n ∈ [bytes "p", bytes "sub"], eqCI n (bytes "role") = false
    decide

theorem authVerifyToken_eq (hlow : -2 ^ 31 ≤ userId) (hhigh : userId < 2 ^ 31)
    (hclaims : ∀ claims, env.jwtVerify token secret = some claims →
      claims (bytes "sub") = some (decimalInt userId) ∧ claims (bytes "role") = some role ∧
        claims (bytes "v") = some (bytes "2")) :
    authVerifyToken env token secret =
      if token ≠ [] ∧ token.length < 4096 ∧ (env.jwtVerify token secret).isSome ∧ 0 < userId
      then some ⟨userId, role⟩ else none := by
  have hsize : (token.isEmpty || decide (4096 ≤ token.length)) = true ↔
      ¬ (token ≠ [] ∧ token.length < 4096) := by
    rw [Bool.or_eq_true, List.isEmpty_iff, decide_eq_true_eq, not_and_or, not_not, not_lt]
  unfold authVerifyToken
  by_cases hgood : token ≠ [] ∧ token.length < 4096
  · rw [if_neg (fun h => hsize.mp h hgood)]
    cases hverify : env.jwtVerify token secret with
    | none => simp
    | some claims =>
      -- a token with the claim `v` is not of the time before v2
      rcases hclaims claims hverify with ⟨hsub, hrole, hv⟩
      dsimp only
      rw [hsub, hrole, hv]
      simp [atoi_decimalInt hlow hhigh, hgood]
  · rw [if_pos (hsize.mpr hgood), if_neg (fun h => hgood ⟨h.1, h.2.1⟩)]

theorem login2faUser_eq_none (hsecret : env.jwtSecret = some secret)
    (hclaims : ∀ claims, env.jwtVerify token secret = some claims → claims (bytes "p") = none) :
    login2faUser env (some token) = none := by
  unfold login2faUser
  rw [hsecret]
  dsimp only
  cases hverify : env.jwtVerify token secret with
  | none => rfl
  | some claims =>
    dsimp only
    rw [hclaims claims hverify, if_neg (by simp)]

theorem login2faUser_eq (hsecret : env.jwtSecret = some secret) (hlow : -2 ^ 31 ≤ userId)
    (hhigh : userId < 2 ^ 31)
    (hclaims : ∀ claims, env.jwtVerify token secret = some claims →
      claims (bytes "p") = some (bytes "2fa") ∧
        claims (bytes "sub") = some (decimalInt userId)) :
    login2faUser env (some token) =
      if (env.jwtVerify token secret).isSome then some userId else none := by
  unfold login2faUser
  rw [hsecret]
  dsimp only
  cases hverify : env.jwtVerify token secret with
  | none => rfl
  | some claims =>
    rcases hclaims claims hverify with ⟨hp, hsub⟩
    dsimp only
    rw [hp, if_pos rfl, hsub]
    dsimp only
    rw [atoi_decimalInt hlow hhigh]
    rfl

theorem authVerifyToken_eq_none
    (hclaims : ∀ claims, env.jwtVerify token secret = some claims →
      claims (bytes "role") = none) :
    authVerifyToken env token secret = none := by
  unfold authVerifyToken
  split
  · rfl
  · split
    · rfl
    · next claims hverify =>
      rw [hclaims claims hverify]
      split
      · next hrole => exact nomatch hrole
      · rfl

/-- For every user id, name and role that are UTF-8, the payload of a session is an object of
exactly these members. The session token is not accepted as a pending token, and where it is
accepted at all it stands for this user id and this role. The pending token stands for the
user id where a second factor is asked for, and is not accepted as a session. -/
theorem tokens_say_what_was_issued (h : Faithful sign env.jwtVerify)
    (hsecret : env.jwtSecret = some secret) (hlow : -2 ^ 31 ≤ userId) (hhigh : userId < 2 ^ 31)
    (username role : Option Bytes) (husername : ValidUtf8 (username.getD []))
    (hrole : ValidUtf8 (role.getD [])) (hnul : 0 ∉ username.getD [] ∧ 0 ∉ role.getD [])
    (now : ℤ) :
    parse (sessionPayload userId username role now) = some (.obj
      [(bytes "sub", .str (decimalInt userId)), (bytes "username", .str (username.getD [])),
        (bytes "role", .str (role.getD [])), (bytes "iat", .num (decimalInt (now - 300))),
        (bytes "nbf", .num (decimalInt (now - 300))),
        (bytes "exp", .num (decimalInt (now + 43500))), (bytes "v", .str (bytes "2"))]) ∧
      (∀ token ∈ authJwtIssue env sign userId username role now,
        login2faUser env (some token) = none ∧
          authVerifyToken env token secret =
            if token ≠ [] ∧ token.length < 4096 ∧ (env.jwtVerify token secret).isSome ∧
              0 < userId then some ⟨userId, role.getD []⟩ else none) ∧
      ∀ token ∈ issuePending env sign userId,
        authVerifyToken env token secret = none ∧
          login2faUser env (some token) =
            if (env.jwtVerify token secret).isSome then some userId else none := by
  refine ⟨?_, ?_, ?_⟩
  · rw [sessionPayload_eq]
    exact parse_printObject (printable_sessionMembers userId now husername hrole)
  · intro token htoken
    rw [authJwtIssue, hsecret, sessionPayload_eq] at htoken
    have hclaims : ∀ claims, env.jwtVerify token secret = some claims → _ :=
      fun _ hverify => h.session husername hrole hnul.2 htoken hverify
    refine ⟨login2faUser_eq_none hsecret ?_, authVerifyToken_eq hlow hhigh ?_⟩
    · intro claims hverify
      exact (hclaims claims hverify).2.2.2
    · intro claims hverify
      rcases hclaims claims hverify with ⟨hsub, hrole, hv, -⟩
      exact ⟨hsub, hrole, hv⟩
  · intro token htoken
    rw [issuePending, hsecret, pendingPayload_eq hlow hhigh] at htoken
    have hclaims : ∀ claims, env.jwtVerify token secret = some claims → _ :=
      fun _ hverify => h.pending htoken hverify
    refine ⟨authVerifyToken_eq_none ?_, login2faUser_eq hsecret hlow hhigh ?_⟩
    · intro claims hverify
      exact (hclaims claims hverify).2.2
    · intro claims hverify
      rcases hclaims claims hverify with ⟨hp, hsub, -⟩
      exact ⟨hp, hsub⟩

/-! ## A signature -/

def plainSign (payload secret : Bytes) (_lifetime : ℤ) : Option Bytes :=
  some (secret ++ 46 :: payload)

def claimOf (members : List (Bytes × Value)) (name : Bytes) : Option Bytes :=
  match members.find? fun m => eqCI m.1 name with
  | some (_, .str s) => some s
  | _ => none

def plainVerify (token secret : Bytes) : Option (Bytes → Option Bytes) :=
  if startsWith token (secret ++ [46]) then
    match parse (token.drop (secret.length + 1)) with
    | some (.obj members) => some (claimOf members)
    | _ => none
  else none

theorem plainVerify_plainSign {payload : Bytes} {members : List (Bytes × Value)}
    (hsign : plainSign payload secret lifetime = some token)
    (hverify : plainVerify token secret = some claims)
    (hparse : parse payload = some (.obj members)) : claims = claimOf members := by
  have hdrop : token.drop (secret.length + 1) = payload := by
    rw [← Option.some.inj hsign, ← List.drop_drop, List.drop_left]
    rfl
  unfold plainVerify at hverify
  split at hverify
  · rw [hdrop, hparse] at hverify
    exact (Option.some.inj hverify).symm
  · exact nomatch hverify

theorem claimOf_mem {members : List (Bytes × Value)} (h : DistinctNames members) {name s : Bytes}
    (hm : (name, .str s) ∈ members) : claimOf members name = some s := by
  rcases List.append_of_mem hm with ⟨before, after, rfl⟩
  have hself : eqCI name name = true := eqCI_iff.mpr rfl
  have hbefore : before.find? (fun m => eqCI m.1 name) = none := by
    rw [List.find?_eq_none]
    intro m hm
    rw [DistinctNames, List.map_append, List.pairwise_append] at h
    rw [h.2.2 _ (List.mem_map_of_mem hm) name (List.mem_map_of_mem List.mem_cons_self)]
    exact Bool.false_ne_true
  have hfind : ((name, Value.str s) :: after).find? (fun m => eqCI m.1 name) =
      some (name, .str s) := List.find?_cons_of_pos hself
  rw [claimOf, List.find?_append, hbefore, Option.none_or, hfind]

theorem faithful_plain : Faithful plainSign plainVerify where
  text hsign hverify hparse hdistinct name s _ hm _ := by
    rw [plainVerify_plainSign hsign hverify hparse]
    exact claimOf_mem hdistinct hm
  absent hsign hverify hparse _ name _ hno := by
    rw [plainVerify_plainSign hsign hverify hparse, claimOf, List.find?_eq_none.mpr]
    intro m hm
    rw [hno _ (List.mem_map_of_mem hm)]
    exact Bool.false_ne_true

def plainEnv : AuthEnv := ⟨plainVerify, fun _ _ => none, some (bytes "key"), 1, [], false⟩

/-- A name that tries to end its text and to add a role. -/
def rogueName : Bytes := bytes "eve\",\"role\":\"admin"

def rogueToken : Bytes :=
  bytes "key." ++ sessionPayload 7 (some rogueName) (some (bytes "user")) 1000

theorem rogue_name_issued :
    authJwtIssue plainEnv plainSign 7 (some rogueName) (some (bytes "user")) 1000 =
        some rogueToken ∧
      login2faUser plainEnv (some rogueToken) = none ∧
      authVerifyToken plainEnv rogueToken (bytes "key") = some ⟨7, bytes "user"⟩ := by
  have hissue : authJwtIssue plainEnv plainSign 7 (some rogueName) (some (bytes "user")) 1000 =
      some rogueToken := by
    decide +kernel
  have hgood : rogueToken ≠ [] ∧ rogueToken.length < 4096 ∧
      (plainEnv.jwtVerify rogueToken (bytes "key")).isSome ∧ (0 : ℤ) < 7 := by
    decide +kernel
  have hfaithful : Faithful plainSign plainEnv.jwtVerify := faithful_plain
  have hsecret : plainEnv.jwtSecret = some (bytes "key") := rfl
  have hlow : (-2 ^ 31 : ℤ) ≤ 7 := by decide
  have hhigh : (7 : ℤ) < 2 ^ 31 := by decide
  have h := tokens_say_what_was_issued hfaithful hsecret hlow hhigh (some rogueName)
    (some (bytes "user")) (by decide +kernel) (by decide +kernel) (by decide +kernel) 1000
  have htoken := h.2.1 rogueToken hissue
  rw [if_pos hgood] at htoken
  exact ⟨hissue, htoken⟩

end FlyBoard.Tokens

import FlyBoard.Auth.Totp
import FlyBoard.Db.User
import FlyBoard.Lib.Run

/-!
# The two-factor settings (`src/handlers/auth.c`)

`handler_account_totp_post` serves three actions on the columns `totp_secret`,
`totp_enabled` and `totp_recovery`: `enable` stores a fresh secret, `confirm`
switches two-factor on, `disable` switches it off again and asks for the
password and a code first. What the random source delivered and whether each
statement went through are part of the request here.
-/

namespace FlyBoard.Auth

open Bytes

/-! ## Passwords and recovery codes -/

/-- `verify_raw_hash_candidate`. -/
def verifyRawHashCandidate (crypto : Crypto) (candidate hash : Bytes) : Bool :=
  if startsWith hash (bytes "$argon2id$") then crypto.argon2idHashVerify candidate hash
  else crypto.pbkdf2HashVerify candidate hash

/-- `auth_verify_password`: the client prehash, its second tier, and the string
as it came. -/
def authVerifyPassword (crypto : Crypto) (password hash : Bytes) : Bool :=
  let nonce := bytes "fly.board"
  let hashed :=
    match crypto.sha512Hex (snprintfS 512 (nonce ++ password)) with
    | none => false
    | some prehash =>
      verifyRawHashCandidate crypto prehash hash ||
        match crypto.sha512Hex (snprintfS 512 (nonce ++ prehash)) with
        | none => false
        | some second => verifyRawHashCandidate crypto second hash
  hashed || verifyRawHashCandidate crypto password hash

/-- The tokens of `strtok_r(s, ",")`: empty fields are skipped. -/
def commaFields (s : Bytes) : List Bytes := (s.splitOn 44).filter (!·.isEmpty)

/-- The normal form that `totp_recovery_consume` hashes. The sixth character is
left as typed: the second loop of the source starts at 6. -/
def recoveryNormalized (code : Bytes) : Bytes :=
  (code.take 5).map toUpper ++ (code.drop 6).take 1 ++ ((code.drop 7).take 4).map toUpper

/-- The stored hashes without the one of `code`, when it is among them. -/
def recoveryMatch (crypto : Crypto) (storedCsv : Bytes) (code : Option Bytes) : Option Bytes :=
  match code with
  | none => none
  | some code =>
    if code.length = 11 ∧ code[5]? = some 45 then
      let hex := crypto.sha256Hex (recoveryNormalized code)
      let fields := commaFields (snprintfS 600 storedCsv)
      if hex ∈ fields then some (List.intercalate [44] (fields.erase hex)) else none
    else none

/-! ## The columns -/

abbrev Users := UserLookup

/-- An UPDATE of one row; `ok` is whether the statement went through. -/
def updateUser (ok : Bool) (users : Users) (id : Int) (f : UserRow → UserRow) : Users × Bool :=
  if ok then (fun i => if i = id then (users i).map f else users i, true) else (users, false)

/-- `db_user_update_totp`. -/
def dbUserUpdateTotp (ok : Bool) (users : Users) (id : Int) (secret : Bytes) (enabled : Bool) :
    Users × Bool :=
  updateUser ok users id fun u =>
    { u with totpSecret := .str secret, totpEnabled := .num (if enabled then 1 else 0) }

/-- `db_user_update_totp_recovery`. -/
def dbUserUpdateTotpRecovery (ok : Bool) (users : Users) (id : Int) (csv : Bytes) : Users × Bool :=
  updateUser ok users id fun u => { u with totpRecovery := .str csv }

/-- `totp_recovery_consume`: a failing update does not change the answer. -/
def totpRecoveryConsume (crypto : Crypto) (ok : Bool) (users : Users) (uid : Int)
    (storedCsv : Bytes) (code : Option Bytes) : Users × Bool :=
  match recoveryMatch crypto storedCsv code with
  | none => (users, false)
  | some remaining => ((dbUserUpdateTotpRecovery ok users uid remaining).1, true)

def upperHex (b : UInt8) : Bytes :=
  let digit (n : UInt8) : UInt8 := if n < 10 then 48 + n else 55 + n
  [digit (b >>> 4), digit (b &&& 15)]

/-- `totp_recovery_generate`, from five draws of five bytes: the codes shown. -/
def totpRecoveryGenerate (crypto : Crypto) (ok : Bool) (users : Users) (uid : Int)
    (draws : Fin 5 → Option Bytes) : Users × Option (List Bytes) :=
  match (List.finRange 5).mapM draws with
  | none => (users, none)
  | some raws =>
    let codes := raws.map fun raw => raw.flatMap upperHex
    let hashes := List.intercalate [44] (codes.map crypto.sha256Hex)
    match dbUserUpdateTotpRecovery ok users uid hashes with
    | (users, true) => (users, some (codes.map fun c => c.take 5 ++ [45] ++ c.drop 5))
    | (users, false) => (users, none)

/-! ## The handler -/

/-- The form of a request to `/account/totp`. -/
structure TotpForm where
  action : Option Bytes
  code : Option Bytes
  password : Option Bytes

/-- A request, with what the environment did while it was served. -/
structure TotpRequest where
  /-- The user id that `auth_require_login` found. -/
  session : Option Int
  form : Option TotpForm
  now : Int
  secretDraw : Option Bytes
  recoveryDraws : Fin 5 → Option Bytes
  /-- Whether the SELECT, the update of secret and flag, the removal of a used
  recovery code and the update of the recovery codes went through. -/
  selectOk : Bool
  totpOk : Bool
  consumeOk : Bool
  recoveryOk : Bool

inductive TotpReply where
  | redirect (path : String)
  | settings (error : Option String) (enabled pending : Bool) (secret : Bytes)
      (recovery : List Bytes)

section Handler

variable (crypto : Crypto) (users : Users) (uid : Int) (user : UserRow) (r : TotpRequest)
  (form : TotpForm)

/-- `action=enable`. The redirect follows the error page as well. -/
def totpEnable : Users × List TotpReply :=
  let failed := TotpReply.settings (some "Could not start two-factor setup. Try again.")
    false false [] []
  let redirect := TotpReply.redirect "/account/settings"
  match totpSecretGenerate r.secretDraw with
  | none => (users, [failed, redirect])
  | some secret =>
    match dbUserUpdateTotp r.totpOk users uid secret false with
    | (users, true) => (users, [redirect])
    | (users, false) => (users, [failed, redirect])

/-- `action=confirm`. -/
def totpConfirm : Users × List TotpReply :=
  let secret := user.totpSecret.stringOrEmpty
  if !secret.isEmpty && totpVerifyAt crypto secret form.code r.now then
    let failed := TotpReply.settings (some "Could not finish two-factor setup. Try again.")
      false true secret []
    match dbUserUpdateTotp r.totpOk users uid secret true with
    | (users, false) => (users, [failed])
    | (users, true) =>
      match totpRecoveryGenerate crypto r.recoveryOk users uid r.recoveryDraws with
      | (users, some codes) => (users, [.settings none true false [] codes])
      | (users, none) => (users, [failed])
  else
    (users, [.settings (some "That code does not match. Check your app's clock and try again.")
      false true secret []])

def passwordOk : Bool :=
  match user.passwordHash, form.password with
  | .str hash, some password => authVerifyPassword crypto password hash
  | _, _ => false

def totpOk : Bool :=
  let secret := user.totpSecret.stringOrEmpty
  !secret.isEmpty && totpVerifyAt crypto secret form.code r.now

/-- `action=disable`. A recovery code is consumed before the password is known
to be right. -/
def totpDisable : Users × List TotpReply :=
  let (users, codeOk) :=
    if totpOk crypto user r form then (users, true)
    else totpRecoveryConsume crypto r.consumeOk users uid user.totpRecovery.stringOrEmpty form.code
  if passwordOk crypto user form && codeOk then
    let users := (dbUserUpdateTotp r.totpOk users uid [] false).1
    let users := (dbUserUpdateTotpRecovery r.recoveryOk users uid []).1
    (users, [.redirect "/account/settings"])
  else
    (users, [.settings
      (some "Two-factor was NOT disabled: the password or code did not match.")
      true false [] []])

end Handler

/-- `handler_account_totp_post`. -/
def handlerAccountTotpPost (crypto : Crypto) (users : Users) (r : TotpRequest) :
    Users × List TotpReply :=
  match r.session with
  | none => (users, [.redirect "/login"])
  | some uid =>
    match r.form with
    | none => (users, [.redirect "/account/settings"])
    | some form =>
      match if r.selectOk then users uid else none with
      | none => (users, [.redirect "/account/settings"])
      | some user =>
        if form.action = some (bytes "enable") then totpEnable users uid r
        else if form.action = some (bytes "confirm") then totpConfirm crypto users uid user r form
        else if form.action = some (bytes "disable") then totpDisable crypto users uid user r form
        else (users, [.redirect "/account/settings"])

def totpStep (crypto : Crypto) (users : Users) (r : TotpRequest) : Users :=
  (handlerAccountTotpPost crypto users r).1

/-! ## What each action does to a row -/

theorem updateUser_self (ok : Bool) (users : Users) (id : Int) (f : UserRow → UserRow) :
    (updateUser ok users id f).1 id = if ok then (users id).map f else users id := by
  cases ok with
  | true => simp [updateUser]
  | false => simp [updateUser]

theorem updateUser_ne (ok : Bool) (users : Users) {i id : Int} (f : UserRow → UserRow)
    (h : i ≠ id) : (updateUser ok users id f).1 i = users i := by
  cases ok with
  | true => simp [updateUser, h]
  | false => simp [updateUser]

/-- The two columns that two-factor protects. -/
def totpColumns (u : UserRow) : Json × Json := (u.totpEnabled, u.totpSecret)

section Frame

variable {crypto : Crypto} {users : Users} {uid : Int} {user : UserRow} {r : TotpRequest}
  {form : TotpForm}

theorem columns_updateRecovery (ok : Bool) (users : Users) (id i : Int) (csv : Bytes) :
    ((dbUserUpdateTotpRecovery ok users id csv).1 i).map totpColumns =
      (users i).map totpColumns := by
  unfold dbUserUpdateTotpRecovery
  by_cases h : i = id
  · subst h
    rw [updateUser_self]
    cases ok with
    | true => cases users i <;> simp [totpColumns]
    | false => rfl
  · rw [updateUser_ne _ _ _ h]

theorem columns_recoveryConsume (ok : Bool) (i : Int) (csv : Bytes) (code : Option Bytes) :
    ((totpRecoveryConsume crypto ok users uid csv code).1 i).map totpColumns =
      (users i).map totpColumns := by
  unfold totpRecoveryConsume
  split
  · rfl
  · exact columns_updateRecovery ..

theorem columns_recoveryGenerate (ok : Bool) (i : Int) (draws : Fin 5 → Option Bytes) :
    ((totpRecoveryGenerate crypto ok users uid draws).1 i).map totpColumns =
      (users i).map totpColumns := by
  unfold totpRecoveryGenerate
  split
  · rfl
  · have hstored : ∀ csv users' (stored : Bool),
        dbUserUpdateTotpRecovery ok users uid csv = (users', stored) →
          (users' i).map totpColumns = (users i).map totpColumns := by
      intro csv users' stored h
      rw [← columns_updateRecovery ok users uid i csv, h]
    dsimp only
    split
    · next h => exact hstored _ _ _ h
    · next h => exact hstored _ _ _ h

theorem columns_updateTotp (ok : Bool) (id i : Int) (secret : Bytes) (enabled : Bool) :
    ((dbUserUpdateTotp ok users id secret enabled).1 i).map totpColumns =
      if i = id ∧ ok then (users i).map fun _ => (.num (if enabled then 1 else 0), .str secret)
      else (users i).map totpColumns := by
  unfold dbUserUpdateTotp
  by_cases h : i = id
  · subst h
    rw [updateUser_self]
    cases ok with
    | true => cases users i <;> simp [totpColumns]
    | false => simp
  · rw [updateUser_ne _ _ _ h]
    simp [h]

/-- The code of the form is valid: a code of the stored secret, or an unused
recovery code. -/
def CodeValid (crypto : Crypto) (user : UserRow) (r : TotpRequest) (form : TotpForm) : Prop :=
  totpOk crypto user r form = true ∨
    (recoveryMatch crypto user.totpRecovery.stringOrEmpty form.code).isSome

theorem columns_enable (i : Int) :
    ((totpEnable users uid r).1 i).map totpColumns =
      match totpSecretGenerate r.secretDraw with
      | none => (users i).map totpColumns
      | some secret =>
        if i = uid ∧ r.totpOk then (users i).map fun _ => (.num 0, .str secret)
        else (users i).map totpColumns := by
  unfold totpEnable
  cases totpSecretGenerate r.secretDraw with
  | none => rfl
  | some secret =>
    have h : ((dbUserUpdateTotp r.totpOk users uid secret false).1 i).map totpColumns =
        if i = uid ∧ r.totpOk then (users i).map fun _ => (.num 0, .str secret)
        else (users i).map totpColumns := columns_updateTotp ..
    simp only
    split <;> simp_all

theorem columns_confirm (i : Int)
    (hon : i = uid → users uid = some user ∧ user.totpEnabled = .num 1) :
    ((totpConfirm crypto users uid user r form).1 i).map totpColumns =
      (users i).map totpColumns := by
  unfold totpConfirm
  simp only
  split
  · rename_i hok
    have hne : user.totpSecret.stringOrEmpty ≠ [] := by
      simp only [Bool.and_eq_true, Bool.not_eq_true', List.isEmpty_eq_false_iff] at hok
      exact hok.1
    -- a non-empty secret was read from a text column, so it is written back unchanged
    have hsecret : user.totpSecret = .str user.totpSecret.stringOrEmpty := by
      cases h : user.totpSecret with
      | null => simp [h, Json.stringOrEmpty] at hne
      | num n => simp [h, Json.stringOrEmpty] at hne
      | str s => rfl
    have hupd : ((dbUserUpdateTotp r.totpOk users uid user.totpSecret.stringOrEmpty true).1 i).map
        totpColumns = (users i).map totpColumns := by
      rw [columns_updateTotp]
      split
      · rename_i h
        obtain ⟨hu, hone⟩ := hon h.1
        rw [h.1, hu]
        simp [totpColumns, hone, ← hsecret]
      · rfl
    split
    · rename_i users' h
      rw [h] at hupd
      exact hupd
    · rename_i users' h
      rw [h] at hupd
      have hgen : ((totpRecoveryGenerate crypto r.recoveryOk users' uid r.recoveryDraws).1 i).map
          totpColumns = (users' i).map totpColumns := columns_recoveryGenerate ..
      split
      · rename_i hg
        rw [hg] at hgen
        exact hgen.trans hupd
      · rename_i hg
        rw [hg] at hgen
        exact hgen.trans hupd
  · rfl

theorem columns_disable (i : Int)
    (hne : ((totpDisable crypto users uid user r form).1 i).map totpColumns ≠
      (users i).map totpColumns) :
    i = uid ∧ passwordOk crypto user form = true ∧ CodeValid crypto user r form := by
  have hsnd : (totpRecoveryConsume crypto r.consumeOk users uid user.totpRecovery.stringOrEmpty
      form.code).2 = (recoveryMatch crypto user.totpRecovery.stringOrEmpty form.code).isSome := by
    unfold totpRecoveryConsume
    cases recoveryMatch crypto user.totpRecovery.stringOrEmpty form.code with
    | none => rfl
    | some remaining => rfl
  -- the table and the verdict after the code was looked at
  obtain ⟨users', codeOk, hcode, hcols, hvalid⟩ : ∃ users' codeOk,
      (if totpOk crypto user r form then (users, true)
       else totpRecoveryConsume crypto r.consumeOk users uid user.totpRecovery.stringOrEmpty
        form.code) = (users', codeOk) ∧
      (∀ i, (users' i).map totpColumns = (users i).map totpColumns) ∧
      (codeOk = true → CodeValid crypto user r form) := by
    by_cases ht : totpOk crypto user r form
    · exact ⟨users, true, by simp [ht], fun _ => rfl, fun _ => Or.inl ht⟩
    · refine ⟨_, _, by simp only [ht]; rfl, fun i => columns_recoveryConsume .., ?_⟩
      intro h
      exact Or.inr (hsnd ▸ h)
  unfold totpDisable at hne
  rw [hcode] at hne
  simp only at hne
  by_cases hok : passwordOk crypto user form && codeOk
  · rw [if_pos hok] at hne
    simp only [columns_updateRecovery, columns_updateTotp] at hne
    simp only [Bool.and_eq_true] at hok
    refine ⟨?_, hok.1, hvalid hok.2⟩
    by_contra hi
    simp [hi, hcols] at hne
  · rw [if_neg hok] at hne
    exact absurd (hcols i) hne

end Frame

/-! ## Stripping two-factor -/

/-- The request carries the account's password and a code that is valid for it
at this moment. -/
def CarriesCredentials (crypto : Crypto) (user : UserRow) (r : TotpRequest) : Prop :=
  ∃ form, r.form = some form ∧ passwordOk crypto user form = true ∧ CodeValid crypto user r form

/-- A request strips or replaces the two-factor setting of an account that has it
on only with the password and a valid code. -/
def StripsOnlyWithCredentials (crypto : Crypto) (uid : Int) (users : Users) (r : TotpRequest) :
    Prop :=
  ∀ user, users uid = some user → user.totpEnabled = .num 1 →
    ((totpStep crypto users r) uid).map totpColumns ≠ some (totpColumns user) →
    CarriesCredentials crypto user r

def StartsSetup (uid : Int) (r : TotpRequest) : Prop :=
  r.session = some uid ∧ (∃ form, r.form = some form ∧ form.action = some (bytes "enable")) ∧
    r.selectOk = true ∧ r.totpOk = true ∧ (totpSecretGenerate r.secretDraw).isSome

/-- No setup is started while two-factor is on, unless the request could have
switched it off as well. -/
def NoSetupWhileOn (crypto : Crypto) (uid : Int) (users : Users) (r : TotpRequest) : Prop :=
  ∀ user, users uid = some user → user.totpEnabled = .num 1 → StartsSetup uid r →
    CarriesCredentials crypto user r

/-- A setup that goes through switches two-factor off. -/
theorem totpStep_startsSetup (crypto : Crypto) {uid : Int} {users : Users} {r : TotpRequest}
    {user : UserRow} (hu : users uid = some user) (h : StartsSetup uid r) :
    ∃ secret, ((totpStep crypto users r) uid).map totpColumns = some (.num 0, .str secret) := by
  obtain ⟨hs, ⟨form, hf, ha⟩, hsel, hupd, hgen⟩ := h
  obtain ⟨secret, hsecret⟩ := Option.isSome_iff_exists.mp hgen
  refine ⟨secret, ?_⟩
  have hstep : totpStep crypto users r = (totpEnable users uid r).1 := by
    simp [totpStep, handlerAccountTotpPost, hs, hf, hsel, hu, ha]
  rw [hstep, columns_enable, hsecret]
  simp [hupd, hu]

/-- The columns of an account with two-factor on change only in a request of its
own session, and only by a setup or by a disable with the credentials. -/
theorem totpStep_changes {crypto : Crypto} {uid : Int} {users : Users} {r : TotpRequest}
    {user : UserRow} (hu : users uid = some user) (hon : user.totpEnabled = .num 1)
    (hne : ((totpStep crypto users r) uid).map totpColumns ≠ some (totpColumns user)) :
    StartsSetup uid r ∨ CarriesCredentials crypto user r := by
  have hsame : (users uid).map totpColumns = some (totpColumns user) := by rw [hu]; rfl
  rw [← hsame] at hne
  unfold totpStep handlerAccountTotpPost at hne
  cases hs : r.session with
  | none => simp [hs] at hne
  | some uid' =>
    cases hf : r.form with
    | none => simp [hs, hf] at hne
    | some form =>
      cases hsel : (if r.selectOk then users uid' else none) with
      | none => simp [hs, hf, hsel] at hne
      | some user' =>
        have hok : r.selectOk = true ∧ users uid' = some user' := by
          by_cases h : r.selectOk
          · exact ⟨h, by simpa [h] using hsel⟩
          · simp [h] at hsel
        simp only [hs, hf, hsel] at hne
        by_cases henable : form.action = some (bytes "enable")
        · -- a setup: the columns change only when it goes through
          left
          simp only [henable, if_true, columns_enable] at hne
          cases hgen : totpSecretGenerate r.secretDraw with
          | none => simp [hgen] at hne
          | some secret =>
            simp only [hgen] at hne
            split at hne
            · rename_i hi
              exact ⟨hi.1 ▸ hs, ⟨form, hf, henable⟩, hok.1, hi.2, by simp [hgen]⟩
            · exact absurd rfl hne
        · by_cases hconfirm : form.action = some (bytes "confirm")
          · -- a confirmation writes back what it read
            rw [if_neg henable, if_pos hconfirm] at hne
            refine absurd (columns_confirm uid ?_) hne
            intro hi
            subst hi
            have heq : user' = user := Option.some.inj (hok.2.symm.trans hu)
            exact ⟨hok.2, heq ▸ hon⟩
          · by_cases hdisable : form.action = some (bytes "disable")
            · right
              rw [if_neg henable, if_neg hconfirm, if_pos hdisable] at hne
              obtain ⟨hi, hpw, hcode⟩ := columns_disable uid hne
              subst hi
              have heq : user' = user := Option.some.inj (hok.2.symm.trans hu)
              subst heq
              exact ⟨form, hf, hpw, hcode⟩
            · simp [henable, hconfirm, hdisable] at hne

/-- Along every sequence of requests, two-factor is stripped only with the
password and a valid code exactly when no setup is started while it is on. -/
theorem stripsOnlyWithCredentials_iff (crypto : Crypto) (uid : Int) (users : Users)
    (rs : List TotpRequest) :
    Run.AllSteps (totpStep crypto) (StripsOnlyWithCredentials crypto uid) users rs ↔
      Run.AllSteps (totpStep crypto) (NoSetupWhileOn crypto uid) users rs := by
  induction rs generalizing users with
  | nil => exact Iff.rfl
  | cons r rs ih =>
    refine and_congr ?_ (ih (totpStep crypto users r))
    constructor
    · intro h user hu hon hset
      refine h user hu hon ?_
      obtain ⟨secret, hcols⟩ := totpStep_startsSetup crypto hu hset
      rw [hcols]
      simp [totpColumns, hon]
    · intro h user hu hon hne
      rcases totpStep_changes hu hon hne with hset | hcred
      · exact h user hu hon hset
      · exact hcred

/-- Any primitives do for the run below; these accept no password and no code. -/
def refusingCrypto : Crypto where
  hmacSha1 := fun _ _ => none
  sha256Hex := fun _ => []
  sha512Hex := fun _ => none
  argon2idHashVerify := fun _ _ => false
  pbkdf2HashVerify := fun _ _ => false

def protectedUser : UserRow :=
  ⟨.str (bytes "alice"), .str (bytes "hash"), .str (bytes "user"), .num 1, .num 0,
    .str (bytes "JBSWY3DPEHPK3PXPJBSWY3DPEHPK3PXP"), .num 1, .str []⟩

/-- `POST /account/totp` with the body `action=enable`, and nothing else. -/
def enableRequest : TotpRequest where
  session := some 1
  form := some ⟨some (bytes "enable"), none, none⟩
  now := 0
  secretDraw := some (List.replicate 20 0)
  recoveryDraws := fun _ => none
  selectOk := true
  totpOk := true
  consumeOk := true
  recoveryOk := true

/-- One `enable` from the session takes two-factor off without a password. -/
theorem enable_strips_two_factor :
    ¬ Run.AllSteps (totpStep refusingCrypto) (StripsOnlyWithCredentials refusingCrypto 1)
        (fun i => if i = 1 then some protectedUser else none) [enableRequest] ∧
      ((totpStep refusingCrypto (fun i => if i = 1 then some protectedUser else none)
        enableRequest 1).map (·.totpEnabled)) = some (.num 0) := by
  refine ⟨?_, by decide +kernel⟩
  intro h
  have hcred := h.1 protectedUser rfl rfl (by decide +kernel)
  obtain ⟨form, hf, hpw, -⟩ := hcred
  have hform : form = ⟨some (bytes "enable"), none, none⟩ := (Option.some.inj hf).symm
  subst hform
  exact absurd hpw (by decide)

end FlyBoard.Auth

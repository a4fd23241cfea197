import FlyBoard.Auth.TwoFactor
import FlyBoard.Lib.Fields
import FlyBoard.Lib.Sha256

/-!
# Refused two-factor changes (`handler_account_totp_post` in `src/handlers/auth.c`)

A request that is answered with an error may have written something on the way: a recovery code
is consumed before the password is looked at, and an account is switched on before its recovery
codes are stored.
-/

namespace FlyBoard.Auth

open Bytes

def settingColumns (u : UserRow) : Json × Json × Json :=
  (u.totpSecret, u.totpEnabled, u.totpRecovery)

def TotpReply.isError : TotpReply → Bool
  | .settings (some _) .. => true
  | _ => false

def Refused (replies : List TotpReply) : Prop := replies.any (·.isError) = true

instance (replies : List TotpReply) : Decidable (Refused replies) :=
  inferInstanceAs (Decidable (_ = true))

def RefusalKeeps (crypto : Crypto) (users : Users) (r : TotpRequest) : Prop :=
  Refused (handlerAccountTotpPost crypto users r).2 →
    ∀ i, ((totpStep crypto users r) i).map settingColumns = (users i).map settingColumns

def StoresCodes (r : TotpRequest) : Prop :=
  ((List.finRange 5).mapM r.recoveryDraws).isSome = true ∧ r.recoveryOk = true

instance (r : TotpRequest) : Decidable (StoresCodes r) := inferInstanceAs (Decidable (_ ∧ _))

/-- A disable with an unused recovery code, which is removed, but not with the password. -/
def WastesCode (crypto : Crypto) (user : UserRow) (r : TotpRequest) (form : TotpForm) : Prop :=
  form.action = some (bytes "disable") ∧ totpOk crypto user r form = false ∧
    (recoveryMatch crypto user.totpRecovery.stringOrEmpty form.code).isSome = true ∧
    r.consumeOk = true ∧ passwordOk crypto user form = false

/-- A confirmation with the right code switches the account on, and then has no recovery codes
to store, or cannot store them. -/
def HalfConfirms (crypto : Crypto) (user : UserRow) (r : TotpRequest) (form : TotpForm) : Prop :=
  form.action = some (bytes "confirm") ∧ totpOk crypto user r form = true ∧ r.totpOk = true ∧
    user.totpEnabled ≠ .num 1 ∧ ¬ StoresCodes r

def RefusesCleanly (crypto : Crypto) (users : Users) (r : TotpRequest) : Prop :=
  ∀ uid ∈ r.session, ∀ form ∈ r.form, r.selectOk = true → ∀ user ∈ users uid,
    ¬ WastesCode crypto user r form ∧ ¬ HalfConfirms crypto user r form

section Request

variable {crypto : Crypto} {users : Users} {uid : Int} {user : UserRow} {r : TotpRequest}
  {form : TotpForm}

theorem updateUser_eq_self_iff {f : UserRow → UserRow} (huser : users uid = some user) :
    (∀ i, ((updateUser true users uid f).1 i).map settingColumns =
      (users i).map settingColumns) ↔ settingColumns (f user) = settingColumns user := by
  constructor
  · intro h
    have huid := h uid
    rw [updateUser_self, if_pos rfl, huser, Option.map_some, Option.map_some,
      Option.map_some] at huid
    exact Option.some.inj huid
  · intro h i
    by_cases hi : i = uid
    · rw [hi, updateUser_self, if_pos rfl, huser, Option.map_some, Option.map_some, h]
      rfl
    · rw [updateUser_ne true users f hi]

theorem totpRecoveryGenerate_eq (users : Users) (uid : Int) (r : TotpRequest) :
    ¬ StoresCodes r ∧ totpRecoveryGenerate crypto r.recoveryOk users uid r.recoveryDraws =
        (users, none) ∨
      StoresCodes r ∧ ∃ users' codes, totpRecoveryGenerate crypto r.recoveryOk users uid
        r.recoveryDraws = (users', some codes) := by
  unfold totpRecoveryGenerate StoresCodes
  cases hdraws : (List.finRange 5).mapM r.recoveryDraws with
  | none => exact .inl ⟨by simp, rfl⟩
  | some raws =>
    cases hok : r.recoveryOk with
    | false => exact .inl ⟨by simp, rfl⟩
    | true => exact .inr ⟨⟨rfl, rfl⟩, _, _, rfl⟩

/-- The codes that are left differ from the stored ones: they are fewer. -/
theorem recoveryMatch_ne {csv remaining : Bytes} {code : Option Bytes}
    (h : recoveryMatch crypto csv code = some remaining) : remaining ≠ csv := by
  have hshort : remaining.length < csv.length := by
    unfold recoveryMatch at h
    cases code with
    | none => exact absurd h (by simp)
    | some code =>
      dsimp only at h
      split_ifs at h with hform hmem
      rw [← Option.some.inj h]
      calc (Fields.join 44 ((Fields.split 44 (snprintfS 600 csv)).erase _)).length
          < (snprintfS 600 csv).length := Fields.length_join_erase_lt hmem
        _ ≤ csv.length := List.length_take_le' _ _
  intro heq
  rw [heq] at hshort
  exact lt_irrefl _ hshort

theorem not_refused_redirect {path : String} : ¬ Refused [.redirect path] :=
  Bool.false_ne_true

theorem refused_settings {error : Option String} {enabled pending : Bool} {secret : Bytes}
    {recovery : List Bytes} :
    Refused [.settings error enabled pending secret recovery] ↔ error.isSome = true := by
  cases error with
  | none => exact iff_of_false Bool.false_ne_true Bool.false_ne_true
  | some text => exact iff_of_true rfl rfl

theorem enable_refused (h : Refused (totpEnable users uid r).2) :
    (totpEnable users uid r).1 = users := by
  unfold totpEnable at h ⊢
  cases hsecret : totpSecretGenerate r.secretDraw with
  | none => rfl
  | some secret =>
    cases hok : r.totpOk with
    | false => rfl
    | true =>
      rw [hsecret, hok] at h
      exact absurd h not_refused_redirect

def switchedOn (users : Users) (uid : Int) (user : UserRow) : Users :=
  (updateUser true users uid fun u =>
    { u with totpSecret := .str user.totpSecret.stringOrEmpty, totpEnabled := .num 1 }).1

theorem totpConfirm_of_totpOk (hcode : totpOk crypto user r form = true) (hok : r.totpOk = true) :
    totpConfirm crypto users uid user r form =
      match totpRecoveryGenerate crypto r.recoveryOk (switchedOn users uid user) uid
        r.recoveryDraws with
      | (users, some codes) => (users, [.settings none true false [] codes])
      | (users, none) => (users, [.settings (some "Could not finish two-factor setup. Try again.")
          false true user.totpSecret.stringOrEmpty []]) := by
  have hdef : totpConfirm crypto users uid user r form =
      if totpOk crypto user r form then _ else _ := rfl
  rw [hdef, hcode, if_pos rfl, hok]
  rfl

theorem totpConfirm_of_not (h : ¬ (totpOk crypto user r form = true ∧ r.totpOk = true)) :
    (totpConfirm crypto users uid user r form).1 = users := by
  have hdef : totpConfirm crypto users uid user r form =
      if totpOk crypto user r form then _ else _ := rfl
  rw [hdef]
  split_ifs with hcode
  · have hok : r.totpOk = false := by
      rw [← Bool.not_eq_true]
      exact fun hok => h ⟨hcode, hok⟩
    rw [hok]
    rfl
  · rfl

theorem totpSecret_of_totpOk (h : totpOk crypto user r form = true) :
    user.totpSecret = .str user.totpSecret.stringOrEmpty := by
  have hne : user.totpSecret.stringOrEmpty ≠ [] := by
    unfold totpOk at h
    rw [Bool.and_eq_true, Bool.not_eq_true', List.isEmpty_eq_false_iff] at h
    exact h.1
  cases hsecret : user.totpSecret with
  | null =>
    rw [hsecret] at hne
    exact absurd rfl hne
  | num n =>
    rw [hsecret] at hne
    exact absurd rfl hne
  | str s => rfl

/-- A confirmation that is refused keeps the settings, unless it has switched the account on. -/
theorem confirm_refused (huser : users uid = some user)
    (haction : form.action = some (bytes "confirm")) :
    (Refused (totpConfirm crypto users uid user r form).2 →
      ∀ i, ((totpConfirm crypto users uid user r form).1 i).map settingColumns =
        (users i).map settingColumns) ↔ ¬ HalfConfirms crypto user r form := by
  by_cases hwrites : totpOk crypto user r form = true ∧ r.totpOk = true
  · obtain ⟨hcode, hok⟩ := hwrites
    rw [totpConfirm_of_totpOk hcode hok]
    rcases totpRecoveryGenerate_eq (switchedOn users uid user) uid r with
      ⟨hno, hgen⟩ | ⟨hstores, users', codes, hgen⟩
    · -- no codes are stored: the account stays switched on
      have hon : settingColumns { user with
            totpSecret := .str user.totpSecret.stringOrEmpty, totpEnabled := .num 1 } =
          settingColumns user ↔ user.totpEnabled = .num 1 := by
        rw [settingColumns, settingColumns, ← totpSecret_of_totpOk hcode, Prod.mk.injEq,
          Prod.mk.injEq]
        exact ⟨fun h => h.2.1.symm, fun h => ⟨rfl, h.symm, rfl⟩⟩
      rw [hgen]
      dsimp only
      rw [refused_settings, switchedOn, updateUser_eq_self_iff huser, hon]
      constructor
      · rintro h ⟨-, -, -, hoff, -⟩
        exact hoff (h rfl)
      · intro h _
        by_contra hoff
        exact h ⟨haction, hcode, hok, hoff, hno⟩
    · rw [hgen]
      dsimp only
      refine iff_of_true ?_ fun h => h.2.2.2.2 hstores
      intro hrefused
      exact absurd (refused_settings.mp hrefused) (by simp)
  · rw [totpConfirm_of_not hwrites]
    exact iff_of_true (fun _ _ => rfl) fun h => hwrites ⟨h.2.1, h.2.2.1⟩

/-- With the right password, a disable is refused when the code is wrong, and then nothing is
consumed. -/
theorem totpDisable_of_password (h : passwordOk crypto user form = true) :
    Refused (totpDisable crypto users uid user r form).2 →
      (totpDisable crypto users uid user r form).1 = users := by
  unfold totpDisable totpRecoveryConsume
  rw [h]
  cases totpOk crypto user r form with
  | true => exact fun hrefused => absurd hrefused not_refused_redirect
  | false =>
    cases recoveryMatch crypto user.totpRecovery.stringOrEmpty form.code with
    | none => exact fun _ => rfl
    | some remaining => exact fun hrefused => absurd hrefused not_refused_redirect

/-- With a wrong password it is refused, whatever has become of the code. -/
theorem totpDisable_of_not_password (users : Users) (uid : Int) (r : TotpRequest)
    (h : passwordOk crypto user form = false) :
    Refused (totpDisable crypto users uid user r form).2 ∧
      (totpDisable crypto users uid user r form).1 =
        if totpOk crypto user r form then users
        else (totpRecoveryConsume crypto r.consumeOk users uid user.totpRecovery.stringOrEmpty
          form.code).1 := by
  unfold totpDisable
  rw [h]
  cases totpOk crypto user r form with
  | true => exact ⟨refused_settings.mpr rfl, rfl⟩
  | false => exact ⟨refused_settings.mpr rfl, rfl⟩

/-- A disable that is refused keeps the settings, unless it has consumed a recovery code. -/
theorem disable_refused (huser : users uid = some user)
    (haction : form.action = some (bytes "disable")) :
    (Refused (totpDisable crypto users uid user r form).2 →
      ∀ i, ((totpDisable crypto users uid user r form).1 i).map settingColumns =
        (users i).map settingColumns) ↔ ¬ WastesCode crypto user r form := by
  cases hpw : passwordOk crypto user form with
  | true =>
    refine iff_of_true ?_ fun h => absurd (hpw.symm.trans h.2.2.2.2) (by simp)
    intro hrefused i
    rw [totpDisable_of_password hpw hrefused]
  | false =>
    obtain ⟨hrefused, hleft⟩ :=
      totpDisable_of_not_password users uid r hpw
    rw [hleft, forall_prop_of_true hrefused]
    cases hcode : totpOk crypto user r form with
    | true =>
      rw [if_pos rfl]
      refine iff_of_true (fun _ => rfl) fun h => absurd (hcode.symm.trans h.2.1) (by simp)
    | false =>
      rw [if_neg (by simp), totpRecoveryConsume]
      cases hmatch : recoveryMatch crypto user.totpRecovery.stringOrEmpty form.code with
      | none =>
        refine iff_of_true (fun _ => rfl) fun h => ?_
        rw [WastesCode, hmatch] at h
        exact absurd h.2.2.1 (by simp)
      | some remaining =>
        cases hok : r.consumeOk with
        | false =>
          refine iff_of_true (fun _ => rfl) fun h => absurd (hok.symm.trans h.2.2.2.1) (by simp)
        | true =>
          -- the code is gone from the row
          refine iff_of_false ?_ ?_
          · intro hkept
            have hsame := (updateUser_eq_self_iff huser).mp hkept
            rw [settingColumns, settingColumns, Prod.mk.injEq, Prod.mk.injEq] at hsame
            refine recoveryMatch_ne hmatch ?_
            rw [← hsame.2.2]
            rfl
          · rw [not_not, WastesCode, hmatch]
            exact ⟨haction, hcode, rfl, hok, hpw⟩

end Request

/-- Without a session, a form and a row the request is sent elsewhere; with them it is one of
the three actions. -/
theorem handlerAccountTotpPost_cases (crypto : Crypto) (users : Users) (r : TotpRequest) :
    ((∃ path, handlerAccountTotpPost crypto users r = (users, [.redirect path])) ∧
      ∀ uid ∈ r.session, ∀ form ∈ r.form, r.selectOk = true → users uid = none) ∨
    ∃ uid user form, r.session = some uid ∧ r.form = some form ∧ r.selectOk = true ∧
      users uid = some user ∧ handlerAccountTotpPost crypto users r =
        if form.action = some (bytes "enable") then totpEnable users uid r
        else if form.action = some (bytes "confirm") then totpConfirm crypto users uid user r form
        else if form.action = some (bytes "disable") then totpDisable crypto users uid user r form
        else (users, [.redirect "/account/settings"]) := by
  unfold handlerAccountTotpPost
  cases hsession : r.session with
  | none => exact .inl ⟨⟨_, rfl⟩, by simp⟩
  | some uid =>
    cases hform : r.form with
    | none => exact .inl ⟨⟨_, rfl⟩, by simp⟩
    | some form =>
      cases hselect : r.selectOk with
      | false => exact .inl ⟨⟨_, rfl⟩, by simp⟩
      | true =>
        cases huser : users uid with
        | none =>
          exact .inl ⟨⟨"/account/settings", by simp only [if_true, huser]⟩, by simp [huser]⟩
        | some user =>
          exact .inr ⟨uid, user, form, rfl, rfl, rfl, huser, by simp only [if_true, huser]⟩

/-- A request that is refused keeps the settings of every account exactly when it neither
consumes a recovery code without the password nor switches an account on without recovery
codes. -/
theorem refusalKeeps_iff (crypto : Crypto) (users : Users) (r : TotpRequest) :
    RefusalKeeps crypto users r ↔ RefusesCleanly crypto users r := by
  unfold RefusalKeeps RefusesCleanly totpStep
  rcases handlerAccountTotpPost_cases crypto users r with
    ⟨⟨path, heq⟩, hnone⟩ | ⟨uid, user, form, hsession, hform, hselect, huser, heq⟩
  · rw [heq]
    refine iff_of_true (fun h => absurd h not_refused_redirect) ?_
    intro uid huid form hform hselect user huser
    rw [Option.mem_def, hnone uid huid form hform hselect] at huser
    exact absurd huser (by simp)
  · have hclean : (∀ uid ∈ r.session, ∀ form ∈ r.form, r.selectOk = true →
        ∀ user ∈ users uid,
          ¬ WastesCode crypto user r form ∧ ¬ HalfConfirms crypto user r form) ↔
        ¬ WastesCode crypto user r form ∧ ¬ HalfConfirms crypto user r form := by
      simp [hsession, hform, hselect, huser]
    rw [hclean, heq]
    split_ifs with henable hconfirm hdisable
    · refine iff_of_true (fun h i => by rw [enable_refused h]) ⟨fun h => ?_, fun h => ?_⟩
      · exact absurd (henable.symm.trans h.1) (by decide)
      · exact absurd (henable.symm.trans h.1) (by decide)
    · rw [confirm_refused huser hconfirm, and_iff_right]
      exact fun h => absurd (hconfirm.symm.trans h.1) (by decide)
    · rw [disable_refused huser hdisable, and_iff_left]
      exact fun h => absurd (hdisable.symm.trans h.1) (by decide)
    · refine iff_of_true (fun h => absurd h not_refused_redirect) ⟨fun h => hdisable h.1, ?_⟩
      exact fun h => hconfirm h.1

/-! ## A code lost to a wrong password -/

def digestingCrypto : Crypto where
  hmacSha1 := fun _ _ => none
  sha256Hex := Sha256.hexDigest
  sha512Hex := fun _ => none
  argon2idHashVerify := fun _ _ => false
  pbkdf2HashVerify := fun _ _ => false

/-- An account with two-factor on and one recovery code left, `00112-23344`. -/
def oneCodeUser : UserRow :=
  { protectedUser with totpRecovery := .str (Sha256.hexDigest (bytes "0011223344")) }

/-- `POST /account/totp` with `action=disable`, the recovery code and a wrong password. -/
def disableRequest : TotpRequest :=
  { enableRequest with
    form := some ⟨some (bytes "disable"), some (bytes "00112-23344"), some (bytes "wrong")⟩ }

/-- The request is refused, and the code is gone. -/
theorem refused_disable_consumes_code :
    ¬ RefusalKeeps digestingCrypto (fun i => if i = 1 then some oneCodeUser else none)
      disableRequest := by
  intro h
  have hrefused : Refused (handlerAccountTotpPost digestingCrypto
      (fun i => if i = 1 then some oneCodeUser else none) disableRequest).2 := by
    decide +kernel
  exact absurd (h hrefused 1) (by decide +kernel)

end FlyBoard.Auth

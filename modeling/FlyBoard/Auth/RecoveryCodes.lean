import FlyBoard.Auth.TotpRefusals
import Mathlib.Data.List.GetD
import Mathlib.Data.List.Perm.Subperm
import Mathlib.Logic.Function.Basic

/-!
# Recovery codes between requests (`src/handlers/auth.c`)

A recovery code serves in `handler_login_2fa_post` and in a disable of `handler_account_totp_post`.
Both read the row of the account first, and `totp_recovery_consume` writes the codes that are left
of what was read: requests that read before either wrote do not see each other. The steps of a
request are taken one at a time here, in any order with those of the others.
-/

namespace FlyBoard.Auth.RecoveryCodes

open Bytes

/-! ## The requests -/

inductive Purpose where
  | login
  | disable
deriving DecidableEq

/-- What a request has yet to do: look at the code, write the secret, write the codes. -/
inductive Todo where
  | code
  | secret
  | codes
deriving DecidableEq

/-- A request that has read the row. For a login the session is the account of the pending
token. -/
structure Job where
  purpose : Purpose
  uid : Int
  row : UserRow
  request : TotpRequest
  form : TotpForm
  todo : Todo

/-- The users, the requests on their way, and on one account: the codes that were shown and are
neither used nor given up, and the codes that were accepted. -/
structure Site (P : Type*) where
  users : Users
  jobs : P → Option Job
  unused : List Bytes
  accepted : List Bytes

/-- A request reads the row, or takes its next step. -/
inductive Event (P : Type*) where
  | arrive (p : P) (purpose : Purpose) (request : TotpRequest)
  | advance (p : P)

/-- The code of the form is handed to `totp_recovery_consume`: it is no one-time code, and for a
login the account has a secret and recovery codes. -/
def Job.TriesRecovery (crypto : Crypto) (job : Job) : Prop :=
  totpOk crypto job.row job.request job.form = false ∧
    (job.purpose = .login → job.row.totpSecret.stringOrEmpty ≠ [] ∧
      job.row.totpRecovery.stringOrEmpty ≠ [])

instance (crypto : Crypto) (job : Job) : Decidable (job.TriesRecovery crypto) :=
  inferInstanceAs (Decidable (_ ∧ _))

/-- The table after the code was looked at, and whether it was accepted as a recovery code. -/
def Job.lookAtCode (crypto : Crypto) (users : Users) (job : Job) : Users × Bool :=
  if job.TriesRecovery crypto then
    totpRecoveryConsume crypto job.request.consumeOk users job.uid
      job.row.totpRecovery.stringOrEmpty job.form.code
  else (users, false)

def upper (code : Bytes) : Bytes := code.map toUpper

section Steps

variable {P : Type*} [DecidableEq P]

/-- The row that a request reads: by the pending token, or by the session. -/
def Job.ofRequest (users : Users) (purpose : Purpose) (request : TotpRequest) : Option Job :=
  match request.session, request.form with
  | some uid, some form =>
    if purpose = .disable ∧ form.action ≠ some (bytes "disable") then none
    else (if request.selectOk then users uid else none).map fun row =>
      ⟨purpose, uid, row, request, form, .code⟩
  | _, _ => none

/-- The next step of a request. Only the bookkeeping knows the account. -/
def Site.advance (crypto : Crypto) (account : Int) (s : Site P) (p : P) (job : Job) : Site P :=
  match job.todo with
  | .code =>
    let (users, accepted) := job.lookAtCode crypto s.users
    let codeOk := totpOk crypto job.row job.request job.form || accepted
    let goesOn := job.purpose = .disable ∧ passwordOk crypto job.row job.form = true ∧
      codeOk = true
    let typed := upper (job.form.code.getD [])
    { users := users
      jobs := Function.update s.jobs p (if goesOn then some { job with todo := .secret } else none)
      unused := if job.uid = account ∧ accepted = true then s.unused.erase typed else s.unused
      accepted := if job.uid = account ∧ accepted = true then typed :: s.accepted
        else s.accepted }
  | .secret =>
    { s with
      users := (dbUserUpdateTotp job.request.totpOk s.users job.uid [] false).1
      jobs := Function.update s.jobs p (some { job with todo := .codes }) }
  | .codes =>
    { s with
      users := (dbUserUpdateTotpRecovery job.request.recoveryOk s.users job.uid []).1
      jobs := Function.update s.jobs p none
      unused := if job.uid = account ∧ job.request.recoveryOk = true then [] else s.unused }

def step (crypto : Crypto) (account : Int) (s : Site P) : Event P → Site P
  | .arrive p purpose request =>
    match s.jobs p with
    | none => { s with jobs := Function.update s.jobs p (Job.ofRequest s.users purpose request) }
    | some _ => s
  | .advance p =>
    match s.jobs p with
    | none => s
    | some job => s.advance crypto account p job

/-- The codes were just stored and shown, and no request has read them. -/
def start (users : Users) (shown : List Bytes) : Site P := ⟨users, fun _ => none, shown, []⟩

end Steps

variable {P : Type*}

/-! ## One request alone -/

section Alone

variable [DecidableEq P] {crypto : Crypto} {account : Int} {s : Site P} {p : P} {job : Job}

/-- `handler_login_2fa_post` behind the pending token: the table, and whether the login goes
on. -/
def handlerLogin2faPost (crypto : Crypto) (users : Users) (uid : Int) (user : UserRow)
    (r : TotpRequest) (form : TotpForm) : Users × Bool :=
  let secret := user.totpSecret.stringOrEmpty
  if secret.isEmpty then (users, false)
  else if totpVerifyAt crypto secret form.code r.now then (users, true)
  else
    let recovery := user.totpRecovery.stringOrEmpty
    if recovery.isEmpty then (users, false)
    else totpRecoveryConsume crypto r.consumeOk users uid recovery form.code

theorem handlerLogin2faPost_eq (users : Users) (hlogin : job.purpose = .login) :
    handlerLogin2faPost crypto users job.uid job.row job.request job.form =
      ((job.lookAtCode crypto users).1,
        totpOk crypto job.row job.request job.form || (job.lookAtCode crypto users).2) := by
  by_cases hsecret : job.row.totpSecret.stringOrEmpty = []
  · simp [handlerLogin2faPost, Job.lookAtCode, Job.TriesRecovery, totpOk, hsecret, hlogin]
  · by_cases hcode : totpVerifyAt crypto job.row.totpSecret.stringOrEmpty job.form.code
      job.request.now = true
    · simp [handlerLogin2faPost, Job.lookAtCode, Job.TriesRecovery, totpOk, hsecret, hcode]
    · by_cases hrecovery : job.row.totpRecovery.stringOrEmpty = []
      · simp [handlerLogin2faPost, Job.lookAtCode, Job.TriesRecovery, totpOk, hsecret, hcode,
          hrecovery, hlogin]
      · simp [handlerLogin2faPost, Job.lookAtCode, Job.TriesRecovery, totpOk, hsecret, hcode,
          hrecovery]

theorem users_run_disable (hjob : s.jobs p = some job) (hdisable : job.purpose = .disable)
    (htodo : job.todo = .code) :
    (Run.run (step crypto account) s [.advance p, .advance p, .advance p]).users =
      (totpDisable crypto s.users job.uid job.row job.request job.form).1 := by
  have hlook : (if totpOk crypto job.row job.request job.form then (s.users, true)
      else totpRecoveryConsume crypto job.request.consumeOk s.users job.uid
        job.row.totpRecovery.stringOrEmpty job.form.code) =
      ((job.lookAtCode crypto s.users).1,
        totpOk crypto job.row job.request job.form || (job.lookAtCode crypto s.users).2) := by
    by_cases hcode : totpOk crypto job.row job.request job.form = true
    · simp [Job.lookAtCode, Job.TriesRecovery, hcode]
    · simp [Job.lookAtCode, Job.TriesRecovery, hcode, hdisable]
  unfold totpDisable
  rw [hlook]
  by_cases hok : passwordOk crypto job.row job.form = true ∧
      (totpOk crypto job.row job.request job.form || (job.lookAtCode crypto s.users).2) = true
  · simp [step, Site.advance, hjob, htodo, hdisable, hok.1, hok.2]
  · have hno : ¬ (job.purpose = .disable ∧ passwordOk crypto job.row job.form = true ∧
        (totpOk crypto job.row job.request job.form || (job.lookAtCode crypto s.users).2) =
          true) := fun h => hok h.2
    have hone : (step crypto account s (.advance p)).jobs p = none := by
      simp only [step, hjob, Site.advance, htodo, if_neg hno, Function.update_self]
    have hrest : ∀ s : Site P, s.jobs p = none → step crypto account s (.advance p) = s := by
      intro s hs
      simp only [step, hs]
    have husers : (step crypto account s (.advance p)).users =
        (job.lookAtCode crypto s.users).1 := by
      simp only [step, hjob, Site.advance, htodo]
    rw [Run.run_cons, Run.run_cons, Run.run_cons, Run.run_nil, hrest _ hone, hrest _ hone, husers]
    dsimp only
    rw [if_neg (by rwa [Bool.and_eq_true])]

end Alone

/-! ## What is asked of a run -/

def plain (code : Bytes) : Bytes := code.take 5 ++ code.drop 6

def stored (crypto : Crypto) (codes : List Bytes) : Bytes :=
  Fields.join 44 (codes.map fun code => crypto.sha256Hex (plain code))

/-- A code handed in for the account is accepted exactly when it is, up to letter case, a code
that was shown and not used. -/
def AnswersRight (crypto : Crypto) (account : Int) (s : Site P) : Event P → Prop
  | .arrive .. => True
  | .advance p => ∀ job ∈ s.jobs p, job.uid = account → job.todo = .code →
      (job.purpose = .login → job.row.totpSecret.stringOrEmpty ≠ []) →
      ((job.lookAtCode crypto s.users).2 = true ↔ ∃ code ∈ job.form.code, upper code ∈ s.unused)

instance (crypto : Crypto) (account : Int) (s : Site P) :
    (event : Event P) → Decidable (AnswersRight crypto account s event)
  | .arrive .. => instDecidableTrue
  | .advance _ => inferInstanceAs (Decidable (∀ _ ∈ _, _))

/-- No code is accepted more often than it was shown, and the row has the unused ones: none that
was used comes back. -/
structure SingleUse (crypto : Crypto) (account : Int) (shown : List Bytes) (s : Site P) :
    Prop where
  counts : (s.accepted ++ s.unused).Subperm shown
  row : (s.users account).map (·.totpRecovery) = some (.str (stored crypto s.unused))

/-- The code of the request is, up to letter case, among those that it has read. -/
def PresentsStored (crypto : Crypto) (job : Job) (code : Bytes) : Prop :=
  code.length = 11 ∧ code[5]? = some 45 ∧
    crypto.sha256Hex (plain (upper code)) ∈
      commaFields (snprintfS 600 job.row.totpRecovery.stringOrEmpty)

/-- A request that presents one of the codes it has read finds the row as it was read, has no
lower-case letter behind the dash, and its update goes through. -/
def Sound (crypto : Crypto) (account : Int) (s : Site P) : Event P → Prop
  | .arrive .. => True
  | .advance p => ∀ job ∈ s.jobs p, job.uid = account → job.todo = .code →
      ∀ code ∈ job.form.code, PresentsStored crypto job code →
        (s.users account).map (·.totpRecovery) = some job.row.totpRecovery ∧
          isLower (code.getD 6 0) = false ∧ job.request.consumeOk = true

instance (crypto : Crypto) (job : Job) (code : Bytes) :
    Decidable (PresentsStored crypto job code) :=
  inferInstanceAs (Decidable (_ ∧ _))

instance (crypto : Crypto) (account : Int) (s : Site P) :
    (event : Event P) → Decidable (Sound crypto account s event)
  | .arrive .. => instDecidableTrue
  | .advance _ => inferInstanceAs (Decidable (∀ _ ∈ _, _))

def typedCodes (events : List (Event P)) : List Bytes :=
  events.filterMap fun
    | .arrive _ _ request => request.form.bind (·.code)
    | .advance _ => none

/-- SHA-256 in hexadecimal, as far as it matters for a list of digests. -/
structure HexDigests (crypto : Crypto) : Prop where
  length : ∀ s, (crypto.sha256Hex s).length = 64
  comma : ∀ s, 44 ∉ crypto.sha256Hex s

/-- No text that is hashed for a typed code has the digest of another text that was shown. -/
def NoCollision (crypto : Crypto) (shown typed : List Bytes) : Prop :=
  ∀ t ∈ typed, ∀ c ∈ shown, crypto.sha256Hex (recoveryNormalized t) = crypto.sha256Hex (plain c) →
    recoveryNormalized t = plain c

/-! ## The two normal forms -/

structure ShownForm (code : Bytes) : Prop where
  length : code.length = 11
  dash : code[5]? = some 45
  upper : ∀ c ∈ code, isLower c = false

theorem toUpper_of_not_lower {c : UInt8} (h : isLower c = false) : toUpper c = c := by
  unfold isLower at h
  rw [Bool.and_eq_false_iff, decide_eq_false_iff_not, decide_eq_false_iff_not, ← not_and_or] at h
  exact if_neg h

theorem toUpper_eq_dash {c : UInt8} (h : toUpper c = 45) : c = 45 := by
  unfold toUpper at h
  split_ifs at h with hlower
  · rw [UInt8.le_iff_toNat_le, UInt8.le_iff_toNat_le] at hlower
    have hsub := UInt8.toNat_sub_of_le c 32 (by rw [UInt8.le_iff_toNat_le]; grind)
    rw [h] at hsub
    grind
  · exact h

theorem eq_of_plain_eq {code other : Bytes} (hcode : code[5]? = some 45)
    (hother : other[5]? = some 45) (h : plain code = plain other) : code = other := by
  have hsplit : ∀ e : Bytes, e[5]? = some 45 → e = e.take 5 ++ 45 :: e.drop 6 := by
    intro e he
    obtain ⟨hlen, hget⟩ := List.getElem?_eq_some_iff.mp he
    rw [← hget, List.getElem_cons_drop, List.take_append_drop]
  have hfive : ∀ e : Bytes, e[5]? = some 45 → (e.take 5).length = 5 := by
    intro e he
    obtain ⟨hlen, -⟩ := List.getElem?_eq_some_iff.mp he
    rw [List.length_take]
    omega
  obtain ⟨htake, hdrop⟩ := List.append_inj h ((hfive code hcode).trans (hfive other hother).symm)
  rw [hsplit code hcode, hsplit other hother, htake, hdrop]

section Typed

variable {t c : Bytes}

theorem drop_six (hlen : t.length = 11) : t.drop 6 = t.getD 6 0 :: t.drop 7 := by
  rw [List.drop_eq_getElem_cons (by omega), List.getD_eq_getElem t 0 (by omega)]

theorem plain_upper (hlen : t.length = 11) :
    plain (upper t) =
      (t.take 5).map toUpper ++ [toUpper (t.getD 6 0)] ++ ((t.drop 7).take 4).map toUpper := by
  have hrest : (t.drop 7).take 4 = t.drop 7 := by
    rw [List.take_of_length_le]
    rw [List.length_drop]
    omega
  rw [plain, upper, ← List.map_take, ← List.map_drop, drop_six hlen, hrest, List.map_cons,
    List.append_assoc]
  rfl

theorem recoveryNormalized_eq (hlen : t.length = 11) :
    recoveryNormalized t =
      (t.take 5).map toUpper ++ [t.getD 6 0] ++ ((t.drop 7).take 4).map toUpper := by
  rw [recoveryNormalized, drop_six hlen]
  rfl

/-- The two agree when the character behind the dash is no lower-case letter. -/
theorem recoveryNormalized_eq_plain (hlen : t.length = 11) (h : isLower (t.getD 6 0) = false) :
    recoveryNormalized t = plain (upper t) := by
  rw [recoveryNormalized_eq hlen, plain_upper hlen, toUpper_of_not_lower h]

theorem not_lower_of_normalized (hlen : t.length = 11) (hc : ShownForm c)
    (h : recoveryNormalized t = plain c) : isLower (t.getD 6 0) = false := by
  have hmem : t.getD 6 0 ∈ plain c := by
    rw [← h, recoveryNormalized_eq hlen]
    simp
  rcases List.mem_append.mp hmem with htake | hdrop
  · exact hc.upper _ (List.mem_of_mem_take htake)
  · exact hc.upper _ (List.mem_of_mem_drop hdrop)

theorem form_of_upper_eq (hc : ShownForm c) (h : upper t = c) :
    t.length = 11 ∧ t[5]? = some 45 := by
  have hlen : t.length = 11 := by rw [← hc.length, ← h, upper, List.length_map]
  have hdash := hc.dash
  rw [← h, upper, List.getElem?_map, Option.map_eq_some_iff] at hdash
  obtain ⟨x, hx, hupper⟩ := hdash
  exact ⟨hlen, by rw [hx, toUpper_eq_dash hupper]⟩

theorem upper_dash (h : t[5]? = some 45) : (upper t)[5]? = some 45 := by
  rw [upper, List.getElem?_map, h]
  rfl

end Typed

/-! ## The stored list -/

section Stored

variable {crypto : Crypto} {codes shown : List Bytes} {t code : Bytes}

/-- The stored list is read back, as long as it fits the buffer of the source. -/
theorem commaFields_stored (hhash : HexDigests crypto) (hfew : codes.length ≤ 5) :
    commaFields (snprintfS 600 (stored crypto codes)) =
      codes.map fun code => crypto.sha256Hex (plain code) := by
  have hfields : ∀ f ∈ codes.map fun code => crypto.sha256Hex (plain code),
      ∃ s, f = crypto.sha256Hex s := by
    intro f hf
    obtain ⟨code, -, rfl⟩ := List.mem_map.mp hf
    exact ⟨_, rfl⟩
  have hlen : (stored crypto codes).length ≤ 599 := by
    have hsum : ∀ n, (List.replicate n 65).sum = n * 65 := fun n => List.sum_replicate_nat
    have hall : (codes.map fun code => crypto.sha256Hex (plain code)).map (·.length + 1) =
        List.replicate codes.length 65 := by
      rw [List.map_map, List.eq_replicate_iff, List.length_map]
      refine ⟨rfl, ?_⟩
      intro n hn
      obtain ⟨code, -, rfl⟩ := List.mem_map.mp hn
      exact congrArg (· + 1) (hhash.length _)
    rw [stored, Fields.length_join, hall, hsum]
    omega
  have hcut : snprintfS 600 (stored crypto codes) = stored crypto codes :=
    List.take_of_length_le hlen
  rw [hcut]
  refine Fields.split_join ?_ ?_
  · intro f hf
    obtain ⟨s, rfl⟩ := hfields f hf
    exact hhash.comma s
  · intro f hf hnil
    obtain ⟨s, rfl⟩ := hfields f hf
    have hlong := hhash.length s
    rw [hnil] at hlong
    exact absurd hlong (by simp)

theorem map_erase_of_inj {α β : Type*} [BEq α] [LawfulBEq α] [BEq β] [LawfulBEq β] {f : α → β}
    {a : α} {l : List α} (h : ∀ b ∈ l, f b = f a → b = a) :
    (l.map f).erase (f a) = (l.erase a).map f := by
  induction l with
  | nil => rfl
  | cons b l ih =>
    have ih := ih fun c hc => h c (List.mem_cons_of_mem _ hc)
    by_cases hb : b = a
    · rw [hb, List.map_cons, List.erase_cons_head, List.erase_cons_head]
    · have hfb : f b ≠ f a := fun heq => hb (h b List.mem_cons_self heq)
      rw [List.map_cons, List.erase_cons_tail (by simpa using hfb),
        List.erase_cons_tail (by simpa using hb), List.map_cons, ih]

/-- What `totp_recovery_consume` finds in a list of codes that were shown: the code as it was
shown, when it is typed with no lower-case letter behind the dash. -/
theorem recoveryMatch_stored (hhash : HexDigests crypto) (hfew : codes.length ≤ 5)
    (hform : ∀ c ∈ codes, ShownForm c)
    (hcoll : ∀ c ∈ codes, crypto.sha256Hex (recoveryNormalized t) = crypto.sha256Hex (plain c) →
      recoveryNormalized t = plain c) :
    recoveryMatch crypto (stored crypto codes) (some t) =
      if upper t ∈ codes ∧ isLower (t.getD 6 0) = false then
        some (stored crypto (codes.erase (upper t)))
      else none := by
  unfold recoveryMatch
  dsimp only
  rw [commaFields_stored hhash hfew]
  by_cases hmatch : upper t ∈ codes ∧ isLower (t.getD 6 0) = false
  · obtain ⟨hmem, hlower⟩ := hmatch
    obtain ⟨hlen, hdash⟩ := form_of_upper_eq (hform _ hmem) rfl
    have hnormal := recoveryNormalized_eq_plain hlen hlower
    have hinj : ∀ c ∈ codes, crypto.sha256Hex (plain c) = crypto.sha256Hex (plain (upper t)) →
        c = upper t := by
      intro c hc heq
      rw [← hnormal] at heq
      have hplain := hcoll c hc heq.symm
      rw [hnormal] at hplain
      exact eq_of_plain_eq (hform c hc).dash (upper_dash hdash) hplain.symm
    rw [if_pos ⟨hlen, hdash⟩, hnormal, if_pos (List.mem_map.mpr ⟨_, hmem, rfl⟩),
      if_pos ⟨hmem, hlower⟩]
    have herase := map_erase_of_inj (f := fun code => crypto.sha256Hex (plain code)) hinj
    rw [stored, ← herase]
    rfl
  · rw [if_neg hmatch]
    split_ifs with hshape hmem
    · -- the digest of the typed code would be that of a code which it is not
      obtain ⟨c, hc, heq⟩ := List.mem_map.mp hmem
      have hplain := hcoll c hc heq.symm
      have hlower := not_lower_of_normalized hshape.1 (hform c hc) hplain
      rw [recoveryNormalized_eq_plain hshape.1 hlower] at hplain
      have hupper := eq_of_plain_eq (upper_dash hshape.2) (hform c hc).dash hplain
      exact absurd ⟨hupper ▸ hc, hlower⟩ hmatch
    · rfl
    · rfl

end Stored

/-! ## The invariant -/

section Invariant

variable {crypto : Crypto} {account : Int} {shown typed : List Bytes} {s : Site P} {p : P}
  {job : Job}

/-- A request that has read the row holds codes that were shown, the unused ones among them. -/
structure Inv (crypto : Crypto) (account : Int) (shown typed : List Bytes) (s : Site P) :
    Prop where
  single : SingleUse crypto account shown s
  typed : ∀ p, ∀ job ∈ s.jobs p, ∀ t ∈ job.form.code, t ∈ typed
  read : ∀ p, ∀ job ∈ s.jobs p, job.uid = account → ∃ codes, codes.Subperm shown ∧
    s.unused ⊆ codes ∧ job.row.totpRecovery = .str (stored crypto codes)

theorem Inv.unused_subperm (h : Inv crypto account shown typed s) : s.unused.Subperm shown :=
  (List.sublist_append_right _ _).subperm.trans h.single.counts

theorem lookAtCode_ne (users : Users) (h : account ≠ job.uid) :
    (job.lookAtCode crypto users).1 account = users account := by
  unfold Job.lookAtCode totpRecoveryConsume dbUserUpdateTotpRecovery
  split_ifs
  · split
    · rfl
    · exact updateUser_ne _ _ _ h
  · rfl

theorem length_of_totpOk {row : UserRow} {request : TotpRequest} {form : TotpForm} {t : Bytes}
    (hcode : form.code = some t) (h : totpOk crypto row request form = true) : t.length = 6 := by
  unfold totpOk totpVerifyAt at h
  rw [hcode] at h
  simp only [codeIsWelformed, Bool.and_eq_true, beq_iff_eq] at h
  exact h.2.1.1

/-- A request that shows an unused code has its code looked for among the recovery codes: the code
is too long for a time code, and there are codes in the row. -/
theorem triesRecovery_of_unused {t : Bytes} (hhash : HexDigests crypto) (hfew : shown.length ≤ 5)
    (hform : ∀ c ∈ shown, ShownForm c) (hinv : Inv crypto account shown typed s)
    (hjob : s.jobs p = some job) (huid : job.uid = account)
    (hsecret : job.purpose = .login → job.row.totpSecret.stringOrEmpty ≠ [])
    (hcode : job.form.code = some t) (hmem : upper t ∈ s.unused) : job.TriesRecovery crypto := by
  obtain ⟨codes, hcodes, hunused, hread⟩ := hinv.read p job hjob huid
  have hshown := hform _ (hinv.unused_subperm.subset hmem)
  refine ⟨?_, fun hlogin => ⟨hsecret hlogin, ?_⟩⟩
  · rw [← Bool.not_eq_true]
    intro hok
    have hsix := length_of_totpOk hcode hok
    have heleven := (form_of_upper_eq hshown rfl).1
    omega
  · intro hnil
    have hfields := commaFields_stored hhash (hcodes.length_le.trans hfew)
    rw [hread, Json.stringOrEmpty] at hnil
    rw [hnil] at hfields
    have hcodesNil : codes = [] := List.map_eq_nil_iff.mp hfields.symm
    have hin := hunused hmem
    rw [hcodesNil] at hin
    exact absurd hin (by simp)

theorem lookAtCode_cases (hhash : HexDigests crypto) (hfew : shown.length ≤ 5)
    (hform : ∀ c ∈ shown, ShownForm c) (hcoll : NoCollision crypto shown typed)
    (hinv : Inv crypto account shown typed s) (hjob : s.jobs p = some job)
    (huid : job.uid = account)
    (hsound : ∀ t ∈ job.form.code, PresentsStored crypto job t →
      (s.users account).map (·.totpRecovery) = some job.row.totpRecovery ∧
        isLower (t.getD 6 0) = false ∧ job.request.consumeOk = true) :
    (∃ t ∈ job.form.code, upper t ∈ s.unused ∧ (job.lookAtCode crypto s.users).2 = true ∧
        ((job.lookAtCode crypto s.users).1 account).map (·.totpRecovery) =
          some (.str (stored crypto (s.unused.erase (upper t))))) ∨
      (job.lookAtCode crypto s.users = (s.users, false) ∧
        ((job.purpose = .login → job.row.totpSecret.stringOrEmpty ≠ []) →
          ∀ t ∈ job.form.code, upper t ∉ s.unused)) := by
  obtain ⟨codes, hcodes, hunused, hread⟩ := hinv.read p job hjob huid
  have hfewCodes : codes.length ≤ 5 := hcodes.length_le.trans hfew
  cases hcode : job.form.code with
  | none =>
    refine .inr ⟨?_, fun _ t ht => absurd ht (by simp)⟩
    rw [Job.lookAtCode, hcode]
    split_ifs <;> rfl
  | some t =>
    have hcollides : ∀ c ∈ shown,
        crypto.sha256Hex (recoveryNormalized t) = crypto.sha256Hex (plain c) →
          recoveryNormalized t = plain c :=
      hcoll t (hinv.typed p job hjob t hcode)
    by_cases htries : job.TriesRecovery crypto
    · rw [Job.lookAtCode, if_pos htries, totpRecoveryConsume, hcode, hread, Json.stringOrEmpty]
      by_cases hpresent : upper t ∈ codes
      · -- the row is as it was read, so the unused codes are matched
        obtain ⟨hlen, hdash⟩ := form_of_upper_eq (hform _ (hcodes.subset hpresent)) rfl
        have hpresents : PresentsStored crypto job t := by
          refine ⟨hlen, hdash, ?_⟩
          rw [hread, Json.stringOrEmpty, commaFields_stored hhash hfewCodes]
          exact List.mem_map.mpr ⟨_, hpresent, rfl⟩
        obtain ⟨hcurrent, hlower, hok⟩ := hsound t hcode hpresents
        have hrow := hinv.single.row
        have hsame : stored crypto codes = stored crypto s.unused := by
          rw [hrow, hread] at hcurrent
          exact (Json.str.inj (Option.some.inj hcurrent)).symm
        rw [hsame, recoveryMatch_stored hhash (hinv.unused_subperm.length_le.trans hfew)
          (fun c hc => hform c (hinv.unused_subperm.subset hc))
          (fun c hc => hcollides c (hinv.unused_subperm.subset hc))]
        by_cases hmem : upper t ∈ s.unused
        · left
          refine ⟨t, rfl, hmem, ?_⟩
          rw [if_pos ⟨hmem, hlower⟩]
          refine ⟨rfl, ?_⟩
          dsimp only
          obtain ⟨user, huser, -⟩ := Option.map_eq_some_iff.mp hrow
          rw [dbUserUpdateTotpRecovery, huid, updateUser_self, if_pos hok, huser]
          rfl
        · right
          rw [if_neg fun h => hmem h.1]
          refine ⟨rfl, ?_⟩
          rintro - t' ⟨⟩
          exact hmem
      · right
        rw [recoveryMatch_stored hhash hfewCodes (fun c hc => hform c (hcodes.subset hc))
          (fun c hc => hcollides c (hcodes.subset hc)), if_neg fun h => hpresent h.1]
        refine ⟨rfl, ?_⟩
        rintro - t' ⟨⟩ hmem
        exact hpresent (hunused hmem)
    · right
      rw [Job.lookAtCode, if_neg htries]
      refine ⟨rfl, ?_⟩
      rintro hsecret t' ⟨⟩ hmem
      exact htries (triesRecovery_of_unused hhash hfew hform hinv hjob huid hsecret hcode hmem)

/-- A step keeps the invariant when it keeps what is counted and stored, and starts no request. -/
theorem Inv.next {s' : Site P} (hinv : Inv crypto account shown typed s)
    (hsingle : SingleUse crypto account shown s') (hunused : s'.unused ⊆ s.unused)
    (hjobs : ∀ p, ∀ j ∈ s'.jobs p, ∃ job ∈ s.jobs p,
      j.uid = job.uid ∧ j.row = job.row ∧ j.form = job.form) :
    Inv crypto account shown typed s' where
  single := hsingle
  typed := by
    intro p j hj
    obtain ⟨job, hjob, -, -, hform⟩ := hjobs p j hj
    rw [hform]
    exact hinv.typed p job hjob
  read := by
    intro p j hj huid
    obtain ⟨job, hjob, hsame, hrow, -⟩ := hjobs p j hj
    obtain ⟨codes, hcodes, hsub, hread⟩ := hinv.read p job hjob (hsame ▸ huid)
    exact ⟨codes, hcodes, List.Subset.trans hunused hsub, hrow ▸ hread⟩

variable [DecidableEq P]

theorem jobs_advance (hjob : s.jobs p = some job) (q : P) :
    ∀ j ∈ (s.advance crypto account p job).jobs q, ∃ job ∈ s.jobs q,
      j.uid = job.uid ∧ j.row = job.row ∧ j.form = job.form := by
  have hupdate : ∀ next : Option Job,
      (∀ j ∈ next, j.uid = job.uid ∧ j.row = job.row ∧ j.form = job.form) →
      ∀ j ∈ Function.update s.jobs p next q, ∃ job ∈ s.jobs q,
        j.uid = job.uid ∧ j.row = job.row ∧ j.form = job.form := by
    intro next hnext j hj
    by_cases hq : q = p
    · rw [hq, Function.update_self] at hj
      exact ⟨job, hq ▸ hjob, hnext j hj⟩
    · rw [Function.update_of_ne hq] at hj
      exact ⟨j, hj, rfl, rfl, rfl⟩
  unfold Site.advance
  cases job.todo with
  | code =>
    refine hupdate _ ?_
    split_ifs
    · rintro j ⟨⟩
      exact ⟨rfl, rfl, rfl⟩
    · rintro j ⟨⟩
  | secret =>
    refine hupdate _ ?_
    rintro j ⟨⟩
    exact ⟨rfl, rfl, rfl⟩
  | codes =>
    refine hupdate _ ?_
    rintro j ⟨⟩

/-- What a step of a request makes of the row and the lists, when it does not look at the code. -/
theorem singleUse_advance_other (hinv : Inv crypto account shown typed s)
    (htodo : job.todo ≠ .code) :
    SingleUse crypto account shown (s.advance crypto account p job) ∧
      (s.advance crypto account p job).unused ⊆ s.unused := by
  have hsingle := hinv.single
  have hrow := hsingle.row
  unfold Site.advance
  cases hcase : job.todo with
  | code => exact absurd hcase htodo
  | secret =>
    refine ⟨⟨hsingle.counts, ?_⟩, List.Subset.refl _⟩
    dsimp only
    rw [← hrow, dbUserUpdateTotp]
    by_cases huid : account = job.uid
    · rw [huid, updateUser_self]
      cases job.request.totpOk with
      | true => cases s.users job.uid <;> rfl
      | false => rfl
    · rw [updateUser_ne _ _ _ huid]
  | codes =>
    dsimp only
    by_cases hwrites : job.uid = account ∧ job.request.recoveryOk = true
    · obtain ⟨huid, hok⟩ := hwrites
      rw [if_pos ⟨huid, hok⟩]
      refine ⟨⟨?_, ?_⟩, List.nil_subset _⟩
      · rw [List.append_nil]
        exact (List.sublist_append_left _ _).subperm.trans hsingle.counts
      · dsimp only
        obtain ⟨user, huser, -⟩ := Option.map_eq_some_iff.mp hrow
        rw [dbUserUpdateTotpRecovery, huid, updateUser_self, if_pos hok, huser]
        rfl
    · rw [if_neg hwrites]
      refine ⟨⟨hsingle.counts, ?_⟩, List.Subset.refl _⟩
      dsimp only
      rw [← hrow, dbUserUpdateTotpRecovery]
      by_cases huid : account = job.uid
      · have hfail : job.request.recoveryOk = false := by
          rw [← Bool.not_eq_true]
          exact fun hok => hwrites ⟨huid.symm, hok⟩
        rw [hfail]
        rfl
      · rw [updateUser_ne _ _ _ huid]

/-- What a step that looks at the code makes of the table and the lists. -/
theorem advance_code (account : Int) (p : P) (htodo : job.todo = .code) :
    (s.advance crypto account p job).users = (job.lookAtCode crypto s.users).1 ∧
      (s.advance crypto account p job).unused =
        (if job.uid = account ∧ (job.lookAtCode crypto s.users).2 = true then
          s.unused.erase (upper (job.form.code.getD [])) else s.unused) ∧
      (s.advance crypto account p job).accepted =
        (if job.uid = account ∧ (job.lookAtCode crypto s.users).2 = true then
          upper (job.form.code.getD []) :: s.accepted else s.accepted) := by
  unfold Site.advance
  rw [htodo]
  exact ⟨rfl, rfl, rfl⟩

theorem singleUse_advance_code (hhash : HexDigests crypto) (hfew : shown.length ≤ 5)
    (hform : ∀ c ∈ shown, ShownForm c) (hcoll : NoCollision crypto shown typed)
    (hinv : Inv crypto account shown typed s) (hjob : s.jobs p = some job)
    (hsound : Sound crypto account s (.advance p)) (htodo : job.todo = .code) :
    (SingleUse crypto account shown (s.advance crypto account p job) ∧
      (s.advance crypto account p job).unused ⊆ s.unused) ∧
      AnswersRight crypto account s (.advance p) := by
  obtain ⟨hcounts, hrow⟩ := hinv.single
  obtain ⟨husers', hunused', haccepted'⟩ := advance_code account p htodo
  rw [hunused']
  by_cases huid : job.uid = account
  · rcases lookAtCode_cases hhash hfew hform hcoll hinv hjob huid (hsound job hjob huid htodo) with
      ⟨t, ht, hmem, haccepted, hrow'⟩ | ⟨hrejected, hnone⟩
    · rw [if_pos ⟨huid, haccepted⟩, ht, Option.getD_some] at hunused' haccepted'
      rw [if_pos ⟨huid, haccepted⟩, ht, Option.getD_some]
      refine ⟨⟨⟨?_, ?_⟩, List.erase_subset⟩, ?_⟩
      · -- the code goes from one list to the other
        have hperm : (s.accepted ++ s.unused).Perm
            (upper t :: s.accepted ++ s.unused.erase (upper t)) :=
          ((List.perm_cons_erase hmem).append_left _).trans List.perm_middle
        rw [hunused', haccepted']
        exact hperm.subperm_right.mp hcounts
      · rw [husers', hunused']
        exact hrow'
      · intro j hj _ _ _
        obtain rfl := Option.some.inj (hjob.symm.trans hj)
        exact iff_of_true haccepted ⟨t, ht, hmem⟩
    · have hno : ¬ (job.uid = account ∧ (job.lookAtCode crypto s.users).2 = true) := by
        rw [hrejected]
        exact fun h => absurd h.2 Bool.false_ne_true
      rw [if_neg hno] at hunused' haccepted'
      rw [if_neg hno]
      refine ⟨⟨⟨?_, ?_⟩, List.Subset.refl _⟩, ?_⟩
      · rw [hunused', haccepted']
        exact hcounts
      · rw [husers', hunused', hrejected]
        exact hrow
      · intro j hj _ _ hlogin
        obtain rfl := Option.some.inj (hjob.symm.trans hj)
        rw [hrejected]
        refine iff_of_false Bool.false_ne_true ?_
        rintro ⟨t, ht, hmem⟩
        exact hnone hlogin t ht hmem
  · rw [if_neg fun h => huid h.1] at hunused' haccepted'
    rw [if_neg fun h => huid h.1]
    refine ⟨⟨⟨?_, ?_⟩, List.Subset.refl _⟩, ?_⟩
    · rw [hunused', haccepted']
      exact hcounts
    · rw [husers', hunused', lookAtCode_ne s.users (Ne.symm huid)]
      exact hrow
    · intro j hj hsame _ _
      obtain rfl := Option.some.inj (hjob.symm.trans hj)
      exact absurd hsame huid

/-- A request that reads the row of the account holds the unused codes. -/
theorem inv_arrive (hinv : Inv crypto account shown typed s) {purpose : Purpose}
    {request : TotpRequest}
    (htyped : ∀ t ∈ request.form.bind (·.code), t ∈ typed) :
    Inv crypto account shown typed
      { s with jobs := Function.update s.jobs p (Job.ofRequest s.users purpose request) } := by
  have hread : ∀ job ∈ Job.ofRequest s.users purpose request,
      request.form = some job.form ∧ s.users job.uid = some job.row := by
    intro job hj
    unfold Job.ofRequest at hj
    split at hj
    · rename_i uid form _ hform
      split_ifs at hj with hother hselect
      · exact absurd hj (by simp)
      · obtain ⟨row, hrow, rfl⟩ := Option.map_eq_some_iff.mp hj
        exact ⟨hform, hrow⟩
      · exact absurd hj (by simp)
    · exact absurd hj (by simp)
  refine ⟨⟨hinv.single.counts, hinv.single.row⟩, ?_, ?_⟩
  · intro q job hj t ht
    dsimp only at hj
    by_cases hq : q = p
    · rw [hq, Function.update_self] at hj
      refine htyped t ?_
      rw [(hread job hj).1]
      exact ht
    · rw [Function.update_of_ne hq] at hj
      exact hinv.typed q job hj t ht
  · intro q job hj huid
    dsimp only at hj
    by_cases hq : q = p
    · rw [hq, Function.update_self] at hj
      refine ⟨s.unused, hinv.unused_subperm, List.Subset.refl _, ?_⟩
      have hrow := hinv.single.row
      rw [← huid, (hread job hj).2] at hrow
      exact Option.some.inj hrow
    · rw [Function.update_of_ne hq] at hj
      exact hinv.read q job hj huid

theorem inv_step (hhash : HexDigests crypto) (hfew : shown.length ≤ 5)
    (hform : ∀ c ∈ shown, ShownForm c) (hcoll : NoCollision crypto shown typed)
    (hinv : Inv crypto account shown typed s) {event : Event P}
    (htyped : ∀ t ∈ typedCodes [event], t ∈ typed) (hsound : Sound crypto account s event) :
    Inv crypto account shown typed (step crypto account s event) ∧
      AnswersRight crypto account s event := by
  cases event with
  | arrive p purpose request =>
    refine ⟨?_, trivial⟩
    dsimp only [step]
    cases hjob : s.jobs p with
    | none =>
      refine inv_arrive hinv fun t ht => htyped t ?_
      exact List.mem_filterMap.mpr ⟨_, List.mem_singleton_self _, ht⟩
    | some job => exact hinv
  | advance p =>
    dsimp only [step]
    cases hjob : s.jobs p with
    | none =>
      refine ⟨hinv, ?_⟩
      intro job hj
      rw [hjob] at hj
      exact absurd hj (by simp)
    | some job =>
      dsimp only
      by_cases htodo : job.todo = .code
      · obtain ⟨⟨hsingle, hunused⟩, hright⟩ :=
          singleUse_advance_code hhash hfew hform hcoll hinv hjob hsound htodo
        exact ⟨hinv.next hsingle hunused (jobs_advance hjob), hright⟩
      · obtain ⟨hsingle, hunused⟩ := singleUse_advance_other (p := p) hinv htodo
        refine ⟨hinv.next hsingle hunused (jobs_advance hjob), ?_⟩
        intro j hj _ htodo' _
        obtain rfl := Option.some.inj (hjob.symm.trans hj)
        exact absurd htodo' htodo

end Invariant

/-! ## The codes that are shown -/

theorem of_mapM_eq_some {α β : Type*} {f : α → Option β} {l : List α} {r : List β}
    (h : l.mapM f = some r) : r.length = l.length ∧ ∀ b ∈ r, ∃ a ∈ l, f a = some b := by
  induction l generalizing r with
  | nil =>
    obtain rfl := Option.some.inj h
    exact ⟨rfl, by simp⟩
  | cons a l ih =>
    rw [List.mapM_cons] at h
    obtain ⟨b, hb, hrest⟩ := Option.bind_eq_some_iff.mp h
    obtain ⟨bs, hbs, hcons⟩ := Option.bind_eq_some_iff.mp hrest
    obtain rfl := Option.some.inj hcons
    obtain ⟨hlen, hmem⟩ := ih hbs
    refine ⟨congrArg (· + 1) hlen, ?_⟩
    intro c hc
    rcases List.mem_cons.mp hc with rfl | hc
    · exact ⟨a, List.mem_cons_self, hb⟩
    · obtain ⟨a', ha', hc'⟩ := hmem c hc
      exact ⟨a', List.mem_cons_of_mem _ ha', hc'⟩

theorem isLower_of_mem_upperHex (b : UInt8) : ∀ c ∈ upperHex b, isLower c = false := by
  have hdigit : ∀ n : UInt8, n.toNat < 16 →
      isLower (if n < 10 then 48 + n else 55 + n) = false := by
    intro n hn
    unfold isLower
    rw [Bool.and_eq_false_iff, decide_eq_false_iff_not, UInt8.le_iff_toNat_le]
    left
    split_ifs
    · have hsum : (48 + n).toNat = (48 + n.toNat) % 256 := UInt8.toNat_add 48 n
      rw [hsum]
      simp only [UInt8.toNat_ofNat]
      omega
    · have hsum : (55 + n).toNat = (55 + n.toNat) % 256 := UInt8.toNat_add 55 n
      rw [hsum]
      simp only [UInt8.toNat_ofNat]
      omega
  intro c hc
  rcases List.mem_cons.mp hc with rfl | hc
  · refine hdigit _ ?_
    have hb := b.toNat_lt
    rw [UInt8.toNat_shiftRight, Nat.shiftRight_eq_div_pow]
    simp only [UInt8.toNat_ofNat, Nat.reduceMod, Nat.reducePow]
    omega
  · rw [List.mem_singleton.mp hc]
    refine hdigit _ ?_
    rw [UInt8.toNat_and]
    exact lt_of_le_of_lt Nat.and_le_right (by decide)

theorem shown_of_digits {digits : Bytes} (hlen : digits.length = 10)
    (hupper : ∀ c ∈ digits, isLower c = false) :
    ShownForm (digits.take 5 ++ [45] ++ digits.drop 5) ∧
      plain (digits.take 5 ++ [45] ++ digits.drop 5) = digits := by
  have htake : (digits.take 5).length = 5 := by
    rw [List.length_take]
    omega
  refine ⟨⟨?_, ?_, ?_⟩, ?_⟩
  · rw [List.length_append, List.length_append, htake, List.length_drop, hlen]
    rfl
  · rw [List.append_assoc, List.getElem?_append_right (by omega), htake]
    rfl
  · intro c hc
    rcases List.mem_append.mp hc with hc | hc
    · rcases List.mem_append.mp hc with hc | hc
      · exact hupper c (List.mem_of_mem_take hc)
      · rw [List.mem_singleton.mp hc]
        rfl
    · exact hupper c (List.mem_of_mem_drop hc)
  · rw [plain, List.append_assoc, List.take_append_of_le_length (by omega), List.take_take,
      ← List.append_assoc, List.drop_left' (by rw [List.length_append, htake]; rfl)]
    exact List.take_append_drop 5 digits

theorem of_totpRecoveryGenerate {crypto : Crypto} {ok : Bool} {users users' : Users}
    {account : Int} {user : UserRow} {draws : Fin 5 → Option Bytes} {shown : List Bytes}
    (hdraws : ∀ i raw, draws i = some raw → raw.length = 5) (huser : users account = some user)
    (h : totpRecoveryGenerate crypto ok users account draws = (users', some shown)) :
    shown.length = 5 ∧ (∀ c ∈ shown, ShownForm c) ∧
      (users' account).map (·.totpRecovery) = some (.str (stored crypto shown)) := by
  unfold totpRecoveryGenerate at h
  cases hraws : (List.finRange 5).mapM draws with
  | none =>
    rw [hraws] at h
    exact absurd (congrArg Prod.snd h) (by simp)
  | some raws =>
    obtain ⟨hcount, hfrom⟩ := of_mapM_eq_some hraws
    rw [hraws] at h
    cases hok : ok with
    | false =>
      rw [hok] at h
      exact absurd (congrArg Prod.snd h) (by simp [dbUserUpdateTotpRecovery, updateUser])
    | true =>
      rw [hok] at h
      obtain ⟨husers, hshown⟩ := Prod.mk.inj h
      rw [Option.some.injEq] at hshown
      have hupdate : users' = (updateUser true users account fun u =>
          { u with totpRecovery := .str (List.intercalate [44]
            ((raws.map fun raw => raw.flatMap upperHex).map crypto.sha256Hex)) }).1 := husers.symm
      have hdigits : ∀ raw ∈ raws, (raw.flatMap upperHex).length = 10 ∧
          ∀ c ∈ raw.flatMap upperHex, isLower c = false := by
        intro raw hraw
        obtain ⟨i, -, hi⟩ := hfrom raw hraw
        refine ⟨?_, ?_⟩
        · have hfive := hdraws i raw hi
          have htwo : raw.map (fun b => (upperHex b).length) = List.replicate 5 2 := by
            rw [List.eq_replicate_iff, List.length_map]
            refine ⟨hfive, ?_⟩
            intro n hn
            obtain ⟨b, -, rfl⟩ := List.mem_map.mp hn
            rfl
          rw [List.length_flatMap, htwo]
          rfl
        · intro c hc
          obtain ⟨b, -, hcb⟩ := List.mem_flatMap.mp hc
          exact isLower_of_mem_upperHex b c hcb
      refine ⟨?_, ?_, ?_⟩
      · rw [← hshown, List.length_map, List.length_map, hcount]
        rfl
      · intro c hc
        rw [← hshown, List.map_map] at hc
        obtain ⟨raw, hraw, rfl⟩ := List.mem_map.mp hc
        exact (shown_of_digits (hdigits raw hraw).1 (hdigits raw hraw).2).1
      · have hplain : shown.map (fun code => crypto.sha256Hex (plain code)) =
            (raws.map fun raw => raw.flatMap upperHex).map crypto.sha256Hex := by
          rw [← hshown, List.map_map, List.map_map, List.map_map]
          refine List.map_congr_left ?_
          intro raw hraw
          exact congrArg crypto.sha256Hex
            (shown_of_digits (hdigits raw hraw).1 (hdigits raw hraw).2).2
        rw [hupdate, updateUser_self, if_pos rfl, huser, stored, hplain]
        rfl

/-! ## Every run -/

section Run

variable [DecidableEq P] {crypto : Crypto} {users users' : Users} {account : Int}
  {shown : List Bytes}

/-- In every run whose requests find the row as they have read it when they present one of its
codes, and type it with no lower-case letter behind the dash, a code is accepted exactly when it
is an unused one up to letter case, none is accepted twice, and none comes back. -/
theorem recoveryCodes_single_use (hhash : HexDigests crypto) {user : UserRow}
    (huser : users account = some user) {ok : Bool} {draws : Fin 5 → Option Bytes}
    (hdraws : ∀ i raw, draws i = some raw → raw.length = 5)
    (hshown : totpRecoveryGenerate crypto ok users account draws = (users', some shown))
    {events : List (Event P)} (hcoll : NoCollision crypto shown (typedCodes events))
    (hsound : Run.AllSteps (step crypto account) (Sound crypto account) (start users' shown)
      events) :
    Run.AllSteps (step crypto account) (AnswersRight crypto account) (start users' shown)
        events ∧
      ∀ s, Run.Reaches (step crypto account) (start users' shown) events s →
        SingleUse crypto account shown s := by
  obtain ⟨hcount, hform, hrow⟩ := of_totpRecoveryGenerate hdraws huser hshown
  have hstart : Inv crypto account shown (typedCodes events) (start users' shown : Site P) :=
    ⟨⟨List.Subperm.refl _, hrow⟩, fun p job hjob => absurd hjob (by simp [start]),
      fun p job hjob => absurd hjob (by simp [start])⟩
  have hstep : ∀ (s : Site P) (event : Event P), Inv crypto account shown (typedCodes events) s →
      (Sound crypto account s event ∧ ∀ t ∈ typedCodes [event], t ∈ typedCodes events) →
      Inv crypto account shown (typedCodes events) (step crypto account s event) ∧
        AnswersRight crypto account s event := fun s event hinv hboth =>
    inv_step hhash hcount.le hform hcoll hinv hboth.2 hboth.1
  have htyped : ∀ event ∈ events, ∀ t ∈ typedCodes [event], t ∈ typedCodes events := by
    intro event hevent t ht
    obtain ⟨e, he, hcode⟩ := List.mem_filterMap.mp ht
    rw [List.mem_singleton.mp he] at hcode
    exact List.mem_filterMap.mpr ⟨event, hevent, hcode⟩
  have hall := Run.allSteps_and.mpr ⟨hsound, Run.allSteps_of_forall_mem htyped _⟩
  refine ⟨hall.imp (fun s e hinv hok => (hstep s e hinv hok).1)
    (fun s e hinv hok => (hstep s e hinv hok).2) hstart, ?_⟩
  intro s hs
  exact (hall.invariant_reaches (fun s e hinv hok => (hstep s e hinv hok).1) hstart hs).single

end Run

/-! ## One account, two logins -/

theorem hexDigests_digestingCrypto : HexDigests digestingCrypto where
  length := Sha256.length_hexDigest
  comma := by
    intro s h
    obtain ⟨d, hd, heq⟩ := Sha256.mem_hexDigest h
    have hdigit : ∀ d < 16, 44 ≠ hexDigit d := by decide
    exact hdigit d hd heq

/-- Five draws of the random source, the codes shown for them, and the table that has them. -/
def fiveDraws (i : Fin 5) : Option Bytes := some (List.replicate 5 (UInt8.ofNat (16 * i + 171)))

def protectedUsers (i : Int) : Option UserRow := if i = 1 then some protectedUser else none

def shownCodes : List Bytes :=
  [bytes "ABABA-BABAB", bytes "BBBBB-BBBBB", bytes "CBCBC-BCBCB", bytes "DBDBD-BDBDB",
    bytes "EBEBE-BEBEB"]

def storedUsers : Users :=
  (totpRecoveryGenerate digestingCrypto true protectedUsers 1 fiveDraws).1

def loginWith (code : String) : TotpRequest :=
  { enableRequest with form := some ⟨none, some (bytes code), none⟩ }

theorem recoveryCodes_single_use_login :
    Run.AllSteps (step digestingCrypto 1) (AnswersRight digestingCrypto 1)
        (start storedUsers shownCodes)
        [.arrive true .login (loginWith "ababa-BabaB"), .advance true] ∧
      ∀ s, Run.Reaches (step digestingCrypto 1) (start storedUsers shownCodes)
        [.arrive true .login (loginWith "ababa-BabaB"), .advance true] s →
        SingleUse digestingCrypto 1 shownCodes s := by
  have hshown : totpRecoveryGenerate digestingCrypto true protectedUsers 1 fiveDraws =
      (storedUsers, some shownCodes) := Prod.ext rfl (by decide +kernel)
  have hdraws : ∀ i raw, fiveDraws i = some raw → raw.length = 5 := by
    rintro i raw ⟨⟩
    exact List.length_replicate
  exact recoveryCodes_single_use hexDigests_digestingCrypto rfl hdraws hshown
    (by unfold NoCollision; decide +kernel) (by decide +kernel)

/-- With a lower-case letter behind the dash an unused code is refused, and two logins that read
the row together are both let in with one code. -/
theorem recoveryCodes_misjudged :
    ¬ Run.AllSteps (step digestingCrypto 1) (AnswersRight digestingCrypto 1)
        (start storedUsers shownCodes)
        [.arrive true .login (loginWith "ababa-babab"), .advance true] ∧
      ¬ Run.AllSteps (step digestingCrypto 1) (AnswersRight digestingCrypto 1)
        (start storedUsers shownCodes)
        [.arrive true .login (loginWith "ABABA-BABAB"), .arrive false .login
          (loginWith "ABABA-BABAB"), .advance true, .advance false] ∧
      (Run.run (step digestingCrypto 1) (start storedUsers shownCodes)
        [.arrive true .login (loginWith "ABABA-BABAB"), .arrive false .login
          (loginWith "ABABA-BABAB"), .advance true, .advance false]).accepted =
        [bytes "ABABA-BABAB", bytes "ABABA-BABAB"] := by
  refine ⟨by decide +kernel, by decide +kernel, by decide +kernel⟩

end FlyBoard.Auth.RecoveryCodes

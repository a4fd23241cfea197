import FlyBoard.Lib.Smtp

/-!
# Outgoing mail (`src/utils/email.c`, `src/handlers/mail.c`)

`email_send_from` speaks to a receiver over one connection: it sends a command, waits for
its reply, goes on if the code is the one it expects, and at last writes header lines, the
body and the end of the message in one piece. Sender, recipient, subject and body are
spliced in as they are.

* `carried_iff`: the receiver reads one transaction with that sender, that recipient and that
  message just when the two addresses stand between their brackets on one short line, the
  subject is one line, and no line of the body begins with a dot;
* `dot_body_not_carried`: a body that webmail passes on and the receiver does not read.
-/

namespace FlyBoard.Email

open Bytes Smtp

/-! ## The client -/

/-- `SMTP_BUF` -/
def smtpBuf : ℕ := 2048

def crlf : Bytes := [13, 10]

/-- `smtp_cmd`: a command and its reply. One that does not fit into the buffer is not sent. -/
def smtpCmd (c : Session) (command : Bytes) : Session × Option ℕ :=
  if smtpBuf - 2 ≤ command.length then (c, none) else (c.feed (command ++ crlf)).takeReply

/-- A character of `tbl` in `b64_encode`. -/
def b64Char (v : ℕ) : UInt8 :=
  (bytes "ABCDEFGHIJKLMNOPQRSTUVWXYZabcdefghijklmnopqrstuvwxyz0123456789+/").getD (v % 64) 0

/-- `b64_encode` into a buffer of so many bytes. -/
def b64Encode (outSize : ℕ) : Bytes → Bytes
  | [] => []
  | a :: rest =>
    if outSize ≤ 4 then []
    else
      let b := rest.getD 0 0
      let c := rest.getD 1 0
      let v := a.toNat * 2 ^ 16 + b.toNat * 2 ^ 8 + c.toNat
      [b64Char (v / 2 ^ 18), b64Char (v / 2 ^ 12),
        if rest = [] then 61 else b64Char (v / 2 ^ 6),
        if rest.length < 2 then 61 else b64Char v] ++ b64Encode (outSize - 4) (rest.drop 2)
termination_by input => input.length
decreasing_by
  rw [List.length_drop, List.length_cons]
  omega

/-- The environment that the client reads: `FLY_SMTP_FROM`, `FLY_SMTP_USER`, `FLY_SMTP_PASS`,
whether the relay is spoken to with STARTTLS, and the domain of the site. -/
structure Config where
  smtpFrom : Option Bytes
  smtpUser : Option Bytes
  smtpPass : Option Bytes
  starttls : Bool
  mailDomain : Bytes

/-- The sender: the argument, or the first of the defaults that is not empty. -/
def Config.sender (cfg : Config) (fromArg : Option Bytes) : Bytes :=
  let candidates := [fromArg, cfg.smtpFrom, cfg.smtpUser].filterMap id
  (candidates.find? (· ≠ [])).getD (snprintfS 384 (bytes "noreply@" ++ cfg.mailDomain))

def Config.login (cfg : Config) : Option (Bytes × Bytes) :=
  match cfg.smtpUser, cfg.smtpPass with
  | some user, some pass => if user = [] then none else some (user, pass)
  | _, _ => none

/-- The commands before the transaction, with the codes that they need. -/
def Config.preamble (cfg : Config) : List (Bytes × ℕ) :=
  [(bytes "EHLO fly.board", 250)] ++
    (if cfg.starttls then [(bytes "STARTTLS", 220), (bytes "EHLO fly.board", 250)] else []) ++
    (match cfg.login with
    | some (user, pass) =>
      [(bytes "AUTH LOGIN", 334), (b64Encode 512 user, 334), (b64Encode 512 pass, 235)]
    | none => [])

def runCommands (c : Session) : List (Bytes × ℕ) → Session × Bool
  | [] => (c, true)
  | (command, code) :: rest =>
    let r := smtpCmd c command
    if r.2 = some code then runCommands r.1 rest else (r.1, false)

def header (sender recipient subject : Bytes) : List Bytes :=
  [bytes "From: " ++ sender, bytes "To: " ++ recipient, bytes "Subject: " ++ subject,
    bytes "Content-Type: text/plain; charset=utf-8"]

def messageText (sender recipient subject body : Bytes) : Bytes :=
  (header sender recipient subject).flatMap (· ++ crlf) ++ crlf ++ body ++ (crlf ++ [46] ++ crlf)

def transaction (sender recipient : Bytes) : List (Bytes × ℕ) :=
  [(bytes "MAIL FROM:<" ++ sender ++ [62], 250), (bytes "RCPT TO:<" ++ recipient ++ [62], 250),
    (bytes "DATA", 354)]

/-- The end of `email_send_from`: the message if all commands succeeded, and QUIT. -/
def conclude (message : Bytes) (c : Session × Bool) : Session × Bool :=
  let written := if c.2 then
      let r := (c.1.feed message).takeReply
      (r.1, decide (r.2 = some 250))
    else c
  ((smtpCmd written.1 (bytes "QUIT")).1, written.2)

/-- `email_send_from`, over a connection to a receiver: the session, and what is returned. -/
def emailSendFrom (cfg : Config) (fromArg : Option Bytes) (recipient subject body : Bytes) :
    Session × Bool :=
  let sender := cfg.sender fromArg
  let greeting := Session.opened.takeReply
  conclude (messageText sender recipient subject body)
    (if greeting.2 = some 220 then
      runCommands greeting.1 (cfg.preamble ++ transaction sender recipient)
    else (greeting.1, false))

/-! ## Webmail -/

/-- A space, a tab or a line break. -/
def isTrailing (c : UInt8) : Bool := c == 32 || c == 9 || c == 13 || c == 10

/-- `split_recipients` -/
def splitRecipients (field : Bytes) (maxSlots : ℕ) : List Bytes :=
  (((field.splitOn 44).map fun p => trimRight isTrailing (trimLeft isBlank p)).filter
    (· ≠ [])).take maxSlots

/-- The recipients of `handler_mail_send_post` that are not users of the site: each has an
`@`, and `localUser` says which addresses are delivered inside. -/
def externalRecipients (localUser : Bytes → Bool) (field : Bytes) : List Bytes :=
  ((splitRecipients field 32).map (snprintfS 256)).filter fun addr =>
    addr.contains 64 && !localUser addr

/-! ## What a receiver should read -/

def Config.preambleEvents (cfg : Config) : List Event :=
  [.hello (bytes "fly.board")] ++
    (if cfg.starttls then [.starttls, .hello (bytes "fly.board")] else []) ++
    (match cfg.login with
    | some (user, pass) =>
      [.authLogin, .credential (b64Encode 512 user), .credential (b64Encode 512 pass)]
    | none => [])

/-- The receiver reads one transaction, with that sender, that recipient and that message. -/
def Carried (cfg : Config) (fromArg : Option Bytes) (recipient subject body : Bytes) : Prop :=
  ∃ lines,
    (emailSendFrom cfg fromArg recipient subject body).1.log =
      cfg.preambleEvents ++ [.mail (some (cfg.sender fromArg, [])), .rcpt (some (recipient, [])),
        .data, .message lines, .quit] ∧
    headerLines lines = header (cfg.sender fromArg) recipient subject ∧
    normalise (bodyText lines) = normalise body

/-- An address that fits into a command of so many other bytes. -/
structure Addressable (others : ℕ) (address : Bytes) : Prop where
  oneLine : OneLine address
  isPath : IsPath address
  short : address.length + others < smtpBuf - 2

/-! ## One command -/

/-- A receiver that waits for a command, with every reply taken. -/
structure AtRest (c : Session) : Prop where
  mode : c.mode = .command
  rest : c.rest = []
  replies : c.replies = []

variable {c : Session} {command : Bytes} {code : ℕ} {others : List (Bytes × ℕ)}

theorem smtpCmd_command (hc : AtRest c) (command : Bytes) (hline : OneLine command)
    (hshort : command.length < smtpBuf - 2) :
    smtpCmd c command =
      ({ c with mode := modeAfter (commandEvent command), log := c.log ++ [commandEvent command] },
        some (successCode (commandEvent command))) := by
  rw [smtpCmd, if_neg (by omega), crlf, feed_command hc.mode hc.rest hline, Session.record,
    Session.takeReply, hc.replies]
  rfl

theorem smtpCmd_user {more : ℕ} (hmode : c.mode = .credentials (more + 1)) (hrest : c.rest = [])
    (hreplies : c.replies = []) (hline : OneLine command) (hshort : command.length < smtpBuf - 2) :
    smtpCmd c command =
      ({ c with mode := .credentials more, log := c.log ++ [.credential command] }, some 334) := by
  have hstep : handleLine c command = c.record (.credentials more) (.credential command) 334 := by
    rw [handleLine, hmode]
  rw [smtpCmd, if_neg (by omega), crlf, feed_crlf hrest, hline.eq, List.foldl_cons, List.foldl_nil,
    hstep, Session.record, Session.takeReply, hreplies]
  rfl

theorem smtpCmd_pass (hmode : c.mode = .credentials 0) (hrest : c.rest = [])
    (hreplies : c.replies = []) (hline : OneLine command) (hshort : command.length < smtpBuf - 2) :
    smtpCmd c command =
      ({ c with mode := .command, log := c.log ++ [.credential command] }, some 235) := by
  have hstep : handleLine c command = c.record .command (.credential command) 235 := by
    rw [handleLine, hmode]
  rw [smtpCmd, if_neg (by omega), crlf, feed_crlf hrest, hline.eq, List.foldl_cons, List.foldl_nil,
    hstep, Session.record, Session.takeReply, hreplies]
  rfl

theorem runCommands_cons {c' : Session} (h : smtpCmd c command = (c', some code)) :
    runCommands c ((command, code) :: others) = runCommands c' others := by
  rw [runCommands, h, if_pos rfl]

theorem runCommands_append {before : List (Bytes × ℕ)} {c' : Session}
    (h : runCommands c before = (c', true)) :
    runCommands c (before ++ others) = runCommands c' others := by
  induction before generalizing c with
  | nil =>
    cases h
    rfl
  | cons command before ih =>
    obtain ⟨command, code⟩ := command
    rw [runCommands] at h
    rw [List.cons_append, runCommands]
    split_ifs at h ⊢
    · exact ih h
    · exact nomatch congrArg Prod.snd h

theorem log_takeReply (c : Session) : c.takeReply.1.log = c.log := by
  unfold Session.takeReply
  split <;> rfl

theorem log_feed (c : Session) (input : Bytes) : c.log <+: (c.feed input).log :=
  log_foldl c _

theorem log_smtpCmd (c : Session) (command : Bytes) : c.log <+: (smtpCmd c command).1.log := by
  unfold smtpCmd
  split
  · exact List.prefix_refl _
  · rw [log_takeReply]
    exact log_feed _ _

theorem log_runCommands (c : Session) (commands : List (Bytes × ℕ)) :
    c.log <+: (runCommands c commands).1.log := by
  induction commands generalizing c with
  | nil => exact List.prefix_refl _
  | cons command commands ih =>
    obtain ⟨command, code⟩ := command
    have hcmd := log_smtpCmd c command
    rw [runCommands]
    split
    · exact hcmd.trans (ih _)
    · exact hcmd

theorem log_conclude (message : Bytes) (c : Session × Bool) :
    c.1.log <+: (conclude message c).1.log := by
  unfold conclude
  split
  · refine List.IsPrefix.trans ?_ (log_smtpCmd _ _)
    rw [log_takeReply]
    exact log_feed _ _
  · exact log_smtpCmd _ _

theorem commandEvent_quit : commandEvent (bytes "QUIT") = .quit := by decide

theorem log_conclude_false (hc : AtRest c) (message : Bytes) :
    (conclude message (c, false)).1.log = c.log ++ [.quit] := by
  have hquit := smtpCmd_command hc (bytes "QUIT") (by decide) (by decide)
  rw [commandEvent_quit] at hquit
  rw [conclude]
  simp only [Bool.false_eq_true, if_false]
  rw [hquit]

/-! ## The commands before the transaction -/

theorem length_b64Encode (outSize : ℕ) (input : Bytes) :
    (b64Encode outSize input).length ≤ outSize := by
  induction outSize, input using b64Encode.induct with
  | case1 outSize =>
    rw [b64Encode]
    exact Nat.zero_le _
  | case2 outSize a rest h =>
    rw [b64Encode, if_pos h]
    exact Nat.zero_le _
  | case3 outSize a rest h ih =>
    rw [b64Encode, if_neg h, List.length_append]
    simp only [List.length_cons, List.length_nil]
    omega

theorem b64Char_ne (v : ℕ) : b64Char v ≠ 13 := by
  have htable : ∀ i < 64, (bytes
      "ABCDEFGHIJKLMNOPQRSTUVWXYZabcdefghijklmnopqrstuvwxyz0123456789+/").getD i 0 ≠ 13 := by
    decide +kernel
  exact htable _ (Nat.mod_lt v (by decide))

theorem b64Encode_oneLine (outSize : ℕ) (input : Bytes) : OneLine (b64Encode outSize input) := by
  refine oneLine_of_not_mem ?_
  induction outSize, input using b64Encode.induct with
  | case1 outSize =>
    rw [b64Encode]
    exact List.not_mem_nil
  | case2 outSize a rest h =>
    rw [b64Encode, if_pos h]
    exact List.not_mem_nil
  | case3 outSize a rest h ih =>
    rw [b64Encode, if_neg h, List.mem_append, not_or]
    refine ⟨?_, ih⟩
    have hpad (p : Prop) [Decidable p] (v : ℕ) : (if p then 61 else b64Char v) ≠ 13 := by
      split
      · decide
      · exact b64Char_ne v
    simp only [List.mem_cons, List.not_mem_nil, or_false, not_or]
    exact ⟨(b64Char_ne _).symm, (b64Char_ne _).symm, (hpad _ _).symm, (hpad _ _).symm⟩

theorem runCommands_fixed {e : Event} (hc : AtRest c) (others : List (Bytes × ℕ))
    (hevent : commandEvent command = e)
    (hmode : modeAfter e = .command) (hline : OneLine command)
    (hshort : command.length < smtpBuf - 2) (hcode : successCode e = code) :
    AtRest { c with log := c.log ++ [e] } ∧
      runCommands c ((command, code) :: others) =
        runCommands { c with log := c.log ++ [e] } others := by
  have hcmd := smtpCmd_command hc command hline hshort
  rw [hevent, hmode, hcode, ← hc.mode] at hcmd
  exact ⟨⟨hc.mode, hc.rest, hc.replies⟩, runCommands_cons hcmd⟩

theorem runCommands_login (hc : AtRest c) (user pass : Bytes) :
    runCommands c [(bytes "AUTH LOGIN", 334), (b64Encode 512 user, 334),
      (b64Encode 512 pass, 235)] =
      ({ c with log := c.log ++ [.authLogin, .credential (b64Encode 512 user),
        .credential (b64Encode 512 pass)] }, true) := by
  have hshort (input : Bytes) : (b64Encode 512 input).length < smtpBuf - 2 :=
    lt_of_le_of_lt (length_b64Encode 512 input) (by decide)
  have hevent : commandEvent (bytes "AUTH LOGIN") = .authLogin := by decide
  have hauth := smtpCmd_command hc (bytes "AUTH LOGIN") (by decide) (by decide)
  rw [hevent] at hauth
  have hcode : successCode .authLogin = 334 := rfl
  rw [hcode] at hauth
  have huser := smtpCmd_user (c := { c with mode := .credentials 1, log := c.log ++ [.authLogin] })
    rfl hc.rest hc.replies (b64Encode_oneLine 512 user) (hshort user)
  have hpass := smtpCmd_pass (c := { c with
      mode := .credentials 0
      log := c.log ++ [.authLogin] ++ [.credential (b64Encode 512 user)] })
    rfl hc.rest hc.replies (b64Encode_oneLine 512 pass) (hshort pass)
  have hmode : modeAfter .authLogin = .credentials 1 := rfl
  rw [runCommands_cons hauth, hmode, runCommands_cons huser, runCommands_cons hpass, runCommands,
    ← hc.mode]
  simp only [List.append_assoc, List.cons_append, List.nil_append]

def greeted : Session := ⟨.command, [], [], []⟩

theorem runCommands_preamble (cfg : Config) :
    runCommands greeted cfg.preamble = (⟨.command, [], cfg.preambleEvents, []⟩, true) := by
  have hello : commandEvent (bytes "EHLO fly.board") = .hello (bytes "fly.board") := by decide
  have htls : commandEvent (bytes "STARTTLS") = .starttls := by decide
  have hfirst (others : List (Bytes × ℕ)) :
      runCommands greeted ([(bytes "EHLO fly.board", 250)] ++ others) =
        runCommands { greeted with log := [.hello (bytes "fly.board")] } others :=
    (runCommands_fixed ⟨rfl, rfl, rfl⟩ others hello rfl (by decide) (by decide) rfl).2
  have hstart (others : List (Bytes × ℕ)) :
      runCommands { greeted with log := [.hello (bytes "fly.board")] }
        ([(bytes "STARTTLS", 220), (bytes "EHLO fly.board", 250)] ++ others) =
        runCommands { greeted with
          log := [.hello (bytes "fly.board"), .starttls, .hello (bytes "fly.board")] } others := by
    have hrest : AtRest { greeted with log := [.hello (bytes "fly.board")] } := ⟨rfl, rfl, rfl⟩
    have hstep := runCommands_fixed hrest ((bytes "EHLO fly.board", 250) :: others) htls rfl
      (by decide) (by decide) rfl
    exact hstep.2.trans
      (runCommands_fixed hstep.1 others hello rfl (by decide) (by decide) rfl).2
  have hlogin (log : List Event) :
      runCommands { greeted with log := log }
        (match cfg.login with
        | some (user, pass) =>
          [(bytes "AUTH LOGIN", 334), (b64Encode 512 user, 334), (b64Encode 512 pass, 235)]
        | none => []) =
        ({ greeted with log := log ++ (match cfg.login with
          | some (user, pass) =>
            [.authLogin, .credential (b64Encode 512 user), .credential (b64Encode 512 pass)]
          | none => []) }, true) := by
    cases cfg.login with
    | none =>
      rw [runCommands, List.append_nil]
    | some login => exact runCommands_login ⟨rfl, rfl, rfl⟩ login.1 login.2
  rw [Config.preamble, Config.preambleEvents, List.append_assoc, hfirst]
  cases cfg.starttls with
  | true =>
    rw [if_pos rfl, if_pos rfl, hstart, hlogin]
    rfl
  | false =>
    rw [if_neg Bool.false_ne_true, if_neg Bool.false_ne_true, List.nil_append, hlogin]
    rfl

/-! ## The commands of the transaction -/

/-- What is read after a point of rest is the first line of the next command. -/
theorem next_event {message : Bytes} {e : Event} {tail : List Event} (hc : AtRest c)
    (hlog : (conclude message (runCommands c ((command, code) :: others))).1.log =
      c.log ++ e :: tail) (he : e ≠ .quit) :
    command.length < smtpBuf - 2 ∧
      ∃ l ls, crlfLines command = l :: ls ∧ commandEvent l = e := by
  by_cases hshort : command.length < smtpBuf - 2
  · obtain ⟨l, ls, hl⟩ := List.exists_cons_of_ne_nil (crlfLines_ne_nil command)
    refine ⟨hshort, l, ls, hl, ?_⟩
    have hsent : c.log ++ [commandEvent l] <+: (smtpCmd c command).1.log := by
      rw [smtpCmd, if_neg (by omega), log_takeReply]
      exact log_feed_command hc.mode hc.rest hl
    have hrun : (smtpCmd c command).1.log <+:
        (runCommands c ((command, code) :: others)).1.log := by
      rw [runCommands]
      split
      · exact log_runCommands _ _
      · exact List.prefix_refl _
    have hall := (hsent.trans hrun).trans (log_conclude message _)
    rw [hlog] at hall
    have hhead := (List.prefix_append_right_inj _).mp hall
    exact (List.cons_prefix_cons.mp hhead).1
  · have hcmd : smtpCmd c command = (c, none) := if_pos (Nat.le_of_not_lt hshort)
    have hrefused : runCommands c ((command, code) :: others) = (c, false) := by
      rw [runCommands, hcmd]
      exact if_neg nofun
    rw [hrefused, log_conclude_false hc] at hlog
    have hquit := List.append_cancel_left hlog
    exact absurd (List.cons.inj hquit).1.symm he

theorem addressable_of_scan {address l : Bytes} {ls : List Bytes}
    (hl : crlfLines (address ++ [62]) = l :: ls)
    (hscan : scanPath false l = some (address, [])) : OneLine address ∧ IsPath address := by
  have hclosed : OneLine (address ++ [62]) := by
    by_contra hnot
    have hlonger := length_head_of_not_oneLine hl hnot
    have hlen := length_scanPath hscan
    rw [List.length_append, List.length_singleton] at hlonger
    rw [List.length_nil] at hlen
    omega
  have hone := hclosed.eq
  rw [hl] at hone
  obtain ⟨hl', -⟩ := List.cons.inj hone
  rw [hl'] at hscan
  exact ⟨(oneLine_append_singleton (by decide)).mp hclosed, hscan⟩

structure Takes (verb : Bytes) (event : Option (Bytes × Bytes) → Event) : Prop where
  read : ∀ s, commandEvent (verb ++ s) = event (scanPath false s)
  no_cr : 13 ∉ verb
  injective : Function.Injective event
  mode : ∀ path, modeAfter (event path) = .command
  code : ∀ path, successCode (event path) = 250
  ne_quit : ∀ path, event path ≠ .quit

theorem takes_mail : Takes (bytes "MAIL FROM:<") .mail where
  read := fun _ => rfl
  no_cr := by decide
  injective := fun _ _ h => Event.mail.inj h
  mode := fun _ => rfl
  code := fun _ => rfl
  ne_quit := fun _ => nofun

theorem takes_rcpt : Takes (bytes "RCPT TO:<") .rcpt where
  read := fun _ => rfl
  no_cr := by decide
  injective := fun _ _ h => Event.rcpt.inj h
  mode := fun _ => rfl
  code := fun _ => rfl
  ne_quit := fun _ => nofun

variable {verb address : Bytes} {event : Option (Bytes × Bytes) → Event}

theorem Takes.addressable {message : Bytes} {tail : List Event} (hverb : Takes verb event)
    (hc : AtRest c)
    (hlog : (conclude message (runCommands c ((verb ++ address ++ [62], code) :: others))).1.log =
      c.log ++ event (some (address, [])) :: tail) : Addressable (verb.length + 1) address := by
  obtain ⟨hshort, l, ls, hl, hevent⟩ := next_event hc hlog (hverb.ne_quit _)
  obtain ⟨l', ls', hl'⟩ := List.exists_cons_of_ne_nil (crlfLines_ne_nil (address ++ [62]))
  rw [List.append_assoc, crlfLines_append_of_not_mem hverb.no_cr hl'] at hl
  obtain ⟨rfl, rfl⟩ := List.cons.inj hl
  rw [hverb.read] at hevent
  obtain ⟨hone, hpath⟩ := addressable_of_scan hl' (hverb.injective hevent)
  refine ⟨hone, hpath, ?_⟩
  rw [List.length_append, List.length_append, List.length_singleton] at hshort
  omega

theorem Takes.step (hverb : Takes verb event) (hc : AtRest c)
    (h : Addressable (verb.length + 1) address) (others : List (Bytes × ℕ)) :
    AtRest { c with log := c.log ++ [event (some (address, []))] } ∧
      runCommands c ((verb ++ address ++ [62], 250) :: others) =
        runCommands { c with log := c.log ++ [event (some (address, []))] } others := by
  have hevent : commandEvent (verb ++ address ++ [62]) = event (some (address, [])) := by
    have hpath : scanPath false (address ++ [62]) = some (address, []) := h.isPath
    rw [List.append_assoc, hverb.read, hpath]
  have hline : OneLine (verb ++ address ++ [62]) := by
    rw [List.append_assoc, oneLine_append_of_not_mem hverb.no_cr]
    exact (oneLine_append_singleton (by decide)).mpr h.oneLine
  refine runCommands_fixed hc others hevent (hverb.mode _) hline ?_ (hverb.code _)
  have hshort := h.short
  rw [List.length_append, List.length_append, List.length_singleton]
  omega

/-! ## The message -/

variable {sender recipient subject body : Bytes}

/-- The lines of the header and the empty line after it, as they are written. -/
theorem crlfLines_messageText (sender recipient subject body : Bytes) :
    ∃ text, messageText sender recipient subject body = text ++ [13, 10] ∧
      crlfLines text =
        crlfLines (bytes "From: " ++ sender) ++ (crlfLines (bytes "To: " ++ recipient) ++
          (crlfLines (bytes "Subject: " ++ subject) ++
            (bytes "Content-Type: text/plain; charset=utf-8" :: [] ::
              (crlfLines body ++ [[46]])))) := by
  refine ⟨(bytes "From: " ++ sender) ++ 13 :: 10 :: ((bytes "To: " ++ recipient) ++ 13 :: 10 ::
    ((bytes "Subject: " ++ subject) ++ 13 :: 10 ::
      (bytes "Content-Type: text/plain; charset=utf-8" ++ 13 :: 10 :: ([] ++ 13 :: 10 ::
        (body ++ 13 :: 10 :: [46]))))), ?_, ?_⟩
  · simp only [messageText, header, crlf, List.flatMap_cons, List.flatMap_nil, List.append_assoc,
      List.cons_append, List.nil_append, List.append_nil]
  · have htype : crlfLines (bytes "Content-Type: text/plain; charset=utf-8") =
        [bytes "Content-Type: text/plain; charset=utf-8"] := by decide
    rw [crlfLines_append_crlf, crlfLines_append_crlf, crlfLines_append_crlf, crlfLines_append_crlf,
      crlfLines_append_crlf, crlfLines_append_crlf, htype]
    rfl

def writtenLines (sender recipient subject body : Bytes) : List Bytes :=
  crlfLines (bytes "From: " ++ sender) ++ (crlfLines (bytes "To: " ++ recipient) ++
    (crlfLines (bytes "Subject: " ++ subject) ++
      (bytes "Content-Type: text/plain; charset=utf-8" :: [] :: crlfLines body)))

theorem feed_messageText (hrest : c.rest = []) :
    c.feed (messageText sender recipient subject body) =
      (writtenLines sender recipient subject body ++ [[46]]).foldl handleLine c := by
  obtain ⟨text, htext, hlines⟩ := crlfLines_messageText sender recipient subject body
  rw [htext, feed_crlf hrest, hlines, writtenLines]
  simp only [List.append_assoc, List.cons_append]

theorem received_writtenLines (hsender : OneLine sender) (hrecipient : OneLine recipient)
    {s : Bytes} {ss : List Bytes} (hs : crlfLines subject = s :: ss) (body : Bytes) :
    received (writtenLines sender recipient subject body) =
      (bytes "From: " ++ sender) :: (bytes "To: " ++ recipient) :: (bytes "Subject: " ++ s) ::
        received (ss ++ bytes "Content-Type: text/plain; charset=utf-8" :: [] ::
          crlfLines body) := by
  have hfrom : crlfLines (bytes "From: " ++ sender) = [bytes "From: " ++ sender] :=
    ((oneLine_append_of_not_mem (by decide)).mpr hsender).eq
  have hto : crlfLines (bytes "To: " ++ recipient) = [bytes "To: " ++ recipient] :=
    ((oneLine_append_of_not_mem (by decide)).mpr hrecipient).eq
  have hsubject : crlfLines (bytes "Subject: " ++ subject) = (bytes "Subject: " ++ s) :: ss :=
    crlfLines_append_of_not_mem (by decide) hs
  have hplain (pre t : Bytes) (hpre : pre.head? ≠ some 46) (hne : pre ≠ []) :
      (pre ++ t) ≠ [46] ∧ undot (pre ++ t) = pre ++ t := by
    have hhead : (pre ++ t).head? ≠ some 46 := by
      rwa [List.head?_append_of_ne_nil _ hne]
    refine ⟨?_, undot_eq hhead⟩
    intro heq
    rw [heq] at hhead
    exact hhead rfl
  obtain ⟨hfromNe, hfromUndot⟩ := hplain (bytes "From: ") sender (by decide) (by decide)
  obtain ⟨htoNe, htoUndot⟩ := hplain (bytes "To: ") recipient (by decide) (by decide)
  obtain ⟨hsubjectNe, hsubjectUndot⟩ := hplain (bytes "Subject: ") s (by decide) (by decide)
  rw [writtenLines, hfrom, hto, hsubject, List.singleton_append, List.singleton_append,
    List.cons_append, received_cons hfromNe, received_cons htoNe, received_cons hsubjectNe,
    hfromUndot, htoUndot, hsubjectUndot]

theorem received_tail :
    received (bytes "Content-Type: text/plain; charset=utf-8" :: [] :: crlfLines body) =
      bytes "Content-Type: text/plain; charset=utf-8" :: [] :: received (crlfLines body) := by
  have hempty : received ([] :: crlfLines body) = [] :: received (crlfLines body) :=
    received_cons (by decide) _
  rw [received_cons (by decide), hempty]
  rfl

/-- The message arrives as it was composed just when the subject is one line and no line of
the body begins with a dot. -/
theorem message_iff (hsender : OneLine sender) (hrecipient : OneLine recipient) :
    headerLines (received (writtenLines sender recipient subject body)) =
        header sender recipient subject ∧
      normalise (bodyText (received (writtenLines sender recipient subject body))) =
        normalise body ↔
    OneLine subject ∧ ∀ l ∈ crlfLines body, l.head? ≠ some 46 := by
  obtain ⟨s, ss, hs⟩ := List.exists_cons_of_ne_nil (crlfLines_ne_nil subject)
  have hlines := received_writtenLines hsender hrecipient hs body
  have hnonempty (pre t : Bytes) (hne : pre ≠ []) : pre ++ t ≠ [] :=
    fun h => hne (List.append_eq_nil_iff.mp h).1
  have hfrom := hnonempty (bytes "From: ") sender (by decide)
  have hto := hnonempty (bytes "To: ") recipient (by decide)
  have hsubject := hnonempty (bytes "Subject: ") s (by decide)
  have htype : bytes "Content-Type: text/plain; charset=utf-8" ≠ [] := by decide
  have hone (heq : s = subject) : OneLine subject := by
    by_contra hnot
    have hlonger := length_head_of_not_oneLine hs hnot
    rw [heq] at hlonger
    omega
  have hbody (hsubjectLine : OneLine subject) :
      headerLines (received (writtenLines sender recipient subject body)) =
          header sender recipient subject ∧
        bodyText (received (writtenLines sender recipient subject body)) =
          joinLines (received (crlfLines body)) := by
    have heq := hsubjectLine.eq
    rw [hs] at heq
    obtain ⟨rfl, rfl⟩ := List.cons.inj heq
    rw [hlines, List.nil_append, received_tail, headerLines_cons hfrom, headerLines_cons hto,
      headerLines_cons hsubject, headerLines_cons htype, headerLines_empty, bodyText_cons hfrom,
      bodyText_cons hto, bodyText_cons hsubject, bodyText_cons htype, bodyText_empty]
    exact ⟨rfl, rfl⟩
  constructor
  · rintro ⟨hheader, htext⟩
    have hsubjectLine : OneLine subject := by
      rw [hlines, headerLines_cons hfrom, headerLines_cons hto, headerLines_cons hsubject,
        header] at hheader
      have hthird := (List.cons.inj (List.cons.inj (List.cons.inj hheader).2).2).1
      exact hone (List.append_cancel_left hthird)
    rw [(hbody hsubjectLine).2] at htext
    exact ⟨hsubjectLine, (received_body_iff body).mp htext⟩
  · rintro ⟨hsubjectLine, hdots⟩
    obtain ⟨hheader, htext⟩ := hbody hsubjectLine
    refine ⟨hheader, ?_⟩
    rw [htext]
    exact (received_body_iff body).mpr hdots

/-! ## The session -/

theorem emailSendFrom_eq (cfg : Config) (fromArg : Option Bytes) (recipient subject body : Bytes) :
    emailSendFrom cfg fromArg recipient subject body =
      conclude (messageText (cfg.sender fromArg) recipient subject body)
        (runCommands ⟨.command, [], cfg.preambleEvents, []⟩
          (transaction (cfg.sender fromArg) recipient)) := by
  have hgreeting : Session.opened.takeReply = (greeted, some 220) := rfl
  rw [emailSendFrom, hgreeting, if_pos rfl, runCommands_append (runCommands_preamble cfg)]

/-- After DATA: the addresses are read, and a message is expected. -/
def dataOpened (cfg : Config) (fromArg : Option Bytes) (recipient : Bytes) : Session :=
  ⟨.data [], [], cfg.preambleEvents ++ [.mail (some (cfg.sender fromArg, [])),
    .rcpt (some (recipient, [])), .data], []⟩

theorem runCommands_transaction {cfg : Config} {fromArg : Option Bytes}
    (hsender : Addressable 12 (cfg.sender fromArg)) (hrecipient : Addressable 10 recipient) :
    runCommands ⟨.command, [], cfg.preambleEvents, []⟩
      (transaction (cfg.sender fromArg) recipient) = (dataOpened cfg fromArg recipient, true) := by
  have hstart : AtRest ⟨.command, [], cfg.preambleEvents, []⟩ := ⟨rfl, rfl, rfl⟩
  obtain ⟨hmailRest, hmail⟩ := takes_mail.step hstart hsender
    [(bytes "RCPT TO:<" ++ recipient ++ [62], 250), (bytes "DATA", 354)]
  obtain ⟨hrcptRest, hrcpt⟩ := takes_rcpt.step hmailRest hrecipient [(bytes "DATA", 354)]
  have hdataEvent : commandEvent (bytes "DATA") = .data := by decide
  have hcode : successCode .data = 354 := rfl
  have hdata := smtpCmd_command hrcptRest (bytes "DATA") (by decide) (by decide)
  rw [hdataEvent, hcode] at hdata
  rw [transaction, hmail, hrcpt, runCommands_cons hdata, runCommands, dataOpened]
  simp only [List.append_assoc, List.cons_append, List.nil_append]
  rfl

variable {cfg : Config} {fromArg : Option Bytes}

/-- The session of two addresses that fit: a message is read after DATA. -/
theorem log_of_addressable (hsender : Addressable 12 (cfg.sender fromArg))
    (hrecipient : Addressable 10 recipient) (subject body : Bytes) :
    (dataOpened cfg fromArg recipient).log ++
        [.message (received (writtenLines (cfg.sender fromArg) recipient subject body))] <+:
      (emailSendFrom cfg fromArg recipient subject body).1.log := by
  have hread := log_message (s := dataOpened cfg fromArg recipient) rfl
    (writtenLines (cfg.sender fromArg) recipient subject body)
  rw [← feed_messageText rfl] at hread
  rw [emailSendFrom_eq, runCommands_transaction hsender hrecipient, conclude, if_pos rfl]
  refine hread.trans ?_
  rw [← log_takeReply]
  dsimp only
  exact log_smtpCmd _ _

theorem log_of_whole (hsender : Addressable 12 (cfg.sender fromArg))
    (hrecipient : Addressable 10 recipient)
    (hdot : ∀ l ∈ writtenLines (cfg.sender fromArg) recipient subject body, l ≠ [46]) :
    (emailSendFrom cfg fromArg recipient subject body).1.log =
      (dataOpened cfg fromArg recipient).log ++
        [.message (received (writtenLines (cfg.sender fromArg) recipient subject body)),
          .quit] := by
  have hread := foldl_whole_message (s := dataOpened cfg fromArg recipient) rfl hdot
  rw [← feed_messageText rfl] at hread
  have hreply : ((dataOpened cfg fromArg recipient).record .command
      (.message (received (writtenLines (cfg.sender fromArg) recipient subject body)))
        250).takeReply.2 = some 250 := rfl
  rw [emailSendFrom_eq, runCommands_transaction hsender hrecipient, conclude, if_pos rfl, hread]
  have hrest : AtRest ((dataOpened cfg fromArg recipient).record .command
      (.message (received (writtenLines (cfg.sender fromArg) recipient subject body)))
        250).takeReply.1 := ⟨rfl, rfl, rfl⟩
  have hquit := smtpCmd_command hrest (bytes "QUIT") (by decide) (by decide)
  rw [commandEvent_quit] at hquit
  rw [hquit]
  exact List.append_assoc _ _ _

theorem dot_not_mem_writtenLines (hsender : OneLine sender) (hrecipient : OneLine recipient)
    (hsubject : OneLine subject) (hdots : ∀ l ∈ crlfLines body, l.head? ≠ some 46) :
    ∀ l ∈ writtenLines sender recipient subject body, l ≠ [46] := by
  have hlines : writtenLines sender recipient subject body =
      (bytes "From: " ++ sender) :: (bytes "To: " ++ recipient) :: (bytes "Subject: " ++ subject) ::
        bytes "Content-Type: text/plain; charset=utf-8" :: [] :: crlfLines body := by
    rw [writtenLines, ((oneLine_append_of_not_mem (by decide)).mpr hsender).eq,
      ((oneLine_append_of_not_mem (by decide)).mpr hrecipient).eq,
      ((oneLine_append_of_not_mem (by decide)).mpr hsubject).eq]
    rfl
  rw [hlines]
  simp only [List.forall_mem_cons]
  refine ⟨?_, ?_, ?_, by decide, by decide, ?_⟩
  · exact fun h => absurd (congrArg List.head? h) (by simp [bytes])
  · exact fun h => absurd (congrArg List.head? h) (by simp [bytes])
  · exact fun h => absurd (congrArg List.head? h) (by simp [bytes])
  · rintro l hl rfl
    exact hdots _ hl rfl

theorem Carried.clean (h : Carried cfg fromArg recipient subject body) :
    Addressable 12 (cfg.sender fromArg) ∧ Addressable 10 recipient ∧ OneLine subject ∧
      ∀ l ∈ crlfLines body, l.head? ≠ some 46 := by
  obtain ⟨lines, hlog, hmessage⟩ := h
  have hstart : AtRest ⟨.command, [], cfg.preambleEvents, []⟩ := ⟨rfl, rfl, rfl⟩
  -- the events show one after the other that sender, recipient and message are clean
  have hsession := hlog
  rw [emailSendFrom_eq] at hsession
  have hsender : Addressable 12 (cfg.sender fromArg) := takes_mail.addressable hstart hsession
  obtain ⟨hmailRest, hmail⟩ := takes_mail.step hstart hsender
    [(bytes "RCPT TO:<" ++ recipient ++ [62], 250), (bytes "DATA", 354)]
  have hsplit : cfg.preambleEvents ++ [.mail (some (cfg.sender fromArg, [])),
      .rcpt (some (recipient, [])), .data, .message lines, .quit] =
      (cfg.preambleEvents ++ [.mail (some (cfg.sender fromArg, []))]) ++
        .rcpt (some (recipient, [])) :: [.data, .message lines, .quit] := by
    rw [List.append_assoc]
    rfl
  rw [transaction, hmail, hsplit] at hsession
  have hrecipient : Addressable 10 recipient := takes_rcpt.addressable hmailRest hsession
  have hread := log_of_addressable hsender hrecipient subject body
  have hend : cfg.preambleEvents ++ [.mail (some (cfg.sender fromArg, [])),
      .rcpt (some (recipient, [])), .data, .message lines, .quit] =
      (dataOpened cfg fromArg recipient).log ++ [.message lines, .quit] := by
    rw [dataOpened, List.append_assoc]
    rfl
  rw [hlog, hend] at hread
  have hhead := (List.prefix_append_right_inj _).mp hread
  have hlines := Event.message.inj (List.cons_prefix_cons.mp hhead).1
  rw [← hlines] at hmessage
  obtain ⟨hsubject, hdots⟩ := (message_iff hsender.oneLine hrecipient.oneLine).mp hmessage
  exact ⟨hsender, hrecipient, hsubject, hdots⟩

/-- The mail is carried as composed just when the addresses fit between their brackets, the
subject is one line, and no line of the body begins with a dot. -/
theorem carried_iff (cfg : Config) (fromArg : Option Bytes) (recipient subject body : Bytes) :
    Carried cfg fromArg recipient subject body ↔
      Addressable 12 (cfg.sender fromArg) ∧ Addressable 10 recipient ∧ OneLine subject ∧
        ∀ l ∈ crlfLines body, l.head? ≠ some 46 := by
  refine ⟨Carried.clean, ?_⟩
  rintro ⟨hsender, hrecipient, hsubject, hdots⟩
  have hdot := dot_not_mem_writtenLines hsender.oneLine hrecipient.oneLine hsubject hdots
  obtain ⟨hheader, hbody⟩ := (message_iff hsender.oneLine hrecipient.oneLine).mpr
    ⟨hsubject, hdots⟩
  refine ⟨_, (log_of_whole hsender hrecipient hdot).trans ?_, hheader, hbody⟩
  exact List.append_assoc _ _ _

def localRelay : Config := ⟨none, none, none, false, bytes "fly.board"⟩

/-- Webmail passes a body on that is a dot. The receiver takes it for the end of the message,
and the dot that ends the message for a command. -/
theorem dot_body_not_carried :
    externalRecipients (fun _ => false) (bytes "ann@example.org") = [bytes "ann@example.org"] ∧
      ¬ Carried localRelay (some (bytes "bob@fly.board")) (bytes "ann@example.org") (bytes "hi")
        [46] ∧
      .other [46] ∈ (emailSendFrom localRelay (some (bytes "bob@fly.board"))
        (bytes "ann@example.org") (bytes "hi") [46]).1.log := by
  refine ⟨by decide, fun h => ?_, by decide⟩
  have hdots := h.clean.2.2.2
  exact hdots [46] (List.mem_singleton_self _) rfl

end FlyBoard.Email

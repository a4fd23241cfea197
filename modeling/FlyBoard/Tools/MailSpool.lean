import FlyBoard.Lib.Keyed
import FlyBoard.Lib.Run
import FlyBoard.Tools.MailImport
import Mathlib.Logic.Function.Basic

/-!
# The mail spool (`src/tools/mail_import.c`, `src/handlers/mail.c`)

`mail-import` writes a message to a file of the spool directory and, as root, stores it for
its recipient, too. `mail_spool_sweep` looks through the directory when a user opens the
inbox: each file of the user's prefix is handed to `mail-import dbonly`, which stores the
message for the account that the To header names, and removed if that went well.

Opening, writing and closing a spool file, storing, reading the directory, opening, importing
and removing are steps of their own, in any order of any number of processes. A file is known
by the delivery that made it; it goes on to live without a name where it is open.

The Maildir copy, the other columns of the row and attachments are left out; writes to the
database do not fail.
-/

namespace FlyBoard.MailSpool

open Bytes MailImport Run

/-! ## The state -/

/-- A run of `mail-import` by the pipe transport. -/
structure Delivery where
  rcpt : Bytes
  raw : Bytes
  root : Bool
  time : ℕ
  pid : ℕ
deriving DecidableEq

/-- The file name of `spool_write`. -/
def Delivery.fileName (i : Delivery) : Bytes :=
  localpart (recipient i.rcpt i.raw) ++
    46 :: (decimal i.time ++ 46 :: (decimal i.pid ++ bytes ".eml"))

inductive Phase where
  | unborn
  /-- The spool file is to be opened. -/
  | spool
  /-- So many bytes are written to the file. -/
  | writing (file pos : ℕ)
  /-- The message is to be stored, as root. -/
  | deliver
  | done
deriving DecidableEq

/-- A file: its bytes, and the delivery that truncated it last. -/
structure File where
  writer : ℕ
  bytes : Bytes
deriving DecidableEq

structure Entry where
  name : Bytes
  file : ℕ
deriving DecidableEq

/-- A file that a sweep has open, and whether its import went well. -/
structure Fd where
  name : Bytes
  file : ℕ
  imported : Option Bool
deriving DecidableEq

/-- A run of `mail_spool_sweep`: the names that `readdir` has still to give, and the
deliveries that were done when it began. -/
structure Sweep where
  uid : ℕ
  todo : List Bytes
  fd : Option Fd
  seen : ℕ → Bool

def Sweep.finished (w : Sweep) : Prop := w.todo = [] ∧ w.fd = none

/-- A row of `emails`, in the folder INBOX, and the delivery whose message it has. -/
structure Row where
  owner : ℕ
  message : ℕ
  raw : Bytes
deriving DecidableEq

structure State where
  info : ℕ → Option Delivery
  phase : ℕ → Phase
  files : ℕ → File
  dir : Keyed.Table Entry.name
  sweeps : ℕ → Option Sweep
  rows : List Row

def State.empty : State where
  info := fun _ => none
  phase := fun _ => .unborn
  files := fun _ => ⟨0, []⟩
  dir := .empty
  sweeps := fun _ => none
  rows := []

structure Accounts where
  list : List User
  ids : (list.map User.id).Nodup
  names : (list.map User.username).Nodup

/-! ## Steps -/

inductive Action where
  | deliver (d : ℕ) (i : Delivery)
  | spoolOpen (d : ℕ) (ok : Bool)
  | spoolWrite (d n : ℕ)
  | spoolClose (d : ℕ)
  | dbDeliver (d : ℕ)
  | sweep (k uid : ℕ) (names : List Bytes)
  | visit (k : ℕ) (ok : Bool)
  | dbImport (k : ℕ)
  | unlink (k : ℕ)

section Step

variable (users : Accounts)

def insertRow (s : State) (owner : Option User) (message : ℕ) (raw : Bytes) : State :=
  match owner with
  | some u => { s with rows := s.rows ++ [⟨u.id, message, raw⟩] }
  | none => s

/-- `main` up to the spool file. -/
def deliver (s : State) (d : ℕ) (i : Delivery) : State :=
  if s.phase d ≠ .unborn then s
  else
    let s := { s with info := Function.update s.info d (some i) }
    if i.raw = [] then { s with phase := Function.update s.phase d .done }
    else if i.rcpt = bytes "dbonly" then
      { insertRow s (importOwner users.list i.raw) d i.raw with
        phase := Function.update s.phase d .done }
    else if localpart (recipient i.rcpt i.raw) = [] then
      { s with phase := Function.update s.phase d .done }
    else { s with phase := Function.update s.phase d .spool }

/-- What follows `spool_write`, which nobody asks whether it succeeded. -/
def Delivery.afterSpool (i : Delivery) : Phase := if i.root then .deliver else .done

/-- `fopen` of the spool file with mode "wb": a file of this name is truncated. -/
def spoolOpen (s : State) (d : ℕ) (ok : Bool) : State :=
  match s.phase d, s.info d with
  | .spool, some i =>
    if ok then
      match s.dir.find? i.fileName with
      | some e =>
        { s with
          files := Function.update s.files e.file ⟨d, []⟩
          phase := Function.update s.phase d (.writing e.file 0) }
      | none =>
        { s with
          files := Function.update s.files d ⟨d, []⟩
          dir := s.dir.insertOrIgnore ⟨i.fileName, d⟩
          phase := Function.update s.phase d (.writing d 0) }
    else { s with phase := Function.update s.phase d i.afterSpool }
  | _, _ => s

/-- Bytes written at a place of a file; a gap reads as zeros. -/
def writeAt (file : Bytes) (pos : ℕ) (data : Bytes) : Bytes :=
  (file ++ List.replicate (pos - file.length) 0).take pos ++ data ++ file.drop (pos + data.length)

/-- `fwrite`: the next bytes of the message. -/
def spoolWrite (s : State) (d n : ℕ) : State :=
  match s.phase d, s.info d with
  | .writing f pos, some i =>
    let data := (i.raw.drop pos).take n
    { s with
      files := Function.update s.files f
        ⟨(s.files f).writer, writeAt (s.files f).bytes pos data⟩
      phase := Function.update s.phase d (.writing f (pos + data.length)) }
  | _, _ => s

/-- `fclose` -/
def spoolClose (s : State) (d : ℕ) : State :=
  match s.phase d, s.info d with
  | .writing _ _, some i => { s with phase := Function.update s.phase d i.afterSpool }
  | _, _ => s

/-- `db_deliver` as root. -/
def dbDeliver (s : State) (d : ℕ) : State :=
  match s.phase d, s.info d with
  | .deliver, some i =>
    { insertRow s (findOwner users.list (recipient i.rcpt i.raw)) d i.raw with
      phase := Function.update s.phase d .done }
  | _, _ => s

def spoolPrefix (u : User) : Bytes := snprintfS 160 (u.username ++ [46])

/-- `opendir`: `names` is what `readdir` will give, with every name that is there now. -/
def sweep (s : State) (k uid : ℕ) (names : List Bytes) : State :=
  match s.sweeps k, users.list.find? (·.id = uid) with
  | none, some u =>
    if u.username ≠ [] ∧ s.dir.rows.all fun e => names.contains e.name then
      { s with
        sweeps := Function.update s.sweeps k (some
          { uid := uid
            todo := names.filter fun name => startsWith name (spoolPrefix u)
            fd := none
            seen := fun d => s.phase d = .done }) }
    else s
  | _, _ => s

/-- `fopen` of the next file; `ok` is false where it or `fork` fails. -/
def visit (s : State) (k : ℕ) (ok : Bool) : State :=
  match s.sweeps k with
  | some ⟨uid, name :: todo, none, seen⟩ =>
    let fd := if ok then (s.dir.find? name).map fun e => ⟨name, e.file, none⟩ else none
    { s with sweeps := Function.update s.sweeps k (some ⟨uid, todo, fd, seen⟩) }
  | _ => s

/-- `mail-import dbonly` on an open file. -/
def dbImport (s : State) (k : ℕ) : State :=
  match s.sweeps k with
  | some ⟨uid, todo, some ⟨name, f, none⟩, seen⟩ =>
    let owner := importOwner users.list (s.files f).bytes
    let s := insertRow s owner (s.files f).writer (s.files f).bytes
    { s with
      sweeps := Function.update s.sweeps k
        (some ⟨uid, todo, some ⟨name, f, some owner.isSome⟩, seen⟩) }
  | _ => s

/-- The file is closed, and removed if its import went well. -/
def unlink (s : State) (k : ℕ) : State :=
  match s.sweeps k with
  | some ⟨uid, todo, some ⟨name, _, some ok⟩, seen⟩ =>
    { s with
      dir := if ok then s.dir.remove name else s.dir
      sweeps := Function.update s.sweeps k (some ⟨uid, todo, none, seen⟩) }
  | _ => s

def step (s : State) : Action → State
  | .deliver d i => deliver users s d i
  | .spoolOpen d ok => spoolOpen s d ok
  | .spoolWrite d n => spoolWrite s d n
  | .spoolClose d => spoolClose s d
  | .dbDeliver d => dbDeliver users s d
  | .sweep k uid names => sweep users s k uid names
  | .visit k ok => visit s k ok
  | .dbImport k => dbImport users s k
  | .unlink k => unlink s k

/-! ## What is asked of them -/

def rowsOf (s : State) (d : ℕ) : List Row := s.rows.filter fun r => r.message = d

/-- The user has swept the spool since the delivery was done. -/
def Swept (s : State) (uid d : ℕ) : Prop :=
  ∃ k, ∃ w ∈ s.sweeps k, w.uid = uid ∧ w.seen d = true ∧ w.finished

/-- A message for a local user that is delivered, and after which the user has swept, is
stored once, and for this user. -/
def Delivered (s : State) : Prop :=
  ∀ d, ∀ i ∈ s.info d, s.phase d = .done → ∀ u ∈ users.list,
    localpart i.rcpt = u.username → Swept s u.id d → rowsOf s d = [⟨u.id, d, i.raw⟩]

def State.fd (s : State) (k : ℕ) : Option Fd := (s.sweeps k).bind Sweep.fd

def Holds (s : State) (k f : ℕ) : Prop := ∃ fd ∈ s.fd k, fd.file = f

/-- The delivery goes to a local user by one way only: not as root and the To header names
that user, too, or as root and the To header names no user. -/
def OneWay (i : Delivery) : Prop :=
  i.rcpt ≠ bytes "dbonly" ∧ i.raw ≠ [] ∧ ∃ u ∈ users.list, localpart i.rcpt = u.username ∧
    u.username ≠ [] ∧
    (i.root = false ∧ importOwner users.list i.raw = some u ∨
      i.root = true ∧ importOwner users.list i.raw = none ∧
        findOwner users.list (recipient i.rcpt i.raw) = some u)

/-- Deliveries go one way and write their whole message to a file of their own, and a sweep
comes to a file when it is written, and opens it while no other sweep has it open, unless its
message is for nobody. -/
def Careful (s : State) : Action → Prop
  | .deliver d i => s.phase d = .unborn → OneWay users i
  | .spoolOpen d ok =>
    ∀ i ∈ s.info d, s.phase d = .spool →
      s.dir.find? i.fileName = none ∧ (i.root = false → ok = true)
  | .spoolClose d =>
    ∀ i ∈ s.info d, ∀ f pos, s.phase d = .writing f pos → i.raw.length ≤ pos
  | .visit k ok =>
    ∀ w ∈ s.sweeps k, ∀ name todo, w.todo = name :: todo → w.fd = none →
      ∀ e ∈ s.dir.find? name, (∀ f pos, s.phase (s.files e.file).writer ≠ .writing f pos) ∧
        (importOwner users.list (s.files e.file).bytes = none ∨
          ok = true ∧ ∀ k', ¬ Holds s k' e.file)
  | _ => True

/-! ## The stages of a delivery -/

def StoredFor (s : State) (d : ℕ) (i : Delivery) : Prop :=
  ∀ u ∈ users.list, localpart i.rcpt = u.username → rowsOf s d = [⟨u.id, d, i.raw⟩]

def Present (s : State) (d : ℕ) (i : Delivery) : Prop :=
  ∀ e : Entry, e ∈ s.dir.rows ∧ e.file = d ↔ e = ⟨i.fileName, d⟩

def Gone (s : State) (d : ℕ) : Prop := ∀ e ∈ s.dir.rows, e.file ≠ d

/-- No other sweep than `k` has the file open. -/
def OnlyHeldBy (s : State) (d k : ℕ) : Prop := ∀ k', Holds s k' d → k' = k

def Kept (s : State) (d : ℕ) (i : Delivery) : Prop :=
  Gone s d ∧ (∀ k, ¬ Holds s k d) ∨
    Present s d i ∧ s.files d = ⟨d, i.raw⟩ ∧
      ∀ k, ∀ fd ∈ s.fd k, fd.file = d → fd.imported ≠ some true

inductive Stage (s : State) (d : ℕ) : Prop where
  | unborn (hinfo : s.info d = none) (hphase : s.phase d = .unborn) (hgone : Gone s d)
      (hrows : rowsOf s d = []) (hfree : ∀ k, ¬ Holds s k d)
  | spool (i : Delivery) (hinfo : s.info d = some i) (hone : OneWay users i)
      (hphase : s.phase d = .spool) (hgone : Gone s d) (hrows : rowsOf s d = [])
      (hfree : ∀ k, ¬ Holds s k d)
  | writing (i : Delivery) (pos : ℕ) (hinfo : s.info d = some i) (hone : OneWay users i)
      (hphase : s.phase d = .writing d pos) (hpos : pos ≤ i.raw.length) (hpresent : Present s d i)
      (hfile : s.files d = ⟨d, i.raw.take pos⟩) (hrows : rowsOf s d = [])
      (hfree : ∀ k, ¬ Holds s k d)
  | deliver (i : Delivery) (hinfo : s.info d = some i) (hone : OneWay users i)
      (hroot : i.root = true) (hphase : s.phase d = .deliver) (hrows : rowsOf s d = [])
      (hkept : Kept s d i)
  | storedAsRoot (i : Delivery) (hinfo : s.info d = some i) (hone : OneWay users i)
      (hroot : i.root = true) (hphase : s.phase d = .done) (hstored : StoredFor users s d i)
      (hkept : Kept s d i)
  | waiting (i : Delivery) (hinfo : s.info d = some i) (hone : OneWay users i)
      (hroot : i.root = false) (hphase : s.phase d = .done) (hpresent : Present s d i)
      (hfile : s.files d = ⟨d, i.raw⟩) (hrows : rowsOf s d = [])
      (hheld : ∀ k, ∀ fd ∈ s.fd k, fd.file = d →
        fd = ⟨i.fileName, d, none⟩ ∧ OnlyHeldBy s d k)
  | imported (i : Delivery) (k : ℕ) (hinfo : s.info d = some i) (hone : OneWay users i)
      (hroot : i.root = false) (hphase : s.phase d = .done) (hpresent : Present s d i)
      (hfile : s.files d = ⟨d, i.raw⟩) (hstored : StoredFor users s d i)
      (hfd : s.fd k = some ⟨i.fileName, d, some true⟩) (honly : OnlyHeldBy s d k)
  | stored (i : Delivery) (hinfo : s.info d = some i) (hone : OneWay users i)
      (hroot : i.root = false) (hphase : s.phase d = .done) (hgone : Gone s d)
      (hstored : StoredFor users s d i) (hfree : ∀ k, ¬ Holds s k d)

/-- A sweep that saw a message waiting has still to come to its file, has it open, or the
message is stored. -/
def Found (s : State) : Prop :=
  ∀ k, ∀ w ∈ s.sweeps k, ∀ d, w.seen d = true → s.phase d = .done ∧
    ∀ i ∈ s.info d, i.root = false → ∀ u ∈ users.list, w.uid = u.id →
      localpart i.rcpt = u.username →
        i.fileName ∈ w.todo ∨ (∃ fd ∈ w.fd, fd.file = d) ∨ rowsOf s d ≠ []

structure Sound (s : State) : Prop where
  stage : ∀ d, Stage users s d
  found : Found users s

end Step

/-! ## What a step leaves alone -/

variable {users : Accounts} {s t : State} {d : ℕ} {a b : User} {i : Delivery} {u : User} {k : ℕ}
  {w : Sweep} {e : Entry}

theorem Stage.congr (h : Stage users s d) (hinfo : t.info d = s.info d)
    (hphase : t.phase d = s.phase d) (hfile : t.files d = s.files d)
    (hdir : ∀ e : Entry, e.file = d → (e ∈ t.dir.rows ↔ e ∈ s.dir.rows))
    (hrows : rowsOf t d = rowsOf s d)
    (hfd : ∀ k, ∀ fd : Fd, fd.file = d → (t.fd k = some fd ↔ s.fd k = some fd)) :
    Stage users t d := by
  have hheld : ∀ k, Holds t k d ↔ Holds s k d := by
    intro k
    constructor
    · rintro ⟨fd, hk, hd⟩
      exact ⟨fd, (hfd k fd hd).mp hk, hd⟩
    · rintro ⟨fd, hk, hd⟩
      exact ⟨fd, (hfd k fd hd).mpr hk, hd⟩
  have hgone : Gone s d → Gone t d := fun hg e he hd => hg e ((hdir e hd).mp he) hd
  have hpresent : ∀ i, Present s d i → Present t d i := by
    intro i hp e
    rw [← hp e]
    exact and_congr_left (hdir e)
  have hfree : (∀ k, ¬ Holds s k d) → ∀ k, ¬ Holds t k d := fun hf k hk => hf k ((hheld k).mp hk)
  have honly : ∀ k, OnlyHeldBy s d k → OnlyHeldBy t d k :=
    fun k ho k' hk' => ho k' ((hheld k').mp hk')
  have hstored : ∀ i, StoredFor users s d i → StoredFor users t d i :=
    fun i hs u hu hname => hrows.trans (hs u hu hname)
  have hkept : ∀ i, Kept s d i → Kept t d i := by
    rintro i (⟨hg, hf⟩ | ⟨hp, hb, hi⟩)
    · exact .inl ⟨hgone hg, hfree hf⟩
    · refine .inr ⟨hpresent i hp, hfile.trans hb, fun k fd hk hd => ?_⟩
      exact hi k fd ((hfd k fd hd).mp hk) hd
  cases h with
  | unborn hi hp hg hr hf =>
    exact .unborn (hinfo.trans hi) (hphase.trans hp) (hgone hg) (hrows.trans hr) (hfree hf)
  | spool i hi ho hp hg hr hf =>
    exact .spool i (hinfo.trans hi) ho (hphase.trans hp) (hgone hg) (hrows.trans hr) (hfree hf)
  | writing i pos hi ho hp hle hpr hb hr hf =>
    exact .writing i pos (hinfo.trans hi) ho (hphase.trans hp) hle (hpresent i hpr)
      (hfile.trans hb) (hrows.trans hr) (hfree hf)
  | deliver i hi ho hroot hp hr hk =>
    exact .deliver i (hinfo.trans hi) ho hroot (hphase.trans hp) (hrows.trans hr) (hkept i hk)
  | storedAsRoot i hi ho hroot hp hs hk =>
    exact .storedAsRoot i (hinfo.trans hi) ho hroot (hphase.trans hp) (hstored i hs) (hkept i hk)
  | waiting i hi ho hroot hp hpr hb hr hh =>
    refine .waiting i (hinfo.trans hi) ho hroot (hphase.trans hp) (hpresent i hpr)
      (hfile.trans hb) (hrows.trans hr) fun k fd hk hd => ?_
    rcases hh k fd ((hfd k fd hd).mp hk) hd with ⟨heq, hon⟩
    exact ⟨heq, honly k hon⟩
  | imported i k hi ho hroot hp hpr hb hs hk hon =>
    exact .imported i k (hinfo.trans hi) ho hroot (hphase.trans hp) (hpresent i hpr)
      (hfile.trans hb) (hstored i hs) ((hfd k ⟨i.fileName, d, some true⟩ rfl).mpr hk) (honly k hon)
  | stored i hi ho hroot hp hg hs hf =>
    exact .stored i (hinfo.trans hi) ho hroot (hphase.trans hp) (hgone hg) (hstored i hs)
      (hfree hf)

theorem Found.mono (h : Found users s) (hinfo : ∀ d, s.phase d = .done → t.info d = s.info d)
    (hphase : ∀ d, s.phase d = .done → t.phase d = .done)
    (hrows : ∀ d, rowsOf s d ≠ [] → rowsOf t d ≠ [])
    (hsweeps : ∀ k, ∀ w' ∈ t.sweeps k, ∃ w ∈ s.sweeps k, w.seen = w'.seen ∧ w.uid = w'.uid ∧
      ∀ d, s.phase d = .done → ∀ i ∈ s.info d, i.root = false → ∀ u ∈ users.list,
        w.uid = u.id → localpart i.rcpt = u.username → rowsOf s d = [] →
        i.fileName ∈ w.todo ∨ (∃ fd ∈ w.fd, fd.file = d) →
          i.fileName ∈ w'.todo ∨ (∃ fd ∈ w'.fd, fd.file = d) ∨ rowsOf t d ≠ []) :
    Found users t := by
  intro k w' hw' d hseen
  rcases hsweeps k w' hw' with ⟨w, hw, hs, huid, hgo⟩
  rcases h k w hw d (hs ▸ hseen) with ⟨hdone, hfound⟩
  refine ⟨hphase d hdone, fun i hi hroot u hu hid hname => ?_⟩
  rw [hinfo d hdone] at hi
  by_cases hr : rowsOf s d = []
  · rcases hfound i hi hroot u hu (huid.trans hid) hname with htodo | hfd | hne
    · exact hgo d hdone i hi hroot u hu (huid.trans hid) hname hr (.inl htodo)
    · exact hgo d hdone i hi hroot u hu (huid.trans hid) hname hr (.inr hfd)
    · exact absurd hr hne
  · exact .inr (.inr (hrows d hr))

theorem Found.frame (h : Found users s) (hd : s.phase d ≠ .done)
    (hinfo : ∀ d', d' ≠ d → t.info d' = s.info d')
    (hphase : ∀ d', d' ≠ d → t.phase d' = s.phase d')
    (hrows : ∀ d', rowsOf s d' ≠ [] → rowsOf t d' ≠ []) (hsweeps : t.sweeps = s.sweeps) :
    Found users t := by
  have hother : ∀ d', s.phase d' = .done → d' ≠ d := by
    rintro d' hdone rfl
    exact hd hdone
  refine h.mono (fun d' hdone => hinfo d' (hother d' hdone)) ?_ hrows ?_
  · intro d' hdone
    exact (hphase d' (hother d' hdone)).trans hdone
  · intro k w hw
    refine ⟨w, hsweeps ▸ hw, rfl, rfl, ?_⟩
    rintro d' - i - - u - - - - (htodo | hfd)
    · exact .inl htodo
    · exact .inr (.inl hfd)

/-! ## Names -/

theorem Accounts.eq_of_username (users : Accounts) (ha : a ∈ users.list)
    (hb : b ∈ users.list) (h : a.username = b.username) : a = b :=
  List.inj_on_of_nodup_map users.names ha hb h

theorem Accounts.eq_of_id (users : Accounts) (ha : a ∈ users.list)
    (hb : b ∈ users.list) (h : a.id = b.id) : a = b :=
  List.inj_on_of_nodup_map users.ids ha hb h

theorem length_localpart_le (address : Bytes) : (localpart address).length ≤ 127 := by
  have hbuffer : (snprintfS 128 address).length ≤ 127 := by
    rw [snprintfS, List.length_take]
    omega
  rw [localpart]
  split
  · rw [List.length_reverse, List.length_drop]
    have hle := List.length_dropWhile_le (· ≠ 64) (snprintfS 128 address).reverse
    rw [List.length_reverse] at hle
    omega
  · exact hbuffer

/-- The copy of the recipient in `rcpt` has the same local part. -/
theorem localpart_recipient {arg raw : Bytes} (h : localpart arg ≠ []) :
    localpart (recipient arg raw) = localpart arg := by
  have hne : arg ≠ [] := by
    rintro rfl
    exact h rfl
  have hbuffer : snprintfS 128 (snprintfS 256 arg) = snprintfS 128 arg := by
    rw [snprintfS, snprintfS, snprintfS, List.take_take]
    rfl
  rw [recipient, if_pos hne, localpart, localpart, hbuffer]

theorem startsWith_fileName (hname : localpart i.rcpt = u.username)
    (hne : u.username ≠ []) : startsWith i.fileName (spoolPrefix u) = true := by
  have hlen : (u.username ++ [46]).length ≤ 160 - 1 := by
    have hle := length_localpart_le i.rcpt
    rw [hname] at hle
    rw [List.length_append]
    exact Nat.add_le_add_right (hle.trans (by decide)) 1
  have hprefix : spoolPrefix u = u.username ++ [46] := List.take_of_length_le hlen
  have hlocal : localpart (recipient i.rcpt i.raw) = u.username :=
    (localpart_recipient (hname ▸ hne)).trans hname
  rw [startsWith, hprefix, Delivery.fileName, hlocal, beq_iff_eq,
    List.append_cons u.username 46 (_ ++ _)]
  exact List.take_left

theorem OneWay.ne_nil (h : OneWay users i) : localpart i.rcpt ≠ [] := by
  rcases h with ⟨-, -, u, -, hname, hne, -⟩
  rw [hname]
  exact hne

theorem OneWay.importOwner_eq_none (h : OneWay users i) (hroot : i.root = true) :
    importOwner users.list i.raw = none := by
  rcases h with ⟨-, -, u, -, -, -, ⟨hnot, -⟩ | ⟨-, hnone, -⟩⟩
  · rw [hroot] at hnot
    exact nomatch hnot
  · exact hnone

def IsFor (users : Accounts) (i : Delivery) (u : User) : Prop :=
  ∀ u' ∈ users.list, localpart i.rcpt = u'.username → u' = u

theorem OneWay.importOwner_eq_some (h : OneWay users i) (hroot : i.root = false) :
    ∃ u, importOwner users.list i.raw = some u ∧ IsFor users i u := by
  rcases h with ⟨-, -, u, hu, hname, -, ⟨-, hsome⟩ | ⟨hnot, -⟩⟩
  · exact ⟨u, hsome, fun u' hu' h' => users.eq_of_username hu' hu (h'.symm.trans hname)⟩
  · rw [hroot] at hnot
    exact nomatch hnot

theorem OneWay.findOwner_eq_some (h : OneWay users i) (hroot : i.root = true) :
    ∃ u, findOwner users.list (recipient i.rcpt i.raw) = some u ∧ IsFor users i u := by
  rcases h with ⟨-, -, u, hu, hname, -, ⟨hnot, -⟩ | ⟨-, -, hsome⟩⟩
  · rw [hroot] at hnot
    exact nomatch hnot
  · exact ⟨u, hsome, fun u' hu' h' => users.eq_of_username hu' hu (h'.symm.trans hname)⟩

/-! ## Rows and open files -/

theorem rowsOf_insertRow (s : State) (u : User) (d : ℕ) (raw : Bytes) :
    rowsOf (insertRow s (some u) d raw) d = rowsOf s d ++ [⟨u.id, d, raw⟩] := by
  simp [rowsOf, insertRow]

theorem rowsOf_insertRow_of_ne (s : State) (owner : Option User) {d d' : ℕ} (raw : Bytes)
    (h : d' ≠ d) : rowsOf (insertRow s owner d' raw) d = rowsOf s d := by
  cases owner with
  | none => rfl
  | some u => simp [rowsOf, insertRow, h]

theorem rowsOf_insertRow_ne_nil {s : State} (owner : Option User) (d' : ℕ) (raw : Bytes)
    (h : rowsOf s d ≠ []) : rowsOf (insertRow s owner d' raw) d ≠ [] := by
  cases owner with
  | none => exact h
  | some u =>
    intro hnil
    rw [rowsOf, insertRow, List.filter_append, List.append_eq_nil_iff] at hnil
    exact h hnil.1

theorem storedFor_of_rows (huser : IsFor users i u)
    (hrows : rowsOf s d = [⟨u.id, d, i.raw⟩]) : StoredFor users s d i := by
  intro u' hu' hname
  rw [huser u' hu' hname]
  exact hrows

theorem fd_update (h : t.sweeps = Function.update s.sweeps k (some w))
    (k' : ℕ) : t.fd k' = if k' = k then w.fd else s.fd k' := by
  rw [State.fd, h]
  split
  · rename_i heq
    rw [heq, Function.update_self]
    rfl
  · rename_i hne
    rw [Function.update_of_ne hne]
    rfl

/-- The file of `d` is in the same hands, if the sweep does nothing with it. -/
theorem fd_congr (h : t.sweeps = Function.update s.sweeps k (some w))
    (hw : ∀ fd : Fd, fd.file = d → (w.fd = some fd ↔ s.fd k = some fd)) (k' : ℕ) (fd : Fd)
    (hd : fd.file = d) : t.fd k' = some fd ↔ s.fd k' = some fd := by
  rw [fd_update h]
  split
  · rename_i heq
    rw [heq]
    exact hw fd hd
  · exact Iff.rfl

/-! ## Deliveries -/

theorem Stage.undone (h : Stage users s d) :
    match s.phase d, s.info d with
    | .unborn, _ => Gone s d ∧ rowsOf s d = [] ∧ ∀ k, ¬ Holds s k d
    | .spool, some i => OneWay users i ∧ Gone s d ∧ rowsOf s d = [] ∧ ∀ k, ¬ Holds s k d
    | .writing f pos, some i =>
      f = d ∧ OneWay users i ∧ pos ≤ i.raw.length ∧ Present s d i ∧
        s.files d = ⟨d, i.raw.take pos⟩ ∧ rowsOf s d = [] ∧ ∀ k, ¬ Holds s k d
    | .deliver, some i => OneWay users i ∧ i.root = true ∧ rowsOf s d = [] ∧ Kept s d i
    | _, _ => True := by
  cases h with
  | unborn hi hp hg hr hf =>
    rw [hp, hi]
    exact ⟨hg, hr, hf⟩
  | spool i hi ho hp hg hr hf =>
    rw [hp, hi]
    exact ⟨ho, hg, hr, hf⟩
  | writing i pos hi ho hp hle hpr hb hr hf =>
    rw [hp, hi]
    exact ⟨rfl, ho, hle, hpr, hb, hr, hf⟩
  | deliver i hi ho hroot hp hr hk =>
    rw [hp, hi]
    exact ⟨ho, hroot, hr, hk⟩
  | storedAsRoot i hi _ _ hp | waiting i hi _ _ hp | imported i _ hi _ _ hp | stored i hi _ _ hp =>
    rw [hp, hi]
    trivial

theorem Stage.of_unborn (h : Stage users s d) (hunborn : s.phase d = .unborn) :
    Gone s d ∧ rowsOf s d = [] ∧ ∀ k, ¬ Holds s k d := by
  have hleft := h.undone
  rwa [hunborn] at hleft

theorem Stage.of_spool (h : Stage users s d) (hspool : s.phase d = .spool)
    (hi : s.info d = some i) :
    OneWay users i ∧ Gone s d ∧ rowsOf s d = [] ∧ ∀ k, ¬ Holds s k d := by
  have hleft := h.undone
  rwa [hspool, hi] at hleft

theorem Stage.of_writing (h : Stage users s d) {f pos : ℕ} (hwriting : s.phase d = .writing f pos)
    (hi : s.info d = some i) :
    f = d ∧ OneWay users i ∧ pos ≤ i.raw.length ∧ Present s d i ∧
      s.files d = ⟨d, i.raw.take pos⟩ ∧ rowsOf s d = [] ∧ ∀ k, ¬ Holds s k d := by
  have hleft := h.undone
  rwa [hwriting, hi] at hleft

theorem Stage.of_deliver (h : Stage users s d) (hdeliver : s.phase d = .deliver)
    (hi : s.info d = some i) :
    OneWay users i ∧ i.root = true ∧ rowsOf s d = [] ∧ Kept s d i := by
  have hleft := h.undone
  rwa [hdeliver, hi] at hleft

theorem Stage.of_done (h : Stage users s d) (hdone : s.phase d = .done)
    (hi : s.info d = some i) (hroot : i.root = false) (hu : u ∈ users.list)
    (hname : localpart i.rcpt = u.username) (hrows : rowsOf s d = []) :
    OneWay users i ∧ Present s d i ∧ s.files d = ⟨d, i.raw⟩ ∧
      ∀ k, ∀ fd ∈ s.fd k, fd.file = d → fd = ⟨i.fileName, d, none⟩ := by
  have hstored : ¬ StoredFor users s d i := by
    intro hs
    rw [hs u hu hname] at hrows
    exact nomatch hrows
  cases h with
  | waiting i' hi' ho _ _ hpr hb _ hh =>
    rw [hi'] at hi
    cases hi
    exact ⟨ho, hpr, hb, fun k fd hk hd => (hh k fd hk hd).1⟩
  | imported i' _ hi' _ _ _ _ _ hs =>
    rw [hi'] at hi
    cases hi
    exact absurd hs hstored
  | stored i' hi' _ _ _ _ hs =>
    rw [hi'] at hi
    cases hi
    exact absurd hs hstored
  | storedAsRoot i' hi' _ hr =>
    rw [hi'] at hi
    cases hi
    exact nomatch hroot.symm.trans hr
  | unborn _ hp => exact nomatch hdone.symm.trans hp
  | spool _ _ _ hp => exact nomatch hdone.symm.trans hp
  | writing _ _ _ _ hp => exact nomatch hdone.symm.trans hp
  | deliver _ _ _ _ hp => exact nomatch hdone.symm.trans hp

/-- A step of a delivery that is not yet done, of which there is no row, leaves the others and
the sweeps alone. -/
theorem Sound.of_delivery {p : Phase} (h : Sound users s) (hphase : s.phase d = p) (hp : p ≠ .done)
    (hnone : rowsOf s d = []) (hd : Stage users t d)
    (hother : ∀ d', d' ≠ d → t.info d' = s.info d' ∧ t.phase d' = s.phase d' ∧
      t.files d' = s.files d' ∧ rowsOf t d' = rowsOf s d')
    (hdir : ∀ e : Entry, e.file ≠ d → (e ∈ t.dir.rows ↔ e ∈ s.dir.rows))
    (hsweeps : t.sweeps = s.sweeps) : Sound users t := by
  constructor
  · intro d'
    by_cases hne : d' = d
    · exact hne ▸ hd
    · rcases hother d' hne with ⟨hinfo, hph, hfile, hrows⟩
      refine (h.stage d').congr hinfo hph hfile (fun e he => hdir e (he ▸ hne)) hrows ?_
      intro k fd _
      rw [State.fd, hsweeps, ← State.fd]
  · refine h.found.frame (hphase ▸ hp) (fun d' hne => (hother d' hne).1)
      (fun d' hne => (hother d' hne).2.1) (fun d' hr => ?_) hsweeps
    have hne : d' ≠ d := by
      rintro rfl
      exact hr hnone
    rwa [(hother d' hne).2.2.2]

theorem Sound.deliver (h : Sound users s)
    (hok : s.phase d = .unborn → OneWay users i) : Sound users (deliver users s d i) := by
  by_cases hunborn : s.phase d = .unborn
  · have ho := hok hunborn
    have hlocal : localpart (recipient i.rcpt i.raw) ≠ [] := by
      rw [localpart_recipient ho.ne_nil]
      exact ho.ne_nil
    rw [MailSpool.deliver, if_neg (not_not.mpr hunborn), if_neg ho.2.1, if_neg ho.1, if_neg hlocal]
    rcases (h.stage d).of_unborn hunborn with ⟨hgone, hrows, hfree⟩
    exact h.of_delivery hunborn Phase.noConfusion hrows
      (.spool i (Function.update_self ..) ho (Function.update_self ..) hgone hrows hfree)
      (fun _ hd => ⟨Function.update_of_ne hd .., Function.update_of_ne hd .., rfl, rfl⟩)
      (fun _ _ => Iff.rfl) rfl
  · rw [MailSpool.deliver, if_pos hunborn]
    exact h

theorem Sound.spoolOpen (h : Sound users s) {ok : Bool}
    (hok : Careful users s (.spoolOpen d ok)) : Sound users (spoolOpen s d ok) := by
  rw [MailSpool.spoolOpen]
  split
  · rename_i i hphase hi
    rcases hok i hi hphase with ⟨hfree, hneed⟩
    rcases (h.stage d).of_spool hphase hi with ⟨ho, hgone, hrows, hheld⟩
    cases ok with
    | true =>
      rw [if_pos rfl, hfree]
      have hkey : i.fileName ∉ s.dir.rows.map Entry.name := by
        intro hmem
        rcases List.mem_map.mp hmem with ⟨e, he, hname⟩
        have hsome := Keyed.Table.find?_eq_some.mpr ⟨he, hname⟩
        exact nomatch hfree.symm.trans hsome
      refine h.of_delivery hphase Phase.noConfusion hrows
        (.writing i 0 hi ho (Function.update_self ..) (Nat.zero_le _) (fun e => ?_)
          (Function.update_self ..) hrows hheld)
        (fun _ hd => ⟨rfl, Function.update_of_ne hd .., Function.update_of_ne hd .., rfl⟩)
        (fun e he => ?_) rfl
      -- the file has no other name
      · rw [Keyed.Table.mem_insertOrIgnore]
        constructor
        · rintro ⟨hold | ⟨hnew, -⟩, hfile⟩
          · exact absurd hfile (hgone e hold)
          · exact hnew
        · rintro rfl
          exact ⟨.inr ⟨rfl, hkey⟩, rfl⟩
      · rw [Keyed.Table.mem_insertOrIgnore]
        constructor
        · rintro (hold | ⟨rfl, -⟩)
          · exact hold
          · exact absurd rfl he
        · exact .inl
    | false =>
      have hroot : i.root = true := by
        by_contra hnotroot
        exact nomatch hneed (Bool.eq_false_of_not_eq_true hnotroot)
      have hafter : i.afterSpool = .deliver := by rw [Delivery.afterSpool, if_pos hroot]
      rw [if_neg Bool.false_ne_true, hafter]
      exact h.of_delivery hphase Phase.noConfusion hrows
        (.deliver i hi ho hroot (Function.update_self ..) hrows (.inl ⟨hgone, hheld⟩))
        (fun _ hd => ⟨rfl, Function.update_of_ne hd .., rfl, rfl⟩) (fun _ _ => Iff.rfl) rfl
  · exact h

theorem writeAt_take (raw : Bytes) {pos : ℕ} (hpos : pos ≤ raw.length) (n : ℕ) :
    writeAt (raw.take pos) pos ((raw.drop pos).take n) =
      raw.take (pos + ((raw.drop pos).take n).length) := by
  have hlen : (raw.take pos).length = pos := List.length_take_of_le hpos
  have hpad : raw.take pos ++ List.replicate (pos - (raw.take pos).length) 0 = raw.take pos := by
    rw [hlen, Nat.sub_self, List.replicate_zero, List.append_nil]
  have hrest : (raw.take pos).drop (pos + ((raw.drop pos).take n).length) = [] := by
    rw [List.drop_eq_nil_iff, hlen]
    exact Nat.le_add_right _ _
  have hdata : (raw.drop pos).take ((raw.drop pos).take n).length = (raw.drop pos).take n := by
    rw [List.length_take]
    rcases Nat.le_total n (raw.drop pos).length with hle | hle
    · rw [Nat.min_eq_left hle]
    · rw [Nat.min_eq_right hle, List.take_of_length_le hle, List.take_length]
  rw [writeAt, hpad, hrest, List.append_nil, List.take_take, Nat.min_self, List.take_add, hdata]

theorem Sound.spoolWrite (h : Sound users s) (n : ℕ) : Sound users (spoolWrite s d n) := by
  rw [MailSpool.spoolWrite]
  split
  · rename_i f pos i hphase hi
    rcases (h.stage d).of_writing hphase hi with ⟨rfl, ho, hpos, hpresent, hfile, hrows, hheld⟩
    refine h.of_delivery hphase Phase.noConfusion hrows
      (.writing i _ hi ho (Function.update_self ..) ?_ hpresent ?_ hrows hheld)
      (fun _ hd => ⟨rfl, Function.update_of_ne hd .., Function.update_of_ne hd .., rfl⟩)
      (fun _ _ => Iff.rfl) rfl
    · rw [List.length_take, List.length_drop]
      omega
    · refine (Function.update_self ..).trans ?_
      rw [hfile, writeAt_take i.raw hpos]
  · exact h

theorem Sound.spoolClose (h : Sound users s) (hok : Careful users s (.spoolClose d)) :
    Sound users (spoolClose s d) := by
  rw [MailSpool.spoolClose]
  split
  · rename_i f pos i hphase hi
    rcases (h.stage d).of_writing hphase hi with ⟨rfl, ho, hpos, hpresent, hfile, hrows, hheld⟩
    have hwhole : s.files f = ⟨f, i.raw⟩ := by
      rw [hfile, List.take_of_length_le (hok i hi f pos hphase)]
    refine h.of_delivery hphase Phase.noConfusion hrows ?_
      (fun _ hd => ⟨rfl, Function.update_of_ne hd .., rfl, rfl⟩) (fun _ _ => Iff.rfl) rfl
    cases hroot : i.root with
    | true =>
      have hafter : i.afterSpool = .deliver := by rw [Delivery.afterSpool, if_pos hroot]
      refine .deliver i hi ho hroot ((Function.update_self ..).trans hafter) hrows
        (.inr ⟨hpresent, hwhole, ?_⟩)
      intro k fd hk hd
      exact absurd ⟨fd, hk, hd⟩ (hheld k)
    | false =>
      have hafter : i.afterSpool = .done := by
        rw [Delivery.afterSpool, hroot]
        rfl
      refine .waiting i hi ho hroot ((Function.update_self ..).trans hafter) hpresent hwhole
        hrows ?_
      intro k fd hk hd
      exact absurd ⟨fd, hk, hd⟩ (hheld k)
  · exact h

theorem Sound.dbDeliver (h : Sound users s) : Sound users (dbDeliver users s d) := by
  rw [MailSpool.dbDeliver]
  split
  · rename_i i hphase hi
    rcases (h.stage d).of_deliver hphase hi with ⟨ho, hroot, hrows, hkept⟩
    rcases ho.findOwner_eq_some hroot with ⟨u, hu, huser⟩
    rw [hu]
    refine h.of_delivery hphase Phase.noConfusion hrows
      (.storedAsRoot i hi ho hroot (Function.update_self ..) (storedFor_of_rows huser ?_) hkept)
      (fun _ hd => ⟨rfl, Function.update_of_ne hd .., rfl,
        rowsOf_insertRow_of_ne s (some u) i.raw (Ne.symm hd)⟩) (fun _ _ => Iff.rfl) rfl
    refine (rowsOf_insertRow s u d i.raw).trans ?_
    rw [hrows]
    rfl
  · exact h

/-! ## Sweeps -/

theorem Sound.sweep (h : Sound users s) (k uid : ℕ) (names : List Bytes) :
    Sound users (sweep users s k uid names) := by
  rw [MailSpool.sweep]
  split
  · rename_i u hnew hu
    split
    · rename_i hopen
      rcases hopen with ⟨hne, hall⟩
      have huid : u.id = uid := by simpa using List.find?_some hu
      have humem : u ∈ users.list := List.mem_of_find?_eq_some hu
      constructor
      · intro d'
        refine (h.stage d').congr rfl rfl rfl (fun _ _ => Iff.rfl) rfl fun k' fd _ => ?_
        rw [fd_update rfl]
        split
        · rename_i heq
          rw [heq, State.fd, hnew]
          rfl
        · exact Iff.rfl
      · intro k' w hw d' hseen
        by_cases hk : k' = k
        · subst hk
          have heq := (Function.update_self (f := s.sweeps) ..).symm.trans hw
          cases heq
          have hdone : s.phase d' = .done := of_decide_eq_true hseen
          refine ⟨hdone, fun i hi hroot u' hu' hid hname => ?_⟩
          have hsame : u' = u := users.eq_of_id hu' humem (hid.symm.trans huid.symm)
          subst hsame
          by_cases hrows : rowsOf s d' = []
          · rcases (h.stage d').of_done hdone hi hroot hu' hname hrows with ⟨-, hpresent, -, -⟩
            have hentry := ((hpresent _).mpr rfl).1
            refine .inl (List.mem_filter.mpr ⟨?_, startsWith_fileName hname hne⟩)
            exact List.contains_iff_mem.mp (List.all_eq_true.mp hall _ hentry)
          · exact .inr (.inr hrows)
        · have hw' : w ∈ s.sweeps k' := (Function.update_of_ne hk ..).symm.trans hw
          exact h.found k' w hw' d' hseen
    · exact h
  · exact h

theorem Found.of_sweep (h : Found users s) (hinfo : t.info = s.info) (hphase : t.phase = s.phase)
    (hrows : ∀ d, rowsOf s d ≠ [] → rowsOf t d ≠ []) {w w' : Sweep}
    (hw : w ∈ s.sweeps k) (hsweeps : t.sweeps = Function.update s.sweeps k (some w'))
    (hseen : w.seen = w'.seen) (huid : w.uid = w'.uid)
    (hgo : ∀ d, s.phase d = .done → ∀ i ∈ s.info d, i.root = false → ∀ u ∈ users.list,
      localpart i.rcpt = u.username → rowsOf s d = [] →
        i.fileName ∈ w.todo ∨ (∃ fd ∈ w.fd, fd.file = d) →
          i.fileName ∈ w'.todo ∨ (∃ fd ∈ w'.fd, fd.file = d) ∨ rowsOf t d ≠ []) :
    Found users t := by
  refine h.mono (fun _ _ => by rw [hinfo]) (fun _ hdone => by rw [hphase, hdone]) hrows ?_
  intro k' w'' hw''
  rw [hsweeps] at hw''
  by_cases hk : k' = k
  · subst hk
    rw [Function.update_self] at hw''
    cases hw''
    exact ⟨w, hw, hseen, huid, fun d hdone i hi hroot u hu _ => hgo d hdone i hi hroot u hu⟩
  · rw [Function.update_of_ne hk] at hw''
    refine ⟨w'', hw'', rfl, rfl, ?_⟩
    rintro d - i - - u - - - - (htodo | hfd)
    · exact .inl htodo
    · exact .inr (.inl hfd)

/-- The file of a message that is stored as root may be opened and closed. -/
theorem Kept.of_fd (h : Kept s d i) (he : e ∈ s.dir.rows)
    (hfile : e.file = d) (hfiles : t.files = s.files) (hdir : t.dir = s.dir)
    (hfd : ∀ k, ∀ fd ∈ t.fd k, fd.file = d → fd.imported = some true → fd ∈ s.fd k) :
    Kept t d i := by
  rcases h with ⟨hgone, -⟩ | ⟨hpresent, hb, hnot⟩
  · exact absurd hfile (hgone e he)
  · refine .inr ⟨?_, ?_, fun k fd hk hd htrue => ?_⟩
    · rw [Present, hdir]
      exact hpresent
    · rw [hfiles]
      exact hb
    · exact hnot k fd (hfd k fd hk hd htrue) hd htrue

/-- The sweep `k` has opened `e`, and its import may well store the message. -/
theorem Stage.of_open (h : Stage users s d) (he : e ∈ s.dir.rows)
    (hfile : e.file = d) (hwritten : ∀ f pos, s.phase (s.files d).writer ≠ .writing f pos)
    (halone : importOwner users.list (s.files d).bytes = none ∨ ∀ k', ¬ Holds s k' d)
    (hinfo : t.info = s.info) (hphase : t.phase = s.phase) (hfiles : t.files = s.files)
    (hdir : t.dir = s.dir) (hrows : t.rows = s.rows)
    (hfd : ∀ k', t.fd k' = if k' = k then some ⟨e.name, e.file, none⟩ else s.fd k') :
    Stage users t d := by
  have hkept : ∀ i, Kept s d i → Kept t d i := by
    intro i hkept
    refine hkept.of_fd he hfile hfiles hdir fun k' fd hk' _ htrue => ?_
    rw [hfd] at hk'
    split at hk'
    · cases hk'
      exact nomatch htrue
    · exact hk'
  have hrow : rowsOf t d = rowsOf s d := by rw [rowsOf, hrows, rowsOf]
  have hnobody : ∀ i, OneWay users i → i.root = false → s.files d = ⟨d, i.raw⟩ →
      ∀ k', ¬ Holds s k' d := by
    intro i ho hroot hb
    rcases ho.importOwner_eq_some hroot with ⟨u, hu, -⟩
    rcases halone with hno | hfree
    · rw [hb, hu] at hno
      exact nomatch hno
    · exact hfree
  cases h with
  | unborn _ _ hg => exact absurd hfile (hg e he)
  | spool _ _ _ _ hg => exact absurd hfile (hg e he)
  | writing i pos _ _ hp _ _ hb =>
    rw [hb] at hwritten
    exact absurd hp (hwritten d pos)
  | deliver i hi ho hroot hp hr hk =>
    exact .deliver i (hinfo ▸ hi) ho hroot (hphase ▸ hp) (hrow.trans hr) (hkept i hk)
  | storedAsRoot i hi ho hroot hp hs hk =>
    refine .storedAsRoot i (hinfo ▸ hi) ho hroot (hphase ▸ hp) ?_ (hkept i hk)
    exact fun u hu hname => hrow.trans (hs u hu hname)
  | waiting i hi ho hroot hp hpr hb hr hh =>
    have hfree := hnobody i ho hroot hb
    have hentry : e = ⟨i.fileName, d⟩ := (hpr e).mp ⟨he, hfile⟩
    have honly : ∀ k', ∀ fd ∈ t.fd k', fd.file = d → fd = ⟨i.fileName, d, none⟩ ∧ k' = k := by
      intro k' fd hk' hd
      rw [hfd] at hk'
      split at hk'
      · rename_i heq
        cases hk'
        rw [hentry]
        exact ⟨rfl, heq⟩
      · exact absurd ⟨fd, hk', hd⟩ (hfree k')
    refine .waiting i (hinfo ▸ hi) ho hroot (hphase ▸ hp) ?_ (hfiles ▸ hb) (hrow.trans hr) ?_
    · rw [Present, hdir]
      exact hpr
    · intro k' fd hk' hd
      rcases honly k' fd hk' hd with ⟨heq, hkk⟩
      refine ⟨heq, ?_⟩
      rintro k'' ⟨fd', hk'', hd'⟩
      exact (honly k'' fd' hk'' hd').2.trans hkk.symm
  | imported i k' _ ho hroot _ _ hb _ hk' => exact absurd ⟨_, hk', rfl⟩ (hnobody i ho hroot hb k')
  | stored _ _ _ _ _ hg => exact absurd hfile (hg e he)

theorem Sound.visit (h : Sound users s) {ok : Bool}
    (hok : Careful users s (.visit k ok)) : Sound users (visit s k ok) := by
  rw [MailSpool.visit]
  split
  · rename_i uid name todo seen hk
    have hcare := hok _ hk name todo rfl rfl
    have hnone : s.fd k = none := by
      rw [State.fd, hk]
      rfl
    -- what the sweep opens
    generalize hopened :
      (if ok then (s.dir.find? name).map fun e => (⟨name, e.file, none⟩ : Fd) else none) = opened
    constructor
    · intro d
      have hfd : ∀ t : State,
          t.sweeps = Function.update s.sweeps k (some ⟨uid, todo, opened, seen⟩) →
            ∀ k', t.fd k' = if k' = k then opened else s.fd k' := fun _ ht => fd_update ht
      cases opened with
      | none =>
        refine (h.stage d).congr rfl rfl rfl (fun _ _ => Iff.rfl) rfl (fd_congr rfl fun fd _ => ?_)
        rw [hnone]
      | some fd =>
        cases ok with
        | false => exact nomatch hopened
        | true =>
          rw [if_pos rfl, Option.map_eq_some_iff] at hopened
          rcases hopened with ⟨e, he, rfl⟩
          rcases Keyed.Table.find?_eq_some.mp he with ⟨hmem, rfl⟩
          by_cases hfile : e.file = d
          · rcases hcare e he with ⟨hwritten, hreads⟩
            rw [hfile] at hwritten hreads
            exact (h.stage d).of_open hmem hfile hwritten (hreads.imp_right And.right) rfl rfl rfl
              rfl rfl (hfd _ rfl)
          · refine (h.stage d).congr rfl rfl rfl (fun _ _ => Iff.rfl) rfl
              (fd_congr rfl fun fd hd => ?_)
            rw [hnone]
            constructor
            · intro hsome
              cases hsome
              exact absurd hd hfile
            · exact fun hsome => nomatch hsome
    · refine h.found.of_sweep rfl rfl (fun _ hr => hr) hk rfl rfl rfl ?_
      rintro d hdone i hi hroot u hu hname hrows (htodo | ⟨fd, hfd, -⟩)
      · rcases List.mem_cons.mp htodo with hhere | hlater
        · -- the file waits under this name
          rcases (h.stage d).of_done hdone hi hroot hu hname hrows with ⟨ho, hpr, hb, -⟩
          have hfind : s.dir.find? name = some ⟨i.fileName, d⟩ :=
            Keyed.Table.find?_eq_some.mpr ⟨((hpr _).mpr rfl).1, hhere⟩
          rcases ho.importOwner_eq_some hroot with ⟨v, hv, -⟩
          rcases (hcare _ hfind).2 with hno | ⟨hopen, -⟩
          · rw [hb, hv] at hno
            exact nomatch hno
          · rw [if_pos hopen, hfind] at hopened
            exact .inr (.inl ⟨_, hopened.symm, rfl⟩)
        · exact .inl hlater
      · exact nomatch hfd
  · exact h

/-- A file that a sweep has open is whole: it is the file of a delivery as root, the sweep is
to import it, or has done so. -/
theorem Stage.of_held (h : Stage users s d) {fd : Fd} (hk : s.fd k = some fd) (hd : fd.file = d) :
    ∃ i, s.info d = some i ∧ OneWay users i ∧ Present s d i ∧ s.files d = ⟨d, i.raw⟩ ∧
      (i.root = true ∧ fd.imported ≠ some true ∨
        i.root = false ∧ s.phase d = .done ∧ OnlyHeldBy s d k ∧
          (rowsOf s d = [] ∧ fd = ⟨i.fileName, d, none⟩ ∨
            StoredFor users s d i ∧ fd = ⟨i.fileName, d, some true⟩)) := by
  have hheld : Holds s k d := ⟨fd, hk, hd⟩
  cases h with
  | unborn _ _ _ _ hf => exact absurd hheld (hf k)
  | spool _ _ _ _ _ _ hf => exact absurd hheld (hf k)
  | writing _ _ _ _ _ _ _ _ _ hf => exact absurd hheld (hf k)
  | deliver i hi ho hroot _ _ hkept =>
    rcases hkept with ⟨-, hf⟩ | ⟨hpr, hb, hnot⟩
    · exact absurd hheld (hf k)
    · exact ⟨i, hi, ho, hpr, hb, .inl ⟨hroot, hnot k fd hk hd⟩⟩
  | storedAsRoot i hi ho hroot _ _ hkept =>
    rcases hkept with ⟨-, hf⟩ | ⟨hpr, hb, hnot⟩
    · exact absurd hheld (hf k)
    · exact ⟨i, hi, ho, hpr, hb, .inl ⟨hroot, hnot k fd hk hd⟩⟩
  | waiting i hi ho hroot hp hpr hb hr hh =>
    rcases hh k fd hk hd with ⟨heq, honly⟩
    exact ⟨i, hi, ho, hpr, hb, .inr ⟨hroot, hp, honly, .inl ⟨hr, heq⟩⟩⟩
  | imported i k' hi ho hroot hp hpr hb hs hk' honly =>
    have hkk : k = k' := honly k hheld
    subst hkk
    rw [hk] at hk'
    cases hk'
    exact ⟨i, hi, ho, hpr, hb, .inr ⟨hroot, hp, honly, .inr ⟨hs, rfl⟩⟩⟩
  | stored _ _ _ _ _ _ _ hf => exact absurd hheld (hf k)

theorem Stage.of_root (h : Stage users s d) (hi : s.info d = some i)
    (hroot : i.root = true) {fd : Fd} (hk : s.fd k = some fd) (hd : fd.file = d)
    {o : Option Fd} (ho : ∀ fd' ∈ o, fd'.imported ≠ some true) (hinfo : t.info = s.info)
    (hphase : t.phase = s.phase) (hfiles : t.files = s.files) (hdir : t.dir = s.dir)
    (hrows : t.rows = s.rows) (hfd : ∀ k', t.fd k' = if k' = k then o else s.fd k') :
    Stage users t d := by
  have hheld : Holds s k d := ⟨fd, hk, hd⟩
  have hrow : rowsOf t d = rowsOf s d := by rw [rowsOf, hrows, rowsOf]
  have hkept : ∀ i, Kept s d i → Kept t d i := by
    rintro i (⟨-, hf⟩ | ⟨hpr, hb, hnot⟩)
    · exact absurd hheld (hf k)
    · refine .inr ⟨?_, hfiles ▸ hb, fun k' fd' hk' hd' => ?_⟩
      · rw [Present, hdir]
        exact hpr
      · rw [hfd] at hk'
        split at hk'
        · exact ho fd' hk'
        · exact hnot k' fd' hk' hd'
  cases h with
  | unborn _ _ _ _ hf => exact absurd hheld (hf k)
  | spool _ _ _ _ _ _ hf => exact absurd hheld (hf k)
  | writing _ _ _ _ _ _ _ _ _ hf => exact absurd hheld (hf k)
  | deliver i' hi' ho' hroot' hp hr hkp =>
    exact .deliver i' (hinfo ▸ hi') ho' hroot' (hphase ▸ hp) (hrow.trans hr) (hkept i' hkp)
  | storedAsRoot i' hi' ho' hroot' hp hs hkp =>
    refine .storedAsRoot i' (hinfo ▸ hi') ho' hroot' (hphase ▸ hp) ?_ (hkept i' hkp)
    exact fun u hu hname => hrow.trans (hs u hu hname)
  | waiting _ hi' _ hnot =>
    rw [hi] at hi'
    cases hi'
    exact nomatch hroot.symm.trans hnot
  | imported _ _ hi' _ hnot =>
    rw [hi] at hi'
    cases hi'
    exact nomatch hroot.symm.trans hnot
  | stored _ _ _ _ _ _ _ hf => exact absurd hheld (hf k)

theorem Sound.dbImport (h : Sound users s) (k : ℕ) : Sound users (dbImport users s k) := by
  rw [MailSpool.dbImport]
  split
  · rename_i uid todo name f seen hk
    have hopen : s.fd k = some ⟨name, f, none⟩ := by
      rw [State.fd, hk]
      rfl
    rcases (h.stage f).of_held hopen rfl with ⟨i, hi, ho, hpr, hb, hcase⟩
    rw [hb]
    have hfd : ∀ (t : State) (ok : Bool),
        t.sweeps = Function.update s.sweeps k (some ⟨uid, todo, some ⟨name, f, some ok⟩, seen⟩) →
          ∀ k', t.fd k' = if k' = k then some ⟨name, f, some ok⟩ else s.fd k' :=
      fun _ _ ht => fd_update ht
    -- other files are not in the hands of this sweep
    have hother : ∀ d, d ≠ f → ∀ ok, ∀ fd : Fd, fd.file = d →
        (some ⟨name, f, some ok⟩ = some fd ↔ s.fd k = some fd) := by
      intro d hne ok fd hd
      rw [hopen]
      constructor
      · intro hsome
        cases hsome
        exact absurd hd.symm hne
      · intro hsome
        cases hsome
        exact absurd hd.symm hne
    constructor
    · intro d
      by_cases hd : d = f
      · subst hd
        rcases hcase with ⟨hroot, -⟩ | ⟨hroot, hdone, honly, hstate⟩
        · rw [ho.importOwner_eq_none hroot]
          refine (h.stage d).of_root (o := some ⟨name, d, some false⟩) hi hroot hopen rfl ?_ rfl rfl
            rfl rfl rfl (hfd _ false rfl)
          rintro fd' hfd' htrue
          cases hfd'
          exact nomatch htrue
        · rcases hstate with ⟨hrows, heq⟩ | ⟨-, heq⟩
          · rcases ho.importOwner_eq_some hroot with ⟨u, hu, huser⟩
            rw [hu]
            have hname : name = i.fileName := congrArg Fd.name heq
            refine .imported i k hi ho hroot hdone hpr hb (storedFor_of_rows huser ?_) ?_ ?_
            · refine (rowsOf_insertRow s u d i.raw).trans ?_
              rw [hrows]
              rfl
            · rw [hfd _ true rfl, if_pos rfl, hname]
            · rintro k' ⟨fd', hk', hd'⟩
              rw [hfd _ true rfl] at hk'
              split at hk'
              · assumption
              · exact honly k' ⟨fd', hk', hd'⟩
          · exact nomatch congrArg Fd.imported heq
      · cases howner : importOwner users.list i.raw with
        | none =>
          exact (h.stage d).congr rfl rfl rfl (fun _ _ => Iff.rfl) rfl
            (fd_congr rfl (hother d hd false))
        | some u =>
          exact (h.stage d).congr rfl rfl rfl (fun _ _ => Iff.rfl)
            (rowsOf_insertRow_of_ne s (some u) i.raw (Ne.symm hd))
            (fd_congr rfl (hother d hd true))
    · cases howner : importOwner users.list i.raw with
      | none =>
        refine h.found.of_sweep rfl rfl (fun _ hr => hr) hk rfl rfl rfl ?_
        rintro d - i - - u - - - (htodo | ⟨fd, hfd, hfile⟩)
        · exact .inl htodo
        · cases hfd
          exact .inr (.inl ⟨_, rfl, hfile⟩)
      | some u =>
        refine h.found.of_sweep rfl rfl
          (fun _ hr => rowsOf_insertRow_ne_nil (some u) f i.raw hr) hk rfl rfl rfl ?_
        rintro d - i - - u - - - (htodo | ⟨fd, hfd, hfile⟩)
        · exact .inl htodo
        · cases hfd
          exact .inr (.inl ⟨_, rfl, hfile⟩)
  · exact h

theorem Sound.unlink (h : Sound users s) (k : ℕ) : Sound users (unlink s k) := by
  rw [MailSpool.unlink]
  split
  · rename_i uid todo name f ok seen hk
    have hopen : s.fd k = some ⟨name, f, some ok⟩ := by
      rw [State.fd, hk]
      rfl
    have hfd : ∀ t : State, t.sweeps = Function.update s.sweeps k (some ⟨uid, todo, none, seen⟩) →
        ∀ k', t.fd k' = if k' = k then none else s.fd k' := fun _ ht => fd_update ht
    have hother : ∀ d, d ≠ f → ∀ fd : Fd, fd.file = d → (none = some fd ↔ s.fd k = some fd) := by
      intro d hne fd hd
      rw [hopen]
      constructor
      · rintro ⟨⟩
      · intro hsome
        cases hsome
        exact absurd hd.symm hne
    rcases (h.stage f).of_held hopen rfl with ⟨i, hi, ho, hpr, hb, hcase⟩
    constructor
    · rcases hcase with ⟨hroot, hnot⟩ | ⟨hroot, hdone, honly, hstate⟩
      · -- nobody was found for it, and the file stays
        have hfalse : ok = false := Bool.eq_false_of_not_eq_true fun htrue => hnot (by rw [htrue])
        rw [hfalse]
        intro d
        by_cases hd : d = f
        · subst hd
          exact (h.stage d).of_root (o := none) hi hroot hopen rfl (by rintro _ ⟨⟩) rfl
            rfl rfl rfl rfl (hfd _ rfl)
        · exact (h.stage d).congr rfl rfl rfl (fun _ _ => Iff.rfl) rfl
            (fd_congr rfl (hother d hd))
      · rcases hstate with ⟨-, heq⟩ | ⟨hstored, heq⟩
        · cases congrArg Fd.imported heq
        · cases heq
          rw [if_pos rfl]
          have hentry := (hpr ⟨i.fileName, f⟩).mpr rfl
          have hremoved : ∀ e, e ∈ (s.dir.remove i.fileName).rows ↔
              e ∈ s.dir.rows ∧ e.name ≠ i.fileName := by
            intro e
            rw [Keyed.Table.remove, List.mem_filter, decide_eq_true_eq]
          intro d
          by_cases hd : d = f
          · subst hd
            refine .stored i hi ho hroot hdone ?_ hstored ?_
            · intro e he hfile
              rcases (hremoved e).mp he with ⟨hmem, hname⟩
              exact hname (congrArg Entry.name ((hpr e).mp ⟨hmem, hfile⟩))
            · rintro k' ⟨fd', hk', hd'⟩
              rw [hfd _ rfl] at hk'
              split at hk'
              · cases hk'
              · rename_i hne
                exact hne (honly k' ⟨fd', hk', hd'⟩)
          · refine (h.stage d).congr rfl rfl rfl (fun e he => ?_) rfl
              (fd_congr rfl (hother d hd))
            rw [hremoved]
            constructor
            · exact And.left
            · intro hmem
              refine ⟨hmem, fun hname => hd ?_⟩
              have heq := s.dir.eq_of_key_eq hmem hentry.1 hname
              rw [← he, heq]
    · refine h.found.of_sweep rfl rfl (fun _ hr => hr) hk rfl rfl rfl ?_
      rintro d hdone i' hi' hroot' u hu hname hrows (htodo | ⟨fd, hfd', hfile⟩)
      · exact .inl htodo
      · -- an import leaves no message waiting that it has found somebody for
        rcases (h.stage d).of_done hdone hi' hroot' hu hname hrows with ⟨-, -, -, hheld⟩
        cases hfd'
        cases congrArg Fd.imported (hheld k _ hopen hfile)
  · exact h

/-! ## Runs -/

theorem Sound.step (h : Sound users s) {a : Action} (ha : Careful users s a) :
    Sound users (step users s a) := by
  cases a with
  | deliver d i => exact h.deliver ha
  | spoolOpen d ok => exact h.spoolOpen ha
  | spoolWrite d n => exact h.spoolWrite n
  | spoolClose d => exact h.spoolClose ha
  | dbDeliver d => exact h.dbDeliver
  | sweep k uid names => exact h.sweep k uid names
  | visit k ok => exact h.visit ha
  | dbImport k => exact h.dbImport k
  | unlink k => exact h.unlink k

theorem Sound.empty (users : Accounts) : Sound users .empty := by
  constructor
  · intro d
    refine .unborn rfl rfl (fun e he => nomatch he) rfl ?_
    rintro k ⟨fd, hfd, -⟩
    exact nomatch hfd
  · exact fun k w hw => nomatch hw

theorem Sound.delivered (h : Sound users s) : Delivered users s := by
  rintro d i hi hdone u hu hname ⟨k, w, hw, huid, hseen, htodo, hfd⟩
  have hstored : ∀ i', s.info d = some i' → StoredFor users s d i' →
      rowsOf s d = [⟨u.id, d, i.raw⟩] := by
    intro i' hi' hs
    rw [hi] at hi'
    cases hi'
    exact hs u hu hname
  cases h.stage d with
  | storedAsRoot i' hi' _ _ _ hs => exact hstored i' hi' hs
  | imported i' _ hi' _ _ _ _ _ hs => exact hstored i' hi' hs
  | stored i' hi' _ _ _ _ hs => exact hstored i' hi' hs
  | waiting i' hi' _ hroot _ _ _ hrows =>
    rw [hi] at hi'
    cases hi'
    rcases (h.found k w hw d hseen).2 i hi hroot u hu huid hname with hin | ⟨fd, hin, -⟩ | hne
    · rw [htodo] at hin
      exact nomatch hin
    · rw [hfd] at hin
      exact nomatch hin
    · exact absurd hrows hne
  | unborn _ hp => exact nomatch hdone.symm.trans hp
  | spool _ _ _ hp => exact nomatch hdone.symm.trans hp
  | writing _ _ _ _ hp => exact nomatch hdone.symm.trans hp
  | deliver _ _ _ _ hp => exact nomatch hdone.symm.trans hp

theorem sweeps_insertRow (s : State) (owner : Option User) (d : ℕ) (raw : Bytes) :
    (insertRow s owner d raw).sweeps = s.sweeps := by
  cases owner with
  | none => rfl
  | some u => rfl

def Action.sweep? : Action → Option ℕ
  | .sweep k .. | .visit k _ | .dbImport k | .unlink k => some k
  | _ => none

theorem sweeps_step_of_ne (s : State) {a : Action} (h : a.sweep? ≠ some k) :
    (MailSpool.step users s a).sweeps k = s.sweeps k := by
  have hne : ∀ k', a.sweep? = some k' → k ≠ k' := by
    rintro k' heq rfl
    exact h heq
  cases a with
  | deliver d i =>
    rw [MailSpool.step, MailSpool.deliver]
    split_ifs
    · rfl
    · rfl
    · exact congrFun (sweeps_insertRow ..) k
    · rfl
    · rfl
  | spoolOpen d ok =>
    rw [MailSpool.step, MailSpool.spoolOpen]
    split
    · split_ifs
      · split <;> rfl
      · rfl
    · rfl
  | spoolWrite d n =>
    rw [MailSpool.step, MailSpool.spoolWrite]
    split <;> rfl
  | spoolClose d =>
    rw [MailSpool.step, MailSpool.spoolClose]
    split <;> rfl
  | dbDeliver d =>
    rw [MailSpool.step, MailSpool.dbDeliver]
    split
    · exact congrFun (sweeps_insertRow ..) k
    · rfl
  | sweep k' uid names =>
    rw [MailSpool.step, MailSpool.sweep]
    split
    · split_ifs
      · exact Function.update_of_ne (hne k' rfl) ..
      · rfl
    · rfl
  | visit k' ok =>
    rw [MailSpool.step, MailSpool.visit]
    split
    · exact Function.update_of_ne (hne k' rfl) ..
    · rfl
  | dbImport k' =>
    rw [MailSpool.step, MailSpool.dbImport]
    split
    · refine (Function.update_of_ne (hne k' rfl) ..).trans ?_
      exact congrFun (sweeps_insertRow ..) k
    · rfl
  | unlink k' =>
    rw [MailSpool.step, MailSpool.unlink]
    split
    · exact Function.update_of_ne (hne k' rfl) ..
    · rfl

def annAndBob : Accounts where
  list := [⟨1, bytes "ann", false⟩, ⟨2, bytes "bob", false⟩]
  ids := by decide
  names := by decide

/-- A message for ann, whose To header names `name`. -/
def forAnn (name : String) : Delivery where
  rcpt := bytes "ann@a.b"
  raw := bytes "To: " ++ bytes name ++ bytes "\n\nhi"
  root := false
  time := 0
  pid := 7

def deliverAndOpen (name : String) : List Action :=
  [.deliver 0 (forAnn name), .spoolOpen 0 true, .spoolWrite 0 20, .spoolClose 0,
    .sweep 0 1 [(forAnn name).fileName]]

def deliverAndSweep (name : String) : List Action :=
  deliverAndOpen name ++ [.visit 0 true, .dbImport 0, .unlink 0, .sweep 1 2 []]

theorem not_holds_of_ne {as : List Action} (h : ∀ a ∈ as, a.sweep? ≠ some k)
    (hs : s.sweeps k = none) (f : ℕ) : ¬ Holds (run (MailSpool.step users) s as) k f := by
  induction as generalizing s with
  | nil =>
    rintro ⟨fd, hfd, -⟩
    rw [run_nil, State.fd, hs] at hfd
    exact nomatch hfd
  | cons a as ih =>
    have hfirst : (MailSpool.step users s a).sweeps k = s.sweeps k :=
      sweeps_step_of_ne s (h a List.mem_cons_self)
    exact ih (fun b hb => h b (List.mem_cons_of_mem _ hb)) (hfirst.trans hs)

theorem swept_of_eq {k uid : ℕ}
    (h : ((s.sweeps k).map fun w => (w.uid, w.seen d, w.todo, w.fd)) = some (uid, true, [], none)) :
    Swept s uid d := by
  rcases Option.map_eq_some_iff.mp h with ⟨w, hw, heq⟩
  injection heq with huid hrest
  injection hrest with hseen hrest
  injection hrest with htodo hfd
  exact ⟨k, w, hw, huid, hseen, htodo, hfd⟩

theorem careful_deliverAndSweep :
    AllSteps (MailSpool.step annAndBob) (Careful annAndBob) .empty (deliverAndSweep "ann") := by
  have hone : OneWay annAndBob (forAnn "ann") := by
    refine ⟨by decide, by decide, ⟨1, bytes "ann", false⟩, by decide, by decide +kernel, by decide,
      .inl ⟨rfl, by decide +kernel⟩⟩
  have hopened : AllSteps (MailSpool.step annAndBob) (Careful annAndBob) .empty
      (deliverAndOpen "ann") := by
    refine ⟨fun _ => hone, ?_, trivial, ?_, trivial, trivial⟩
    · intro i hi _
      have hinfo : some (forAnn "ann") = some i := by
        rw [← Option.mem_def.mp hi]
        decide +kernel
      cases hinfo
      exact ⟨by decide +kernel, fun _ => rfl⟩
    · intro i hi f pos hphase
      have hinfo : some (forAnn "ann") = some i := by
        rw [← Option.mem_def.mp hi]
        decide +kernel
      have hpos : Phase.writing 0 (forAnn "ann").raw.length = .writing f pos := by
        rw [← hphase]
        decide +kernel
      cases hinfo
      cases hpos
      exact le_rfl
  refine hopened.append ⟨?_, trivial, trivial, trivial, trivial⟩
  intro w hw name todo htodo hfd e he
  have hrows : ∀ e ∈ (run (MailSpool.step annAndBob) .empty
      (deliverAndOpen "ann")).dir.rows, e.file = 0 := by decide +kernel
  have hfile : e.file = 0 := hrows e (Keyed.Table.find?_eq_some.mp he).1
  rw [hfile]
  refine ⟨fun f pos hphase => ?_, .inr ⟨rfl, fun k => ?_⟩⟩
  · have hdone : Phase.done = .writing f pos := by
      rw [← hphase]
      decide +kernel
    exact nomatch hdone
  · by_cases hk : k = 0
    · rintro ⟨fd, hopen, -⟩
      have hnone : none = some fd := by
        rw [← Option.mem_def.mp hopen, hk]
        decide +kernel
      exact nomatch hnone
    · have hzero : ∀ a ∈ deliverAndOpen "ann", a.sweep? ≠ some k := by
        intro a ha hs
        have hany : (deliverAndOpen "ann").all fun a =>
            a.sweep? = none ∨ a.sweep? = some 0 := by decide +kernel
        rcases of_decide_eq_true (List.all_eq_true.mp hany a ha) with hno | hyes
        · exact nomatch hno.symm.trans hs
        · exact hk (Option.some.inj (hs.symm.trans hyes))
      exact not_holds_of_ne hzero rfl 0

end FlyBoard.MailSpool

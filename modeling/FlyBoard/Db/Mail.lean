import FlyBoard.Lib.CutList
import FlyBoard.Lib.Run
import FlyBoard.Sync.Snapshot

/-!
# Webmail on the replicas (`src/db/db_email.c`)

Every call changes `emails` with one statement and journals what it takes the statement
to have done. A call that names a message journals its row as it is afterwards, which is
right whoever owns it; `db_email_delete` journals the deletion of the id it was given,
which is wrong where the message is another owner's, since its own DELETE removes
nothing. `db_email_empty_trash` journals the ids of at most 500 messages, as far as their
text fits into its buffer, and removes all of them.
-/

namespace FlyBoard.Mail

open Run Apply Snapshot CutList

/-! ## The table -/

/-- A row of `emails`. -/
structure EmailRow where
  id : ℤ
  ownerId : ℤ
  folder : Bytes
  fromAddr : Bytes
  toAddrs : Bytes
  subject : Bytes
  bodyText : Bytes
  messageId : Option Bytes
  inReplyTo : Option Bytes
  isRead : Bool
  createdAt : ℕ
deriving DecidableEq

/-- The table. `sequence` is the largest id that AUTOINCREMENT has given; ids fit an
`int`. -/
structure Store where
  emails : Keyed.Table EmailRow.id
  sequence : ℕ
  fresh : ∀ r ∈ emails.rows, 0 < r.id ∧ r.id ≤ sequence
  small : sequence < 2 ^ 31

/-- The arguments of `db_email_create`. -/
structure Message where
  ownerId : ℤ
  folder : Option Bytes
  fromAddr : Option Bytes
  toAddrs : Option Bytes
  subject : Option Bytes
  bodyText : Option Bytes
  messageId : Option Bytes
  inReplyTo : Option Bytes

def Message.row (m : Message) (id : ℤ) (now : ℕ) : EmailRow where
  id := id
  ownerId := m.ownerId
  folder := m.folder.getD (bytes "INBOX")
  fromAddr := m.fromAddr.getD []
  toAddrs := m.toAddrs.getD []
  subject := m.subject.getD []
  bodyText := m.bodyText.getD []
  messageId := m.messageId.filter (· ≠ [])
  inReplyTo := m.inReplyTo.filter (· ≠ [])
  isRead := false
  createdAt := now

namespace Store

def insert (s : Store) (m : Message) (now : ℕ) (hsmall : s.sequence + 1 < 2 ^ 31) : Store where
  emails := s.emails.insertOrIgnore (m.row (s.sequence + 1) now)
  sequence := s.sequence + 1
  fresh := by
    intro r hr
    rcases Keyed.Table.mem_insertOrIgnore.mp hr with hold | ⟨rfl, -⟩
    · have hid := s.fresh r hold
      push_cast
      omega
    · simp only [Message.row]
      omega
  small := hsmall

/-- UPDATE emails SET … WHERE owner_id=? AND id=?: `f` changes no id. -/
def update (s : Store) (owner id : ℤ) (f : EmailRow → EmailRow) (hf : ∀ r, (f r).id = r.id) :
    Store where
  emails := s.emails.update (fun r => if r.ownerId = owner ∧ r.id = id then f r else r) (by
    intro r
    split
    · exact hf r
    · rfl)
  sequence := s.sequence
  fresh := by
    intro r hr
    rcases List.mem_map.mp hr with ⟨r', hr', rfl⟩
    have hid := s.fresh r' hr'
    split
    · rw [hf]
      exact hid
    · exact hid
  small := s.small

/-- DELETE FROM emails, of the rows that satisfy `p`. -/
def delete (s : Store) (p : EmailRow → Bool) : Store where
  emails := s.emails.keep fun r => !p r
  sequence := s.sequence
  fresh r hr := s.fresh r (List.mem_of_mem_filter hr)
  small := s.small

end Store

/-! ## The journal -/

section Journal

-- `datetime` is the text that SQLite makes of a time
variable (datetime : ℕ → Bytes)

def textOrNull (v : Option Bytes) : Value := (v.map Value.string).getD .other

/-- The row as `SELECT *` reads it. -/
def EmailRow.payload (r : EmailRow) : Payload :=
  [(bytes "id", .number r.id),
   (bytes "owner_id", .number r.ownerId),
   (bytes "folder", .string r.folder),
   (bytes "from_addr", .string r.fromAddr),
   (bytes "to_addrs", .string r.toAddrs),
   (bytes "subject", .string r.subject),
   (bytes "body_text", .string r.bodyText),
   (bytes "message_id", textOrNull r.messageId),
   (bytes "in_reply_to", textOrNull r.inReplyTo),
   (bytes "is_read", .number (if r.isRead then 1 else 0)),
   (bytes "created_at", .string (datetime r.createdAt))]

/-- The columns of `emails`. -/
def emailColumns : List Bytes :=
  [bytes "id", bytes "owner_id", bytes "folder", bytes "from_addr", bytes "to_addrs",
   bytes "subject", bytes "body_text", bytes "message_id", bytes "in_reply_to",
   bytes "is_read", bytes "created_at"]

/-- The entity `email`. -/
def email : Kind EmailRow where
  entity := .email
  name := bytes "email"
  columns := emailColumns
  id := EmailRow.id
  payload := EmailRow.payload datetime
  named := by decide +kernel
  identified _ := rfl
  complete _ _ hc := getObjectItem_isSome hc

/-! ## The calls -/

/-- A call, and whether its statement is done; a `create` may be refused for its owner. -/
inductive Call where
  | create (m : Message) (now : ℕ) (done : Bool)
  | setRead (owner id : ℤ) (isRead : Bool) (done : Bool)
  | setFolder (owner id : ℤ) (folder : Option Bytes) (done : Bool)
  | delete (owner id : ℤ) (done : Bool)
  | emptyTrash (owner : ℤ) (done : Bool)

/-- `owner_id=? AND folder='Trash'` -/
def inTrash (owner : ℤ) (r : EmailRow) : Bool := r.ownerId = owner && r.folder = bytes "Trash"

variable (scan : Scan EmailRow)

/-- The ids that `db_email_empty_trash` selects. -/
def trashIds (s : Store) (owner : ℤ) : List ℤ :=
  (scan.order (s.emails.rows.filter (inTrash owner))).map (·.id)

/-- `sizeof(ids)` -/
def idsSize : ℕ := 4096

def maxIds : ℕ := 500

/-- `db_email_create`. -/
def emailCreate (s : Store) (m : Message) (now : ℕ) (done : Bool) : Store × List FeedRow :=
  if m.ownerId ≤ 0 ∨ done = false then (s, [])
  else if hsmall : s.sequence + 1 < 2 ^ 31 then
    let s' := s.insert m now hsmall
    (s', (email datetime).journalRow s'.emails (s.sequence + 1))
  else (s, [])

def updateOne (s : Store) (owner id : ℤ) (f : EmailRow → EmailRow) (hf : ∀ r, (f r).id = r.id)
    (done : Bool) : Store × List FeedRow :=
  if done then
    let s' := s.update owner id f hf
    (s', (email datetime).journalRow s'.emails id)
  else (s, [])

/-- `db_email_set_read`. -/
def emailSetRead (s : Store) (owner id : ℤ) (isRead done : Bool) : Store × List FeedRow :=
  updateOne datetime s owner id (fun r => { r with isRead := isRead }) (fun _ => rfl) done

/-- `db_email_set_folder`. -/
def emailSetFolder (s : Store) (owner id : ℤ) (folder : Option Bytes) (done : Bool) :
    Store × List FeedRow :=
  updateOne datetime s owner id (fun r => { r with folder := folder.getD (bytes "INBOX") })
    (fun _ => rfl) done

/-- `db_email_delete`: journaled whether or not a row was removed. -/
def emailDelete (s : Store) (owner id : ℤ) (done : Bool) : Store × List FeedRow :=
  if done then
    (s.delete fun r => r.ownerId = owner && r.id = id, [(email datetime).deletion id])
  else (s, [])

/-- `db_email_empty_trash`. -/
def emailEmptyTrash (s : Store) (owner : ℤ) (done : Bool) : Store × List FeedRow :=
  let ids := written idsSize ((trashIds scan s owner).take maxIds)
  let n := if done then s.emails.rows.countP (inTrash owner) else 0
  (if done then s.delete (inTrash owner) else s,
    if 0 < n then (read ids).map (email datetime).deletion else [])

/-- What a call leaves in the table, and what it appends to the journal. -/
def exec (s : Store) : Call → Store × List FeedRow
  | .create m now done => emailCreate datetime s m now done
  | .setRead owner id isRead done => emailSetRead datetime s owner id isRead done
  | .setFolder owner id folder done => emailSetFolder datetime s owner id folder done
  | .delete owner id done => emailDelete datetime s owner id done
  | .emptyTrash owner done => emailEmptyTrash datetime scan s owner done

/-- A replica that began with the tables `t` has, after the journal, the primary's mail. -/
def MailReplicated (rep : Replica) (t : Tables) (p : Primary Store) : Prop :=
  Replicated (fun t s => (email datetime).Equal t s.emails) rep t p

/-- The call names no other owner's message as its own to delete, and the ids of the trash
it empties are at most 500 and fit into the buffer. -/
def Whole (s : Store) : Call → Prop
  | .delete owner id done => done = true → ∀ r ∈ s.emails.rows, r.id = id → r.ownerId = owner
  | .emptyTrash owner done => done = true →
      (trashIds scan s owner).length ≤ maxIds ∧
        (joined (trashIds scan s owner)).length < idsSize
  | _ => True

/-! ## One call -/

section Calls

variable {datetime scan} {rep : Replica} {t : Tables} {s : Store}

theorem keyed_find? (s : Store) {r : EmailRow} (hr : r ∈ s.emails.rows) :
    s.emails.find? r.id = some r :=
  Keyed.Table.find?_eq_some.mpr ⟨hr, rfl⟩

theorem equal_create (h : (email datetime).Equal t s.emails)
    (hrep : ∀ r, (email datetime).Takes rep r) (m : Message) (now : ℕ) (done : Bool) :
    (email datetime).Equal (rep.applyAll t (emailCreate datetime s m now done).2)
      (emailCreate datetime s m now done).1.emails := by
  unfold emailCreate
  split
  · exact h
  · split
    · next hsmall =>
      have hfree : (m.row (s.sequence + 1) now).id ∉ s.emails.rows.map EmailRow.id := by
        intro hmem
        rcases List.mem_map.mp hmem with ⟨r, hr, hid⟩
        have hle := (s.fresh r hr).2
        simp only [Message.row] at hid
        omega
      have hfind : ∀ id, (s.insert m now hsmall).emails.find? id =
          if id = (s.sequence : ℤ) + 1 then some (m.row (s.sequence + 1) now)
          else s.emails.find? id :=
        Keyed.Table.find?_insertOrIgnore_of_free hfree
      have hpos : (0 : ℤ) < s.sequence + 1 := by omega
      have hjournal : (email datetime).journalRow (s.insert m now hsmall).emails (s.sequence + 1) =
          [(email datetime).snapshot (m.row (s.sequence + 1) now)] := by
        unfold Kind.journalRow
        rw [if_pos hpos]
        have hself := hfind (s.sequence + 1)
        rw [if_pos rfl] at hself
        exact congrArg (fun o => (o.map (email datetime).snapshot).toList) hself
      dsimp only
      rw [hjournal]
      exact h.snapshot (hrep _) hfind
    · exact h

theorem equal_updateOne (h : (email datetime).Equal t s.emails)
    (hrep : ∀ r, (email datetime).Takes rep r) (owner id : ℤ) (f : EmailRow → EmailRow)
    (hf : ∀ r, (f r).id = r.id) (done : Bool) :
    (email datetime).Equal (rep.applyAll t (updateOne datetime s owner id f hf done).2)
      (updateOne datetime s owner id f hf done).1.emails := by
  unfold updateOne
  split
  · have hkey : ∀ r : EmailRow,
        (if r.ownerId = owner ∧ r.id = id then f r else r).id = r.id := by
      intro r
      split
      · exact hf r
      · rfl
    refine h.update hkey (fun r hr hid => hid ▸ (s.fresh r hr).1) ?_ fun r _ _ => hrep r
    intro r hid
    exact if_neg fun hboth => hid hboth.2
  · exact h

theorem find?_delete (p : EmailRow → Bool) (id : ℤ) :
    (s.delete p).emails.find? id = (s.emails.find? id).filter fun r => !p r :=
  Keyed.Table.find?_keep _ _ id

theorem equal_delete_iff (h : (email datetime).Equal t s.emails) (owner id : ℤ) :
    (email datetime).Equal (rep.applyAll t (emailDelete datetime s owner id true).2)
        (emailDelete datetime s owner id true).1.emails ↔
      ∀ r ∈ s.emails.rows, r.id = id → r.ownerId = owner := by
  have hresult : emailDelete datetime s owner id true =
      (s.delete fun r => r.ownerId = owner && r.id = id, [id].map (email datetime).deletion) := rfl
  rw [hresult]
  constructor
  · intro hafter r hr hid
    by_contra howner
    -- the replica removes the message, the primary keeps it
    have hlost : rep.applyAll t ([id].map (email datetime).deletion) (.row .email id) = none := by
      have hpos := (s.fresh r hr).1
      exact (Kind.applyAll_deletions (K := email datetime) [id] id).trans
        (if_pos ⟨hid ▸ hpos, List.mem_singleton_self id⟩)
    have hkept : (s.delete fun r => r.ownerId = owner && r.id = id).emails.find? id = some r := by
      rw [find?_delete, ← hid, keyed_find? s hr]
      simp [howner]
    exact Kind.not_equal_of_none hlost hkept hafter
  · intro howner
    refine h.deletions ?_
    intro id'
    refine (find?_delete _ id').trans ?_
    show _ = if 0 < id' ∧ id' ∈ [id] then none else s.emails.find? id'
    rcases hfind : s.emails.find? id' with _ | r
    · simp
    · rcases Keyed.Table.find?_eq_some.mp hfind with ⟨hr, rfl⟩
      have hpos := (s.fresh r hr).1
      by_cases hid : r.id = id
      · simp [hid, howner r hr hid, hid ▸ hpos]
      · simp [hid]

theorem mem_trashIds {owner id : ℤ} :
    id ∈ trashIds scan s owner ↔ ∃ r ∈ s.emails.rows, inTrash owner r = true ∧ r.id = id := by
  rw [trashIds, List.mem_map]
  simp only [(scan.perm _).mem_iff, List.mem_filter, and_assoc]

variable (scan) in
theorem nodup_trashIds (owner : ℤ) : (trashIds scan s owner).Nodup := by
  have hperm := (scan.perm (s.emails.rows.filter (inTrash owner))).map EmailRow.id
  rw [trashIds, hperm.nodup_iff]
  exact (List.filter_sublist.map EmailRow.id).nodup s.emails.keyed

theorem trashIds_range {owner : ℤ} : ∀ id ∈ trashIds scan s owner, 0 < id ∧ id < 2 ^ 31 := by
  intro id hid
  rcases mem_trashIds.mp hid with ⟨r, hr, -, rfl⟩
  have hfresh := s.fresh r hr
  have hsmall := s.small
  omega

variable (scan) in
theorem find?_emptied (owner id : ℤ) :
    (s.delete (inTrash owner)).emails.find? id =
      if 0 < id ∧ id ∈ trashIds scan s owner then none else s.emails.find? id := by
  rw [find?_delete]
  rcases hfind : s.emails.find? id with _ | r
  · simp
  · rcases Keyed.Table.find?_eq_some.mp hfind with ⟨hr, rfl⟩
    have hmem : r.id ∈ trashIds scan s owner ↔ inTrash owner r = true := by
      rw [mem_trashIds]
      constructor
      · rintro ⟨r', hr', htrash, hid⟩
        rw [← s.emails.eq_of_key_eq hr' hr hid]
        exact htrash
      · exact fun htrash => ⟨r, hr, htrash, rfl⟩
    simp only [hmem, (s.fresh r hr).1, true_and]
    cases htrash : inTrash owner r with
    | false => simp [htrash]
    | true => simp [htrash]

/-- The test for a removed row changes nothing: with an empty trash no id is collected. -/
theorem emptyTrash_done (owner : ℤ) :
    emailEmptyTrash datetime scan s owner true =
      (s.delete (inTrash owner), (read (written idsSize ((trashIds scan s owner).take maxIds))).map
        (email datetime).deletion) := by
  unfold emailEmptyTrash
  dsimp only
  rw [if_pos rfl, if_pos rfl]
  split
  · rfl
  · next hnone =>
    have hzero : s.emails.rows.countP (inTrash owner) = 0 := by omega
    have hnil : trashIds scan s owner = [] := by
      rw [List.eq_nil_iff_forall_not_mem]
      intro id hid
      rcases mem_trashIds.mp hid with ⟨r, hr, htrash, -⟩
      exact absurd htrash (List.countP_eq_zero.mp hzero r hr)
    rw [hnil]
    rfl

theorem equal_emptyTrash_iff (h : (email datetime).Equal t s.emails) (owner : ℤ) :
    (email datetime).Equal (rep.applyAll t (emailEmptyTrash datetime scan s owner true).2)
        (emailEmptyTrash datetime scan s owner true).1.emails ↔
      (trashIds scan s owner).length ≤ maxIds ∧
        (joined (trashIds scan s owner)).length < idsSize := by
  have hsize : 0 < idsSize := by decide
  have hread := forall_mem_read_written_iff (m := maxIds) hsize
    (nodup_trashIds scan (s := s) owner) trashIds_range
  rw [emptyTrash_done, ← hread]
  constructor
  · intro hafter id hid
    by_contra hlost
    -- the primary removes the message, the replica is not told
    rcases mem_trashIds.mp hid with ⟨r, hr, -, rfl⟩
    have hgone : (s.delete (inTrash owner)).emails.find? r.id = none := by
      rw [find?_emptied scan, if_pos ⟨(s.fresh r hr).1, hid⟩]
    refine Kind.not_equal_of_some ?_ hgone hafter
    have hkept : rep.applyAll t
        ((read (written idsSize ((trashIds scan s owner).take maxIds))).map
          (email datetime).deletion) (.row .email r.id) = t (.row .email r.id) :=
      (Kind.applyAll_deletions (K := email datetime) _ r.id).trans
        (if_neg fun hboth => hlost hboth.2)
    show rep.applyAll t _ (.row .email r.id) ≠ none
    rw [hkept]
    exact h.ne_none hr
  · intro hall
    rcases hread.mp hall with ⟨hfew, hfits⟩
    have hrange : ∀ id ∈ trashIds scan s owner, -2 ^ 31 ≤ id ∧ id < 2 ^ 31 := by
      intro id hid
      have hboth := trashIds_range id hid
      omega
    rw [List.take_of_length_le hfew, read_written hrange hfits]
    exact h.deletions (find?_emptied scan owner)

end Calls

/-! ## All calls -/

variable {datetime scan} {rep : Replica} {t : Tables}

theorem equal_exec_iff (hrep : ∀ r, (email datetime).Takes rep r) (t : Tables) (s : Store)
    (c : Call) (h : (email datetime).Equal t s.emails) :
    (email datetime).Equal (rep.applyAll t (exec datetime scan s c).2)
        (exec datetime scan s c).1.emails ↔ Whole scan s c := by
  cases c with
  | create m now done => exact iff_true_intro (equal_create h hrep m now done)
  | setRead owner id isRead done =>
    exact iff_true_intro (equal_updateOne h hrep owner id _ _ done)
  | setFolder owner id folder done =>
    exact iff_true_intro (equal_updateOne h hrep owner id _ _ done)
  | delete owner id done =>
    cases done with
    | false => exact iff_of_true h fun hdone => absurd hdone (by decide)
    | true =>
      exact (equal_delete_iff h owner id).trans ⟨fun howner _ => howner, fun hall => hall rfl⟩
  | emptyTrash owner done =>
    cases done with
    | false => exact iff_of_true h fun hdone => absurd hdone (by decide)
    | true =>
      exact (equal_emptyTrash_iff h owner).trans ⟨fun hfits _ => hfits, fun hall => hall rfl⟩

/-- The mail of a replica stays equal to the primary's over a run of calls exactly when
every call of it is whole. -/
theorem mail_replicates_iff (hrep : ∀ r, (email datetime).Takes rep r) (s : Store)
    (h : (email datetime).Equal t s.emails) (calls : List Call) :
    (∀ p, Reaches (Primary.step (exec datetime scan)) ⟨s, []⟩ calls p →
        MailReplicated datetime rep t p) ↔
      AllSteps (fun s c => (exec datetime scan s c).1) (Whole scan) s calls := by
  have hcall : ∀ (t : Tables) (s : Store) (c : Call), True → (email datetime).Equal t s.emails →
      ((email datetime).Equal (rep.applyAll t (exec datetime scan s c).2)
        (exec datetime scan s c).1.emails ↔ Whole scan s c) :=
    fun t s c _ hequal => equal_exec_iff hrep t s c hequal
  exact replicates_iff (fun _ _ _ => trivial) hcall trivial h calls

end Journal

/-! ## A message of another owner -/

/-- A replica that takes every row of `emails`. -/
def anyReplica : Replica where
  adminUsername := []
  siteAdminUid := 0
  columns _ := emailColumns
  default _ _ := .null
  accepts _ _ := true

theorem anyReplica_takes (datetime : ℕ → Bytes) (r : EmailRow) :
    (email datetime).Takes anyReplica r where
  columns := rfl
  accepts := rfl
  kept h := nomatch h

def rowOrder : Scan EmailRow where
  order rows := rows
  perm rows := List.Perm.refl rows

theorem zero_small : 0 < 2 ^ 31 := by decide

def noMail : Store where
  emails := Keyed.Table.empty
  sequence := 0
  fresh _ hr := nomatch hr
  small := zero_small

def toAnn : Message where
  ownerId := 1
  folder := none
  fromAddr := none
  toAddrs := none
  subject := some (bytes "hello")
  bodyText := none
  messageId := none
  inReplyTo := none

theorem equal_noMail (datetime : ℕ → Bytes) :
    (email datetime).Equal (fun _ => none) noMail.emails := fun _ => rfl

/-- User 1 gets a message, user 2 asks for its flag and its deletion, and user 1 deletes
it. -/
def ownDelete : List Call :=
  [.create toAnn 0 true, .setRead 2 1 true true, .delete 2 7 true, .delete 1 1 true]

theorem own_delete_replicates :
    MailReplicated (fun _ => []) anyReplica (fun _ => none)
      (run (Primary.step (exec (fun _ => []) rowOrder)) ⟨noMail, []⟩ ownDelete) := by
  refine (mail_replicates_iff (anyReplica_takes _) noMail (equal_noMail _) ownDelete).mpr ?_ _
    (reaches_run _ _)
  refine ⟨trivial, trivial, ?_, ?_, trivial⟩
  · intro _ r hr hid
    rw [List.mem_singleton.mp hr] at hid
    exact absurd hid (by decide)
  · intro _ r hr _
    rw [List.mem_singleton.mp hr]
    rfl

/-- User 1 gets a message, and user 2 asks to delete it. -/
def foreignDelete : List Call := [.create toAnn 0 true, .delete 2 1 true]

/-- The delete removes nothing on the primary, and the message on the replica. -/
theorem foreign_delete_diverges :
    (email fun _ => []).Equal (fun _ => none) noMail.emails ∧
    (run (Primary.step (exec (fun _ => []) rowOrder)) ⟨noMail, []⟩ foreignDelete).state.emails.rows =
      [toAnn.row 1 0] ∧
    ¬ MailReplicated (fun _ => []) anyReplica (fun _ => none)
      (run (Primary.step (exec (fun _ => []) rowOrder)) ⟨noMail, []⟩ foreignDelete) := by
  refine ⟨equal_noMail _, rfl, ?_⟩
  intro h
  have hsome := congrArg Option.isSome (h 1)
  exact absurd hsome (by decide +kernel)

end FlyBoard.Mail

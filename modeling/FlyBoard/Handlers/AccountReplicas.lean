import FlyBoard.Handlers.AccountRemoval

/-!
# Removed accounts on the replicas (`src/db/user.c`, `src/engine/flywire.c`)

Of the tables that `db_user_ghost` and `db_user_delete_with_cascade` change, seven are
replicated. The first journals the emptied row of the account and nothing else; the
second journals nothing, so that a replica keeps its accounts. `TablesEqual` compares the
seven on the two sides; board permissions have no id there, only a board and an account.
-/

namespace FlyBoard.AccountReplicas

open Apply LastWriter Snapshot AccountRemoval

/-! ## The replicated tables -/

/-- The tables whose rows go to the replicas under their id. -/
inductive Copied where
  | users | posts | files | postVotes | guestbook | emails
deriving DecidableEq

namespace Copied

def table : Copied → MainTable
  | users => .users
  | posts => .posts
  | files => .files
  | postVotes => .postVotes
  | guestbook => .guestbook
  | emails => .emails

def entity : Copied → Sync.Entity
  | users => .user
  | posts => .post
  | files => .file
  | postVotes => .vote
  | guestbook => .guestbook
  | emails => .email

/-- The name in `k_entities`. -/
def name : Copied → String
  | users => "user"
  | posts => "post"
  | files => "file"
  | postVotes => "vote"
  | guestbook => "guestbook"
  | emails => "email"

def columns : Copied → List String
  | users =>
    ["username", "email", "password_hash", "role", "profile_pic", "created_at", "active",
     "nickname", "bio", "email_verified", "guestbook_anon", "totp_secret", "totp_enabled",
     "totp_recovery", "ghosted"]
  | posts =>
    ["board_id", "user_id", "title", "slug", "content", "summary", "pqc_signature", "created_at",
     "updated_at", "view_count", "is_notice", "is_secret", "category", "delete_pin_hash", "status",
     "announced"]
  | files =>
    ["post_id", "user_id", "filename", "mime_type", "file_path", "size", "created_at",
     "download_count", "delete_pin_hash", "thumb_path", "preview_path", "is_inline"]
  | postVotes => ["post_id", "user_id", "vote_type", "created_at"]
  | guestbook => ["owner_uid", "author_uid", "author_name", "content", "created_at"]
  | emails =>
    ["owner_id", "folder", "from_addr", "to_addrs", "subject", "body_text", "message_id",
     "in_reply_to", "is_read", "created_at"]

def member : Json → Value
  | .num n => .number n
  | .str text => .string text
  | .null => .other

/-- The row as `SELECT *` reads it. -/
def payload (c : Copied) (r : MainRow) : Payload :=
  (bytes "id", .number r.1) :: c.columns.map fun column => (bytes column, member (r.2 (bytes column)))

/-- The entry of `k_entities`. -/
def kind (c : Copied) : Kind MainRow where
  entity := c.entity
  name := bytes c.name
  columns := bytes "id" :: c.columns.map bytes
  id := Prod.fst
  payload := c.payload
  named := by cases c <;> decide +kernel
  identified r := by
    have hkey : keyCol c.entity = bytes "id" := by cases c <;> rfl
    rw [hkey]
    rfl
  complete r column hcolumn := by
    refine getObjectItem_isSome ?_
    rw [payload, List.map_cons, List.map_map]
    exact hcolumn

end Copied

def Permitted (db : MainDb) (board user : ℤ) : Prop :=
  ∃ r ∈ (db .boardPermissions).rows,
    r.2 (bytes "board_id") = .num board ∧ r.2 (bytes "user_id") = .num user

def UsersEqual (t : Tables) (db : MainDb) : Prop := Copied.users.kind.Equal t (db .users)

structure TablesEqual (t : Tables) (db : MainDb) : Prop where
  copied : ∀ c : Copied, c.kind.Equal t (db c.table)
  permissions : ∀ board user, (t (.boardPerm board user)).isSome ↔ Permitted db board user

/-- What a removal that succeeds appends to the journal; `db` is the main database
afterwards. -/
def journal : Removal → MainDb → List FeedRow
  | .ghost uid _ _, db => Copied.users.kind.journalRow (db .users) uid
  | .cascade _ _ _, _ => []

/-- The account has no row that `purge_sql` changes in a replicated table. -/
def OwnsNothing (uid : ℤ) (db : MainDb) : Prop :=
  ∀ stmt ∈ [Purge.files, .postVotes, .emails, .boardPermissions, .guestbook, .posts],
    ∀ r ∈ (db stmt.table).rows, stmt.own uid stmt.table r = true →
      stmt = .posts ∧ r.2 (bytes "delete_pin_hash") = .str []

/-- What holds of a replica after a removal that has succeeded. By cascade the replica
keeps its tables, which are the primary's before. After `db_user_ghost` its accounts are
the primary's again, unless the emptied row is one that it does not take; where the
account owned nothing, so are all seven tables. -/
def Followed (rep : Replica) (t : Tables) (s : Databases) (removal : Removal) : Prop :=
  let db := (removal.exec s).2.main
  let t' := rep.applyAll t (journal removal db)
  match removal with
  | .cascade _ _ _ => TablesEqual t' s.main
  | .ghost uid _ _ =>
    (∀ r ∈ (db .users).rows, r.1 = uid → Copied.users.kind.Takes rep r) →
      UsersEqual t' db ∧ (OwnsNothing uid s.main → TablesEqual t' db)

/-! ## What a removal leaves on a replica -/

section

variable {rep : Replica} {t : Tables} {db : MainDb} {uid : ℤ}

theorem OwnsNothing.purged (h : OwnsNothing uid db) {table : MainTable}
    (htable : table ∈ [MainTable.files, .postVotes, .emails, .boardPermissions, .guestbook, .posts]) :
    Purge.all.foldl (fun db stmt => stmt.exec uid db) db table = db table := by
  refine purge_idle ?_
  intro stmt r hr hown
  -- a row counts as the account's only for the statement of its own table
  have hstmt : table = stmt.table := of_decide_eq_true (Bool.and_eq_true_iff.mp hown).1
  subst hstmt
  refine h stmt ?_ r hr hown
  cases stmt <;> first | decide | exact absurd htable (by decide)

theorem UsersEqual.purge (h : UsersEqual t db) :
    UsersEqual t (Purge.all.foldl (fun db stmt => stmt.exec uid db) db) := by
  unfold UsersEqual
  rw [purge_users]
  exact h

theorem UsersEqual.ghost (h : UsersEqual t db) (huid : 0 < uid)
    (htakes : ∀ r ∈ (ghostUser uid db .users).rows, r.1 = uid → Copied.users.kind.Takes rep r) :
    UsersEqual (rep.applyAll t (Copied.users.kind.journalRow (ghostUser uid db .users) uid))
      (ghostUser uid db) := by
  have hkey : ∀ r : MainRow, Copied.users.kind.id (if (decide (MainTable.users = .users) &&
      ghostable uid r) = true then (r.1, overwrite (assign (ghostColumns uid)) r.2) else r) =
        Copied.users.kind.id r := by
    intro r
    split
    · rfl
    · rfl
  refine Kind.Equal.update h hkey (fun _ _ _ => huid) ?_ htakes
  intro r hne
  refine if_neg ?_
  intro hghost
  rw [decide_eq_true rfl, Bool.true_and, ghostable, Bool.and_eq_true, decide_eq_true_eq] at hghost
  exact hne hghost.1

theorem applyAll_journalRow {table : Keyed.Table Copied.users.kind.id}
    (htakes : ∀ r ∈ table.rows, r.1 = uid → Copied.users.kind.Takes rep r) {k : Key}
    (hk : ∀ id, k ≠ .row .user id) :
    rep.applyAll t (Copied.users.kind.journalRow table uid) k = t k := by
  unfold Kind.journalRow
  split
  · rcases hfind : table.find? uid with _ | r
    · rfl
    · rcases Keyed.Table.find?_eq_some.mp hfind with ⟨hr, hid⟩
      exact Kind.applyRow_snapshot_of_ne (htakes r hr hid) (hk _)
  · rfl

/-- Where the account owns nothing, the journal row of `db_user_ghost` says all. -/
theorem TablesEqual.ghost (h : TablesEqual t db) (huid : 0 < uid) (howns : OwnsNothing uid db)
    {db' : MainDb}
    (hdb' : db' = ghostUser uid (Purge.all.foldl (fun db stmt => stmt.exec uid db) db))
    (htakes : ∀ r ∈ (db' .users).rows, r.1 = uid → Copied.users.kind.Takes rep r) :
    TablesEqual (rep.applyAll t (Copied.users.kind.journalRow (db' .users) uid)) db' := by
  have hother : ∀ table, table ≠ .users → db' table =
      Purge.all.foldl (fun db stmt => stmt.exec uid db) db table := by
    intro table htable
    rw [hdb']
    refine updateWhere_idle ?_
    intro r _ hghost
    rw [decide_eq_false htable] at hghost
    exact nomatch hghost
  constructor
  · intro c
    by_cases hc : c = .users
    · subst hc
      rw [hdb'] at htakes ⊢
      exact UsersEqual.ghost (UsersEqual.purge (h.copied .users)) huid htakes
    · have hentity : c.entity ≠ .user := by cases c <;> first | decide | exact absurd rfl hc
      have htable : c.table ≠ .users := by cases c <;> first | decide | exact absurd rfl hc
      have howned : c.table ∈ [MainTable.files, .postVotes, .emails, .boardPermissions, .guestbook,
          .posts] := by cases c <;> first | decide | exact absurd rfl hc
      rw [hother c.table htable, howns.purged howned]
      intro id
      refine Eq.trans ?_ (h.copied c id)
      exact congrArg (Option.map c.kind.restrict)
        (applyAll_journalRow htakes fun id' heq => hentity (Key.row.inj heq).1)
  · intro board user
    have hkept : rep.applyAll t (Copied.users.kind.journalRow (db' .users) uid)
        (.boardPerm board user) = t (.boardPerm board user) :=
      applyAll_journalRow htakes fun id heq => nomatch heq
    rw [hkept, h.permissions]
    unfold Permitted
    rw [hother .boardPermissions (by decide), howns.purged (by decide)]

/-- A replica follows every removal that succeeds. -/
theorem removal_followed (s : Databases) (h : TablesEqual t s.main) (removal : Removal)
    (hdone : (removal.exec s).1 = true) : Followed rep t s removal := by
  cases removal with
  | cascade uid deleteReplies fails => exact h
  | ghost uid now fails =>
    intro htakes
    rcases userGhost_main hdone with ⟨huid, hmain⟩
    constructor
    · show UsersEqual (rep.applyAll t (Copied.users.kind.journalRow
        ((userGhost fails now uid s).2.main .users) uid)) (userGhost fails now uid s).2.main
      rw [hmain]
      refine UsersEqual.ghost (UsersEqual.purge (h.copied .users)) huid ?_
      rw [← hmain]
      exact htakes
    · exact fun howns => h.ghost huid howns hmain htakes

end

/-! ## Removals that a replica does not follow in full -/

def mirror (db : MainDb) : Tables
  | .row e id =>
    ([Copied.users, .posts, .files, .postVotes, .guestbook, .emails].find? (·.entity = e)).bind
      fun c => ((db c.table).find? id).map c.kind.row
  | .boardPerm board user =>
    if (db .boardPermissions).rows.any fun r =>
        r.2 (bytes "board_id") = .num board && r.2 (bytes "user_id") = .num user then
      some fun _ => .null
    else none
  | _ => none

theorem mirror_equal (db : MainDb) : TablesEqual (mirror db) db where
  copied c := by
    intro id
    have hrow : mirror db (.row c.kind.entity id) = ((db c.table).find? id).map c.kind.row := by
      cases c <;> rfl
    rw [hrow, Option.map_map]
    exact congrArg (fun f => ((db c.table).find? id).map f) (funext c.kind.restrict_row)
  permissions board user := by
    show (if _ then some _ else none : Option Row).isSome ↔ _
    split
    · next h => simpa [Permitted] using h
    · next h => simpa [Permitted] using h

def mirrorReplica : Replica where
  adminUsername := []
  siteAdminUid := 0
  columns e :=
    (([Copied.users, .posts, .files, .postVotes, .guestbook, .emails].find? (·.entity = e)).map
      fun c => c.kind.columns).getD []
  default _ _ := .null
  accepts _ _ := true

theorem mirrorReplica_takes (r : MainRow) : Copied.users.kind.Takes mirrorReplica r where
  columns := rfl
  accepts := rfl
  kept _ := by
    have hadmin : ¬ (0 < (Copied.users.kind.snapshot r).entityId ∧
        (Copied.users.kind.snapshot r).entityId = 0) := fun h => h.1.ne' h.2
    unfold Replica.skipsUser
    cases stringItem (Copied.users.kind.snapshot r).payload "username" "" with
    | nil => simpa [mirrorReplica] using hadmin
    | cons c name => simpa [mirrorReplica] using hadmin

def accountOnly : MainDb
  | .users => accountAndFile .users
  | _ => Keyed.Table.empty

theorem ownsNothing_accountOnly : OwnsNothing 2 accountOnly := by
  intro stmt hstmt r hr
  cases stmt <;> exact nomatch hr

theorem lone_account_followed :
    TablesEqual (mirrorReplica.applyAll (mirror accountOnly)
        (journal (.ghost 2 1 fun _ => false)
          (userGhost (fun _ => false) 1 2 ⟨accountOnly, PendingComment.noComments⟩).2.main))
      (userGhost (fun _ => false) 1 2 ⟨accountOnly, PendingComment.noComments⟩).2.main := by
  have hfollowed : Followed mirrorReplica (mirror accountOnly)
      ⟨accountOnly, PendingComment.noComments⟩ (.ghost 2 1 fun _ => false) :=
    removal_followed _ (mirror_equal accountOnly) _ (by decide +kernel)
  exact (hfollowed fun r _ _ => mirrorReplica_takes r).2 ownsNothing_accountOnly

/-- Account 2 has a file. Removed by cascade, it stays on the replica with the file;
ghosted, its file does. -/
theorem removals_not_followed :
    TablesEqual (mirror accountAndFile) accountAndFile ∧
    ((userDeleteWithCascade (fun _ => false) 2 false withComment).1 = true ∧
      ¬ TablesEqual (mirrorReplica.applyAll (mirror accountAndFile)
          (journal (.cascade 2 false fun _ => false)
            (userDeleteWithCascade (fun _ => false) 2 false withComment).2.main))
        (userDeleteWithCascade (fun _ => false) 2 false withComment).2.main) ∧
    (userGhost (fun _ => false) 1 2 withComment).1 = true ∧
    ¬ TablesEqual (mirrorReplica.applyAll (mirror accountAndFile)
        (journal (.ghost 2 1 fun _ => false) (userGhost (fun _ => false) 1 2 withComment).2.main))
      (userGhost (fun _ => false) 1 2 withComment).2.main := by
  refine ⟨mirror_equal _, ⟨by decide +kernel, ?_⟩, by decide +kernel, ?_⟩
  · intro h
    have haccount := congrArg Option.isSome (h.copied .users 2)
    exact absurd haccount (by decide +kernel)
  · intro h
    have hfile := congrArg Option.isSome (h.copied .files 7)
    exact absurd hfile (by decide +kernel)

end FlyBoard.AccountReplicas

import FlyBoard.Handlers.CommentReplicas
import FlyBoard.Lib.Statements

/-!
# Removing an account (`src/db/user.c`)

`db_user_ghost` keeps the row of the account and empties it, `db_user_delete_with_cascade`
removes it. Comments are in a database of their own: the first commits it before the main
one, so a failure of the second COMMIT leaves the comments renamed; the second never
touches it, runs without a transaction and passes over what fails before its last
statement.

The main database is modelled with the tables that the two functions touch, and the
foreign keys between these. A statement that fails leaves the tables as they were, and so
does a COMMIT; a ROLLBACK succeeds.
-/

namespace FlyBoard.AccountRemoval

open Apply LastWriter PendingComment CommentReplicas Statements

/-! ## The main database -/

inductive MainTable where
  | users | posts | files | postVotes | postVotesAnon | postTags | emailTokens | emails
  | boardPermissions | boardDelegations | notifications | guestbook | postRevisions | comments
deriving DecidableEq

abbrev MainRow := ℤ × Row

abbrev MainDb := MainTable → Keyed.Table (Prod.fst : MainRow → ℤ)

/-- The two databases. `comments` of the main one is the table that the schema still
creates there. -/
structure Databases where
  main : MainDb
  comments : Store

section Statements

variable (uid : ℤ)

def refersTo (column : String) (r : MainRow) : Bool := r.2 (bytes column) = .num uid

/-- DELETE, of the rows that satisfy `p`. -/
def deleteWhere (p : MainTable → MainRow → Bool) (db : MainDb) : MainDb :=
  fun t => (db t).keep fun r => !p t r

/-- UPDATE, of the rows that satisfy `p`. -/
def updateWhere (p : MainTable → MainRow → Bool) (columns : Bytes → Option Json) (db : MainDb) :
    MainDb :=
  fun t => (db t).update (fun r => if p t r then (r.1, overwrite columns r.2) else r) fun r => by
    split
    · rfl
    · rfl

def assign (columns : List (String × Json)) (c : Bytes) : Option Json :=
  (columns.find? fun a => bytes a.1 = c).map (·.2)

def ofOwnPost (db : MainDb) (r : MainRow) : Bool :=
  (db .posts).rows.any fun post =>
    refersTo uid "user_id" post && r.2 (bytes "post_id") = .num post.1

def deletePosts (db : MainDb) : MainDb :=
  deleteWhere
    (fun t r =>
      match t with
      | .posts => refersTo uid "user_id" r
      | .postVotes | .postVotesAnon | .postTags => ofOwnPost uid db r
      | _ => false)
    (updateWhere (fun t r => t = .files && ofOwnPost uid db r) (assign [("post_id", .null)]) db)

/-- The comment is the account's, or stands below one of its, at most `depth` replies
deep. -/
def inThread (comments : List MainRow) : ℕ → MainRow → Bool
  | 0, r => refersTo uid "user_id" r
  | depth + 1, r =>
    refersTo uid "user_id" r ||
      comments.any fun parent =>
        r.2 (bytes "parent_id") = .num parent.1 && inThread comments depth parent

/-- DELETE FROM comments, of those of the account with the replies to them. The replies to
a comment that is removed go with it, so that no thread is deeper than the table is long. -/
def deleteThreads (db : MainDb) : MainDb :=
  deleteWhere
    (fun t r => t = .comments && inThread uid (db .comments).rows (db .comments).rows.length r) db

end Statements

/-! ## `db_user_delete_with_cascade` -/

inductive Referrer where
  | comments | posts | files | postVotes | emailTokens | emails | boardPermissions
  | boardDelegations
deriving DecidableEq

namespace Referrer

def all : List Referrer :=
  [comments, posts, files, postVotes, emailTokens, emails, boardPermissions, boardDelegations]

def table : Referrer → MainTable
  | comments => .comments
  | posts => .posts
  | files => .files
  | postVotes => .postVotes
  | emailTokens => .emailTokens
  | emails => .emails
  | boardPermissions => .boardPermissions
  | boardDelegations => .boardDelegations

def column : Referrer → String
  | emails => "owner_id"
  | _ => "user_id"

def own (uid : ℤ) (stmt : Referrer) (t : MainTable) (r : MainRow) : Bool :=
  t = stmt.table && refersTo uid stmt.column r

def exec (deleteReplies : Bool) (uid : ℤ) (stmt : Referrer) : MainDb → MainDb :=
  match stmt with
  | comments =>
    if deleteReplies then deleteThreads uid
    else updateWhere (comments.own uid) (assign [("content", .str []), ("deleted", .num 1)])
  | posts => deletePosts uid
  | _ => deleteWhere (stmt.own uid)

end Referrer

def deleteUser (uid : ℤ) (db : MainDb) : MainDb :=
  if (db .users).rows.any fun r => r.1 = uid then
    deleteWhere (fun t r => t = .users && r.1 = uid)
      (Referrer.all.foldl (fun db stmt => stmt.exec true uid db) db)
  else db

inductive CascadePoint where
  | referrer (stmt : Referrer)
  | users
deriving DecidableEq

/-- `db_user_delete_with_cascade`. -/
def userDeleteWithCascade (fails : CascadePoint → Bool) (uid : ℤ) (deleteReplies : Bool)
    (s : Databases) : Bool × Databases :=
  let main := passOver (Referrer.exec deleteReplies uid) (fun stmt => fails (.referrer stmt))
    Referrer.all s.main
  if fails .users then (false, { s with main := main })
  else (true, { s with main := deleteUser uid main })

/-! ## `db_user_ghost` -/

/-- The statements of `purge_sql`. -/
inductive Purge where
  | files | postVotes | emailTokens | emails | boardPermissions | notifications | guestbook
  | postRevisions | posts
deriving DecidableEq

namespace Purge

/-- `purge_sql` -/
def all : List Purge :=
  [files, postVotes, emailTokens, emails, boardPermissions, notifications, guestbook,
   postRevisions, posts]

def table : Purge → MainTable
  | files => .files
  | postVotes => .postVotes
  | emailTokens => .emailTokens
  | emails => .emails
  | boardPermissions => .boardPermissions
  | notifications => .notifications
  | guestbook => .guestbook
  | postRevisions => .postRevisions
  | posts => .posts

def own (uid : ℤ) (stmt : Purge) (t : MainTable) (r : MainRow) : Bool :=
  t = stmt.table &&
    match stmt with
    | emails => refersTo uid "owner_id" r
    | guestbook => refersTo uid "owner_uid" r || refersTo uid "author_uid" r
    | postRevisions => refersTo uid "editor_id" r
    | _ => refersTo uid "user_id" r

def exec (uid : ℤ) (stmt : Purge) : MainDb → MainDb :=
  match stmt with
  | postRevisions => updateWhere (postRevisions.own uid) (assign [("editor_id", .num 0)])
  | posts => updateWhere (posts.own uid) (assign [("delete_pin_hash", .str [])])
  | _ => deleteWhere (stmt.own uid)

end Purge

def ghostable (uid : ℤ) (r : MainRow) : Bool := r.1 = uid && r.2 (bytes "ghosted") = .num 0

def ghostColumns (uid : ℤ) : List (String × Json) :=
  [("username", .str (bytes "ghost-" ++ Bytes.decimalInt uid)),
   ("email", .str (bytes "ghost+" ++ Bytes.decimalInt uid ++ bytes "@deleted.invalid")),
   ("password_hash", .str (bytes "!")), ("role", .str (bytes "user")), ("profile_pic", .str []),
   ("nickname", .str (bytes "Deleted user")), ("bio", .str []), ("active", .num 0),
   ("ghosted", .num 1), ("email_verified", .num 0), ("guestbook_anon", .num 0),
   ("totp_secret", .str []), ("totp_enabled", .num 0), ("totp_recovery", .str [])]

def ghostUser (uid : ℤ) (db : MainDb) : MainDb :=
  updateWhere (fun t r => t = .users && ghostable uid r) (assign (ghostColumns uid)) db

inductive GhostPoint where
  | connections
  | beginMain
  | beginComments
  | purge (stmt : Purge)
  | comments
  | users
  | commitComments
  | commitMain
deriving DecidableEq

/-- `db_user_ghost`. -/
def userGhost (fails : GhostPoint → Bool) (now : ℕ) (uid : ℤ) (s : Databases) : Bool × Databases :=
  if uid ≤ 0 ∨ fails .connections ∨ fails .beginMain ∨ fails .beginComments then (false, s)
  else
    match allOrNone (Purge.exec uid) (fun stmt => fails (.purge stmt)) Purge.all s.main with
    | none => (false, s)
    | some main =>
      if fails .comments ∨ fails .users ∨ (main .users).rows.any (ghostable uid) = false then
        (false, s)
      else if fails .commitComments then (false, s)
      -- from here on the comments are committed
      else if fails .commitMain then (false, { s with comments := ghostComments s.comments uid now })
      else (true, ⟨ghostUser uid main, ghostComments s.comments uid now⟩)

/-! ## All or nothing -/

inductive Removal where
  | ghost (uid : ℤ) (now : ℕ) (fails : GhostPoint → Bool)
  | cascade (uid : ℤ) (deleteReplies : Bool) (fails : CascadePoint → Bool)

def Removal.exec : Removal → Databases → Bool × Databases
  | ghost uid now fails => userGhost fails now uid
  | cascade uid deleteReplies fails => userDeleteWithCascade fails uid deleteReplies

/-- No comment shows the account's content: they are gone, or emptied and deleted. -/
def ContentGone (deleteReplies : Bool) (uid : ℤ) (comments : Store) : Prop :=
  ∀ c ∈ comments.comments.rows, c.userId = uid →
    deleteReplies = false ∧ c.content = [] ∧ c.deleted = true

/-- Without success nothing has changed; a removal by cascade that succeeds leaves no
content in the comments. -/
def AllOrNothing (removal : Removal) (s : Databases) : Prop :=
  ((removal.exec s).1 = false → (removal.exec s).2 = s) ∧
    match removal with
    | .ghost _ _ _ => True
    | .cascade uid deleteReplies _ =>
      (removal.exec s).1 = true → ContentGone deleteReplies uid (removal.exec s).2.comments

def OnlyCommitFails (fails : GhostPoint → Bool) (uid : ℤ) (s : Databases) : Prop :=
  0 < uid ∧ (∀ point, fails point = true ↔ point = .commitMain) ∧
    ∃ r ∈ (s.main .users).rows, ghostable uid r = true

/-- The statement has nothing to do: no row refers to the account, or the comments that do
are to be emptied, and are empty. -/
def Settled (deleteReplies : Bool) (uid : ℤ) (stmt : Referrer) (db : MainDb) : Prop :=
  ∀ r ∈ (db stmt.table).rows, refersTo uid stmt.column r = true →
    stmt = .comments ∧ deleteReplies = false ∧
      r.2 (bytes "content") = .str [] ∧ r.2 (bytes "deleted") = .num 1

/-- Where the last COMMIT of `db_user_ghost` fails, the comments were renamed before, in
the same second. Where the last DELETE of `db_user_delete_with_cascade` fails, no statement
before it had anything to do; where it does not, there was no content in the comments. -/
def Clean : Removal → Databases → Prop
  | .ghost uid now fails, s => OnlyCommitFails fails uid s →
      ∀ c ∈ s.comments.comments.rows, c.userId = uid →
        c.authorName = bytes "Deleted user" ∧ c.updatedAt = now
  | .cascade uid deleteReplies fails, s =>
      if fails .users then
        ∀ stmt, fails (.referrer stmt) = false → Settled deleteReplies uid stmt s.main
      else ContentGone deleteReplies uid s.comments

/-! ## The statements -/

section

variable {uid : ℤ} {db : MainDb} {p : MainTable → MainRow → Bool} {columns : Bytes → Option Json}
  {t : MainTable} {r : MainRow} {deleteReplies : Bool}

theorem mem_deleteWhere : r ∈ (deleteWhere p db t).rows ↔ r ∈ (db t).rows ∧ p t r = false := by
  simp [deleteWhere, Keyed.Table.keep]

theorem mem_updateWhere :
    r ∈ (updateWhere p columns db t).rows ↔
      ∃ r' ∈ (db t).rows, (if p t r' then (r'.1, overwrite columns r'.2) else r') = r :=
  List.mem_map

theorem deleteWhere_idle (h : ∀ r ∈ (db t).rows, p t r = false) : deleteWhere p db t = db t := by
  apply Keyed.Table.ext_rows
  show (db t).rows.filter (fun r => !p t r) = (db t).rows
  rw [List.filter_eq_self]
  intro r hr
  rw [h r hr]
  rfl

theorem updateWhere_idle (h : ∀ r ∈ (db t).rows, p t r = true → overwrite columns r.2 = r.2) :
    updateWhere p columns db t = db t := by
  apply Keyed.Table.ext_rows
  show (db t).rows.map _ = (db t).rows
  refine (List.map_congr_left ?_).trans (List.map_id _)
  intro r hr
  split
  · next hp => exact Prod.ext rfl (h r hr hp)
  · rfl

theorem overwrite_of_none {c : Bytes} (h : columns c = none) (row : Row) :
    overwrite columns row c = row c := by
  unfold overwrite
  rw [h]
  rfl

theorem overwrite_assign {columns : List (String × Json)} {row : Row}
    (h : ∀ a ∈ columns, row (bytes a.1) = a.2) : overwrite (assign columns) row = row := by
  funext c
  rcases hassign : assign columns c with _ | v
  · exact overwrite_of_none hassign row
  · rcases Option.map_eq_some_iff.mp hassign with ⟨a, hfind, rfl⟩
    have hfound := List.find?_some hfind
    have hc : bytes a.1 = c := of_decide_eq_true hfound
    unfold overwrite
    rw [hassign, Option.getD_some, ← hc]
    exact (h a (List.mem_of_find?_eq_some hfind)).symm

theorem refersTo_of_inThread {comments : List MainRow} {depth : ℕ}
    (h : inThread uid comments depth r = false) : refersTo uid "user_id" r = false := by
  cases depth with
  | zero => exact h
  | succ depth => exact (Bool.or_eq_false_iff.mp h).1

theorem inThread_eq_false {comments : List MainRow}
    (h : ∀ r ∈ comments, refersTo uid "user_id" r = false) (depth : ℕ) :
    ∀ r ∈ comments, inThread uid comments depth r = false := by
  induction depth with
  | zero => exact h
  | succ depth ih =>
    intro r hr
    unfold inThread
    rw [h r hr, Bool.false_or, List.any_eq_false]
    intro parent hparent
    simp [ih parent hparent]

theorem Settled.deleteWhere {stmt : Referrer} (h : Settled deleteReplies uid stmt db) :
    Settled deleteReplies uid stmt (AccountRemoval.deleteWhere p db) :=
  fun r hr => h r (mem_deleteWhere.mp hr).1

theorem Settled.updateWhere {stmt : Referrer} (h : Settled deleteReplies uid stmt db)
    (howner : columns (bytes stmt.column) = none)
    (hcontent : (columns (bytes "content")).getD (.str []) = .str [])
    (hdeleted : (columns (bytes "deleted")).getD (.num 1) = .num 1) :
    Settled deleteReplies uid stmt (AccountRemoval.updateWhere p columns db) := by
  intro r hr hrefers
  rcases mem_updateWhere.mp hr with ⟨r', hr', heq⟩
  by_cases hp : p stmt.table r' = true
  · rw [if_pos hp] at heq
    subst heq
    have hsame : refersTo uid stmt.column (r'.1, overwrite columns r'.2) =
        refersTo uid stmt.column r' :=
      congrArg (fun v => decide (v = Json.num uid)) (overwrite_of_none howner r'.2)
    rw [hsame] at hrefers
    rcases h r' hr' hrefers with ⟨hstmt, hkept, hempty, hgone⟩
    refine ⟨hstmt, hkept, ?_, ?_⟩
    · exact (congrArg (fun v => (columns (bytes "content")).getD v) hempty).trans hcontent
    · exact (congrArg (fun v => (columns (bytes "deleted")).getD v) hgone).trans hdeleted
  · rw [if_neg hp] at heq
    subst heq
    exact h r' hr' hrefers

theorem own_table (stmt : Referrer) (r : MainRow) :
    stmt.own uid stmt.table r = refersTo uid stmt.column r := by
  unfold Referrer.own
  rw [decide_eq_true rfl, Bool.true_and]

/-- No row of any table refers to the account as those of the statement would. -/
theorem Settled.own_eq_false {stmt : Referrer} (h : Settled deleteReplies uid stmt db)
    (hkind : stmt ≠ .comments ∨ deleteReplies = true) (t : MainTable) :
    ∀ r ∈ (db t).rows, stmt.own uid t r = false := by
  intro r hr
  by_contra hown
  have hown' : (decide (t = stmt.table) && refersTo uid stmt.column r) = true :=
    Bool.not_eq_false _ ▸ hown
  rw [Bool.and_eq_true, decide_eq_true_eq] at hown'
  rcases hown' with ⟨rfl, hrefers⟩
  rcases h r hr hrefers with ⟨hstmt, hkept, -⟩
  rcases hkind with hne | hdelete
  · exact hne hstmt
  · rw [hdelete] at hkept
    exact nomatch hkept

theorem settled_deleteOwn (stmt : Referrer) :
    Settled deleteReplies uid stmt (AccountRemoval.deleteWhere (stmt.own uid) db) := by
  intro r hr hrefers
  have hgone := (mem_deleteWhere.mp hr).2
  rw [own_table, hrefers] at hgone
  exact nomatch hgone

theorem settled_deleteThreads : Settled deleteReplies uid .comments (deleteThreads uid db) := by
  intro r hr hrefers
  have hgone := (mem_deleteWhere.mp hr).2
  have hthread : inThread uid (db .comments).rows (db .comments).rows.length r = false := by
    simpa [Referrer.table] using hgone
  exact absurd hrefers (Bool.eq_false_iff.mp (refersTo_of_inThread hthread))

theorem settled_empty :
    Settled false uid .comments (Referrer.exec false uid .comments db) := by
  intro r hr hrefers
  rcases mem_updateWhere.mp hr with ⟨r', -, heq⟩
  rw [own_table] at heq
  split at heq
  · rw [← heq]
    exact ⟨rfl, rfl, rfl, rfl⟩
  · next hnot =>
    rw [← heq] at hrefers
    exact absurd hrefers hnot

theorem settled_deletePosts : Settled deleteReplies uid .posts (deletePosts uid db) := by
  intro r hr hrefers
  have hgone : refersTo uid "user_id" r = false := (mem_deleteWhere.mp hr).2
  exact absurd hrefers (Bool.eq_false_iff.mp hgone)

theorem Settled.empty_idle (h : Settled false uid .comments db) :
    Referrer.exec false uid .comments db = db := by
  funext t
  refine updateWhere_idle ?_
  intro r hr hown
  have hown' : (decide (t = .comments) && refersTo uid "user_id" r) = true := hown
  rw [Bool.and_eq_true, decide_eq_true_eq] at hown'
  rcases hown' with ⟨rfl, hrefers⟩
  rcases h r hr hrefers with ⟨-, -, hempty, hgone⟩
  refine overwrite_assign ?_
  simp [hempty, hgone]

theorem Settled.threads_idle (h : Settled true uid .comments db) : deleteThreads uid db = db := by
  funext t
  refine deleteWhere_idle ?_
  intro r hr
  by_cases ht : t = .comments
  · subst ht
    have hnone : ∀ r ∈ (db .comments).rows, refersTo uid "user_id" r = false := by
      intro r' hr'
      exact (own_table .comments r').symm.trans (h.own_eq_false (.inr rfl) .comments r' hr')
    rw [inThread_eq_false hnone _ r hr, Bool.and_false]
  · rw [decide_eq_false ht, Bool.false_and]

theorem Settled.posts_idle (h : Settled deleteReplies uid .posts db) : deletePosts uid db = db := by
  have hpost : ∀ r ∈ (db .posts).rows, refersTo uid "user_id" r = false := by
    intro r hr
    exact (own_table .posts r).symm.trans (h.own_eq_false (.inl (by decide)) .posts r hr)
  have hnone : ∀ r, ofOwnPost uid db r = false := by
    intro r
    refine List.any_eq_false.mpr ?_
    intro post hmem
    simp [hpost post hmem]
  have hfiles : AccountRemoval.updateWhere (fun t r => t = .files && ofOwnPost uid db r)
      (assign [("post_id", .null)]) db = db := by
    funext t
    refine updateWhere_idle ?_
    intro r _ hp
    rw [hnone, Bool.and_false] at hp
    exact nomatch hp
  unfold deletePosts
  rw [hfiles]
  funext t
  refine deleteWhere_idle ?_
  intro r hr
  cases t with
  | posts => exact hpost r hr
  | postVotes => exact hnone r
  | postVotesAnon => exact hnone r
  | postTags => exact hnone r
  | _ => rfl

theorem Settled.own_idle {stmt : Referrer} (h : Settled deleteReplies uid stmt db)
    (hkind : stmt ≠ .comments) : AccountRemoval.deleteWhere (stmt.own uid) db = db := by
  funext t
  exact deleteWhere_idle (h.own_eq_false (.inl hkind) t)

/-- Each statement is for the rows of its table that refer to the account; the others leave
these as they are, or remove some. -/
theorem settles (deleteReplies : Bool) (uid : ℤ) :
    Settles (Referrer.exec deleteReplies uid) (Settled deleteReplies uid) where
  brought stmt db := by
    cases stmt with
    | comments =>
      cases deleteReplies with
      | true => exact settled_deleteThreads
      | false => exact settled_empty
    | posts => exact settled_deletePosts
    | _ => exact settled_deleteOwn _
  kept stmt stmt' db h := by
    cases stmt' with
    | comments =>
      cases deleteReplies with
      | true => exact h.deleteWhere
      | false =>
        have howner : ∀ stmt : Referrer, assign [("content", .str []), ("deleted", .num 1)]
            (bytes stmt.column) = none := by
          intro stmt
          cases stmt <;> decide +kernel
        exact h.updateWhere (howner stmt) (by decide +kernel) (by decide +kernel)
    | posts =>
      have howner : ∀ stmt : Referrer, assign [("post_id", .null)] (bytes stmt.column) = none := by
        intro stmt
        cases stmt <;> decide +kernel
      exact (h.updateWhere (howner stmt) (by decide +kernel) (by decide +kernel)).deleteWhere
    | _ => exact h.deleteWhere
  idle stmt db h := by
    cases stmt with
    | comments =>
      cases deleteReplies with
      | true => exact h.threads_idle
      | false => exact h.empty_idle
    | posts => exact h.posts_idle
    | _ => exact h.own_idle (by decide)

end

/-! ## The removals -/

section Removals

variable {fails : GhostPoint → Bool} {now : ℕ} {uid : ℤ} {s : Databases} {deleteReplies : Bool}

/-- `purge_sql` leaves a table alone that has nothing of the account, but posts without a
PIN. -/
theorem purge_idle {db : MainDb} {t : MainTable}
    (h : ∀ stmt : Purge, ∀ r ∈ (db t).rows, stmt.own uid t r = true →
      stmt = .posts ∧ r.2 (bytes "delete_pin_hash") = .str []) :
    Purge.all.foldl (fun db stmt => stmt.exec uid db) db t = db t := by
  have hstep : ∀ (stmt : Purge) (db' : MainDb), db' t = db t → stmt.exec uid db' t = db t := by
    intro stmt db' hsame
    refine Eq.trans ?_ hsame
    rw [← hsame] at h
    have hdelete : stmt ≠ .posts → ∀ r ∈ (db' t).rows, stmt.own uid t r = false := by
      intro hne r hr
      by_contra hown
      exact hne (h stmt r hr (Bool.not_eq_false _ ▸ hown)).1
    cases stmt with
    | postRevisions =>
      exact updateWhere_idle fun r hr hown =>
        absurd hown (Bool.eq_false_iff.mp (hdelete (by decide) r hr))
    | posts =>
      refine updateWhere_idle ?_
      intro r hr hown
      refine overwrite_assign ?_
      simp [(h .posts r hr hown).2]
    | _ => exact deleteWhere_idle (hdelete (by decide))
  have hall : ∀ (stmts : List Purge) (db' : MainDb), db' t = db t →
      stmts.foldl (fun db stmt => stmt.exec uid db) db' t = db t := by
    intro stmts
    induction stmts with
    | nil => exact fun _ hsame => hsame
    | cons stmt stmts ih => exact fun db' hsame => ih (stmt.exec uid db') (hstep stmt db' hsame)
  exact hall Purge.all db rfl

theorem purge_users (db : MainDb) :
    Purge.all.foldl (fun db stmt => stmt.exec uid db) db .users = db .users := by
  refine purge_idle ?_
  intro stmt r _ hown
  cases stmt <;> exact nomatch hown

/-- The comments are as they were where they had been renamed before, in the same second. -/
theorem ghostComments_eq_iff (comments : Store) :
    ghostComments comments uid now = comments ↔
      ∀ c ∈ comments.comments.rows, c.userId = uid →
        c.authorName = bytes "Deleted user" ∧ c.updatedAt = now := by
  have hrow : ∀ c : CommentRow, (if decide (c.userId = uid) = true then ghosted now c else c) = c ↔
      (c.userId = uid → c.authorName = bytes "Deleted user" ∧ c.updatedAt = now) := by
    intro c
    simp only [decide_eq_true_eq]
    split
    · next huid =>
      refine Iff.trans ?_ ⟨fun h _ => h, fun h => h huid⟩
      cases c
      simp [ghosted, eq_comm]
    · next huid => exact iff_of_true rfl fun h => absurd h huid
  constructor
  · intro hsame c hc
    have hrows : (ghostComments comments uid now).comments.rows = comments.comments.rows.map id :=
      (congrArg (fun st => st.comments.rows) hsame).trans (List.map_id _).symm
    exact (hrow c).mp (List.map_inj_left.mp hrows c hc)
  · intro hall
    have htable : (ghostComments comments uid now).comments = comments.comments := by
      apply Keyed.Table.ext_rows
      refine (List.map_congr_left ?_).trans (List.map_id _)
      exact fun c hc => (hrow c).mpr (hall c hc)
    cases comments
    unfold ghostComments CommentDelete.updateWhere at htable ⊢
    simp only at htable ⊢
    congr

theorem OnlyCommitFails.ok (h : OnlyCommitFails fails uid s) (point : GhostPoint)
    (hpoint : point ≠ .commitMain) : fails point = false := by
  by_contra hfails
  exact hpoint ((h.2.1 point).mp (Bool.not_eq_false _ ▸ hfails))

/-- What `db_user_ghost` comes to. -/
theorem userGhost_cases (fails : GhostPoint → Bool) (now : ℕ) (uid : ℤ) (s : Databases) :
    userGhost fails now uid s = (false, s) ∧ ¬ OnlyCommitFails fails uid s ∨
    userGhost fails now uid s = (false, { s with comments := ghostComments s.comments uid now }) ∧
      OnlyCommitFails fails uid s ∨
    (userGhost fails now uid s).1 = true ∧ ¬ OnlyCommitFails fails uid s ∧ 0 < uid ∧
      (userGhost fails now uid s).2.main =
        ghostUser uid (Purge.all.foldl (fun db stmt => stmt.exec uid db) s.main) := by
  unfold userGhost
  split
  · next hearly =>
    refine .inl ⟨rfl, ?_⟩
    intro h
    simp only [h.ok .connections (by decide), h.ok .beginMain (by decide),
      h.ok .beginComments (by decide), Bool.false_eq_true, or_false] at hearly
    exact absurd h.1 (Int.not_lt.mpr hearly)
  · next hbegun =>
    simp only [not_or, Bool.not_eq_true, Int.not_le] at hbegun
    rcases hbegun with ⟨huid, hconnections, hmain, hcomments⟩
    cases hpurge : allOrNone (Purge.exec uid) (fun stmt => fails (.purge stmt)) Purge.all
        s.main with
    | none =>
      refine .inl ⟨rfl, ?_⟩
      intro h
      have hsome : (allOrNone (Purge.exec uid) (fun stmt => fails (.purge stmt)) Purge.all
          s.main).isSome :=
        allOrNone_isSome.mpr fun stmt _ => h.ok (.purge stmt) (by simp)
      rw [hpurge] at hsome
      exact nomatch hsome
    | some main =>
      rcases allOrNone_eq_some.mp hpurge with ⟨hpurged, rfl⟩
      dsimp only
      rw [purge_users]
      split
      · next hlate =>
        refine .inl ⟨rfl, ?_⟩
        intro h
        simp only [h.ok .comments (by decide), h.ok .users (by decide),
          Bool.false_eq_true, false_or] at hlate
        rcases h.2.2 with ⟨r, hr, hghost⟩
        exact List.any_eq_false.mp hlate r hr hghost
      · next hdone =>
        simp only [not_or, Bool.not_eq_true, Bool.not_eq_false] at hdone
        rcases hdone with ⟨hrename, hupdate, haccount⟩
        split
        · next hcommit =>
          refine .inl ⟨rfl, ?_⟩
          intro h
          rw [h.ok .commitComments (by decide)] at hcommit
          exact nomatch hcommit
        · next hcommitted =>
          split
          · next hlast =>
            refine .inr (.inl ⟨rfl, huid, ?_, List.any_eq_true.mp haccount⟩)
            intro point
            cases point with
            | commitMain => exact iff_of_true hlast rfl
            | purge stmt =>
              have hmem : stmt ∈ Purge.all := by cases stmt <;> decide
              exact iff_of_false (Bool.eq_false_iff.mp (hpurged stmt hmem)) (by simp)
            | commitComments => exact iff_of_false hcommitted (by simp)
            | _ => simp_all
          · next hlast =>
            exact .inr (.inr ⟨rfl, fun h => hlast ((h.2.1 _).mpr rfl), huid, rfl⟩)

/-- What `db_user_ghost` leaves in the main database when it succeeds. -/
theorem userGhost_main (h : (userGhost fails now uid s).1 = true) :
    0 < uid ∧ (userGhost fails now uid s).2.main =
      ghostUser uid (Purge.all.foldl (fun db stmt => stmt.exec uid db) s.main) := by
  rcases userGhost_cases fails now uid s with ⟨heq, -⟩ | ⟨heq, -⟩ | ⟨-, -, hmain⟩
  · exact nomatch heq ▸ h
  · exact nomatch heq ▸ h
  · exact hmain

/-- What `db_user_delete_with_cascade` comes to: the comments are as they were. -/
theorem cascade_comments (fails : CascadePoint → Bool) (uid : ℤ) (deleteReplies : Bool)
    (s : Databases) :
    (userDeleteWithCascade fails uid deleteReplies s).2.comments = s.comments := by
  unfold userDeleteWithCascade
  dsimp only
  split
  · rfl
  · rfl

/-- A removal is all or nothing exactly when it is clean. -/
theorem all_or_nothing_iff (removal : Removal) (s : Databases) :
    AllOrNothing removal s ↔ Clean removal s := by
  cases removal with
  | ghost uid now fails =>
    refine (and_iff_left trivial).trans ?_
    show ((userGhost fails now uid s).1 = false → (userGhost fails now uid s).2 = s) ↔
      (OnlyCommitFails fails uid s → _)
    rw [← ghostComments_eq_iff]
    rcases userGhost_cases fails now uid s with ⟨heq, hnot⟩ | ⟨heq, honly⟩ | ⟨htrue, hnot, -⟩
    · rw [heq]
      exact iff_of_true (fun _ => rfl) fun h => absurd h hnot
    · rw [heq]
      constructor
      · exact fun h _ => congrArg Databases.comments (h rfl)
      · intro h _
        rw [h honly]
    · rw [htrue]
      exact iff_of_true (fun h => nomatch h) fun h => absurd h hnot
  | cascade uid deleteReplies fails =>
    unfold AllOrNothing Clean
    dsimp only [Removal.exec]
    rw [cascade_comments]
    by_cases hlast : fails .users = true
    · let main := passOver (Referrer.exec deleteReplies uid) (fun stmt => fails (.referrer stmt))
        Referrer.all s.main
      have heq : userDeleteWithCascade fails uid deleteReplies s = (false, { s with main := main }) :=
        if_pos hlast
      rw [heq, if_pos hlast]
      have hall : ∀ stmt, stmt ∈ Referrer.all := by
        intro stmt
        cases stmt <;> decide
      have hmain : main = s.main ↔ ∀ stmt ∈ Referrer.all, fails (.referrer stmt) = false →
          Settled deleteReplies uid stmt s.main :=
        (settles deleteReplies uid).passOver_eq_iff
      constructor
      · rintro ⟨hsame, -⟩ stmt hstmt
        exact hmain.mp (congrArg Databases.main (hsame rfl)) stmt (hall stmt) hstmt
      · intro hsettled
        refine ⟨fun _ => ?_, fun h => nomatch h⟩
        rw [hmain.mpr fun stmt _ hstmt => hsettled stmt hstmt]
    · have htrue : (userDeleteWithCascade fails uid deleteReplies s).1 = true := by
        unfold userDeleteWithCascade
        dsimp only
        rw [if_neg hlast]
      rw [htrue, if_neg hlast]
      constructor
      · exact fun h => h.2 rfl
      · intro hgone
        refine ⟨?_, fun _ => hgone⟩
        intro hfalse
        exact nomatch hfalse

end Removals

/-! ## Removals by halves -/

def accountAndFile : MainDb
  | .users => ⟨[(2, fun c => if c = bytes "ghosted" then .num 0 else .null)], by decide⟩
  | .files => ⟨[(7, fun c => if c = bytes "user_id" then .num 2 else .null)], by decide⟩
  | _ => Keyed.Table.empty

def withComment : Databases where
  main := accountAndFile
  comments := noComments.insertComment linkHeavy 0

def seen (s : Databases) : List Bytes × List Bytes × ℕ :=
  (s.comments.comments.rows.map (·.authorName), s.comments.comments.rows.map (·.content),
    (s.main .files).rows.length)

/-- The COMMIT of the main database fails: the comment is renamed, the account stays. The
DELETE of the account fails: its file is gone. Nothing fails: the comment is still read. -/
theorem removals_by_halves :
    seen withComment = ([bytes "ann"], [linkHeavy.content], 1) ∧
    (seen (userGhost (fun point => point = .commitMain) 1 2 withComment).2 =
        ([bytes "Deleted user"], [linkHeavy.content], 1) ∧
      ¬ AllOrNothing (.ghost 2 1 fun point => point = .commitMain) withComment) ∧
    (seen (userDeleteWithCascade (fun point => point = .users) 2 false withComment).2 =
        ([bytes "ann"], [linkHeavy.content], 0) ∧
      ¬ AllOrNothing (.cascade 2 false fun point => point = .users) withComment) ∧
    (seen (userDeleteWithCascade (fun _ => false) 2 false withComment).2 =
        ([bytes "ann"], [linkHeavy.content], 0) ∧
      ¬ AllOrNothing (.cascade 2 false fun _ => false) withComment) := by
  refine ⟨by decide +kernel, ⟨by decide +kernel, ?_⟩, ⟨by decide +kernel, ?_⟩,
    by decide +kernel, ?_⟩
  · intro h
    have hsame := congrArg seen (h.1 (by decide +kernel))
    exact absurd hsame (by decide +kernel)
  · intro h
    have hsame := congrArg seen (h.1 (by decide +kernel))
    exact absurd hsame (by decide +kernel)
  · intro h
    have hgone := h.2 (by decide +kernel)
    have hempty := (hgone (linkHeavy.row 1 0) (List.mem_singleton_self _) rfl).2.1
    exact absurd hempty (by decide +kernel)

end FlyBoard.AccountRemoval

import FlyBoard.Db.Review
import FlyBoard.Handlers.Submit
import FlyBoard.Sync.Apply

/-!
# Comments that wait for review (`src/db/moderation.c`, `src/db/comment.c`)

`db_moderation_create_pending_comment` statement by statement: the comment is inserted as
any other, journaled, hidden, journaled again and queued, and removed when one of the
last two statements fails. No transaction spans two of them, so every state in between is
one that readers see, and every prefix of the journal rows one that replicas stop at.
-/

namespace FlyBoard.PendingComment

open Run Apply
open Review (Outcome)

/-! ## Tables -/

/-- A row of `comments`. -/
structure CommentRow where
  id : ℕ
  targetType : Bytes
  targetId : ℤ
  userId : ℤ
  authorName : Bytes
  parentId : Option ℤ
  content : Bytes
  createdAt : ℕ
  updatedAt : ℕ
  deleted : Bool
deriving DecidableEq

/-- A row of `moderation_items`. -/
structure ItemRow where
  targetType : Bytes
  targetId : ℕ
  userId : ℤ
  content : Bytes
  authorName : Bytes
  targetKind : Bytes
  targetRefId : ℤ
  parentId : ℤ
  reason : Bytes
  status : Moderation.ItemStatus
  createdAt : ℕ
deriving DecidableEq

/-- The two tables. `sequence` is the largest id that AUTOINCREMENT has given; ids are
taken to fit an `int`. -/
structure Store where
  comments : Keyed.Table CommentRow.id
  sequence : ℕ
  fresh : ∀ r ∈ comments.rows, r.id ≤ sequence
  items : List ItemRow

/-- The arguments of `db_moderation_create_pending_comment`. -/
structure Submission where
  targetType : Bytes
  targetId : ℤ
  uid : ℤ
  authorName : Option Bytes
  parentId : ℤ
  content : Bytes
  reason : Option Bytes
deriving DecidableEq

/-- The row that `db_comment_create` inserts, with the defaults of the schema. -/
def Submission.row (c : Submission) (id now : ℕ) : CommentRow where
  id := id
  targetType := c.targetType
  targetId := c.targetId
  userId := c.uid
  authorName := c.authorName.getD []
  parentId := if 0 < c.parentId then some c.parentId else none
  content := c.content
  createdAt := now
  updatedAt := now
  deleted := false

/-- The row that `queue_row` inserts. -/
def Submission.item (c : Submission) (id now : ℕ) : ItemRow where
  targetType := bytes "comment"
  targetId := id
  userId := c.uid
  content := c.content
  authorName := c.authorName.getD []
  targetKind := c.targetType
  targetRefId := c.targetId
  parentId := c.parentId
  reason := c.reason.getD []
  status := .pending
  createdAt := now

/-- What `db_comment_delete_admin` sets. -/
def CommentRow.hidden (r : CommentRow) (now : ℕ) : CommentRow :=
  { r with deleted := true, content := [], updatedAt := now }

namespace Store

def insertComment (s : Store) (c : Submission) (now : ℕ) : Store where
  comments := s.comments.insertOrIgnore (c.row (s.sequence + 1) now)
  sequence := s.sequence + 1
  fresh := by
    intro r hr
    rcases Keyed.Table.mem_insertOrIgnore.mp hr with hold | ⟨rfl, -⟩
    · exact Nat.le_succ_of_le (s.fresh r hold)
    · exact Nat.le_refl _
  items := s.items

def hide (s : Store) (id now : ℕ) : Store where
  comments := s.comments.update
    (fun r => if r.id = id ∧ r.deleted = false then r.hidden now else r) (by
      intro r
      split <;> rfl)
  sequence := s.sequence
  fresh := by
    intro r hr
    rcases List.mem_map.mp hr with ⟨r', hr', rfl⟩
    have hle := s.fresh r' hr'
    split
    · exact hle
    · exact hle
  items := s.items

def shown (s : Store) (id : ℕ) : Bool := s.comments.rows.any fun r => r.id = id && !r.deleted

def dropComment (s : Store) (id : ℕ) : Store where
  comments := s.comments.remove id
  sequence := s.sequence
  fresh r hr := s.fresh r (List.mem_of_mem_filter hr)
  items := s.items

/-- UNIQUE(target_type,target_id) of `moderation_items`. -/
def queued (s : Store) (id : ℕ) : Bool :=
  s.items.any fun i => i.targetType == bytes "comment" && i.targetId == id

end Store

/-! ## The journal rows -/

section Journal

-- `datetime` is the text that SQLite makes of a time
variable (datetime : ℕ → Bytes)

/-- The row as `SELECT *` reads it. -/
def CommentRow.payload (r : CommentRow) : Payload :=
  [(bytes "id", .number r.id),
   (bytes "target_type", .string r.targetType),
   (bytes "target_id", .number r.targetId),
   (bytes "user_id", .number r.userId),
   (bytes "author_name", .string r.authorName),
   (bytes "parent_id", (r.parentId.map Value.number).getD .other),
   (bytes "content", .string r.content),
   (bytes "created_at", .string (datetime r.createdAt)),
   (bytes "updated_at", .string (datetime r.updatedAt)),
   (bytes "deleted", .number (if r.deleted then 1 else 0))]

/-- The columns of `comments`, which are the same on every site. -/
def commentColumns : List Bytes :=
  [bytes "id", bytes "target_type", bytes "target_id", bytes "user_id", bytes "author_name",
   bytes "parent_id", bytes "content", bytes "created_at", bytes "updated_at", bytes "deleted"]

theorem flywireEntity_comment : flywireEntity (bytes "comment") = some (.plain .comment) := by
  decide +kernel

theorem getObjectItem_id (r : CommentRow) :
    getObjectItem (r.payload datetime) (bytes "id") = some (.number r.id) := rfl

theorem getObjectItem_content (r : CommentRow) :
    getObjectItem (r.payload datetime) (bytes "content") = some (.string r.content) := rfl

theorem getObjectItem_deleted (r : CommentRow) :
    getObjectItem (r.payload datetime) (bytes "deleted") =
      some (.number (if r.deleted then 1 else 0)) := rfl

/-- The row of `sync_journal` that `db_sync_journal_external_row` appends. -/
def CommentRow.feedRow (r : CommentRow) : FeedRow where
  entity := bytes "comment"
  entityId := r.id
  op := bytes "upsert"
  payload := r.payload datetime
  keyed := by
    intro e v he hv
    rw [flywireEntity_comment, Option.some.injEq, KEntity.plain.injEq] at he
    subst he
    have hkey : keyCol .comment = bytes "id" := rfl
    rw [hkey, getObjectItem_id, Option.some.injEq] at hv
    exact ⟨r.id, hv.symm⟩

/-! ## The call -/

/-- The next statement of `db_moderation_create_pending_comment`. -/
inductive Stmt
  /-- the INSERT of `db_comment_create` -/
  | create
  /-- its `db_sync_journal_external_row` -/
  | journalCreated (id : ℕ)
  /-- the UPDATE of `db_comment_delete_admin` -/
  | hide (id : ℕ)
  /-- its `db_sync_journal_external_row` -/
  | journalHidden (id : ℕ)
  /-- `queue_row` -/
  | queue (id : ℕ)
  /-- the DELETE that undoes the INSERT -/
  | drop (id : ℕ)
deriving DecidableEq

/-- What becomes of a statement, and when it runs. -/
structure Attempt where
  outcome : Outcome
  now : ℕ

/-- The call under way: the tables, the rows it has appended to `sync_journal`, and its
next statement or what it has returned. -/
structure State where
  store : Store
  produced : List FeedRow
  next : Stmt ⊕ Option ℕ

def start (s : Store) : State := ⟨s, [], .inl .create⟩

/-- `db_sync_journal_external_row`: no row is journaled that is not there. -/
def journalRow (o : Outcome) (s : Store) (id : ℕ) : List FeedRow :=
  if o = .done then ((s.comments.find? id).map (·.feedRow datetime)).toList else []

def Stmt.exec (c : Submission) (a : Attempt) (s : State) : Stmt → State
  | .create =>
    if a.outcome = .done then
      { s with store := s.store.insertComment c a.now,
               next := .inl (.journalCreated (s.store.sequence + 1)) }
    else { s with next := .inr none }
  | .journalCreated id =>
    -- a journal row that is not written is logged and passed over
    { s with produced := s.produced ++ journalRow datetime a.outcome s.store id,
             next := .inl (.hide id) }
  | .hide id =>
    if a.outcome = .done then
      { s with store := s.store.hide id a.now,
               next := .inl (if s.store.shown id then .journalHidden id else .queue id) }
    else { s with next := .inl (.drop id) }
  | .journalHidden id =>
    { s with produced := s.produced ++ journalRow datetime a.outcome s.store id,
             next := .inl (.queue id) }
  | .queue id =>
    if a.outcome = .done ∧ s.store.queued id = false then
      { s with store := { s.store with items := s.store.items ++ [c.item id a.now] },
               next := .inr (some id) }
    else { s with next := .inl (.drop id) }
  | .drop id =>
    -- nothing of this DELETE goes to the journal
    { s with store := if a.outcome = .done then s.store.dropComment id else s.store,
             next := .inr none }

def step (c : Submission) (s : State) (a : Attempt) : State :=
  match s.next with
  | .inl stmt => stmt.exec datetime c a s
  | .inr _ => s

/-! ## Who sees the text -/

def Hides (comments : List CommentRow) (content : Bytes) : Prop :=
  ∀ r ∈ comments, r.content = content → r.deleted = true

def ReplicaHides (t : Tables) (content : Bytes) : Prop :=
  ∀ id row, t (.row .comment id) = some row → row (bytes "content") = .str content →
    row (bytes "deleted") ≠ .num 0

/-- No replica that did not show the text before shows it after some of these journal
rows. -/
def ReplicasHide (rows : List FeedRow) (content : Bytes) : Prop :=
  ∀ (rep : Replica) (t : Tables), rep.columns .comment = commentColumns →
    ReplicaHides t content → ∀ n, ReplicaHides (rep.applyAll t (rows.take n)) content

/-- The text of the comment is not shown, here or on a replica, in any state that the
call passes through when its statements fare as in `as`. -/
def NeverShown (c : Submission) (s : Store) (as : List Attempt) : Prop :=
  ∀ t, Reaches (step datetime c) (start s) as t →
    Hides t.store.comments.rows c.content ∧ ReplicasHide t.produced c.content

/-- The INSERT of `db_comment_create` is not done. -/
def NotCreated (as : List Attempt) : Prop := ∀ a ∈ as.head?, a.outcome ≠ .done

/-! ## One journal row on a replica -/

section Replica

variable {datetime} {rep : Replica} {t : Tables} {content : Bytes} {r : CommentRow}

theorem applyRow_feedRow (r : CommentRow) :
    rep.applyRow t (r.feedRow datetime) = rep.applyUpsert t .comment (r.payload datetime) := by
  have hentity : flywireEntity (r.feedRow datetime).entity = some (.plain .comment) :=
    flywireEntity_comment
  have huser : KEntity.plain .comment ≠ .plain .user := by decide
  have hspecial : (KEntity.plain .comment).special ≠ true := by decide
  have hop : bytes "upsert" ≠ bytes "delete" := by decide +kernel
  unfold Replica.applyRow
  rw [hentity]
  dsimp only
  rw [if_neg fun h => huser h.1, if_neg fun h => hspecial h.1]
  exact if_neg hop

theorem applyRow_feedRow_self (hcol : rep.columns .comment = commentColumns)
    (haccept : rep.accepts .comment (r.payload datetime) = true) :
    ∃ row, rep.applyRow t (r.feedRow datetime) (.row .comment r.id) = some row ∧
      row (bytes "content") = .str r.content ∧
      row (bytes "deleted") = .num (if r.deleted then 1 else 0) := by
  have hcontent : rep.written .comment (r.payload datetime) (bytes "content") =
      some (.str r.content) := by
    unfold Replica.written
    rw [hcol, if_pos (by decide +kernel), getObjectItem_content]
    rfl
  have hdeleted : rep.written .comment (r.payload datetime) (bytes "deleted") =
      some (.num (if r.deleted then 1 else 0)) := by
    unfold Replica.written
    rw [hcol, if_pos (by decide +kernel), getObjectItem_deleted]
    rfl
  have hkey : getObjectItem (r.payload datetime) (keyCol .comment) = some (.number r.id) := rfl
  rw [applyRow_feedRow]
  unfold Replica.applyUpsert
  rw [hkey]
  dsimp only
  rw [if_pos haccept, Function.update_self]
  refine ⟨_, rfl, ?_, ?_⟩
  · rw [LastWriter.overwrite, hcontent]
    rfl
  · rw [LastWriter.overwrite, hdeleted]
    rfl

theorem applyRow_feedRow_of_ne {k : Key} (hk : k ≠ .row .comment r.id) :
    rep.applyRow t (r.feedRow datetime) k = t k := by
  have hkey : getObjectItem (r.payload datetime) (keyCol .comment) = some (.number r.id) := rfl
  rw [applyRow_feedRow]
  unfold Replica.applyUpsert
  rw [hkey]
  dsimp only
  split
  · exact Function.update_of_ne hk _ t
  · rfl

theorem applyRow_feedRow_of_not_accepts
    (haccept : rep.accepts .comment (r.payload datetime) ≠ true) :
    rep.applyRow t (r.feedRow datetime) = t := by
  rw [applyRow_feedRow]
  unfold Replica.applyUpsert
  split
  · rw [if_neg haccept]
  · rfl

theorem ReplicaHides.applyRow (h : ReplicaHides t content)
    (hcol : rep.columns .comment = commentColumns) (hr : r.deleted = true) :
    ReplicaHides (rep.applyRow t (r.feedRow datetime)) content := by
  by_cases haccept : rep.accepts .comment (r.payload datetime) = true
  · intro id row hrow hcontent
    by_cases hid : Key.row .comment id = .row .comment r.id
    · rcases applyRow_feedRow_self (t := t) hcol haccept with ⟨row', hrow', -, hdeleted⟩
      rw [hid, hrow', Option.some.injEq] at hrow
      rw [← hrow, hdeleted, if_pos hr]
      decide
    · rw [applyRow_feedRow_of_ne hid] at hrow
      exact h id row hrow hcontent
  · rw [applyRow_feedRow_of_not_accepts haccept]
    exact h

theorem replicasHide_nil : ReplicasHide [] content := by
  intro rep t _ h n
  rw [List.take_nil]
  exact h

/-- Journal rows that are all snapshots of hidden comments show nothing. -/
theorem replicasHide_of_deleted {rows : List CommentRow}
    (hrows : ∀ r ∈ rows, r.deleted = true) :
    ReplicasHide (rows.map (·.feedRow datetime)) content := by
  intro rep t hcol h n
  rw [← List.map_take]
  have htake : ∀ r ∈ rows.take n, r.deleted = true :=
    fun r hr => hrows r (List.mem_of_mem_take hr)
  generalize rows.take n = taken at htake
  induction taken generalizing t with
  | nil => exact h
  | cons r taken ih =>
    have hfirst : ReplicaHides (rep.applyRow t (r.feedRow datetime)) content :=
      h.applyRow hcol (htake r List.mem_cons_self)
    exact ih _ hfirst fun r' hr' => htake r' (List.mem_cons_of_mem _ hr')

end Replica

/-! ## The first statements -/

section Runs

variable {c : Submission} {s : Store} {r : CommentRow} {as : List Attempt} {a : Attempt}
  {st : State}

theorem ne_newId (hr : r ∈ s.comments.rows) : r.id ≠ s.sequence + 1 :=
  Nat.ne_of_lt (Nat.lt_succ_of_le (s.fresh r hr))

theorem insertComment_rows (now : ℕ) :
    (s.insertComment c now).comments.rows = s.comments.rows ++ [c.row (s.sequence + 1) now] := by
  have hfree : (c.row (s.sequence + 1) now).id ∉ s.comments.rows.map CommentRow.id := by
    intro hmem
    rcases List.mem_map.mp hmem with ⟨r, hr, hid⟩
    exact ne_newId hr hid
  exact Keyed.Table.rows_insertOrIgnore_of_free hfree

theorem mem_insertComment (now : ℕ) :
    c.row (s.sequence + 1) now ∈ (s.insertComment c now).comments.rows := by
  rw [insertComment_rows]
  exact List.mem_concat_self

theorem not_hides_insertComment (now : ℕ) :
    ¬ Hides (s.insertComment c now).comments.rows c.content := by
  intro h
  exact absurd (h _ (mem_insertComment now) rfl) Bool.false_ne_true

theorem step_create (ha : a.outcome = .done) :
    step datetime c (start s) a =
      ⟨s.insertComment c a.now, [], .inl (.journalCreated (s.sequence + 1))⟩ :=
  if_pos ha

theorem step_create_fails (ha : a.outcome ≠ .done) :
    step datetime c (start s) a = ⟨s, [], .inr none⟩ :=
  if_neg ha

theorem step_journalCreated {a a' : Attempt} (ha : a.outcome = .done) :
    step datetime c (step datetime c (start s) a) a' =
      ⟨s.insertComment c a.now,
        if a'.outcome = .done then [(c.row (s.sequence + 1) a.now).feedRow datetime] else [],
        .inl (.hide (s.sequence + 1))⟩ := by
  have hfind : (s.insertComment c a.now).comments.find? (s.sequence + 1) =
      some (c.row (s.sequence + 1) a.now) :=
    Keyed.Table.find?_eq_some.mpr ⟨mem_insertComment a.now, rfl⟩
  rw [step_create datetime ha]
  show State.mk _ ([] ++ journalRow datetime a'.outcome (s.insertComment c a.now) _) _ = _
  unfold journalRow
  rw [hfind]
  rfl

theorem step_returned {r : Option ℕ} (h : st.next = .inr r) (a : Attempt) :
    step datetime c st a = st := by
  unfold step
  rw [h]

theorem run_returned {r : Option ℕ} (h : st.next = .inr r) (as : List Attempt) :
    run (step datetime c) st as = st := by
  induction as with
  | nil => rfl
  | cons a as ih =>
    rw [run_cons, step_returned datetime h]
    exact ih

theorem NotCreated.reaches (h : NotCreated as) {t : State}
    (ht : Reaches (step datetime c) (start s) as t) : t.store = s ∧ t.produced = [] := by
  cases as with
  | nil =>
    rcases ht with ⟨pre, post, heq, rfl⟩
    rcases List.append_eq_nil_iff.mp heq.symm with ⟨rfl, -⟩
    exact ⟨rfl, rfl⟩
  | cons a as =>
    rcases reaches_cons.mp ht with rfl | hlater
    · exact ⟨rfl, rfl⟩
    · rcases hlater with ⟨pre, post, -, rfl⟩
      rw [step_create_fails datetime (h a rfl), run_returned datetime rfl]
      exact ⟨rfl, rfl⟩

/-- The text of a held comment stays out of sight exactly when no comment is created (and
none showed the text before): the INSERT alone makes it a visible comment. -/
theorem held_comment_never_shown_iff (c : Submission) (s : Store) (as : List Attempt) :
    NeverShown datetime c s as ↔ Hides s.comments.rows c.content ∧ NotCreated as := by
  constructor
  · intro h
    refine ⟨(h (start s) ⟨[], as, rfl, rfl⟩).1, ?_⟩
    intro a hhead ha
    rcases List.head?_eq_some_iff.mp hhead with ⟨rest, rfl⟩
    -- what a reader sees right after the first statement
    have hshown := (h _ (reaches_cons.mpr (.inr ⟨[], rest, rfl, rfl⟩))).1
    rw [run_nil, step_create datetime ha] at hshown
    exact not_hides_insertComment a.now hshown
  · rintro ⟨hs, has⟩ t ht
    rcases has.reaches datetime ht with ⟨hstore, hproduced⟩
    rw [hstore, hproduced]
    exact ⟨hs, replicasHide_nil⟩

/-! ## Replicas -/

/-- The INSERT is done, and the journal row of the comment as it was then is written. -/
def CreationJournaled (as : List Attempt) : Prop :=
  ∃ a a' rest, as = a :: a' :: rest ∧ a.outcome = .done ∧ a'.outcome = .done

def Quiet (s : Store) : Stmt ⊕ Option ℕ → Prop
  | .inl .create => False
  | .inl (.journalCreated _) => False
  | .inl (.journalHidden id) => ∀ r, s.comments.find? id = some r → r.deleted = true
  | _ => True

/-- Every journal row of the call is a snapshot of a hidden comment, and so will be the
next. -/
structure Silent (st : State) : Prop where
  rows : ∃ rows : List CommentRow, st.produced = rows.map (·.feedRow datetime) ∧
    ∀ r ∈ rows, r.deleted = true
  next : Quiet st.store st.next

theorem silent_nil (h : st.produced = []) (hnext : Quiet st.store st.next) :
    Silent datetime st :=
  ⟨⟨[], h, fun _ hr => nomatch hr⟩, hnext⟩

theorem deleted_of_find?_hide {id now : ℕ}
    (h : (s.hide id now).comments.find? id = some r) : r.deleted = true := by
  rw [Store.hide, Keyed.Table.find?_update, Option.map_eq_some_iff] at h
  rcases h with ⟨r', hr', rfl⟩
  have hid : r'.id = id := (Keyed.Table.find?_eq_some.mp hr').2
  split
  · rfl
  · next hkept =>
    rw [not_and] at hkept
    exact Bool.eq_true_of_not_eq_false (hkept hid)

variable {datetime}

theorem Silent.step (h : Silent datetime st) (c : Submission) (a : Attempt) :
    Silent datetime (step datetime c st a) := by
  rcases h with ⟨hrows, hnext⟩
  unfold PendingComment.step
  cases hstmt : st.next with
  | inr r =>
    dsimp only
    exact ⟨hrows, hnext⟩
  | inl stmt =>
    rw [hstmt] at hnext
    cases stmt with
    | create => exact hnext.elim
    | journalCreated id => exact hnext.elim
    | hide id =>
      dsimp only [Stmt.exec]
      split
      · refine ⟨hrows, ?_⟩
        dsimp only
        split
        · exact fun r hr => deleted_of_find?_hide hr
        · trivial
      · exact ⟨hrows, trivial⟩
    | journalHidden id =>
      refine ⟨?_, trivial⟩
      rcases hrows with ⟨rows, hproduced, hdeleted⟩
      dsimp only [Stmt.exec, journalRow]
      split
      · -- the snapshot is of the row that the UPDATE has left
        refine ⟨rows ++ (st.store.comments.find? id).toList, ?_, ?_⟩
        · rw [hproduced, List.map_append]
          cases st.store.comments.find? id <;> rfl
        · intro r hr
          rcases List.mem_append.mp hr with hold | hnew
          · exact hdeleted r hold
          · exact hnext r (Option.mem_toList.mp hnew)
      · exact ⟨rows, by rw [hproduced, List.append_nil], hdeleted⟩
    | queue id =>
      dsimp only [Stmt.exec]
      split
      · exact ⟨hrows, trivial⟩
      · exact ⟨hrows, trivial⟩
    | drop id => exact ⟨hrows, trivial⟩

theorem Silent.replicasHide (h : Silent datetime st) (content : Bytes) :
    ReplicasHide st.produced content := by
  rcases h.rows with ⟨rows, hproduced, hdeleted⟩
  rw [hproduced]
  exact replicasHide_of_deleted hdeleted

theorem Silent.reaches {st t : State} (h : Silent datetime st)
    (ht : Reaches (PendingComment.step datetime c) st as t)
    (content : Bytes) : ReplicasHide t.produced content := by
  rcases ht with ⟨pre, post, -, rfl⟩
  have hsilent : Silent datetime (run (PendingComment.step datetime c) st pre) :=
    run_invariant _ (fun st a hst => hst.step c a) h pre
  exact hsilent.replicasHide content

def anyReplica : Replica where
  adminUsername := []
  siteAdminUid := 0
  columns _ := commentColumns
  default _ _ := .null
  accepts _ _ := true

theorem not_replicasHide_feedRow (hr : r.deleted = false)
    (later : List FeedRow) : ¬ ReplicasHide (r.feedRow datetime :: later) r.content := by
  intro h
  have hempty : ReplicaHides (fun _ => none) r.content := fun _ _ hrow => nomatch hrow
  have hone := h anyReplica _ rfl hempty 1
  have haccept : anyReplica.accepts .comment (r.payload datetime) = true := rfl
  rcases applyRow_feedRow_self (t := fun _ => none) rfl haccept with
    ⟨row, hrow, hcontent, hdeleted⟩
  refine hone r.id row hrow hcontent ?_
  rw [hdeleted, hr]
  rfl

/-- Replicas never show the text exactly when the journal row of the creation is not
written: what is journaled later is hidden. -/
theorem replicas_hide_iff (c : Submission) (s : Store) (as : List Attempt) :
    (∀ t, Reaches (PendingComment.step datetime c) (start s) as t →
      ReplicasHide t.produced c.content) ↔ ¬ CreationJournaled as := by
  constructor
  · rintro h ⟨a, a', rest, rfl, ha, ha'⟩
    have hsecond := h _ (reaches_cons.mpr (.inr (reaches_cons.mpr (.inr ⟨[], rest, rfl, rfl⟩))))
    rw [run_nil, step_journalCreated datetime ha, if_pos ha'] at hsecond
    exact not_replicasHide_feedRow (r := c.row (s.sequence + 1) a.now) rfl [] hsecond
  · intro h t ht
    cases as with
    | nil =>
      have hnone : NotCreated [] := fun _ hhead => nomatch hhead
      rw [(hnone.reaches datetime ht).2]
      exact replicasHide_nil
    | cons a as =>
      by_cases ha : a.outcome = .done
      · rcases reaches_cons.mp ht with rfl | ht
        · exact replicasHide_nil
        cases as with
        | nil =>
          rcases ht with ⟨pre, post, heq, rfl⟩
          rcases List.append_eq_nil_iff.mp heq.symm with ⟨rfl, -⟩
          rw [run_nil, step_create datetime ha]
          exact replicasHide_nil
        | cons a' as =>
          rcases reaches_cons.mp ht with rfl | ht
          · rw [step_create datetime ha]
            exact replicasHide_nil
          · -- the creation is not journaled, and all that follows is silent
            have ha' : a'.outcome ≠ .done := fun ha' => h ⟨a, a', as, rfl, ha, ha'⟩
            rw [step_journalCreated datetime ha, if_neg ha'] at ht
            have hsilent : Silent datetime
                ⟨s.insertComment c a.now, [], .inl (.hide (s.sequence + 1))⟩ :=
              silent_nil datetime rfl trivial
            exact hsilent.reaches ht c.content
      · have hfails : NotCreated (a :: as) := by
          intro b hb
          rw [← Option.some.inj hb]
          exact ha
        rw [(hfails.reaches datetime ht).2]
        exact replicasHide_nil

end Runs

/-! ## The call that nothing goes wrong in -/

section Completed

def CommentRow.comment (r : CommentRow) : Moderation.Comment where
  id := r.id
  target :=
    if r.targetType = bytes "post" then .post r.targetId.toNat
    else .other r.targetType r.targetId.toNat
  userId := r.userId.toNat
  content := r.content
  createdAt := r.createdAt
  deleted := r.deleted

def ItemRow.item (i : ItemRow) : Moderation.Item where
  target := if i.targetType = bytes "comment" then .comment i.targetId else .post i.targetId
  userId := i.userId.toNat
  content := i.content
  reason := i.reason
  status := i.status
  createdAt := i.createdAt

/-- The tables that the pages read, with the posts and the users of `t`. -/
def Store.tables (s : Store) (t : Moderation.Tables) : Moderation.Tables :=
  { t with comments := s.comments.rows.map (·.comment), items := s.items.map (·.item),
           nextComment := s.sequence + 1 }

variable {datetime} {c : Submission} {s : Store}

theorem shown_insertComment (now : ℕ) :
    (s.insertComment c now).shown (s.sequence + 1) = true := by
  unfold Store.shown
  rw [List.any_eq_true]
  exact ⟨_, mem_insertComment now, by simp [Submission.row]⟩

theorem hide_insertComment_rows (now now' : ℕ) :
    ((s.insertComment c now).hide (s.sequence + 1) now').comments.rows =
      s.comments.rows ++ [(c.row (s.sequence + 1) now).hidden now'] := by
  have hold : (s.comments.rows.map fun r =>
      if r.id = s.sequence + 1 ∧ r.deleted = false then r.hidden now' else r) =
        s.comments.rows := by
    refine (List.map_congr_left ?_).trans (List.map_id _)
    intro r hr
    rw [if_neg fun h => ne_newId hr h.1]
    rfl
  have hnew : (c.row (s.sequence + 1) now).id = s.sequence + 1 ∧
      (c.row (s.sequence + 1) now).deleted = false := ⟨rfl, rfl⟩
  show ((s.insertComment c now).comments.rows.map _) = _
  rw [insertComment_rows, List.map_append, hold, List.map_singleton, if_pos hnew]

theorem run_done {now : ℕ} (hfree : s.queued (s.sequence + 1) = false) :
    run (PendingComment.step datetime c) (start s) (List.replicate 5 ⟨.done, now⟩) =
      ⟨{ (s.insertComment c now).hide (s.sequence + 1) now with
          items := s.items ++ [c.item (s.sequence + 1) now] },
        [(c.row (s.sequence + 1) now).feedRow datetime,
          ((c.row (s.sequence + 1) now).hidden now).feedRow datetime],
        .inr (some (s.sequence + 1))⟩ := by
  have hfind : ((s.insertComment c now).hide (s.sequence + 1) now).comments.find?
      (s.sequence + 1) = some ((c.row (s.sequence + 1) now).hidden now) := by
    refine Keyed.Table.find?_eq_some.mpr ⟨?_, rfl⟩
    rw [hide_insertComment_rows]
    exact List.mem_concat_self
  have hqueued : ((s.insertComment c now).hide (s.sequence + 1) now).queued (s.sequence + 1) =
      false := hfree
  simp only [List.replicate, run_cons, run_nil]
  rw [step_journalCreated datetime rfl]
  simp only [PendingComment.step, Stmt.exec, journalRow, shown_insertComment, hfind, hqueued,
    if_true, and_self, Option.map_some, Option.toList_some]
  rfl

/-- A call in which every statement is done does to the tables what the handlers take it
to do: an empty, deleted comment, and its text in the queue. -/
theorem run_done_tables (t : Moderation.Tables) {now : ℕ}
    (hfree : s.queued (s.sequence + 1) = false) :
    (run (PendingComment.step datetime c) (start s)
        (List.replicate 5 ⟨.done, now⟩)).store.tables t =
      (Submit.insertComment (s.tables t)
        ⟨0, (c.row 0 now).comment.target, c.uid.toNat, [], now, true⟩).queue
          ⟨.comment (s.sequence + 1), c.uid.toNat, c.content, c.reason.getD [], .pending,
            now⟩ := by
  rw [run_done hfree]
  unfold Store.tables Submit.insertComment Moderation.Tables.queue
  dsimp only
  rw [hide_insertComment_rows, List.map_append, List.map_append]
  rfl

end Completed

end Journal

/-! ## Two ways to be seen -/

def linkHeavy : Submission where
  targetType := bytes "post"
  targetId := 1
  uid := 2
  authorName := some (bytes "ann")
  parentId := 0
  content := bytes "http://a http://b http://c http://d http://e http://f"
  reason := some (bytes "excessive_links")

def noComments : Store where
  comments := Keyed.Table.empty
  sequence := 0
  fresh := fun _ hr => nomatch hr
  items := []

def linkHeavyAfter (n : ℕ) : State :=
  run (step (fun _ => []) linkHeavy) (start noComments) (List.replicate n ⟨.done, 0⟩)

/-- The call returns the new id; yet the comment is a visible one after the first
statement, and on a replica after the first journal row. -/
theorem held_comment_shown :
    (linkHeavyAfter 5).next = .inr (some 1) ∧
    Hides (linkHeavyAfter 0).store.comments.rows linkHeavy.content ∧
    ¬ Hides (linkHeavyAfter 1).store.comments.rows linkHeavy.content ∧
    ¬ ReplicasHide (linkHeavyAfter 5).produced linkHeavy.content ∧
    ¬ NeverShown (fun _ => []) linkHeavy noComments (List.replicate 5 ⟨.done, 0⟩) := by
  refine ⟨?_, ?_, ?_, ?_, ?_⟩
  · rw [linkHeavyAfter, run_done rfl]
    rfl
  · exact fun _ hr => nomatch hr
  · exact not_hides_insertComment 0
  · rw [linkHeavyAfter, run_done rfl]
    exact not_replicasHide_feedRow (r := linkHeavy.row 1 0) rfl _
  · intro h
    exact not_hides_insertComment 0 (h _ ⟨[⟨.done, 0⟩], _, rfl, rfl⟩).1

end FlyBoard.PendingComment

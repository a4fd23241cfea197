import FlyBoard.Handlers.CommentDelete
import FlyBoard.Sync.Snapshot
import Mathlib.Data.Int.Basic

/-!
# Comments on the replicas (`src/db/comment.c`, `src/db/moderation.c`, `src/db/user.c`)

Every function that changes `comments`, with the journal rows it leaves. The functions of
one comment journal it as it is after a change. Three others do not tell the replicas all
they do: `db_comment_delete_by_target` journals at most 512 of the comments it removes,
`db_moderation_create_pending_comment` removes a comment that it has journaled without
another journal row, and `db_user_ghost` renames the author of comments without any.
-/

namespace FlyBoard.CommentReplicas

open Run Apply Snapshot PendingComment CommentDelete
open Review (Outcome)

-- `datetime` is the text that SQLite makes of a time
variable (datetime : ℕ → Bytes)

/-- The entity `comment`. -/
def comment : Kind CommentRow where
  entity := .comment
  name := bytes "comment"
  columns := commentColumns
  id r := (r.id : ℤ)
  payload := CommentRow.payload datetime
  named := flywireEntity_comment
  identified _ := rfl
  complete _ _ hc := getObjectItem_isSome hc

def commentTable (comments : Keyed.Table CommentRow.id) : Keyed.Table (comment datetime).id :=
  comments.rekey Int.ofNat_injective

def CommentsEqual (t : Tables) (s : Store) : Prop :=
  (comment datetime).Equal t (commentTable datetime s.comments)

/-! ## The calls -/

/-- What becomes of the statements of `db_moderation_create_pending_comment`. -/
structure Outcomes where
  create : Attempt
  journalCreated : Attempt
  hide : Attempt
  journalHidden : Attempt
  queue : Attempt
  drop : Attempt

/-- The statements in the order in which they run: without the UPDATE that hides the
comment, the DELETE is next. -/
def Outcomes.attempts (o : Outcomes) : List Attempt :=
  [o.create, o.journalCreated, o.hide] ++
    if o.hide.outcome = .done then [o.journalHidden, o.queue, o.drop] else [o.drop]

inductive Op where
  /-- `db_comment_create` -/
  | create (c : Submission) (a : Attempt)
  /-- `db_comment_update` -/
  | update (id : ℕ) (uid : ℤ) (content : Bytes) (a : Attempt)
  /-- `db_comment_delete` -/
  | delete (id : ℕ) (uid : ℤ) (a : Attempt)
  /-- `db_comment_delete_admin` -/
  | deleteAdmin (id : ℕ) (a : Attempt)
  /-- `db_comment_delete_by_target` -/
  | deleteByTarget (targetType : Bytes) (targetId : ℤ) (o : Outcome)
  /-- `db_moderation_create_pending_comment` -/
  | createPending (c : Submission) (o : Outcomes)
  /-- `db_moderation_approve` of a comment -/
  | approve (id : ℕ) (selected : Outcome) (updated : Attempt) (finished : Outcome)
  /-- `db_user_ghost`, and whether its changes to `comments` are committed -/
  | ghost (uid : ℤ) (now : ℕ) (committed : Bool)

def own (id : ℕ) (uid : ℤ) (r : CommentRow) : Bool := r.id = id && r.userId = uid && !r.deleted

def onTarget (targetType : Bytes) (targetId : ℤ) (r : CommentRow) : Bool :=
  r.targetType = targetType && r.targetId = targetId

/-- `sqlite3_changes` after an UPDATE of the rows that satisfy `p` is not 0. -/
def changes (s : Store) (p : CommentRow → Bool) (a : Attempt) : Bool :=
  a.outcome = .done && s.comments.rows.any p

/-- `db_sync_journal_external_row` after a call of one comment, where it changed a row. -/
def journaled (s' : Store) (changed : Bool) (id : ℕ) : List FeedRow :=
  if changed then journalRow datetime .done s' id else []

/-- DELETE FROM comments, of the rows that satisfy `p`. -/
def removeWhere (s : Store) (p : CommentRow → Bool) : Store where
  comments := s.comments.keep fun r => !p r
  sequence := s.sequence
  fresh r hr := s.fresh r (List.mem_of_mem_filter hr)
  items := s.items

/-- `sizeof(ids) / sizeof(ids[0])` -/
def maxIds : ℕ := 512

variable (scan : Scan CommentRow)

/-- The ids that `db_comment_delete_by_target` selects. -/
def targetIds (s : Store) (targetType : Bytes) (targetId : ℤ) : List ℕ :=
  (scan.order (s.comments.rows.filter (onTarget targetType targetId))).map (·.id)

/-- `db_comment_create`. -/
def commentCreate (s : Store) (c : Submission) (a : Attempt) : Store × List FeedRow :=
  if a.outcome = .done then
    (s.insertComment c a.now,
      journalRow datetime .done (s.insertComment c a.now) (s.sequence + 1))
  else (s, [])

/-- `db_comment_delete_by_target`. -/
def commentDeleteByTarget (s : Store) (targetType : Bytes) (targetId : ℤ) (o : Outcome) :
    Store × List FeedRow :=
  let ids := (targetIds scan s targetType targetId).take maxIds
  if o = .done then
    (removeWhere s (onTarget targetType targetId),
      ids.map fun id : ℕ => (comment datetime).deletion (id : ℤ))
  else (s, [])

/-- `db_moderation_create_pending_comment`. -/
def createPending (s : Store) (c : Submission) (o : Outcomes) : Store × List FeedRow :=
  let st := run (PendingComment.step datetime c) (start s) o.attempts
  (st.store, st.produced)

/-- What `db_moderation_approve` journals: the comment, once its UPDATE has changed it. -/
def approveJournal (s : Store) (id : ℕ) (selected : Outcome) (updated : Attempt)
    (finished : Outcome) : List FeedRow :=
  match if selected = .done then pendingItem s id else none with
  | none => []
  | some _ =>
    journaled datetime (approve s id selected updated finished).1
      (updated.outcome = .done && (s.comments.find? id).any (·.deleted)) id

/-- What `db_user_ghost` makes of a comment. -/
def ghosted (now : ℕ) (r : CommentRow) : CommentRow :=
  { r with authorName := bytes "Deleted user", updatedAt := now }

def ghostComments (s : Store) (uid : ℤ) (now : ℕ) : Store :=
  updateWhere s (fun r => r.userId = uid) (ghosted now) fun _ => rfl

/-- What a call leaves in the tables, and what it appends to the journal. -/
def exec (s : Store) : Op → Store × List FeedRow
  | .create c a => commentCreate datetime s c a
  | .update id uid content a =>
    let s' := commentUpdate s id uid content a
    (s', journaled datetime s' (changes s (own id uid) a) id)
  | .delete id uid a =>
    let s' := (commentDelete s id uid a).1
    (s', journaled datetime s' (changes s (own id uid) a) id)
  | .deleteAdmin id a =>
    let s' := (commentDeleteAdmin s id a).1
    (s', journaled datetime s' (changes s (fun r => r.id = id && !r.deleted) a) id)
  | .deleteByTarget targetType targetId o =>
    commentDeleteByTarget datetime scan s targetType targetId o
  | .createPending c o => createPending datetime s c o
  | .approve id selected updated finished =>
    ((approve s id selected updated finished).1,
      approveJournal datetime s id selected updated finished)
  | .ghost uid now committed => (if committed then ghostComments s uid now else s, [])

/-! ## Calls that replicas are told of -/

/-- The comment is removed again because the UPDATE or the queue has failed. -/
def Undone (s : Store) (o : Outcomes) : Prop :=
  (o.hide.outcome ≠ .done ∨ o.queue.outcome ≠ .done ∨ s.queued (s.sequence + 1) = true) ∧
    o.drop.outcome = .done

instance (s : Store) (o : Outcomes) : Decidable (Undone s o) :=
  inferInstanceAs (Decidable (_ ∧ _))

/-- Of a comment that is removed again nothing was journaled; of another the last change
was. -/
def Told (s : Store) (o : Outcomes) : Prop :=
  o.create.outcome = .done →
    if Undone s o then
      o.journalCreated.outcome ≠ .done ∧
        (o.hide.outcome = .done → o.journalHidden.outcome ≠ .done)
    else if o.hide.outcome = .done then o.journalHidden.outcome = .done
    else o.journalCreated.outcome = .done

/-- The call is one that replicas are told of in full: it removes at most 512 comments of a
target, leaves nothing untold of a comment that waits for review, and renames the author
of no comment. -/
def ToldInFull (s : Store) : Op → Prop
  | .deleteByTarget targetType targetId o =>
    o = .done → (targetIds scan s targetType targetId).length ≤ maxIds
  | .createPending _ o => Told s o
  | .ghost uid now committed =>
    committed = true → ∀ r ∈ s.comments.rows, r.userId = uid →
      r.authorName = bytes "Deleted user" ∧ datetime r.updatedAt = datetime now
  | _ => True

/-! ## The table under its two keys -/

section Calls

variable {datetime scan} {rep : Replica} {t : Tables} {s : Store} {f : CommentRow → CommentRow}
  {id : ℕ} {s' : Store} {o : Outcomes} {p : CommentRow → Bool} {c : Submission}

theorem find?_commentTable {a b : Keyed.Table CommentRow.id} {k : ℕ} {left : Option CommentRow}
    (h : ∀ n, b.find? n = if n = k then left else a.find? n) (id : ℤ) :
    (commentTable datetime b).find? id =
      if id = (k : ℤ) then left else (commentTable datetime a).find? id :=
  Keyed.Table.find?_rekey_eq Int.ofNat_injective h id

theorem find?_natCast (a : Keyed.Table CommentRow.id) (k : ℕ) :
    (commentTable datetime a).find? (k : ℤ) = a.find? k :=
  Keyed.Table.find?_rekey a Int.ofNat_injective k

def Numbered (s : Store) : Prop := ∀ r ∈ s.comments.rows, 0 < r.id

theorem journalRow_eq (hs : Numbered s) (id : ℕ) :
    journalRow datetime .done s id =
      (comment datetime).journalRow (commentTable datetime s.comments) id := by
  unfold journalRow Kind.journalRow
  rw [if_pos rfl, find?_natCast]
  split
  · rfl
  · next hid =>
    have hnone : s.comments.find? id = none := by
      rw [Option.eq_none_iff_forall_ne_some]
      intro r hr
      rcases Keyed.Table.find?_eq_some.mp hr with ⟨hmem, rfl⟩
      exact hid (Int.natCast_pos.mpr (hs r hmem))
    rw [hnone]
    rfl

/-! ## Calls of one comment -/

theorem Numbered.updateWhere (hs : Numbered s) (hf : ∀ r, (f r).id = r.id) :
    Numbered (updateWhere s p f hf) := by
  intro r hr
  rcases List.mem_map.mp hr with ⟨r', hr', rfl⟩
  have hpos := hs r' hr'
  split
  · rw [hf]
    exact hpos
  · exact hpos

theorem equal_updateWhere (h : CommentsEqual datetime t s) (hs : Numbered s)
    (hrep : ∀ r, (comment datetime).Takes rep r) (hf : ∀ r, (f r).id = r.id)
    (hid : ∀ r, p r = true → r.id = id) :
    CommentsEqual datetime
      (rep.applyAll t (journaled datetime (updateWhere s p f hf) (s.comments.rows.any p) id))
      (updateWhere s p f hf) := by
  unfold journaled
  split
  · rw [journalRow_eq (hs.updateWhere hf)]
    have hkey : ∀ r : CommentRow, (comment datetime).id (if p r then f r else r) =
        (comment datetime).id r := by
      intro r
      split
      · exact congrArg Int.ofNat (hf r)
      · rfl
    refine Kind.Equal.update h hkey (fun r hr hid => hid ▸ Int.natCast_pos.mpr (hs r hr)) ?_
      fun r _ _ => hrep r
    intro r hne
    refine if_neg fun hp => hne ?_
    exact congrArg Int.ofNat (hid r hp)
  · next hnone =>
    -- no row is changed
    have hsame : (s.comments.rows.map fun r => if p r then f r else r) = s.comments.rows := by
      refine (List.map_congr_left ?_).trans (List.map_id _)
      intro r hr
      refine if_neg fun hp => hnone ?_
      exact List.any_eq_true.mpr ⟨r, hr, hp⟩
    have htable : (CommentDelete.updateWhere s p f hf).comments = s.comments :=
      Keyed.Table.ext_rows hsame
    unfold CommentsEqual
    rw [htable]
    exact h

theorem equal_updateIfDone (h : CommentsEqual datetime t s) (hs : Numbered s)
    (hrep : ∀ r, (comment datetime).Takes rep r) (hf : ∀ r, (f r).id = r.id)
    (hid : ∀ r, p r = true → r.id = id) (a : Attempt) :
    CommentsEqual datetime
      (rep.applyAll t (journaled datetime (if a.outcome = .done then updateWhere s p f hf else s)
        (changes s p a) id))
      (if a.outcome = .done then updateWhere s p f hf else s) := by
  unfold changes
  split
  · next hdone =>
    rw [decide_eq_true hdone, Bool.true_and]
    exact equal_updateWhere h hs hrep hf hid
  · next hfailed =>
    rw [decide_eq_false hfailed]
    exact h

theorem id_of_own {uid : ℤ} {r : CommentRow} (h : own id uid r = true) : r.id = id := by
  rw [own, Bool.and_eq_true, Bool.and_eq_true, decide_eq_true_eq] at h
  exact h.1.1

theorem commentDelete_fst (id : ℕ) (uid : ℤ) (a : Attempt) :
    (commentDelete s id uid a).1 =
      if a.outcome = .done then updateWhere s (own id uid) (·.hidden a.now) fun _ => rfl
      else s := by
  unfold commentDelete
  split
  · rfl
  · rfl

theorem commentDeleteAdmin_fst (id : ℕ) (a : Attempt) :
    (commentDeleteAdmin s id a).1 =
      if a.outcome = .done then
        updateWhere s (fun r => r.id = id && !r.deleted) (·.hidden a.now) fun _ => rfl
      else s := by
  unfold commentDeleteAdmin
  split
  · rfl
  · rfl

theorem finishReview_comments (s : Store) (id : ℕ) (status : Moderation.ItemStatus) (o : Outcome) :
    (finishReview s id status o).1.comments = s.comments := by
  unfold finishReview
  split
  · rfl
  · rfl

/-- An approval journals the comment it shows, also when the queue is not updated after it. -/
theorem equal_approve (h : CommentsEqual datetime t s) (hs : Numbered s)
    (hrep : ∀ r, (comment datetime).Takes rep r) (id : ℕ) (selected : Outcome)
    (updated : Attempt) (finished : Outcome) :
    CommentsEqual datetime
      (rep.applyAll t (exec datetime scan s (.approve id selected updated finished)).2)
      (exec datetime scan s (.approve id selected updated finished)).1 := by
  unfold exec approveJournal approve
  dsimp only
  generalize (if selected = .done then pendingItem s id else none) = item
  cases item with
  | none => exact h
  | some item =>
    dsimp only
    split
    · next hchanged =>
      rcases hchanged with ⟨hdone, hhidden⟩
      have hany : (s.comments.rows.any fun r => r.id = id && r.deleted) = true := by
        rcases hfind : s.comments.find? id with _ | r
        · rw [hfind] at hhidden
          exact absurd hhidden (by decide)
        · rcases Keyed.Table.find?_eq_some.mp hfind with ⟨hr, hid⟩
          rw [hfind] at hhidden
          exact List.any_eq_true.mpr ⟨r, hr, by simpa [hid] using hhidden⟩
      have hone : ∀ r : CommentRow, (decide (r.id = id) && r.deleted) = true → r.id = id := by
        intro r hr
        rw [Bool.and_eq_true, decide_eq_true_eq] at hr
        exact hr.1
      have hequal := equal_updateWhere h hs hrep
        (f := fun r => { r with content := item.content, deleted := false,
                                updatedAt := updated.now }) (fun _ => rfl) hone
      rw [hany] at hequal
      rw [decide_eq_true hdone, hhidden]
      unfold CommentsEqual at hequal ⊢
      unfold journaled journalRow at hequal ⊢
      rw [finishReview_comments]
      exact hequal
    · next hnone =>
      rw [not_and] at hnone
      have hfalse : (decide (updated.outcome = .done) &&
          (s.comments.find? id).any (·.deleted)) = false := by
        rw [Bool.and_eq_false_iff, decide_eq_false_iff_not]
        by_cases hdone : updated.outcome = .done
        · exact .inr (Bool.eq_false_iff.mpr (hnone hdone))
        · exact .inl hdone
      rw [hfalse]
      exact h

/-! ## New comments -/

theorem find?_insertComment (c : Submission) (now n : ℕ) :
    (s.insertComment c now).comments.find? n =
      if n = s.sequence + 1 then some (c.row (s.sequence + 1) now) else s.comments.find? n := by
  refine Keyed.Table.find?_insertOrIgnore_of_free ?_ n
  intro hmem
  rcases List.mem_map.mp hmem with ⟨r, hr, hid⟩
  exact ne_newId hr hid

theorem find?_newId : s.comments.find? (s.sequence + 1) = none := by
  rw [Option.eq_none_iff_forall_ne_some]
  intro r hr
  rcases Keyed.Table.find?_eq_some.mp hr with ⟨hmem, hid⟩
  exact ne_newId hmem hid

theorem equal_create (h : CommentsEqual datetime t s)
    (hrep : ∀ r, (comment datetime).Takes rep r) (c : Submission) (a : Attempt) :
    CommentsEqual datetime (rep.applyAll t (commentCreate datetime s c a).2)
      (commentCreate datetime s c a).1 := by
  unfold commentCreate
  split
  · have hjournal : journalRow datetime .done (s.insertComment c a.now) (s.sequence + 1) =
        [(comment datetime).snapshot (c.row (s.sequence + 1) a.now)] := by
      unfold journalRow
      rw [if_pos rfl, find?_insertComment, if_pos rfl]
      rfl
    rw [hjournal]
    exact h.snapshot (hrep _) (find?_commentTable (find?_insertComment c a.now))
  · exact h

/-! ## A comment that waits for review -/

def journaledRows (s : Store) (c : Submission) (o : Outcomes) : List CommentRow :=
  (if o.journalCreated.outcome = .done then [c.row (s.sequence + 1) o.create.now] else []) ++
    if o.hide.outcome = .done ∧ o.journalHidden.outcome = .done then
      [(c.row (s.sequence + 1) o.create.now).hidden o.hide.now]
    else []

/-- What the call leaves under the new id. -/
def leftRow (s : Store) (c : Submission) (o : Outcomes) : Option CommentRow :=
  if Undone s o then none
  else if o.hide.outcome = .done then
    some ((c.row (s.sequence + 1) o.create.now).hidden o.hide.now)
  else some (c.row (s.sequence + 1) o.create.now)

theorem find?_hidden (c : Submission) (now now' n : ℕ) :
    ((s.insertComment c now).hide (s.sequence + 1) now').comments.find? n =
      if n = s.sequence + 1 then some ((c.row (s.sequence + 1) now).hidden now')
      else s.comments.find? n := by
  unfold Store.hide
  rw [Keyed.Table.find?_update, find?_insertComment]
  split
  · exact congrArg some (if_pos ⟨rfl, rfl⟩)
  · rcases hfind : s.comments.find? n with _ | r
    · rfl
    · rcases Keyed.Table.find?_eq_some.mp hfind with ⟨hr, -⟩
      rw [Option.map_some, if_neg fun hboth => ne_newId hr hboth.1]

theorem find?_dropped {left : Option CommentRow}
    (h : ∀ n, s'.comments.find? n = if n = id then left else s.comments.find? n) (n : ℕ) :
    (s'.dropComment id).comments.find? n = if n = id then none else s.comments.find? n := by
  refine (Keyed.Table.find?_remove s'.comments id n).trans ?_
  split
  · rfl
  · next hne =>
    rw [h, if_neg hne]

theorem run_hide (hcreate : o.create.outcome = .done) (rest : List Attempt) :
    run (PendingComment.step datetime c) (start s)
        (o.create :: o.journalCreated :: o.hide :: rest) =
      run (PendingComment.step datetime c)
        (if o.hide.outcome = .done then
          ⟨(s.insertComment c o.create.now).hide (s.sequence + 1) o.hide.now,
            if o.journalCreated.outcome = .done then
              [(c.row (s.sequence + 1) o.create.now).feedRow datetime] else [],
            .inl (.journalHidden (s.sequence + 1))⟩
        else
          ⟨s.insertComment c o.create.now,
            if o.journalCreated.outcome = .done then
              [(c.row (s.sequence + 1) o.create.now).feedRow datetime] else [],
            .inl (.drop (s.sequence + 1))⟩) rest := by
  rw [run_cons, run_cons, run_cons, step_journalCreated datetime hcreate]
  congr 1
  unfold PendingComment.step Stmt.exec
  dsimp only
  rw [shown_insertComment]
  rfl

variable (datetime) in
theorem run_queue (c : Submission) (s' : Store) (rows : List FeedRow) (id : ℕ)
    (queue drop : Attempt) :
    (run (PendingComment.step datetime c) ⟨s', rows, .inl (.queue id)⟩ [queue, drop]).produced =
        rows ∧
      (run (PendingComment.step datetime c) ⟨s', rows, .inl (.queue id)⟩
          [queue, drop]).store.comments =
        if ¬ (queue.outcome = .done ∧ s'.queued id = false) ∧ drop.outcome = .done then
          (s'.dropComment id).comments
        else s'.comments := by
  rw [run_cons]
  by_cases hqueue : queue.outcome = .done ∧ s'.queued id = false
  · have hstep : PendingComment.step datetime c ⟨s', rows, .inl (.queue id)⟩ queue =
        ⟨{ s' with items := s'.items ++ [c.item id queue.now] }, rows, .inr (some id)⟩ :=
      if_pos hqueue
    rw [hstep, run_returned datetime rfl, if_neg fun h => h.1 hqueue]
    exact ⟨rfl, rfl⟩
  · have hstep : PendingComment.step datetime c ⟨s', rows, .inl (.queue id)⟩ queue =
        ⟨s', rows, .inl (.drop id)⟩ :=
      if_neg hqueue
    rw [hstep]
    refine ⟨rfl, ?_⟩
    by_cases hdrop : drop.outcome = .done
    · rw [if_pos ⟨hqueue, hdrop⟩]
      exact congrArg Store.comments (if_pos hdrop)
    · rw [if_neg fun h => hdrop h.2]
      exact congrArg Store.comments (if_neg hdrop)

theorem undone_iff_of_hide (hhide : o.hide.outcome = .done) :
    Undone s o ↔ ¬ (o.queue.outcome = .done ∧ s.queued (s.sequence + 1) = false) ∧
      o.drop.outcome = .done := by
  unfold Undone
  rw [not_and_or, Bool.not_eq_false]
  simp only [hhide, ne_eq, not_true_eq_false, false_or]

theorem undone_iff_of_not_hide (hhide : o.hide.outcome ≠ .done) :
    Undone s o ↔ o.drop.outcome = .done := by
  unfold Undone
  simp only [hhide, ne_eq, not_false_eq_true, true_or, true_and]

variable (datetime) in
theorem createPending_spec (hcreate : o.create.outcome = .done) :
    (createPending datetime s c o).2 =
        (journaledRows s c o).map (comment datetime).snapshot ∧
      ∀ n, (createPending datetime s c o).1.comments.find? n =
        if n = s.sequence + 1 then leftRow s c o else s.comments.find? n := by
  have hinserted := find?_insertComment (s := s) c o.create.now
  have hhidden := find?_hidden (s := s) c o.create.now o.hide.now
  unfold createPending Outcomes.attempts journaledRows leftRow
  dsimp only [List.cons_append, List.nil_append]
  rw [run_hide hcreate]
  by_cases hhide : o.hide.outcome = .done
  · rw [if_pos hhide, if_pos hhide, if_pos hhide, run_cons]
    simp only [undone_iff_of_hide hhide]
    have hself := hhidden (s.sequence + 1)
    rw [if_pos rfl] at hself
    have hjournal : PendingComment.step datetime c
        ⟨(s.insertComment c o.create.now).hide (s.sequence + 1) o.hide.now,
          if o.journalCreated.outcome = .done then
            [(c.row (s.sequence + 1) o.create.now).feedRow datetime] else [],
          .inl (.journalHidden (s.sequence + 1))⟩ o.journalHidden =
        ⟨(s.insertComment c o.create.now).hide (s.sequence + 1) o.hide.now,
          (if o.journalCreated.outcome = .done then
            [(c.row (s.sequence + 1) o.create.now).feedRow datetime] else []) ++
          if o.journalHidden.outcome = .done then
            [((c.row (s.sequence + 1) o.create.now).hidden o.hide.now).feedRow datetime] else [],
          .inl (.queue (s.sequence + 1))⟩ := by
      unfold PendingComment.step Stmt.exec journalRow
      dsimp only
      rw [hself]
      rfl
    rw [hjournal]
    rcases run_queue datetime c
      ((s.insertComment c o.create.now).hide (s.sequence + 1) o.hide.now) _ (s.sequence + 1)
      o.queue o.drop with ⟨hproduced, hcomments⟩
    rw [hproduced, hcomments]
    have hqueued : ((s.insertComment c o.create.now).hide (s.sequence + 1) o.hide.now).queued
        (s.sequence + 1) = s.queued (s.sequence + 1) := rfl
    rw [hqueued]
    constructor
    · rw [List.map_append, apply_ite (List.map _), apply_ite (List.map _)]
      simp only [hhide, true_and]
      rfl
    · intro n
      split
      · exact find?_dropped hhidden n
      · exact hhidden n
  · rw [if_neg hhide, if_neg hhide, if_neg hhide]
    simp only [undone_iff_of_not_hide hhide]
    constructor
    · have hnone : ¬ (o.hide.outcome = .done ∧ o.journalHidden.outcome = .done) :=
        fun h => hhide h.1
      rw [if_neg hnone, List.append_nil, apply_ite (List.map _)]
      rfl
    · intro n
      show (if o.drop.outcome = .done then
        (s.insertComment c o.create.now).dropComment (s.sequence + 1)
        else s.insertComment c o.create.now).comments.find? n = _
      split
      · exact find?_dropped hinserted n
      · exact hinserted n

variable (datetime) in
theorem row_ne_hidden (r : CommentRow) (hr : r.deleted = false) (now : ℕ) :
    (comment datetime).row (r.hidden now) ≠ (comment datetime).row r := by
  intro h
  have hcolumn : bytes "deleted" ∈ commentColumns := by decide +kernel
  have hdeleted := congrFun h (bytes "deleted")
  rw [Kind.row_apply _ hcolumn, Kind.row_apply _ hcolumn] at hdeleted
  have hvalues : Json.num 1 = .num (if r.deleted then 1 else 0) := hdeleted
  rw [hr] at hvalues
  exact absurd hvalues (by decide)

variable (datetime) in
/-- The last journal row of the call is of what the call leaves exactly when it is told. -/
theorem last_eq_left_iff (hcreate : o.create.outcome = .done) :
    (journaledRows s c o).getLast?.map (comment datetime).row =
        (leftRow s c o).map (comment datetime).row ↔ Told s o := by
  have hne := row_ne_hidden datetime (c.row (s.sequence + 1) o.create.now) rfl
    o.hide.now
  unfold Told journaledRows leftRow
  rw [forall_prop_of_true hcreate]
  by_cases hundone : Undone s o
  · -- nothing is left
    simp only [if_pos hundone, Option.map_none, Option.map_eq_none_iff, List.getLast?_eq_none_iff,
      List.append_eq_nil_iff, ite_eq_right_iff, List.cons_ne_self, imp_false, not_and]
  · rw [if_neg hundone, if_neg hundone]
    by_cases hhide : o.hide.outcome = .done
    · rw [if_pos hhide, if_pos hhide]
      by_cases hhidden : o.journalHidden.outcome = .done
      · have hboth : o.hide.outcome = .done ∧ o.journalHidden.outcome = .done := ⟨hhide, hhidden⟩
        rw [if_pos hboth, List.getLast?_concat]
        exact iff_of_true rfl hhidden
      · have hnot : ¬ (o.hide.outcome = .done ∧ o.journalHidden.outcome = .done) :=
          fun h => hhidden h.2
        rw [if_neg hnot, List.append_nil]
        refine iff_of_false ?_ hhidden
        split
        · exact fun h => hne (Option.some.inj h).symm
        · exact fun h => nomatch h
    · have hnot : ¬ (o.hide.outcome = .done ∧ o.journalHidden.outcome = .done) :=
        fun h => hhide h.1
      rw [if_neg hhide, if_neg hhide, if_neg hnot, List.append_nil]
      by_cases hcreated : o.journalCreated.outcome = .done
      · rw [if_pos hcreated]
        exact iff_of_true rfl hcreated
      · rw [if_neg hcreated]
        exact iff_of_false (fun h => nomatch h) hcreated

/-- A comment that waits for review reaches the replicas as it is exactly when the call is
told. -/
theorem equal_createPending_iff (h : CommentsEqual datetime t s)
    (hrep : ∀ r, (comment datetime).Takes rep r) (c : Submission) (o : Outcomes) :
    CommentsEqual datetime (rep.applyAll t (createPending datetime s c o).2)
        (createPending datetime s c o).1 ↔ Told s o := by
  by_cases hcreate : o.create.outcome = .done
  · rcases createPending_spec datetime (s := s) (c := c) hcreate with
      ⟨hproduced, hfind⟩
    rw [hproduced, ← last_eq_left_iff datetime (c := c) hcreate]
    have hfree : (commentTable datetime s.comments).find? ((s.sequence + 1 : ℕ) : ℤ) = none := by
      rw [find?_natCast]
      exact find?_newId
    refine Kind.equal_snapshots_iff h hfree ?_ (find?_commentTable hfind)
    intro r hr
    refine ⟨hrep r, ?_⟩
    rcases List.mem_append.mp hr with hr | hr
    · split at hr
      · rw [List.mem_singleton.mp hr]
        rfl
      · exact nomatch hr
    · split at hr
      · rw [List.mem_singleton.mp hr]
        rfl
      · exact nomatch hr
  · have hnothing : createPending datetime s c o = (s, []) := by
      have hnext : run (PendingComment.step datetime c) (start s) o.attempts = ⟨s, [], .inr none⟩ := by
        show run (PendingComment.step datetime c)
          (PendingComment.step datetime c (start s) o.create) _ = _
        rw [step_create_fails datetime hcreate, run_returned datetime rfl]
      unfold createPending
      rw [hnext]
    rw [hnothing]
    exact iff_of_true h fun hdone => absurd hdone hcreate

/-! ## All comments of a target, or of a user -/

theorem mem_targetIds {targetType : Bytes} {targetId : ℤ} :
    id ∈ targetIds scan s targetType targetId ↔
      ∃ r ∈ s.comments.rows, onTarget targetType targetId r = true ∧ r.id = id := by
  rw [targetIds, List.mem_map]
  simp only [(scan.perm _).mem_iff, List.mem_filter, and_assoc]

variable (scan) in
theorem nodup_targetIds (targetType : Bytes) (targetId : ℤ) :
    (targetIds scan s targetType targetId).Nodup := by
  have hperm := (scan.perm (s.comments.rows.filter (onTarget targetType targetId))).map CommentRow.id
  rw [targetIds, hperm.nodup_iff]
  exact (List.filter_sublist.map CommentRow.id).nodup s.comments.keyed

theorem find?_removeWhere (p : CommentRow → Bool) (id : ℤ) :
    (commentTable datetime (removeWhere s p).comments).find? id =
      ((commentTable datetime s.comments).find? id).filter fun r => !p r :=
  Keyed.Table.find?_keep (commentTable datetime s.comments) _ id

variable (scan) in
theorem find?_removed (hs : Numbered s) (targetType : Bytes) (targetId id : ℤ) :
    (commentTable datetime (removeWhere s (onTarget targetType targetId)).comments).find? id =
      if 0 < id ∧ id ∈ (targetIds scan s targetType targetId).map Int.ofNat then none
      else (commentTable datetime s.comments).find? id := by
  rw [find?_removeWhere]
  rcases hfind : (commentTable datetime s.comments).find? id with _ | r
  · simp
  · rcases Keyed.Table.find?_eq_some.mp hfind with ⟨hr, hid⟩
    have hpos : 0 < id := hid ▸ Int.natCast_pos.mpr (hs r hr)
    have hmem : id ∈ (targetIds scan s targetType targetId).map Int.ofNat ↔
        onTarget targetType targetId r = true := by
      rw [List.mem_map]
      constructor
      · rintro ⟨n, hn, heq⟩
        rcases mem_targetIds.mp hn with ⟨r', hr', htarget, rfl⟩
        have hsame : r'.id = r.id := Int.ofNat_injective (heq.trans hid.symm)
        rw [← s.comments.eq_of_key_eq hr' hr hsame]
        exact htarget
      · exact fun htarget => ⟨r.id, mem_targetIds.mpr ⟨r, hr, htarget, rfl⟩, hid⟩
    simp only [hmem, hpos, true_and]
    cases htarget : onTarget targetType targetId r with
    | false => simp [htarget]
    | true => simp [htarget]

theorem equal_deleteByTarget_iff (h : CommentsEqual datetime t s) (hs : Numbered s)
    (targetType : Bytes) (targetId : ℤ) :
    CommentsEqual datetime
        (rep.applyAll t (commentDeleteByTarget datetime scan s targetType targetId .done).2)
        (commentDeleteByTarget datetime scan s targetType targetId .done).1 ↔
      (targetIds scan s targetType targetId).length ≤ maxIds := by
  have hresult : commentDeleteByTarget datetime scan s targetType targetId .done =
      (removeWhere s (onTarget targetType targetId),
        (((targetIds scan s targetType targetId).take maxIds).map Int.ofNat).map
          (comment datetime).deletion) := by
    unfold commentDeleteByTarget
    dsimp only
    rw [if_pos rfl, List.map_map]
    rfl
  rw [hresult]
  constructor
  · intro hafter
    by_contra hmany
    -- some comment of the target is not among the first 512
    have hlost : ∃ id ∈ targetIds scan s targetType targetId,
        id ∉ (targetIds scan s targetType targetId).take maxIds := by
      by_contra hall
      push Not at hall
      have hle := (List.subperm_of_subset (nodup_targetIds scan targetType targetId) hall).length_le
      rw [List.length_take] at hle
      omega
    rcases hlost with ⟨id, hid, hlost⟩
    rcases mem_targetIds.mp hid with ⟨r, hr, -, rfl⟩
    have hgone : (commentTable datetime
        (removeWhere s (onTarget targetType targetId)).comments).find? (r.id : ℤ) = none := by
      rw [find?_removed scan hs]
      exact if_pos ⟨Int.natCast_pos.mpr (hs r hr), List.mem_map.mpr ⟨r.id, hid, rfl⟩⟩
    refine Kind.not_equal_of_some ?_ hgone hafter
    have hkept : rep.applyAll t
        ((((targetIds scan s targetType targetId).take maxIds).map Int.ofNat).map
          (comment datetime).deletion) (.row .comment r.id) = t (.row .comment r.id) := by
      refine (Kind.applyAll_deletions (K := comment datetime) _ (r.id : ℤ)).trans (if_neg ?_)
      rintro ⟨-, hmem⟩
      rcases List.mem_map.mp hmem with ⟨n, hn, heq⟩
      rw [Int.ofNat_injective heq] at hn
      exact hlost hn
    show rep.applyAll t _ (.row .comment r.id) ≠ none
    rw [hkept]
    exact Kind.Equal.ne_none h hr
  · intro hfew
    rw [List.take_of_length_le hfew]
    exact Kind.Equal.deletions h (find?_removed scan hs targetType targetId)

theorem row_ghosted_iff (r : CommentRow) (now : ℕ) :
    (comment datetime).row (ghosted now r) = (comment datetime).row r ↔
      r.authorName = bytes "Deleted user" ∧ datetime r.updatedAt = datetime now := by
  constructor
  · intro h
    have hname : bytes "author_name" ∈ commentColumns := by decide +kernel
    have htime : bytes "updated_at" ∈ commentColumns := by decide +kernel
    have hauthor := congrFun h (bytes "author_name")
    have hupdated := congrFun h (bytes "updated_at")
    rw [Kind.row_apply _ hname, Kind.row_apply _ hname] at hauthor
    rw [Kind.row_apply _ htime, Kind.row_apply _ htime] at hupdated
    have hauthor' : Json.str (bytes "Deleted user") = .str r.authorName := hauthor
    have hupdated' : Json.str (datetime now) = .str (datetime r.updatedAt) := hupdated
    exact ⟨(Json.str.inj hauthor').symm, (Json.str.inj hupdated').symm⟩
  · rintro ⟨hname, htime⟩
    have hpayload : (ghosted now r).payload datetime = r.payload datetime := by
      unfold CommentRow.payload ghosted
      dsimp only
      rw [hname, htime]
    exact congrArg (fun payload => (comment datetime).restrict fun c =>
      ((getObjectItem payload c).map (·.bind)).getD .null) hpayload

/-- A user whose comments are renamed without a journal row: the replica is still equal
only where they were renamed before, in the same second. -/
theorem equal_ghost_iff (h : CommentsEqual datetime t s) (uid : ℤ) (now : ℕ) :
    CommentsEqual datetime t (ghostComments s uid now) ↔
      ∀ r ∈ s.comments.rows, r.userId = uid →
        r.authorName = bytes "Deleted user" ∧ datetime r.updatedAt = datetime now := by
  have hfind : ∀ id, (commentTable datetime (ghostComments s uid now).comments).find? id =
      ((commentTable datetime s.comments).find? id).map fun r =>
        if r.userId = uid then ghosted now r else r := by
    intro id
    have hkey : ∀ r : CommentRow, (comment datetime).id
        (if decide (r.userId = uid) = true then ghosted now r else r) =
          (comment datetime).id r := by
      intro r
      split
      · rfl
      · rfl
    refine (Keyed.Table.find?_update (commentTable datetime s.comments) _ hkey id).trans ?_
    simp only [decide_eq_true_eq]
  constructor
  · intro hafter r hr huid
    have hself : (commentTable datetime s.comments).find? (r.id : ℤ) = some r :=
      Keyed.Table.find?_eq_some.mpr ⟨hr, rfl⟩
    have hbefore := (h (r.id : ℤ)).symm.trans (hafter (r.id : ℤ))
    rw [hfind, hself, Option.map_some, Option.map_some, Option.map_some, if_pos huid] at hbefore
    exact (row_ghosted_iff r now).mp (Option.some.inj hbefore).symm
  · intro hall id
    refine (h id).trans ?_
    rw [hfind]
    rcases hid : (commentTable datetime s.comments).find? id with _ | r
    · rfl
    · rw [Option.map_some, Option.map_some, Option.map_some]
      split
      · next huid =>
        have hr := (Keyed.Table.find?_eq_some.mp hid).1
        rw [(row_ghosted_iff r now).mpr (hall r hr huid)]
      · rfl

/-! ## All calls -/

theorem Numbered.insertComment (hs : Numbered s) (c : Submission) (now : ℕ) :
    Numbered (s.insertComment c now) := by
  intro r hr
  rcases Keyed.Table.mem_insertOrIgnore.mp hr with hold | ⟨rfl, -⟩
  · exact hs r hold
  · exact Nat.succ_pos _

theorem Numbered.hide (hs : Numbered s) (id now : ℕ) : Numbered (s.hide id now) := by
  intro r hr
  rcases List.mem_map.mp hr with ⟨r', hr', rfl⟩
  have hpos := hs r' hr'
  split
  · exact hpos
  · exact hpos

theorem Numbered.keep (hs : Numbered s)
    (hrows : s'.comments.rows = s.comments.rows.filter p) : Numbered s' := by
  intro r hr
  rw [hrows] at hr
  exact hs r (List.mem_of_mem_filter hr)

theorem Numbered.createPending (hs : Numbered s) (c : Submission) (o : Outcomes) :
    Numbered (createPending datetime s c o).1 := by
  have hstep : ∀ (st : State) (a : Attempt), Numbered st.store →
      Numbered (PendingComment.step datetime c st a).store := by
    intro st a hst
    unfold PendingComment.step
    split
    · next stmt _ =>
      cases stmt with
      | create =>
        dsimp only [Stmt.exec]
        split
        · exact hst.insertComment c a.now
        · exact hst
      | journalCreated id => exact hst
      | hide id =>
        dsimp only [Stmt.exec]
        split
        · exact hst.hide id a.now
        · exact hst
      | journalHidden id => exact hst
      | queue id =>
        dsimp only [Stmt.exec]
        split
        · exact hst
        · exact hst
      | drop id =>
        dsimp only [Stmt.exec]
        split
        · exact hst.keep rfl
        · exact hst
    · exact hst
  have hstart : Numbered (start s).store := hs
  exact run_invariant (PendingComment.step datetime c) hstep hstart o.attempts

theorem Numbered.approve (hs : Numbered s) (id : ℕ) (selected : Outcome) (updated : Attempt)
    (finished : Outcome) : Numbered (approve s id selected updated finished).1 := by
  unfold CommentDelete.approve
  split
  · exact hs
  · next item _ =>
    split
    · intro r hr
      rw [finishReview_comments] at hr
      have hupdated : Numbered (CommentDelete.updateWhere s (fun r => r.id = id && r.deleted)
          (fun r => { r with content := item.content, deleted := false,
                             updatedAt := updated.now }) fun _ => rfl) := hs.updateWhere _
      exact hupdated r hr
    · exact hs

theorem Numbered.exec (hs : Numbered s) (op : Op) : Numbered (exec datetime scan s op).1 := by
  unfold CommentReplicas.exec
  cases op with
  | create c a =>
    dsimp only [commentCreate]
    split
    · exact hs.insertComment c a.now
    · exact hs
  | update id uid content a =>
    dsimp only [commentUpdate]
    split
    · exact hs.updateWhere _
    · exact hs
  | delete id uid a =>
    dsimp only
    rw [commentDelete_fst]
    split
    · exact hs.updateWhere _
    · exact hs
  | deleteAdmin id a =>
    dsimp only
    rw [commentDeleteAdmin_fst]
    split
    · exact hs.updateWhere _
    · exact hs
  | deleteByTarget targetType targetId o =>
    dsimp only [commentDeleteByTarget]
    split
    · exact hs.keep rfl
    · exact hs
  | createPending c o => exact hs.createPending c o
  | approve id selected updated finished => exact hs.approve id selected updated finished
  | ghost uid now committed =>
    dsimp only
    split
    · exact hs.updateWhere _
    · exact hs

theorem equal_exec_iff (hrep : ∀ r, (comment datetime).Takes rep r) (t : Tables) (s : Store)
    (op : Op) (hs : Numbered s) (h : CommentsEqual datetime t s) :
    CommentsEqual datetime (rep.applyAll t (exec datetime scan s op).2)
        (exec datetime scan s op).1 ↔ ToldInFull datetime scan s op := by
  cases op with
  | create c a => exact iff_true_intro (equal_create h hrep c a)
  | update id uid content a =>
    exact iff_true_intro (equal_updateIfDone h hs hrep _ (fun _ => id_of_own) a)
  | delete id uid a =>
    refine iff_true_intro ?_
    unfold exec
    dsimp only
    rw [commentDelete_fst]
    exact equal_updateIfDone h hs hrep _ (fun _ => id_of_own) a
  | deleteAdmin id a =>
    refine iff_true_intro ?_
    unfold exec
    dsimp only
    rw [commentDeleteAdmin_fst]
    refine equal_updateIfDone h hs hrep _ ?_ a
    intro r hr
    rw [Bool.and_eq_true, decide_eq_true_eq] at hr
    exact hr.1
  | deleteByTarget targetType targetId o =>
    by_cases hdone : o = .done
    · rw [hdone]
      exact (equal_deleteByTarget_iff h hs targetType targetId).trans
        ⟨fun hfew _ => hfew, fun hall => hall rfl⟩
    · have hnothing : commentDeleteByTarget datetime scan s targetType targetId o = (s, []) :=
        if_neg hdone
      refine iff_of_true ?_ fun h => absurd h hdone
      unfold exec
      dsimp only
      rw [hnothing]
      exact h
  | createPending c o => exact equal_createPending_iff h hrep c o
  | approve id selected updated finished =>
    exact iff_true_intro (equal_approve h hs hrep id selected updated finished)
  | ghost uid now committed =>
    cases committed with
    | false => exact iff_of_true h fun hdone => absurd hdone (by decide)
    | true => exact (equal_ghost_iff h uid now).trans ⟨fun hall _ => hall, fun hall => hall rfl⟩

/-- The comments of a replica stay equal to the primary's over a run of calls exactly when
every call of it is told in full. -/
theorem comments_replicate_iff (hrep : ∀ r, (comment datetime).Takes rep r) (s : Store)
    (hs : Numbered s) (h : CommentsEqual datetime t s) (ops : List Op) :
    (∀ p, Reaches (Primary.step (exec datetime scan)) ⟨s, []⟩ ops p →
        Replicated (CommentsEqual datetime) rep t p) ↔
      AllSteps (fun s op => (exec datetime scan s op).1) (ToldInFull datetime scan) s ops :=
  replicates_iff (fun _ op hs => hs.exec op) (equal_exec_iff hrep) hs h ops

end Calls

/-! ## Calls that replicas are not told of -/

theorem anyReplica_takes (datetime : ℕ → Bytes) (r : CommentRow) :
    (comment datetime).Takes anyReplica r where
  columns := rfl
  accepts := rfl
  kept h := nomatch h

def rowOrder : Scan CommentRow where
  order rows := rows
  perm rows := List.Perm.refl rows

theorem equal_noComments (datetime : ℕ → Bytes) :
    CommentsEqual datetime (fun _ => none) noComments := fun _ => rfl

theorem numbered_noComments : Numbered noComments := fun _ hr => nomatch hr

def primaryAfter (ops : List Op) : Primary Store :=
  run (Primary.step (exec (fun _ => []) rowOrder)) ⟨noComments, []⟩ ops

def writtenAndDeleted : List Op :=
  [.create linkHeavy ⟨.done, 0⟩, .update 1 2 (bytes "hello") ⟨.done, 1⟩, .delete 1 2 ⟨.done, 2⟩]

theorem written_and_deleted_replicates :
    Replicated (CommentsEqual fun _ => []) anyReplica (fun _ => none)
      (run (Primary.step (exec (fun _ => []) rowOrder)) ⟨noComments, []⟩ writtenAndDeleted) := by
  refine (comments_replicate_iff (anyReplica_takes _) noComments numbered_noComments
    (equal_noComments _) writtenAndDeleted).mpr ?_ _ (reaches_run _ _)
  exact ⟨trivial, trivial, trivial, trivial⟩

/-- A comment that waits for review is journaled twice; then it cannot be queued, and is
removed. -/
def notQueued : List Op :=
  [.createPending linkHeavy ⟨⟨.done, 0⟩, ⟨.done, 0⟩, ⟨.done, 0⟩, ⟨.done, 0⟩, ⟨.failed, 0⟩,
    ⟨.done, 0⟩⟩]

/-- A comment is written, and its author's account removed. -/
def authorGhosted : List Op := [.create linkHeavy ⟨.done, 0⟩, .ghost 2 1 true]

/-- The comment that was removed stays on the replica, and so does the name of the author
who was. -/
theorem untold_calls_diverge :
    (primaryAfter notQueued).state.comments.rows = [] ∧
    ¬ Replicated (CommentsEqual fun _ => []) anyReplica (fun _ => none) (primaryAfter notQueued) ∧
    (primaryAfter authorGhosted).state.comments.rows.map (·.authorName) =
      [bytes "Deleted user"] ∧
    ¬ Replicated (CommentsEqual fun _ => []) anyReplica (fun _ => none)
      (primaryAfter authorGhosted) := by
  refine ⟨by decide +kernel, ?_, by decide +kernel, ?_⟩
  · intro h
    have hsome := congrArg Option.isSome (h 1)
    exact absurd hsome (by decide +kernel)
  · intro h
    have hname := congrArg (Option.map fun row => row (bytes "author_name")) (h 1)
    exact absurd hname (by decide +kernel)

end FlyBoard.CommentReplicas

import FlyBoard.Handlers.PendingComment

/-!
# Deleting comments (`src/handlers/comment.c`, `src/db/comment.c`, `src/db/moderation.c`)

`deleted = 1` says two things: the comment was deleted, or it waits for review. A delete
of a comment that waits for review changes no row and is reported as done; the text is
still in the queue, and an approval publishes it.

The functions are those that the handlers call, with what becomes of each statement. The
state beside the tables remembers which comments were deleted by their author or a
moderator.
-/

namespace FlyBoard.CommentDelete

open Run Bytes PendingComment
open Review (Outcome)
open Moderation (Settings Role ItemStatus roleCanModerate boardUserCanModerate)

/-! ## Statements -/

/-- UPDATE comments SET … WHERE …: `f` changes no id. -/
def updateWhere (s : Store) (p : CommentRow → Bool) (f : CommentRow → CommentRow)
    (hf : ∀ r, (f r).id = r.id) : Store where
  comments := s.comments.update (fun r => if p r then f r else r) (by
    intro r
    split
    · exact hf r
    · rfl)
  sequence := s.sequence
  fresh := by
    intro r hr
    rcases List.mem_map.mp hr with ⟨r', hr', rfl⟩
    have hle := s.fresh r' hr'
    split
    · rw [hf]
      exact hle
    · exact hle
  items := s.items

/-- `db_comment_update` -/
def commentUpdate (s : Store) (id : ℕ) (uid : ℤ) (content : Bytes) (a : Attempt) : Store :=
  if a.outcome = .done then
    updateWhere s (fun r => r.id = id && r.userId = uid && !r.deleted)
      (fun r => { r with content := content, updatedAt := a.now }) fun _ => rfl
  else s

/-- `db_comment_delete`. Whether a row was changed is not part of what it returns. -/
def commentDelete (s : Store) (id : ℕ) (uid : ℤ) (a : Attempt) : Store × Bool :=
  if a.outcome = .done then
    (updateWhere s (fun r => r.id = id && r.userId = uid && !r.deleted) (·.hidden a.now)
      fun _ => rfl, true)
  else (s, false)

/-- `db_comment_delete_admin` -/
def commentDeleteAdmin (s : Store) (id : ℕ) (a : Attempt) : Store × Bool :=
  if a.outcome = .done then
    (updateWhere s (fun r => r.id = id && !r.deleted) (·.hidden a.now) fun _ => rfl, true)
  else (s, false)

def waits (i : ItemRow) (id : ℕ) : Bool :=
  i.targetType = bytes "comment" && i.targetId = id && i.status = .pending

/-- `pending_item` of a comment. -/
def pendingItem (s : Store) (id : ℕ) : Option ItemRow := s.items.find? (waits · id)

/-- `finish_review` of a comment, and whether it changed one row. -/
def finishReview (s : Store) (id : ℕ) (status : ItemStatus) (o : Outcome) : Store × Bool :=
  if o = .done then
    ({ s with items := s.items.map fun i => if waits i id then { i with status := status } else i },
      s.items.countP (waits · id) = 1)
  else (s, false)

/-- `db_moderation_approve` of a comment: its SELECT and its two UPDATEs. -/
def approve (s : Store) (id : ℕ) (selected : Outcome) (updated : Attempt) (finished : Outcome) :
    Store × Bool :=
  match if selected = .done then pendingItem s id else none with
  | none => (s, false)
  | some i =>
    -- the UPDATE has to change a row
    if updated.outcome = .done ∧ (s.comments.find? id).any (·.deleted) then
      let s' := updateWhere s (fun r => r.id = id && r.deleted)
        (fun r => { r with content := i.content, deleted := false, updatedAt := updated.now })
        fun _ => rfl
      finishReview s' id .approved finished
    else (s, false)

/-- `db_moderation_reject` of a comment. -/
def reject (s : Store) (id : ℕ) (selected finished : Outcome) : Store × Bool :=
  match if selected = .done then pendingItem s id else none with
  | none => (s, false)
  | some _ => finishReview s id .rejected finished

/-! ## The handler -/

/-- A request to `handler_comment_delete_get`. -/
structure Delete where
  /-- The session's user; 0 without one. -/
  uid : ℤ
  role : Role
  /-- A form's POST; a GET shows the confirmation page. -/
  posted : Bool
  id : ℕ
  /-- `board_id` of the posts that `db_post_get_by_id` finds. -/
  board : ℤ → Option ℕ
  selected : Outcome
  updated : Attempt

variable (cfg : Settings)

/-- `comment_board_moderator` -/
def commentBoardModerator (c : CommentRow) (r : Delete) : Bool :=
  if c.targetType ≠ bytes "post" then roleCanModerate cfg r.role
  else (r.board c.targetId).any fun b => boardUserCanModerate cfg b r.uid.toNat r.role

/-- `db_comment_get_by_id` -/
def commentGetById (s : Store) (r : Delete) : Option CommentRow :=
  if r.selected = .done then s.comments.find? r.id else none

/-- `handler_comment_delete_get`, and whether it takes the comment to be removed. -/
def handlerDelete (s : Store) (r : Delete) : Store × Bool :=
  if r.uid ≤ 0 ∨ r.posted = false then (s, false)
  else
    match commentGetById s r with
    | some c =>
      if commentBoardModerator cfg c r then commentDeleteAdmin s r.id r.updated
      else commentDelete s r.id r.uid r.updated
    | none => ((commentDelete s r.id r.uid r.updated).1, false)

def mayDelete (s : Store) (r : Delete) : Bool :=
  (s.comments.find? r.id).any fun c => c.userId = r.uid || commentBoardModerator cfg c r

/-! ## Runs -/

inductive Op
  /-- `db_comment_create` -/
  | create (c : Submission) (a : Attempt)
  /-- `db_moderation_create_pending_comment`, as far as it gets -/
  | createPending (c : Submission) (as : List Attempt)
  /-- `handler_comment_edit_post` -/
  | edit (id : ℕ) (uid : ℤ) (content : Bytes) (a : Attempt)
  | delete (r : Delete)
  | approve (id : ℕ) (selected : Outcome) (updated : Attempt) (finished : Outcome)
  | reject (id : ℕ) (selected finished : Outcome)

/-- The tables, and the comments that their author or a moderator has deleted, as the
handler reported. -/
structure Site where
  store : Store
  withdrawn : List ℕ

-- `datetime` is the text that SQLite makes of a time
variable (datetime : ℕ → Bytes)

def exec (s : Store) : Op → Store
  | .create c a => if a.outcome = .done then s.insertComment c a.now else s
  | .createPending c as => (run (PendingComment.step datetime c) (start s) as).store
  | .edit id uid content a => commentUpdate s id uid content a
  | .delete r => (handlerDelete cfg s r).1
  | .approve id selected updated finished => (CommentDelete.approve s id selected updated finished).1
  | .reject id selected finished => (CommentDelete.reject s id selected finished).1

def step (s : Site) (op : Op) : Site where
  store := exec cfg datetime s.store op
  withdrawn :=
    match op with
    | .delete r =>
      if (handlerDelete cfg s.store r).2 && mayDelete cfg s.store r then r.id :: s.withdrawn
      else s.withdrawn
    | _ => s.withdrawn

/-- A comment that the pages show; the realtime list asks for nothing else. -/
def Visible (s : Store) (id : ℕ) : Prop := ∃ r ∈ s.comments.rows, r.id = id ∧ r.deleted = false

instance (s : Store) (id : ℕ) : Decidable (Visible s id) := List.decidableBEx _ _

def StaysDeleted (s : Site) : Prop :=
  ∀ id ∈ s.withdrawn, ∀ later, ¬ Visible (run (step cfg datetime) s later).store id

/-- The request gets as far as the UPDATE, of a comment that the user may delete, and the
UPDATE is done. -/
def CarriedOut (s : Store) (r : Delete) : Prop :=
  0 < r.uid ∧ r.posted = true ∧ r.selected = .done ∧ r.updated.outcome = .done ∧
    mayDelete cfg s r = true

/-- A delete that is carried out is not of a comment that waits for review. -/
def NotHeld (s : Site) : Op → Prop
  | .delete r => CarriedOut cfg s.store r → pendingItem s.store r.id = none
  | _ => True

/-! ## What a deleted comment is -/

/-- The comment is known, no row shows it, and no item of the queue waits for it. -/
structure Gone (s : Store) (id : ℕ) : Prop where
  known : id ≤ s.sequence
  hidden : ∀ r ∈ s.comments.rows, r.id = id → r.deleted = true
  unqueued : ∀ i ∈ s.items, waits i id = false

variable {s s' : Store} {id : ℕ} {p : CommentRow → Bool} {r : Delete} {c : CommentRow} {op : Op}

theorem Gone.not_visible (h : Gone s id) : ¬ Visible s id := by
  rintro ⟨r, hr, hid, hshown⟩
  rw [h.hidden r hr hid] at hshown
  exact absurd hshown (by decide)

theorem pendingItem_eq_none : pendingItem s id = none ↔ ∀ i ∈ s.items, waits i id = false := by
  simp only [pendingItem, List.find?_eq_none, Bool.not_eq_true]

theorem Gone.pendingItem (h : Gone s id) : pendingItem s id = none :=
  pendingItem_eq_none.mpr h.unqueued

theorem Gone.updateWhere (h : Gone s id) {f : CommentRow → CommentRow} (hf : ∀ r, (f r).id = r.id)
    (hshow : ∀ r, p r = true → r.id = id → r.deleted = true → (f r).deleted = true) :
    Gone (updateWhere s p f hf) id where
  known := h.known
  hidden := by
    intro r hr hid
    rcases List.mem_map.mp hr with ⟨r', hr', rfl⟩
    split at hid
    · next hp =>
      rw [if_pos hp]
      rw [hf] at hid
      exact hshow r' hp hid (h.hidden r' hr' hid)
    · next hp =>
      rw [if_neg hp]
      exact h.hidden r' hr' hid
  unqueued := h.unqueued

theorem Gone.commentUpdate (h : Gone s id) (id' : ℕ) (uid : ℤ) (content : Bytes) (a : Attempt) :
    Gone (commentUpdate s id' uid content a) id := by
  unfold CommentDelete.commentUpdate
  split
  · exact h.updateWhere _ fun r _ _ hr => hr
  · exact h

theorem Gone.commentDelete (h : Gone s id) (id' : ℕ) (uid : ℤ) (a : Attempt) :
    Gone (commentDelete s id' uid a).1 id := by
  unfold CommentDelete.commentDelete
  split
  · dsimp only
    exact h.updateWhere _ fun _ _ _ _ => rfl
  · exact h

theorem Gone.commentDeleteAdmin (h : Gone s id) (id' : ℕ) (a : Attempt) :
    Gone (commentDeleteAdmin s id' a).1 id := by
  unfold CommentDelete.commentDeleteAdmin
  split
  · dsimp only
    exact h.updateWhere _ fun _ _ _ _ => rfl
  · exact h

theorem Gone.handlerDelete (h : Gone s id) (r : Delete) : Gone (handlerDelete cfg s r).1 id := by
  unfold CommentDelete.handlerDelete
  split
  · exact h
  · split
    · split
      · exact h.commentDeleteAdmin r.id r.updated
      · exact h.commentDelete r.id r.uid r.updated
    · exact h.commentDelete r.id r.uid r.updated

theorem Gone.finishReview (h : Gone s id) (id' : ℕ) {status : ItemStatus}
    (hstatus : status ≠ .pending) (o : Outcome) : Gone (finishReview s id' status o).1 id := by
  unfold CommentDelete.finishReview
  split
  · refine ⟨h.known, h.hidden, ?_⟩
    intro i hi
    rcases List.mem_map.mp hi with ⟨i', hi', rfl⟩
    split
    · simp [waits, hstatus]
    · exact h.unqueued i' hi'
  · exact h

theorem Gone.approve (h : Gone s id) (id' : ℕ) (selected : Outcome) (updated : Attempt)
    (finished : Outcome) : Gone (approve s id' selected updated finished).1 id := by
  unfold CommentDelete.approve
  split
  · exact h
  · next i hitem =>
    have hne : id' ≠ id := by
      rintro rfl
      rw [h.pendingItem, ite_self] at hitem
      exact nomatch hitem
    split
    · refine Gone.finishReview ?_ id' (by decide) finished
      refine h.updateWhere _ ?_
      intro r hp hid _
      rw [Bool.and_eq_true, decide_eq_true_eq] at hp
      exact absurd (hp.1.symm.trans hid) hne
    · exact h

theorem Gone.reject (h : Gone s id) (id' : ℕ) (selected finished : Outcome) :
    Gone (reject s id' selected finished).1 id := by
  unfold CommentDelete.reject
  split
  · exact h
  · exact h.finishReview id' (by decide) finished

theorem Gone.insertComment (h : Gone s id) (c : Submission) (now : ℕ) :
    Gone (s.insertComment c now) id where
  known := Nat.le_succ_of_le h.known
  hidden := by
    intro r hr hid
    rcases Keyed.Table.mem_insertOrIgnore.mp hr with hold | ⟨rfl, -⟩
    · exact h.hidden r hold hid
    · -- the new id is above all that were ever given
      have hnew : s.sequence + 1 = id := hid
      have hknown := h.known
      omega
  unqueued := h.unqueued

/-! ## The call that creates a held comment -/

def Elsewhere (id : ℕ) : Stmt ⊕ Option ℕ → Prop
  | .inl .create => True
  | .inl (.journalCreated id') => id' ≠ id
  | .inl (.hide id') => id' ≠ id
  | .inl (.journalHidden id') => id' ≠ id
  | .inl (.queue id') => id' ≠ id
  | .inl (.drop id') => id' ≠ id
  | .inr _ => True

theorem Gone.hide (h : Gone s id) (id' now : ℕ) : Gone (s.hide id' now) id where
  known := h.known
  hidden := by
    intro r hr hid
    rcases List.mem_map.mp hr with ⟨r', hr', rfl⟩
    split
    · rfl
    · next hkept =>
      rw [if_neg hkept] at hid
      exact h.hidden r' hr' hid
  unqueued := h.unqueued

theorem Gone.dropComment (h : Gone s id) (id' : ℕ) : Gone (s.dropComment id') id :=
  ⟨h.known, fun r hr => h.hidden r (List.mem_of_mem_filter hr), h.unqueued⟩

theorem Gone.queue (h : Gone s id) {id' : ℕ} (hne : id' ≠ id) (c : Submission) (now : ℕ) :
    Gone { s with items := s.items ++ [c.item id' now] } id := by
  refine ⟨h.known, h.hidden, ?_⟩
  intro i hi
  rcases List.mem_append.mp hi with hold | hnew
  · exact h.unqueued i hold
  · rw [List.mem_singleton.mp hnew]
    simp [waits, Submission.item, hne]

theorem Gone.stmt {st : State} (h : Gone st.store id) (hnext : Elsewhere id st.next)
    (c : Submission) (a : Attempt) :
    Gone (PendingComment.step datetime c st a).store id ∧
      Elsewhere id (PendingComment.step datetime c st a).next := by
  unfold PendingComment.step
  cases hstmt : st.next with
  | inr r =>
    dsimp only
    exact ⟨h, hnext⟩
  | inl stmt =>
    rw [hstmt] at hnext
    cases stmt with
    | create =>
      dsimp only [Stmt.exec]
      split
      · have hknown := h.known
        exact ⟨h.insertComment c a.now, by dsimp only [Elsewhere]; omega⟩
      · exact ⟨h, trivial⟩
    | journalCreated id' => exact ⟨h, hnext⟩
    | hide id' =>
      dsimp only [Stmt.exec]
      split
      · refine ⟨h.hide id' a.now, ?_⟩
        dsimp only
        split
        · exact hnext
        · exact hnext
      · exact ⟨h, hnext⟩
    | journalHidden id' => exact ⟨h, hnext⟩
    | queue id' =>
      dsimp only [Stmt.exec]
      split
      · exact ⟨h.queue hnext c a.now, trivial⟩
      · exact ⟨h, hnext⟩
    | drop id' =>
      dsimp only [Stmt.exec]
      refine ⟨?_, trivial⟩
      split
      · exact h.dropComment id'
      · exact h

theorem Gone.createPending (h : Gone s id) (c : Submission) (as : List Attempt) :
    Gone (run (PendingComment.step datetime c) (start s) as).store id := by
  have hstep : ∀ (st : State) (a : Attempt), Gone st.store id ∧ Elsewhere id st.next →
      Gone (PendingComment.step datetime c st a).store id ∧
        Elsewhere id (PendingComment.step datetime c st a).next :=
    fun _ a hst => hst.1.stmt datetime hst.2 c a
  have hstart : Gone (start s).store id ∧ Elsewhere id (start s).next := ⟨h, trivial⟩
  exact (run_invariant _ hstep hstart as).1

/-! ## Runs -/

theorem Gone.exec (h : Gone s id) (op : Op) : Gone (exec cfg datetime s op) id := by
  cases op with
  | create c a =>
    dsimp only [CommentDelete.exec]
    split
    · exact h.insertComment c a.now
    · exact h
  | createPending c as => exact h.createPending datetime c as
  | edit id' uid content a => exact h.commentUpdate id' uid content a
  | delete r => exact h.handlerDelete cfg r
  | approve id' selected updated finished => exact h.approve id' selected updated finished
  | reject id' selected finished => exact h.reject id' selected finished

theorem Gone.run {t : Site} (h : Gone t.store id) (later : List Op) :
    Gone (run (step cfg datetime) t later).store id := by
  have hstep : ∀ (t : Site) (op : Op), Gone t.store id → Gone (step cfg datetime t op).store id :=
    fun _ op ht => ht.exec cfg datetime op
  exact run_invariant _ hstep h later

/-! ## Deletes -/

theorem mayDelete_iff : mayDelete cfg s r = true ↔
    ∃ c, s.comments.find? r.id = some c ∧
      (c.userId = r.uid ∨ commentBoardModerator cfg c r = true) := by
  rw [mayDelete, Option.any_eq_true]
  simp only [Bool.or_eq_true, decide_eq_true_eq]

/-- The handler reports success to the author or a moderator exactly when the request is
carried out. -/
theorem handlerDelete_reports_iff :
    ((handlerDelete cfg s r).2 && mayDelete cfg s r) = true ↔ CarriedOut cfg s r := by
  rw [Bool.and_eq_true]
  constructor
  · rintro ⟨hremoved, hmay⟩
    unfold handlerDelete at hremoved
    split at hremoved
    · exact absurd hremoved Bool.false_ne_true
    · next hsession =>
      rw [not_or, Int.not_le, Bool.not_eq_false] at hsession
      unfold commentGetById at hremoved
      by_cases hselected : r.selected = .done
      · refine ⟨hsession.1, hsession.2, hselected, ?_, hmay⟩
        by_contra hupdated
        simp only [commentDelete, commentDeleteAdmin, if_neg hupdated] at hremoved
        split at hremoved
        · rw [ite_self] at hremoved
          exact absurd hremoved Bool.false_ne_true
        · exact absurd hremoved Bool.false_ne_true
      · rw [if_neg hselected] at hremoved
        exact absurd hremoved Bool.false_ne_true
  · rintro ⟨huid, hposted, hselected, hupdated, hmay⟩
    refine ⟨?_, hmay⟩
    rcases (mayDelete_iff cfg).mp hmay with ⟨c, hc, -⟩
    have hsession : ¬ (r.uid ≤ 0 ∨ r.posted = false) := by
      rw [not_or, Int.not_le, Bool.not_eq_false]
      exact ⟨huid, hposted⟩
    rw [handlerDelete, if_neg hsession, commentGetById, if_pos hselected, hc]
    simp only [commentDelete, commentDeleteAdmin, if_pos hupdated]
    split <;> rfl

/-- An UPDATE that takes the only row of the id, unless it is deleted already, hides it. -/
theorem hidden_of_updateWhere (hc : s.comments.find? id = some c)
    (hp : c.deleted = false → p c = true) (now : ℕ)
    (hf : ∀ r : CommentRow, (r.hidden now).id = r.id) :
    ∀ r ∈ (updateWhere s p (·.hidden now) hf).comments.rows, r.id = id → r.deleted = true := by
  intro r hr hid
  rcases Keyed.Table.find?_eq_some.mp hc with ⟨hmem, hcid⟩
  rcases List.mem_map.mp hr with ⟨r', hr', rfl⟩
  have hid' : r'.id = id := by
    split at hid
    · exact hid
    · exact hid
  obtain rfl : r' = c := s.comments.eq_of_key_eq hr' hmem (hid'.trans hcid.symm)
  split
  · rfl
  · next hskip =>
    exact Bool.eq_true_of_not_eq_false fun hshown => hskip (hp hshown)

theorem CarriedOut.hidden (h : CarriedOut cfg s r) :
    ∀ c ∈ (handlerDelete cfg s r).1.comments.rows, c.id = r.id → c.deleted = true := by
  rcases h with ⟨huid, hposted, hselected, hupdated, hmay⟩
  rcases (mayDelete_iff cfg).mp hmay with ⟨c, hc, hright⟩
  have hcid : c.id = r.id := (Keyed.Table.find?_eq_some.mp hc).2
  have hsession : ¬ (r.uid ≤ 0 ∨ r.posted = false) := by
    rw [not_or, Int.not_le, Bool.not_eq_false]
    exact ⟨huid, hposted⟩
  rw [handlerDelete, if_neg hsession, commentGetById, if_pos hselected, hc]
  dsimp only
  split
  · rw [commentDeleteAdmin, if_pos hupdated]
    refine hidden_of_updateWhere hc ?_ r.updated.now fun _ => rfl
    intro hshown
    simp [hcid, hshown]
  · next hmoderator =>
    have hauthor : c.userId = r.uid := hright.resolve_right hmoderator
    rw [commentDelete, if_pos hupdated]
    refine hidden_of_updateWhere hc ?_ r.updated.now fun _ => rfl
    intro hshown
    simp [hcid, hauthor, hshown]

theorem handlerDelete_keeps (r : Delete) :
    (handlerDelete cfg s r).1.sequence = s.sequence ∧ (handlerDelete cfg s r).1.items = s.items ∧
      ∀ c ∈ s.comments.rows, ∃ c' ∈ (handlerDelete cfg s r).1.comments.rows, c'.id = c.id := by
  have hupdate : ∀ (p : CommentRow → Bool) (now : ℕ) (hf), ∀ c ∈ s.comments.rows,
      ∃ c' ∈ (updateWhere s p (·.hidden now) hf).comments.rows, c'.id = c.id := by
    intro p now hf c hc
    refine ⟨_, List.mem_map_of_mem hc, ?_⟩
    split <;> rfl
  have hself : ∀ c ∈ s.comments.rows, ∃ c' ∈ s.comments.rows, c'.id = c.id :=
    fun c hc => ⟨c, hc, rfl⟩
  have hdelete : (commentDelete s r.id r.uid r.updated).1.sequence = s.sequence ∧
      (commentDelete s r.id r.uid r.updated).1.items = s.items ∧ ∀ c ∈ s.comments.rows,
        ∃ c' ∈ (commentDelete s r.id r.uid r.updated).1.comments.rows, c'.id = c.id := by
    unfold commentDelete
    split
    · exact ⟨rfl, rfl, hupdate _ r.updated.now fun _ => rfl⟩
    · exact ⟨rfl, rfl, hself⟩
  unfold handlerDelete
  split
  · exact ⟨rfl, rfl, hself⟩
  · split
    · split
      · unfold commentDeleteAdmin
        split
        · exact ⟨rfl, rfl, hupdate _ r.updated.now fun _ => rfl⟩
        · exact ⟨rfl, rfl, hself⟩
      · exact hdelete
    · exact hdelete

/-- A delete that is carried out, of a comment that does not wait for review, is final. -/
theorem CarriedOut.gone (h : CarriedOut cfg s r) (hheld : pendingItem s r.id = none) :
    Gone (handlerDelete cfg s r).1 r.id where
  known := by
    rcases (mayDelete_iff cfg).mp h.2.2.2.2 with ⟨c, hc, -⟩
    rcases Keyed.Table.find?_eq_some.mp hc with ⟨hmem, hcid⟩
    rw [(handlerDelete_keeps cfg r).1, ← hcid]
    exact s.fresh c hmem
  hidden := h.hidden
  unqueued := by
    rw [(handlerDelete_keeps cfg r).2.1]
    exact pendingItem_eq_none.mp hheld

/-! ## Approval of what waits -/

theorem visible_approve {i : ItemRow} (hitem : pendingItem s id = some i)
    (hc : c ∈ s.comments.rows) (hid : c.id = id) (now : ℕ) :
    Visible (approve s id .done ⟨.done, now⟩ .done).1 id := by
  have hfind : s.comments.find? id = some c := Keyed.Table.find?_eq_some.mpr ⟨hc, hid⟩
  unfold approve
  rw [if_pos rfl, hitem]
  dsimp only
  cases hdeleted : c.deleted with
  | false =>
    rw [hfind, Option.any_some, hdeleted, if_neg (by simp)]
    exact ⟨c, hc, hid, hdeleted⟩
  | true =>
    rw [hfind, Option.any_some, hdeleted, if_pos ⟨rfl, rfl⟩, finishReview, if_pos rfl]
    refine ⟨{ c with content := i.content, deleted := false, updatedAt := now }, ?_, hid, rfl⟩
    refine List.mem_map.mpr ⟨c, hc, if_pos ?_⟩
    simp [hid, hdeleted]

def Settled (s : Site) : Prop := ∀ id ∈ s.withdrawn, Gone s.store id

theorem Settled.afterStep {s : Site} (h : Settled s) (hop : NotHeld cfg s op) :
    Settled (step cfg datetime s op) := by
  intro id hid
  have hkeep : ∀ id ∈ s.withdrawn, Gone (step cfg datetime s op).store id :=
    fun id hid => (h id hid).exec cfg datetime op
  cases op with
  | delete r =>
    dsimp only [CommentDelete.step] at hid
    split at hid
    · next hreport =>
      have hdone := (handlerDelete_reports_iff cfg).mp hreport
      rcases List.mem_cons.mp hid with rfl | hold
      · exact hdone.gone cfg (hop hdone)
      · exact hkeep id hold
    · exact hkeep id hid
  | create c a => exact hkeep id hid
  | createPending c as => exact hkeep id hid
  | edit id' uid content a => exact hkeep id hid
  | approve id' selected updated finished => exact hkeep id hid
  | reject id' selected finished => exact hkeep id hid

theorem Settled.staysDeleted {s : Site} (h : Settled s) : StaysDeleted cfg datetime s :=
  fun id hid later => ((h id hid).run cfg datetime later).not_visible

/-- What is deleted while it waits for review is shown by the next approval. -/
theorem notHeld_of_staysDeleted {s : Site}
    (h : StaysDeleted cfg datetime (step cfg datetime s op)) : NotHeld cfg s op := by
  cases op with
  | delete r =>
    intro hdone
    by_contra hheld
    rcases Option.ne_none_iff_exists'.mp hheld with ⟨i, hitem⟩
    have hreport := (handlerDelete_reports_iff cfg).mpr hdone
    rcases handlerDelete_keeps cfg (s := s.store) r with ⟨-, hitems, hrows⟩
    rcases (mayDelete_iff cfg).mp hdone.2.2.2.2 with ⟨c, hc, -⟩
    rcases Keyed.Table.find?_eq_some.mp hc with ⟨hmem, hcid⟩
    rcases hrows c hmem with ⟨c', hmem', hcid'⟩
    have hitem' : pendingItem (handlerDelete cfg s.store r).1 r.id = some i := by
      rw [pendingItem, hitems]
      exact hitem
    have hmember : r.id ∈ (step cfg datetime s (.delete r)).withdrawn := by
      dsimp only [CommentDelete.step]
      rw [if_pos hreport]
      exact List.mem_cons_self
    refine h r.id hmember [.approve r.id .done ⟨.done, 0⟩ .done] ?_
    exact visible_approve hitem' hmem' (hcid'.trans hcid) 0
  | create c a => trivial
  | createPending c as => trivial
  | edit id' uid content a => trivial
  | approve id' selected updated finished => trivial
  | reject id' selected finished => trivial

/-- The deleted comments of a run stay away, whatever comes later, exactly when no delete
that was carried out is of a comment that waited for review. -/
theorem deletedComments_stay_iff (s : Store) (ops : List Op) :
    (∀ t, Reaches (step cfg datetime) ⟨s, []⟩ ops t → StaysDeleted cfg datetime t) ↔
      AllSteps (step cfg datetime) (NotHeld cfg) ⟨s, []⟩ ops := by
  have hkeep : ∀ (t : Site) (op : Op), Settled t → NotHeld cfg t op →
      Settled (step cfg datetime t op) :=
    fun _ _ ht hop => ht.afterStep cfg datetime hop
  have hgood : ∀ t : Site, Settled t → StaysDeleted cfg datetime t :=
    fun _ ht => ht.staysDeleted cfg datetime
  have hneed : ∀ (t : Site) (op : Op), Settled t →
      StaysDeleted cfg datetime (step cfg datetime t op) → NotHeld cfg t op :=
    fun _ _ _ => notHeld_of_staysDeleted cfg datetime
  have hstart : Settled ⟨s, []⟩ := fun _ hid => nomatch hid
  exact (allSteps_iff_forall_reaches_of_strong hkeep hgood hneed hstart ops).symm

/-! ## A comment that comes back -/

/-- Nobody moderates, and nothing else is asked of a submission. -/
def noCommunity : Settings where
  filter := ⟨false, false, fun _ => false⟩
  roles := false
  boardDelegations := false
  newUserLimits := false
  trust := false
  spamDetection := true
  approvalQueue := false
  delegated _ _ := false

def authorDeletes : Delete where
  uid := linkHeavy.uid
  role := .user
  posted := true
  id := 1
  board _ := some 1
  selected := .done
  updated := ⟨.done, 1⟩

def heldDeletedApproved : List Op :=
  [.createPending linkHeavy (List.replicate 5 ⟨.done, 0⟩), .delete authorDeletes,
   .approve 1 .done ⟨.done, 2⟩ .done]

def siteAfter (n : ℕ) : Site :=
  run (step noCommunity fun _ => []) ⟨noComments, []⟩ (heldDeletedApproved.take n)

/-- The delete is reported as done; then the comment is public, with its text. -/
theorem deleted_comment_returns :
    (siteAfter 2).withdrawn = [1] ∧ ¬ Visible (siteAfter 2).store 1 ∧
    Visible (siteAfter 3).store 1 ∧
    (siteAfter 3).store.comments.rows.map (·.content) = [linkHeavy.content] ∧
    ¬ StaysDeleted noCommunity (fun _ => []) (siteAfter 2) := by
  have hruns : (siteAfter 2).withdrawn = [1] ∧ ¬ Visible (siteAfter 2).store 1 ∧
      Visible (siteAfter 3).store 1 ∧
      (siteAfter 3).store.comments.rows.map (·.content) = [linkHeavy.content] := by
    decide +kernel
  rcases hruns with ⟨hdeleted, hhidden, hback, htext⟩
  refine ⟨hdeleted, hhidden, hback, htext, ?_⟩
  intro h
  have hmember : 1 ∈ (siteAfter 2).withdrawn := by
    rw [hdeleted]
    exact List.mem_singleton_self 1
  exact h 1 hmember [.approve 1 .done ⟨.done, 2⟩ .done] hback

end FlyBoard.CommentDelete

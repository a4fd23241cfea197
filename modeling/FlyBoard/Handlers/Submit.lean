import FlyBoard.Db.Moderation
import FlyBoard.Lib.Run

/-!
# Submitting posts and comments (`src/handlers/post.c`, `comment.c`, `api.c`)

Text gets to the public through five handlers: a new post, the edit of a post,
the autosave of a draft, a new comment and the edit of a comment. The content of
a new post that is not a draft and of a new comment goes through
`moderation_check_submission`. Titles and edits are not scanned
(`docs/configuration.md`), and the edit that publishes a draft is an edit.

Beside the tables, the state remembers which texts a check has allowed, which a
reviewer has approved, and where an unscanned text stands.
-/

namespace FlyBoard.Submit

open Bytes Db Moderation Run

/-- A place where a text stands. -/
inductive Slot where
  | title (postId : ℕ)
  | content (postId : ℕ)
  | comment (id : ℕ)
deriving DecidableEq

structure State where
  tables : Tables
  /-- Texts for which `moderation_check_submission` has said allow. -/
  allowed : List Bytes
  /-- Texts that a reviewer has approved. -/
  approved : List Bytes
  /-- What an edit has written, and the titles of posts that were published at
  once; until a reviewer approves the item. -/
  unscanned : List Slot

/-! ## Requests -/

/-- The form of `handler_post_new_post`. -/
structure NewPost where
  uid : ℕ
  role : Role
  title : Bytes
  content : Bytes
  summary : Bytes
  boardId : ℕ
  /-- `post_action` is `draft`. -/
  draft : Bool
  /-- `publish_at`, if it parses. -/
  publishAt : Option ℕ
  autosaveDraftId : ℕ
  /-- Session, write policy, spam guard, board or notice rights refuse the request. -/
  refused : Bool

/-- The form of `handler_post_edit_post`. -/
structure EditPost where
  uid : ℕ
  role : Role
  id : ℕ
  title : Bytes
  content : Bytes
  summary : Bytes
  boardId : ℕ
  draft : Bool
  publishAt : Option ℕ
  /-- A concurrent edit, or the board or notice rights, refuse the request. -/
  refused : Bool

/-- The form of `handler_api_autosave_post`. -/
structure Autosave where
  uid : ℕ
  role : Role
  draftId : ℕ
  boardId : ℕ
  title : Bytes
  content : Bytes

/-- The form of `handler_comment_new_post`. -/
structure NewComment where
  uid : ℕ
  role : Role
  target : CommentTarget
  content : Bytes
  /-- Write policy or spam guard refuse the request. -/
  refused : Bool

/-- The form of `handler_comment_edit_post`. -/
structure EditComment where
  uid : ℕ
  role : Role
  id : ℕ
  content : Bytes

inductive Request where
  | newPost (now : ℕ) (r : NewPost)
  | editPost (now : ℕ) (r : EditPost)
  | autosave (now : ℕ) (r : Autosave)
  | newComment (now : ℕ) (r : NewComment)
  | editComment (r : EditComment)
  | approve (target : Target)
  | reject (target : Target)

/-! ## Handlers -/

def isAuthorOrAdmin (p : Post) (uid : ℕ) (role : Role) : Bool :=
  role == .admin || (0 < p.userId && p.userId == uid)

/-- `choose_publish`: the status, and `publish_at` where the form or the first
publication sets it. -/
def choosePublish (uid : ℕ) (draft : Bool) (publishAt : Option ℕ) (now : ℕ) (wasPublic : Bool) :
    PostStatus × Option ℕ :=
  if uid = 0 then (.published, none)
  else if draft then (.draft, none)
  else
    match publishAt with
    | some at' => (.published, some at')
    | none => (.published, if wasPublic then none else some now)

def formOk (title content summary : Bytes) : Bool :=
  !title.isEmpty && !content.isEmpty && title.length ≤ 200 && summary.length ≤ 1000 &&
    content.length ≤ 1024 * 1024

/-- What becomes of a new post: refused, or stored with a status and the verdict. -/
def newPostStatus (cfg : Settings) (t : Tables) (now : ℕ) (r : NewPost) :
    Option (PostStatus × Decision) :=
  if r.refused || !formOk r.title r.content r.summary then none
  else
    let status := (choosePublish r.uid r.draft r.publishAt now false).1
    let decision :=
      if status != .draft && !boardUserCanModerate cfg r.boardId r.uid r.role then
        checkSubmission cfg t r.uid r.role .post r.content now
      else ⟨.allow, []⟩
    match decision.action with
    | .reject => none
    | .pending => some (.pending, decision)
    | .allow => some (status, decision)

/-- Removes the draft that the editor has saved meanwhile. -/
def dropAutosave (t : Tables) (r : NewPost) : Tables :=
  match t.post r.autosaveDraftId with
  | some p =>
    if 0 < r.autosaveDraftId && 0 < r.uid && isAuthorOrAdmin p r.uid r.role &&
        p.status == .draft then
      t.deletePost r.autosaveDraftId
    else t
  | none => t

/-- `db_post_create_with_auto_slug` -/
def insertPost (t : Tables) (p : Post) : Tables :=
  { t with posts := t.posts ++ [{ p with id := t.nextPost }], nextPost := t.nextPost + 1 }

/-- `handler_post_new_post`. Rewriting the legacy URLs copies the content through. -/
def newPost (cfg : Settings) (now : ℕ) (r : NewPost) (s : State) : State :=
  match newPostStatus cfg s.tables now r with
  | none => s
  | some (status, decision) =>
    let t := dropAutosave s.tables r
    let createdAt := (choosePublish r.uid r.draft r.publishAt now false).2.getD now
    let t' := insertPost t ⟨0, r.boardId, r.uid, r.title, r.content, status, createdAt⟩
    match status with
    | .pending =>
      { s with
        tables := t'.queue ⟨.post t.nextPost, r.uid, [], decision.reason, .pending, now⟩ }
    | .published =>
      { s with
        tables := t',
        allowed :=
          if boardUserCanModerate cfg r.boardId r.uid r.role then s.allowed
          else r.content :: s.allowed,
        unscanned := .title t.nextPost :: s.unscanned }
    | .draft => { s with tables := t' }

def editedPost (t : Tables) (r : EditPost) : Option Post :=
  if r.uid = 0 || r.refused || !formOk r.title r.content r.summary then none
  else (t.post r.id).filter fun p => isAuthorOrAdmin p r.uid r.role

/-- The status of a post after an edit, and its new `created_at`. -/
def editStatus (p : Post) (now : ℕ) (r : EditPost) : PostStatus × Option ℕ :=
  if p.status = .pending then (.pending, none)
  else choosePublish r.uid r.draft r.publishAt now (p.isPublic now)

/-- `handler_post_edit_post` -/
def editPost (now : ℕ) (r : EditPost) (s : State) : State :=
  match editedPost s.tables r with
  | none => s
  | some p =>
    let after := editStatus p now r
    { s with
      tables := s.tables.setPost
        { p with
          boardId := r.boardId, title := r.title, content := r.content, status := after.1,
          createdAt := after.2.getD p.createdAt },
      unscanned := .title p.id :: .content p.id :: s.unscanned }

/-- `handler_api_autosave_post` -/
def autosave (now : ℕ) (r : Autosave) (s : State) : State :=
  let title := if r.title.isEmpty then bytes "Untitled" else r.title
  if r.uid = 0 then s
  else if 0 < r.draftId then
    match s.tables.post r.draftId with
    | none => s
    | some p =>
      if !isAuthorOrAdmin p r.uid r.role || p.status != .draft then s
      else
        let boardId := if r.boardId = 0 then p.boardId else r.boardId
        { s with
          tables := s.tables.setPost
            { p with boardId := boardId, title := title, content := r.content } }
  else if r.boardId = 0 then s
  else
    { s with
      tables := insertPost s.tables ⟨0, r.boardId, r.uid, title, r.content, .draft, now⟩ }

/-- The board of the post that a comment is about; a post that the user cannot see
takes no comment. -/
def commentBoard (t : Tables) (now : ℕ) (r : NewComment) : Option ℕ :=
  match r.target with
  | .other _ _ => some 0
  | .post id =>
    ((t.post id).filter fun p => p.isPublic now || isAuthorOrAdmin p r.uid r.role).map (·.boardId)

/-- What becomes of a new comment: refused, or with the verdict, and whether it
comes from a check. -/
def newCommentVerdict (cfg : Settings) (t : Tables) (now : ℕ) (r : NewComment) :
    Option (Decision × Bool) :=
  if r.refused || r.content.isEmpty then none
  else (commentBoard t now r).map fun boardId =>
    if boardUserCanModerate cfg boardId r.uid r.role then (⟨.allow, []⟩, false)
    else (checkSubmission cfg t r.uid r.role .comment r.content now, true)

/-- `db_comment_create` -/
def insertComment (t : Tables) (c : Comment) : Tables :=
  { t with comments := t.comments ++ [{ c with id := t.nextComment }],
           nextComment := t.nextComment + 1 }

/-- `handler_comment_new_post`. A comment that waits for review is stored as deleted
and empty, its text in the queue. -/
def newComment (cfg : Settings) (now : ℕ) (r : NewComment) (s : State) : State :=
  match newCommentVerdict cfg s.tables now r with
  | none => s
  | some (decision, checked) =>
    match decision.action with
    | .reject => s
    | .pending =>
      let t := insertComment s.tables ⟨0, r.target, r.uid, [], now, true⟩
      { s with
        tables := t.queue
          ⟨.comment s.tables.nextComment, r.uid, r.content, decision.reason, .pending, now⟩ }
    | .allow =>
      { s with
        tables := insertComment s.tables ⟨0, r.target, r.uid, r.content, now, false⟩,
        allowed := if checked then r.content :: s.allowed else s.allowed }

def editedComment (t : Tables) (r : EditComment) : Option Comment :=
  if r.uid = 0 || r.content.isEmpty then none
  else (t.comment r.id).filter fun c => c.userId == r.uid && !c.deleted

/-- `handler_comment_edit_post` -/
def editComment (r : EditComment) (s : State) : State :=
  match editedComment s.tables r with
  | none => s
  | some c =>
    { s with
      tables := s.tables.setComment { c with content := r.content },
      unscanned := .comment c.id :: s.unscanned }

/-- `db_moderation_approve` -/
def approve (target : Target) (s : State) : State :=
  match s.tables.pendingItem target, target with
  | none, _ => s
  | some _, .post id =>
    match s.tables.post id with
    | none => s
    | some p =>
      if p.status != .pending then s
      else
        { s with
          tables := (s.tables.setPost { p with status := .published }).finishReview target
            .approved,
          approved := p.title :: p.content :: s.approved,
          unscanned := s.unscanned.filter fun x => x ≠ .title p.id ∧ x ≠ .content p.id }
  | some i, .comment id =>
    match s.tables.comment id with
    | none => s
    | some c =>
      if !c.deleted then s
      else
        { s with
          tables := (s.tables.setComment
            { c with content := i.content, deleted := false }).finishReview target .approved,
          approved := i.content :: s.approved,
          unscanned := s.unscanned.filter (· ≠ .comment c.id) }

/-- `db_moderation_reject` -/
def reject (target : Target) (s : State) : State :=
  match s.tables.pendingItem target, target with
  | none, _ => s
  | some _, .post id => { s with tables := (s.tables.deletePost id).finishReview target .rejected }
  | some _, .comment _ => { s with tables := s.tables.finishReview target .rejected }

def step (cfg : Settings) (s : State) : Request → State
  | .newPost now r => newPost cfg now r s
  | .editPost now r => editPost now r s
  | .autosave now r => autosave now r s
  | .newComment now r => newComment cfg now r s
  | .editComment r => editComment r s
  | .approve target => approve target s
  | .reject target => reject target s

/-! ## What the public sees -/

/-- The text has passed the check or a reviewer in exactly this form. -/
def Vetted (s : State) (text : Bytes) : Prop := text ∈ s.allowed ∨ text ∈ s.approved

instance (s : State) (text : Bytes) : Decidable (Vetted s text) :=
  inferInstanceAs (Decidable (_ ∨ _))

/-- `POST_PUBLIC_SQL` -/
def postVisible (now : ℕ) (p : Post) : Bool := p.status == .published && p.createdAt ≤ now

/-- A comment that is neither deleted nor waits for review, under something public. -/
def commentVisible (t : Tables) (now : ℕ) (c : Comment) : Bool :=
  !c.deleted && (t.pendingItem (.comment c.id)).isNone &&
    match c.target with
    | .post id => (t.post id).any (postVisible now)
    | .other _ _ => true

def visibleTexts (t : Tables) (now : ℕ) : List (Slot × Bytes) :=
  ((t.posts.filter (postVisible now)).flatMap fun p =>
    [(.title p.id, p.title), (.content p.id, p.content)]) ++
  (t.comments.filter (commentVisible t now)).map fun c => (.comment c.id, c.content)

def NoReviewRights (cfg : Settings) (uid : ℕ) (role : Role) : Prop :=
  roleCanModerate cfg role = false ∧ ∀ boardId, cfg.delegated boardId uid = false

def Request.Ordinary (cfg : Settings) : Request → Prop
  | .newPost _ r => NoReviewRights cfg r.uid r.role
  | .editPost _ r => NoReviewRights cfg r.uid r.role
  | .autosave _ r => NoReviewRights cfg r.uid r.role
  | .newComment _ r => NoReviewRights cfg r.uid r.role
  | .editComment r => NoReviewRights cfg r.uid r.role
  | .approve _ => True
  | .reject _ => True

def Screened (s : State) (slot : Slot) (text : Bytes) : Prop :=
  slot ∉ s.unscanned → Vetted s text

/-- Everything published is screened, whether its time has come or not. -/
structure PublishedScreened (s : State) : Prop where
  posts : ∀ p ∈ s.tables.posts, p.status = .published →
    Screened s (.title p.id) p.title ∧ Screened s (.content p.id) p.content
  comments : ∀ c ∈ s.tables.comments, c.deleted = false → Screened s (.comment c.id) c.content

theorem PublishedScreened.visible {s : State} (h : PublishedScreened s) {now : ℕ} {slot : Slot}
    {text : Bytes} (ht : (slot, text) ∈ visibleTexts s.tables now) : Screened s slot text := by
  rcases List.mem_append.mp ht with hpost | hcomment
  · rcases List.mem_flatMap.mp hpost with ⟨p, hp, htext⟩
    rw [List.mem_filter, postVisible, Bool.and_eq_true, beq_iff_eq] at hp
    have hscreened := h.posts p hp.1 hp.2.1
    rcases List.mem_pair.mp htext with htitle | hcontent
    · cases htitle
      exact hscreened.1
    · cases hcontent
      exact hscreened.2
  · rcases List.mem_map.mp hcomment with ⟨c, hc, heq⟩
    cases heq
    rw [List.mem_filter, commentVisible, Bool.and_eq_true, Bool.and_eq_true,
      Bool.not_eq_true'] at hc
    exact h.comments c hc.1 hc.2.1.1

/-! ## What a request keeps -/

section Step

variable {cfg : Settings} {s s' : State} {t : Tables} {r : NewComment}

theorem Screened.mono {slot : Slot} {text : Bytes}
    (hlog : ∀ text, Vetted s text → Vetted s' text) (hslot : slot ∈ s.unscanned → slot ∈ s'.unscanned)
    (h : Screened s slot text) : Screened s' slot text :=
  fun hnot => hlog text (h (mt hslot hnot))

/-- A step keeps the invariant when what is screened stays so, and when all that it
adds or changes is unpublished or screened. -/
theorem PublishedScreened.extend (h : PublishedScreened s)
    (hkeep : ∀ slot text, Screened s slot text → Screened s' slot text)
    (hposts : ∀ p ∈ s'.tables.posts, p ∈ s.tables.posts ∨ (p.status = .published →
      Screened s' (.title p.id) p.title ∧ Screened s' (.content p.id) p.content))
    (hcomments : ∀ c ∈ s'.tables.comments, c ∈ s.tables.comments ∨
      (c.deleted = false → Screened s' (.comment c.id) c.content)) : PublishedScreened s' where
  posts p hp hpub := by
    rcases hposts p hp with hold | hnew
    · have hscreened := h.posts p hold hpub
      exact ⟨hkeep _ _ hscreened.1, hkeep _ _ hscreened.2⟩
    · exact hnew hpub
  comments c hc hlive := by
    rcases hcomments c hc with hold | hnew
    · exact hkeep _ _ (h.comments c hold hlive)
    · exact hnew hlive

theorem boardUserCanModerate_of_noReviewRights {uid : ℕ} {role : Role}
    (h : NoReviewRights cfg uid role) (boardId : ℕ) :
    boardUserCanModerate cfg boardId uid role = false := by
  simp [boardUserCanModerate, h.1, h.2 boardId]

theorem mem_insertPost {p q : Post} (h : q ∈ (insertPost t p).posts) :
    q ∈ t.posts ∨ q = { p with id := t.nextPost } := by
  rcases List.mem_append.mp h with hold | hnew
  · exact .inl hold
  · exact .inr (List.mem_singleton.mp hnew)

theorem mem_insertComment {c d : Comment} (h : d ∈ (insertComment t c).comments) :
    d ∈ t.comments ∨ d = { c with id := t.nextComment } := by
  rcases List.mem_append.mp h with hold | hnew
  · exact .inl hold
  · exact .inr (List.mem_singleton.mp hnew)

theorem mem_of_mem_dropAutosave {r : NewPost} {p : Post}
    (h : p ∈ (dropAutosave t r).posts) : p ∈ t.posts := by
  unfold dropAutosave at h
  split at h
  next =>
    split at h
    next => exact Tables.mem_of_mem_deletePost h
    next => exact h
  next => exact h

theorem dropAutosave_comments (t : Tables) (r : NewPost) :
    (dropAutosave t r).comments = t.comments := by
  unfold dropAutosave
  split
  next => split <;> rfl
  next => rfl

/-- A new post: the content of a published one has just been allowed, and its title
is one of the unscanned. -/
theorem PublishedScreened.newPost (h : PublishedScreened s) {now : ℕ} {r : NewPost}
    (hord : NoReviewRights cfg r.uid r.role) : PublishedScreened (newPost cfg now r s) := by
  unfold Submit.newPost
  split
  next => exact h
  next status decision hstatus =>
    have hcomments : ∀ c ∈ (dropAutosave s.tables r).comments, c ∈ s.tables.comments := by
      intro c hc
      rwa [dropAutosave_comments] at hc
    have hposts : ∀ q, ∀ p ∈ (insertPost (dropAutosave s.tables r) q).posts,
        p ∈ s.tables.posts ∨ p = { q with id := (dropAutosave s.tables r).nextPost } := by
      intro q p hp
      exact (mem_insertPost hp).imp mem_of_mem_dropAutosave id
    -- a draft and a pending post are not published, and a published one was allowed
    cases status with
    | draft =>
      refine h.extend (fun _ _ hs => hs) ?_ (fun c hc => .inl (hcomments c hc))
      intro p hp
      exact (hposts _ p hp).imp id fun hnew hpub => by rw [hnew] at hpub; cases hpub
    | pending =>
      refine h.extend (fun _ _ hs => hs) ?_ (fun c hc => .inl (hcomments c hc))
      intro p hp
      exact (hposts _ p hp).imp id fun hnew hpub => by rw [hnew] at hpub; cases hpub
    | published =>
      rw [boardUserCanModerate_of_noReviewRights hord r.boardId]
      refine h.extend ?_ ?_ (fun c hc => .inl (hcomments c hc))
      · intro slot text hs
        exact hs.mono (fun _ hv => hv.imp (List.mem_cons_of_mem _) id) (List.mem_cons_of_mem _)
      · intro p hp
        refine (hposts _ p hp).imp id fun hnew _ => ?_
        subst hnew
        constructor
        · intro hnot
          exact absurd List.mem_cons_self hnot
        · intro _
          exact .inl List.mem_cons_self

theorem PublishedScreened.editPost (h : PublishedScreened s) {now : ℕ} {r : EditPost} :
    PublishedScreened (editPost now r s) := by
  unfold Submit.editPost
  split
  next => exact h
  next p hp =>
    refine h.extend ?_ ?_ (fun c hc => .inl hc)
    · intro slot text hs
      refine Screened.mono (s := s) (fun _ hv => hv) ?_ hs
      intro hmem
      exact List.mem_cons_of_mem _ (List.mem_cons_of_mem _ hmem)
    · intro q hq
      rcases Tables.mem_setPost hq with rfl | ⟨hold, -⟩
      · refine .inr fun _ => ⟨?_, ?_⟩
        · intro hnot
          exact absurd List.mem_cons_self hnot
        · intro hnot
          exact absurd (List.mem_cons_of_mem _ List.mem_cons_self) hnot
      · exact .inl hold

theorem PublishedScreened.autosave (h : PublishedScreened s) {now : ℕ} {r : Autosave} :
    PublishedScreened (autosave now r s) := by
  unfold Submit.autosave
  dsimp only
  split
  next => exact h
  next =>
    split
    next =>
      split
      next => exact h
      next p hp =>
        split
        next => exact h
        next hdraft =>
          -- the status is left alone, so what is saved is still a draft
          simp only [Bool.or_eq_true, Bool.not_eq_true', bne_iff_ne, not_or, not_not] at hdraft
          refine h.extend (fun _ _ hs => hs) ?_ (fun c hc => .inl hc)
          intro q hq
          rcases Tables.mem_setPost hq with rfl | ⟨hold, -⟩
          · refine .inr fun hpub => ?_
            rw [hdraft.2] at hpub
            cases hpub
          · exact .inl hold
    next =>
      split
      next => exact h
      next =>
        refine h.extend (fun _ _ hs => hs) ?_ (fun c hc => .inl hc)
        intro q hq
        exact (mem_insertPost hq).imp id fun hnew hpub => by rw [hnew] at hpub; cases hpub

theorem checked_of_noReviewRights {now : ℕ} {d : Decision} {checked : Bool}
    (hord : NoReviewRights cfg r.uid r.role)
    (h : newCommentVerdict cfg s.tables now r = some (d, checked)) : checked = true := by
  unfold newCommentVerdict at h
  split at h
  next => cases h
  next =>
    rcases Option.map_eq_some_iff.mp h with ⟨boardId, -, hd⟩
    rw [boardUserCanModerate_of_noReviewRights hord boardId] at hd
    exact (Prod.mk.inj hd).2.symm

theorem PublishedScreened.newComment (h : PublishedScreened s) {now : ℕ}
    (hord : NoReviewRights cfg r.uid r.role) : PublishedScreened (newComment cfg now r s) := by
  unfold Submit.newComment
  split
  next => exact h
  next decision checked hverdict =>
    have hchecked := checked_of_noReviewRights hord hverdict
    subst hchecked
    cases decision.action with
    | reject => exact h
    | pending =>
      refine h.extend (fun _ _ hs => hs) (fun p hp => .inl hp) ?_
      intro c hc
      exact (mem_insertComment hc).imp id fun hnew hlive => by rw [hnew] at hlive; cases hlive
    | allow =>
      refine h.extend ?_ (fun p hp => .inl hp) ?_
      · intro slot text hs
        exact hs.mono (fun _ hv => hv.imp (List.mem_cons_of_mem _) id) id
      · intro c hc
        refine (mem_insertComment hc).imp id fun hnew _ _ => ?_
        subst hnew
        exact .inl List.mem_cons_self

theorem PublishedScreened.editComment (h : PublishedScreened s) {r : EditComment} :
    PublishedScreened (editComment r s) := by
  unfold Submit.editComment
  split
  next => exact h
  next c hc =>
    refine h.extend ?_ (fun p hp => .inl hp) ?_
    · intro slot text hs
      exact Screened.mono (s := s) (fun _ hv => hv) (List.mem_cons_of_mem _) hs
    · intro d hd
      rcases Tables.mem_setComment hd with rfl | ⟨hold, -⟩
      · refine .inr fun _ hnot => ?_
        exact absurd List.mem_cons_self hnot
      · exact .inl hold

/-- An approval publishes the texts that it approves, and clears their marks. -/
theorem PublishedScreened.approve (h : PublishedScreened s) {target : Target} :
    PublishedScreened (approve target s) := by
  unfold Submit.approve
  split
  next => exact h
  next _ postId _ =>
    split
    next => exact h
    next p hp =>
      split
      next => exact h
      next =>
        have hlog : ∀ text, Vetted s text →
            text ∈ s.allowed ∨ text ∈ p.title :: p.content :: s.approved :=
          fun text hv => hv.imp id fun hmem =>
            List.mem_cons_of_mem _ (List.mem_cons_of_mem _ hmem)
        refine ⟨fun q hq hpub => ?_, fun c hc hlive => ?_⟩
        · rcases Tables.mem_setPost hq with rfl | ⟨hold, hid⟩
          · exact ⟨fun _ => .inr (by simp), fun _ => .inr (by simp)⟩
          · -- the marks of other posts stay
            have hscreened := h.posts q hold hpub
            refine ⟨hscreened.1.mono hlog ?_, hscreened.2.mono hlog ?_⟩
            · intro hmem
              exact List.mem_filter.mpr ⟨hmem, by simpa using hid⟩
            · intro hmem
              exact List.mem_filter.mpr ⟨hmem, by simpa using hid⟩
        · refine (h.comments c hc hlive).mono hlog ?_
          intro hmem
          exact List.mem_filter.mpr ⟨hmem, by simp⟩
  next item commentId _ =>
    split
    next => exact h
    next c hc =>
      split
      next => exact h
      next =>
        have hlog : ∀ text, Vetted s text → text ∈ s.allowed ∨ text ∈ item.content :: s.approved :=
          fun text hv => hv.imp id (List.mem_cons_of_mem _)
        refine ⟨fun q hq hpub => ?_, fun d hd hlive => ?_⟩
        · have hscreened := h.posts q hq hpub
          refine ⟨hscreened.1.mono hlog ?_, hscreened.2.mono hlog ?_⟩
          · intro hmem
            exact List.mem_filter.mpr ⟨hmem, by simp⟩
          · intro hmem
            exact List.mem_filter.mpr ⟨hmem, by simp⟩
        · rcases Tables.mem_setComment hd with rfl | ⟨hold, hid⟩
          · exact fun _ => .inr List.mem_cons_self
          · refine (h.comments d hold hlive).mono hlog ?_
            intro hmem
            exact List.mem_filter.mpr ⟨hmem, by simpa using hid⟩

theorem PublishedScreened.reject (h : PublishedScreened s) {target : Target} :
    PublishedScreened (reject target s) := by
  unfold Submit.reject
  split
  next => exact h
  next =>
    refine h.extend (fun _ _ hs => hs) ?_ (fun c hc => .inl hc)
    intro p hp
    exact .inl (Tables.mem_of_mem_deletePost hp)
  next => exact h.extend (fun _ _ hs => hs) (fun p hp => .inl hp) (fun c hc => .inl hc)

theorem PublishedScreened.step (h : PublishedScreened s) {r : Request} (hord : r.Ordinary cfg) :
    PublishedScreened (step cfg s r) := by
  cases r with
  | newPost now r => exact h.newPost hord
  | editPost now r => exact h.editPost
  | autosave now r => exact h.autosave
  | newComment now r => exact h.newComment hord
  | editComment r => exact h.editComment
  | approve target => exact h.approve
  | reject target => exact h.reject

end Step

/-- In every run of requests by users without review rights, with the decisions of
reviewers in between: all that is public, then or once its time has come, and does
not stand where an unscanned text stands, has passed the check or a reviewer in
exactly that form. -/
theorem visible_texts_screened (cfg : Settings) {s : State} (h : PublishedScreened s)
    {rs : List Request} (hrs : ∀ r ∈ rs, r.Ordinary cfg) (now : ℕ) :
    ∀ x ∈ visibleTexts (run (step cfg) s rs).tables now,
      x.1 ∉ (run (step cfg) s rs).unscanned → Vetted (run (step cfg) s rs) x.2 := by
  have hinv : PublishedScreened (run (step cfg) s rs) :=
    run_invariant_of_forall _ (fun _ _ hinv hord => hinv.step hord) h hrs
  intro x hx
  exact hinv.visible hx

/-- A site that rejects one word and has no other rule. -/
def noCasino : Settings where
  filter := ⟨true, true, fun text => hasSub text (bytes "casino")⟩
  roles := false
  boardDelegations := false
  newUserLimits := false
  trust := false
  spamDetection := false
  approvalQueue := false
  delegated _ _ := false

def emptySite : State := ⟨⟨[], [], [], fun _ => some 0, 1, 1⟩, [], [], []⟩

/-- A post with harmless content, a comment under it, and the edit that brings the
banned word into the post. -/
def editAfterwards : List Request :=
  [.newPost 1000 ⟨7, .user, bytes "hello", bytes "a post", [], 0, false, none, 0, false⟩,
   .newComment 1001 ⟨7, .user, .post 1, bytes "first", false⟩,
   .editPost 1002 ⟨7, .user, 1, bytes "hello", bytes "casino", [], 0, false, none, false⟩]

/-- The comment is public and was allowed. -/
theorem comment_beside_edit_vetted :
    (.comment 1, bytes "first") ∈
      visibleTexts (run (step noCasino) emptySite editAfterwards).tables 1002 ∧
    Vetted (run (step noCasino) emptySite editAfterwards) (bytes "first") := by
  have hord : NoReviewRights noCasino 7 .user := ⟨rfl, fun _ => rfl⟩
  have hempty : PublishedScreened emptySite :=
    { posts := fun _ hp => absurd hp List.not_mem_nil,
      comments := fun _ hc => absurd hc List.not_mem_nil }
  have hvisible : (.comment 1, bytes "first") ∈
      visibleTexts (run (step noCasino) emptySite editAfterwards).tables 1002 := by
    decide +kernel
  have hrs : ∀ r ∈ editAfterwards, r.Ordinary noCasino := by
    simp [editAfterwards, Request.Ordinary, hord]
  exact ⟨hvisible, visible_texts_screened noCasino hempty hrs 1002 _ hvisible (by decide +kernel)⟩

/-- The banned word comes in as a title, by the edit of a comment, by the edit of a
post, and by the edit that publishes a draft. -/
def allWaysIn : List Request :=
  [.newPost 1000 ⟨7, .user, bytes "casino", bytes "a post", [], 0, false, none, 0, false⟩,
   .newComment 1001 ⟨7, .user, .post 1, bytes "first", false⟩,
   .editComment ⟨7, .user, 1, bytes "casino"⟩,
   .newPost 1002 ⟨7, .user, bytes "hello", bytes "a post too", [], 0, false, none, 0, false⟩,
   .editPost 1003 ⟨7, .user, 2, bytes "hello", bytes "casino", [], 0, false, none, false⟩,
   .newPost 1004 ⟨7, .user, bytes "draft", bytes "casino", [], 0, true, none, 0, false⟩,
   .editPost 1005 ⟨7, .user, 3, bytes "draft", bytes "casino", [], 0, false, none, false⟩]

/-- All of these are public, and the check would have rejected each. -/
theorem unscanned_texts_are_public :
    NoReviewRights noCasino 7 .user ∧
    (∀ slot ∈ [.title 1, .comment 1, .content 2, .content 3],
      (slot, bytes "casino") ∈
        visibleTexts (run (step noCasino) emptySite allWaysIn).tables 1005) ∧
    ¬ Vetted (run (step noCasino) emptySite allWaysIn) (bytes "casino") ∧
    ∀ kind ∈ [.post, .comment],
      (checkSubmission noCasino (run (step noCasino) emptySite allWaysIn).tables 7 .user
        kind (bytes "casino") 1005).action = .reject := by
  refine ⟨⟨rfl, fun _ => rfl⟩, ?_, ?_, ?_⟩
  all_goals decide +kernel

end FlyBoard.Submit

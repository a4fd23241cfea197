import FlyBoard.Db.Post

/-!
# Moderation (`src/db/moderation.c`, `src/utils/moderation_filter.c`)

The verdict on a submission and the review queue. The banned words are matched
by an automaton over the whole text, of which only whether it found anything
matters here.
-/

namespace FlyBoard.Moderation

open Bytes Db

/-! ## Tables -/

/-- What a comment is about: a post, or another kind of thing. -/
inductive CommentTarget where
  | post (id : ℕ)
  | other (kind : Bytes) (id : ℕ)
deriving DecidableEq

/-- A row of `comments`. -/
structure Comment where
  id : ℕ
  target : CommentTarget
  userId : ℕ
  content : Bytes
  createdAt : ℕ
  deleted : Bool
deriving DecidableEq

/-- `target_type` and `target_id` of a queued item. -/
inductive Target where
  | post (id : ℕ)
  | comment (id : ℕ)
deriving DecidableEq

inductive ItemStatus where
  | pending
  | approved
  | rejected
deriving DecidableEq

/-- A row of `moderation_items`. -/
structure Item where
  target : Target
  userId : ℕ
  content : Bytes
  reason : Bytes
  status : ItemStatus
  createdAt : ℕ
deriving DecidableEq

/-- The tables that moderation reads and writes. Ids are never used twice. -/
structure Tables where
  posts : List Post
  comments : List Comment
  items : List Item
  /-- `users.created_at` -/
  userSince : ℕ → Option ℕ
  nextPost : ℕ
  nextComment : ℕ

/-! ## Settings -/

inductive Role where
  | guest
  | user
  | moderator
  | admin
deriving DecidableEq

inductive Action where
  | allow
  | pending
  | reject
deriving DecidableEq

/-- `moderation_decision_t` -/
structure Decision where
  action : Action
  reason : Bytes
deriving DecidableEq

/-- `moderation_filter_policy_t`, with its automaton. -/
structure Filter where
  enabled : Bool
  /-- `MODERATION_FILTER_REJECT` rather than `MODERATION_FILTER_PENDING`. -/
  rejects : Bool
  matched : Bytes → Bool

/-- `community`, the filter, and the `can_moderate` delegations in force. -/
structure Settings where
  filter : Filter
  roles : Bool
  boardDelegations : Bool
  newUserLimits : Bool
  trust : Bool
  spamDetection : Bool
  approvalQueue : Bool
  delegated : (boardId userId : ℕ) → Bool

/-- `community_role_can_moderate`, which is `moderation_can_review` too. -/
def roleCanModerate (cfg : Settings) (role : Role) : Bool :=
  role == .admin || (cfg.roles && role == .moderator)

/-- `db_board_user_can_moderate` -/
def boardUserCanModerate (cfg : Settings) (boardId uid : ℕ) (role : Role) : Bool :=
  roleCanModerate cfg role ||
    (cfg.boardDelegations && 0 < boardId && 0 < uid && cfg.delegated boardId uid)

/-! ## The verdict -/

def day : ℕ := 24 * 60 * 60

/-- The loop of `normalized`: `space` asks for a blank before the next byte,
`started` says that something was written. -/
def normalizedFrom : (space started : Bool) → Bytes → Bytes
  | _, _, [] => []
  | space, started, c :: cs =>
    if isSpace c then normalizedFrom started started cs
    else (if space then [32] else []) ++ toLower c :: normalizedFrom false true cs

/-- The text in lower case, its blanks collapsed. -/
def normalized (content : Bytes) : Bytes := normalizedFrom false false content

/-- The loop of `link_count`, with the bytes of a link still to be passed over. -/
def linkCountFrom : (skip : ℕ) → Bytes → ℕ
  | _, [] => 0
  | skip + 1, _ :: cs => linkCountFrom skip cs
  | 0, c :: cs =>
    if startsWithCI (c :: cs) (bytes "http://") then 1 + linkCountFrom 6 cs
    else if startsWithCI (c :: cs) (bytes "https://") then 1 + linkCountFrom 7 cs
    else linkCountFrom 0 cs

def linkCount (content : Bytes) : ℕ := linkCountFrom 0 content

inductive Kind where
  | post
  | comment
deriving DecidableEq

def Item.pendingCommentOf (i : Item) (uid : ℕ) : Bool :=
  i.userId == uid && i.status == .pending &&
    match i.target with
    | .comment _ => true
    | .post _ => false

def duplicateContent (t : Tables) (uid : ℕ) (kind : Kind) (want : Bytes) : Bool :=
  match kind with
  | .post => t.posts.any fun p => p.userId == uid && normalized p.content == want
  | .comment =>
    (t.comments.any fun c => c.userId == uid && !c.deleted && normalized c.content == want) ||
      t.items.any fun i => i.pendingCommentOf uid && normalized i.content == want

def accountIsNew (t : Tables) (uid now : ℕ) : Bool :=
  0 < uid && (t.userSince uid).any fun since => now < since + day

def recentCount (t : Tables) (uid : ℕ) (kind : Kind) (now : ℕ) : ℕ :=
  match kind with
  | .post => t.posts.countP fun p => p.userId == uid && now ≤ p.createdAt + day
  | .comment =>
    (t.comments.countP fun c => c.userId == uid && now ≤ c.createdAt + day) +
      t.items.countP fun i => i.pendingCommentOf uid && now ≤ i.createdAt + day

def trusted (t : Tables) (uid now : ℕ) : Bool :=
  0 < uid && (((t.userSince uid).any fun since => since + 7 * day ≤ now) ||
    3 ≤ t.items.countP fun i => i.userId == uid && i.status == .approved)

/-- `moderation_check_submission` -/
def checkSubmission (cfg : Settings) (t : Tables) (uid : ℕ) (role : Role) (kind : Kind)
    (content : Bytes) (now : ℕ) : Decision :=
  if roleCanModerate cfg role then ⟨.allow, []⟩
  else if !cfg.filter.enabled && !cfg.newUserLimits && !cfg.trust && !cfg.spamDetection &&
      !cfg.approvalQueue then ⟨.allow, []⟩
  else if cfg.filter.enabled && cfg.filter.matched content then
    ⟨if cfg.filter.rejects then .reject else .pending, bytes "banned_content"⟩
  else
    let isTrusted := cfg.trust && trusted t uid now
    let limit := match kind with
      | .post => 1
      | .comment => 3
    if cfg.newUserLimits && !isTrusted && accountIsNew t uid now &&
        limit ≤ recentCount t uid kind now then
      ⟨.reject, match kind with
        | .post => bytes "new_user_post_limit"
        | .comment => bytes "new_user_comment_limit"⟩
    else if cfg.spamDetection && 5 < linkCount content then ⟨.pending, bytes "excessive_links"⟩
    else if cfg.spamDetection && duplicateContent t uid kind (normalized content) then
      ⟨.pending, bytes "duplicate_content"⟩
    else if cfg.approvalQueue && !isTrusted then ⟨.pending, bytes "approval_queue"⟩
    else ⟨.allow, []⟩

/-! ## The queue -/

namespace Tables

def post (t : Tables) (id : ℕ) : Option Post := t.posts.find? fun p => p.id = id

def comment (t : Tables) (id : ℕ) : Option Comment := t.comments.find? fun c => c.id = id

/-- UPDATE of the row with the id of `p`. -/
def setPost (t : Tables) (p : Post) : Tables :=
  { t with posts := t.posts.map fun q => if q.id = p.id then p else q }

/-- UPDATE of the row with the id of `c`. -/
def setComment (t : Tables) (c : Comment) : Tables :=
  { t with comments := t.comments.map fun d => if d.id = c.id then c else d }

def deletePost (t : Tables) (id : ℕ) : Tables :=
  { t with posts := t.posts.filter fun p => p.id ≠ id }

/-- `queue_row` -/
def queue (t : Tables) (i : Item) : Tables := { t with items := t.items ++ [i] }

/-- `finish_review` -/
def finishReview (t : Tables) (target : Target) (status : ItemStatus) : Tables :=
  { t with
    items := t.items.map fun i =>
      if i.target = target ∧ i.status = .pending then { i with status := status } else i }

/-- `pending_item` -/
def pendingItem (t : Tables) (target : Target) : Option Item :=
  t.items.find? fun i => i.target = target ∧ i.status = .pending

variable {t : Tables}

theorem mem_setPost {p q : Post} (h : q ∈ (t.setPost p).posts) :
    q = p ∨ q ∈ t.posts ∧ q.id ≠ p.id := by
  rcases List.mem_map.mp h with ⟨r, hr, rfl⟩
  split
  next => exact .inl rfl
  next hid => exact .inr ⟨hr, hid⟩

theorem mem_setComment {c d : Comment} (h : d ∈ (t.setComment c).comments) :
    d = c ∨ d ∈ t.comments ∧ d.id ≠ c.id := by
  rcases List.mem_map.mp h with ⟨r, hr, rfl⟩
  split
  next => exact .inl rfl
  next hid => exact .inr ⟨hr, hid⟩

variable {id : ℕ}

theorem mem_of_mem_deletePost {q : Post} (h : q ∈ (t.deletePost id).posts) : q ∈ t.posts :=
  List.mem_of_mem_filter h

theorem post_setPost (t : Tables) (p : Post) (id : ℕ) :
    (t.setPost p).post id = if id = p.id then (t.post id).map fun _ => p else t.post id := by
  have hpred : ((fun q : Post => decide (q.id = id)) ∘ fun q => if q.id = p.id then p else q) =
      fun q => decide (q.id = id) := by
    funext q
    by_cases hq : q.id = p.id
    · simp [hq]
    · simp [hq]
  simp only [post, setPost, List.find?_map, hpred]
  cases hfind : t.posts.find? fun q => q.id = id with
  | none => simp
  | some q =>
    have hq : q.id = id := by simpa using List.find?_some hfind
    simp only [Option.map_some, hq]
    split <;> rfl

theorem comment_setComment (t : Tables) (c : Comment) (id : ℕ) :
    (t.setComment c).comment id =
      if id = c.id then (t.comment id).map fun _ => c else t.comment id := by
  have hpred : ((fun d : Comment => decide (d.id = id)) ∘ fun d => if d.id = c.id then c else d) =
      fun d => decide (d.id = id) := by
    funext d
    by_cases hd : d.id = c.id
    · simp [hd]
    · simp [hd]
  simp only [comment, setComment, List.find?_map, hpred]
  cases hfind : t.comments.find? fun d => d.id = id with
  | none => simp
  | some d =>
    have hd : d.id = id := by simpa using List.find?_some hfind
    simp only [Option.map_some, hd]
    split <;> rfl

theorem post_deletePost (t : Tables) (id id' : ℕ) :
    (t.deletePost id).post id' = if id' = id then none else t.post id' := by
  simp only [post, deletePost, List.find?_filter]
  split
  · next heq =>
    rw [List.find?_eq_none]
    intro p _
    simp [heq]
  · next hne =>
    congr 1
    funext p
    by_cases hp : p.id = id'
    · simp [hp, hne]
    · simp [hp]

theorem post_id {p : Post} (h : t.post id = some p) : p.id = id := by
  simpa using List.find?_some h

theorem comment_id {c : Comment} (h : t.comment id = some c) :
    c.id = id := by
  simpa using List.find?_some h

end Tables

end FlyBoard.Moderation

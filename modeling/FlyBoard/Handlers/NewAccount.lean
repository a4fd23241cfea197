import FlyBoard.Handlers.Submit

/-!
# The limits of a new account (`src/db/moderation.c`, `src/handlers/post.c`, `comment.c`)

The submissions of one account, from its registration on: `moderation_check_submission`
counts what the account has, and the statements that create the post or comment follow
later, each on its own, so other submissions may get their turn between them. The state
beside the tables remembers when each post and comment was created: a post's `created_at`
is its publish time, which the form may put into the past.
-/

namespace FlyBoard.NewAccount

open Bytes Db Moderation Run
open Submit (insertPost insertComment)

/-! ## Submissions -/

/-- A post that is not a draft, or a comment, as it comes to the check. -/
structure Submission where
  kind : Kind
  role : Role
  /-- The board of the post, or of the post that is commented on; 0 if there is none. -/
  boardId : ℕ
  /-- What a comment is about. -/
  target : CommentTarget
  /-- The title of a post. -/
  title : Bytes
  content : Bytes
  /-- `publish_at` of a post, if it parses. -/
  publishAt : Option ℕ

/-- The next statement of a submission. -/
inductive Stmt
  /-- INSERT INTO posts, or comments -/
  | create
  /-- `db_comment_delete_admin` of a comment that is held -/
  | hide (id : ℕ)
  /-- `queue_row` -/
  | queue (id : ℕ)
  /-- the DELETE that undoes the INSERT -/
  | drop (id : ℕ)
  | finished
deriving DecidableEq

/-- A submission that the check has let through. -/
structure Thread where
  sub : Submission
  decision : Decision
  /-- `created_at` of the post, as `choose_publish` sets it. -/
  publishAt : ℕ
  next : Stmt

structure Made where
  kind : Kind
  id : ℕ
  /-- When the row was inserted. -/
  time : ℕ
  /-- `created_at` of the row. -/
  dated : ℕ

structure State where
  tables : Tables
  clock : ℕ
  threads : List Thread
  made : List Made

inductive Event
  | wait (d : ℕ)
  /-- a submission comes in and is checked -/
  | check (r : Submission)
  /-- the next statement of a submission; whether it is done -/
  | exec (i : ℕ) (done : Bool)

/-! ## Steps -/

section Model

variable (cfg : Settings) (uid : ℕ)

/-- `MODERATION_NEW_POST_LIMIT`, `MODERATION_NEW_COMMENT_LIMIT` -/
def limit : Kind → ℕ
  | .post => 1
  | .comment => 3

def limitRefusal : Kind → Decision
  | .post => ⟨.reject, bytes "new_user_post_limit"⟩
  | .comment => ⟨.reject, bytes "new_user_comment_limit"⟩

def verdict (s : State) (r : Submission) : Decision :=
  if boardUserCanModerate cfg r.boardId uid r.role then ⟨.allow, []⟩
  else checkSubmission cfg s.tables uid r.role r.kind r.content s.clock

def Thread.post (th : Thread) : Post where
  id := 0
  boardId := th.sub.boardId
  userId := uid
  title := th.sub.title
  content := th.sub.content
  status := if th.decision.action = .pending then .pending else .published
  createdAt := th.publishAt

def Thread.comment (th : Thread) (now : ℕ) : Comment where
  id := 0
  target := th.sub.target
  userId := uid
  content := th.sub.content
  createdAt := now
  deleted := false

def Thread.item (th : Thread) (id now : ℕ) : Item where
  target :=
    match th.sub.kind with
    | .post => .post id
    | .comment => .comment id
  userId := uid
  content :=
    match th.sub.kind with
    | .post => []
    | .comment => th.sub.content
  reason := th.decision.reason
  status := .pending
  createdAt := now

def hideComment (t : Tables) (id : ℕ) : Tables :=
  { t with comments := t.comments.map fun c =>
      if c.id = id ∧ c.deleted = false then { c with deleted := true, content := [] } else c }

def deleteComment (t : Tables) (id : ℕ) : Tables :=
  { t with comments := t.comments.filter fun c => c.id ≠ id }

/-- The tables after a statement of a submission, what it made, and what follows. -/
def Thread.exec (th : Thread) (done : Bool) (t : Tables) (now : ℕ) (made : List Made) :
    Tables × List Made × Stmt :=
  match th.next, done with
  | .create, false => (t, made, .finished)
  | .create, true =>
    match th.sub.kind with
    | .post =>
      (insertPost t (th.post uid), made ++ [⟨.post, t.nextPost, now, th.publishAt⟩],
        if th.decision.action = .pending then .queue t.nextPost else .finished)
    | .comment =>
      (insertComment t (th.comment uid now), made ++ [⟨.comment, t.nextComment, now, now⟩],
        if th.decision.action = .pending then .hide t.nextComment else .finished)
  | .hide id, true => (hideComment t id, made, .queue id)
  | .hide id, false => (t, made, .drop id)
  | .queue id, true => (t.queue (th.item uid id now), made, .finished)
  | .queue id, false => (t, made, .drop id)
  | .drop id, true =>
    let t' :=
      match th.sub.kind with
      | .post => t.deletePost id
      | .comment => deleteComment t id
    (t', made.filter fun m => ¬ (m.kind = th.sub.kind ∧ m.id = id), .finished)
  | .drop _, false => (t, made, .finished)
  | .finished, _ => (t, made, .finished)

def step (s : State) : Event → State
  | .wait d => { s with clock := s.clock + d }
  | .check r =>
    let decision := verdict cfg uid s r
    if decision.action = .reject then s
    else
      { s with threads := s.threads ++ [⟨r, decision, r.publishAt.getD s.clock, .create⟩] }
  | .exec i done =>
    match s.threads[i]? with
    | some th =>
      let r := th.exec uid done s.tables s.clock s.made
      { s with tables := r.1, made := r.2.1, threads := s.threads.set i { th with next := r.2.2 } }
    | none => s

/-! ## What the limits promise -/

/-- Posts or comments of the account that were created in the last 24 hours. -/
def createdRecently (s : State) (kind : Kind) : ℕ :=
  s.made.countP fun m => m.kind = kind && s.clock ≤ m.time + day

def created (s : State) (kind : Kind) : ℕ := s.made.countP fun m => m.kind = kind

/-- The submission is one of a new, untrusted account that reviews nothing. -/
def Limited (s : State) (r : Submission) : Prop :=
  cfg.newUserLimits = true ∧ roleCanModerate cfg r.role = false ∧
    boardUserCanModerate cfg r.boardId uid r.role = false ∧
    accountIsNew s.tables uid s.clock = true ∧ trusted s.tables uid s.clock = false

instance (s : State) (r : Submission) : Decidable (Limited cfg uid s r) :=
  inferInstanceAs (Decidable (_ ∧ _))

def NewUntrusted (s : State) : Event → Prop
  | .check r => Limited cfg uid s r
  | _ => True

/-- A submission is refused exactly when the account has as many as the limit. -/
def RefusedExactly (s : State) : Event → Prop
  | .check r =>
    verdict cfg uid s r = limitRefusal r.kind ↔ limit r.kind ≤ createdRecently s r.kind
  | _ => True

instance (s : State) : ∀ e, Decidable (NewUntrusted cfg uid s e)
  | .wait _ => instDecidableTrue
  | .check r => inferInstanceAs (Decidable (Limited cfg uid s r))
  | .exec _ _ => instDecidableTrue

instance (s : State) : ∀ e, Decidable (RefusedExactly cfg uid s e)
  | .wait _ => instDecidableTrue
  | .check _ => inferInstanceAs (Decidable (_ ↔ _))
  | .exec _ _ => instDecidableTrue

/-- Whatever becomes of the submissions that were let through, the account has no more
than the limit. -/
def NeverMore (s : State) : Prop :=
  ∀ (later : List (ℕ × Bool)) (kind : Kind),
    created (run (step cfg uid) s (later.map fun x => .exec x.1 x.2)) kind ≤ limit kind

/-- In a run every refusal is exact, and the account never gets more than the limit. -/
def LimitsHold (s : State) (es : List Event) : Prop :=
  AllSteps (step cfg uid) (RefusedExactly cfg uid) s es ∧
    ∀ t, Reaches (step cfg uid) s es t → NeverMore cfg uid t

/-! ## When they hold -/

def banned (r : Submission) : Bool := cfg.filter.enabled && cfg.filter.matched r.content

/-- Comments of the account that wait for review, queued in the last 24 hours. -/
def heldRecently (s : State) : Kind → ℕ
  | .post => 0
  | .comment =>
    s.tables.items.countP fun i => i.pendingCommentOf uid && s.clock ≤ i.createdAt + day

/-- Those of the account whose `created_at` is not more than 24 hours ago. -/
def datedRecently (s : State) (kind : Kind) : ℕ :=
  s.made.countP fun m => m.kind = kind && s.clock ≤ m.dated + day

def Thread.creates (th : Thread) (kind : Kind) : Bool := th.sub.kind = kind && th.next = .create

/-- Submissions that were let through and are not created yet. -/
def inFlight (s : State) (kind : Kind) : ℕ := s.threads.countP (·.creates kind)

/-- The count is right at a submission: at the limit the text is not banned and as many as
the limit are dated within the window; below it, nothing is counted twice. -/
def CountsRight (s : State) : Event → Prop
  | .check r =>
    (limit r.kind ≤ createdRecently s r.kind →
      banned cfg r = false ∧ limit r.kind ≤ datedRecently s r.kind) ∧
    (createdRecently s r.kind < limit r.kind →
      banned cfg r = true ∨
        createdRecently s r.kind + heldRecently uid s r.kind < limit r.kind)
  | _ => True

/-- A submission below the limit comes when those under way leave room for it. -/
def LeavesRoom (s : State) : Event → Prop
  | .check r =>
    ¬ (banned cfg r = true ∧ cfg.filter.rejects = true) →
      createdRecently s r.kind < limit r.kind →
      createdRecently s r.kind + inFlight s r.kind < limit r.kind
  | _ => True

def Fits (s : State) (e : Event) : Prop := CountsRight cfg uid s e ∧ LeavesRoom cfg s e

/-! ## The count -/

/-- Ids and `created_at` of the account's rows. -/
def rowsOf (t : Tables) : Kind → List (ℕ × ℕ)
  | .post => (t.posts.filter fun p => p.userId = uid).map fun p => (p.id, p.createdAt)
  | .comment => (t.comments.filter fun c => c.userId = uid).map fun c => (c.id, c.createdAt)

def madeOf (made : List Made) (kind : Kind) : List (ℕ × ℕ) :=
  (made.filter fun m => m.kind = kind).map fun m => (m.id, m.dated)

/-- What the memory of a run says of the tables, from the registration on. -/
structure Faithful (s : State) : Prop where
  rows : ∀ kind, rowsOf uid s.tables kind = madeOf s.made kind
  /-- Nothing is older than the account. -/
  registered : ∀ since, s.tables.userSince uid = some since →
    since ≤ s.clock ∧ ∀ m ∈ s.made, since ≤ m.time
  comments : ∀ m ∈ s.made, m.kind = .comment → m.dated = m.time

variable {cfg uid} {s : State} {r : Submission} {e : Event}

theorem recentCount_rows (t : Tables) (kind : Kind) (now : ℕ) :
    recentCount t uid kind now =
      (rowsOf uid t kind).countP (fun x => now ≤ x.2 + day) +
        match kind with
        | .post => 0
        | .comment => t.items.countP fun i => i.pendingCommentOf uid && now ≤ i.createdAt + day := by
  cases kind with
  | post =>
    simp only [recentCount, rowsOf, List.countP_map, List.countP_filter, Nat.add_zero]
    refine List.countP_congr ?_
    intro p _
    simp [and_comm]
  | comment =>
    simp only [recentCount, rowsOf, List.countP_map, List.countP_filter]
    congr 1
    refine List.countP_congr ?_
    intro c _
    simp [and_comm]

/-- What the code counts: rows by their date, and what is held a second time. -/
theorem Faithful.recentCount_eq (h : Faithful uid s) (kind : Kind) :
    recentCount s.tables uid kind s.clock = datedRecently s kind + heldRecently uid s kind := by
  have hdated : (madeOf s.made kind).countP (fun x => s.clock ≤ x.2 + day) =
      datedRecently s kind := by
    simp only [madeOf, datedRecently, List.countP_map, List.countP_filter]
    refine List.countP_congr ?_
    intro m _
    simp [and_comm]
  rw [recentCount_rows, h.rows, hdated]
  cases kind <;> rfl

theorem Faithful.createdRecently_eq (h : Faithful uid s)
    (hnew : accountIsNew s.tables uid s.clock = true) (kind : Kind) :
    createdRecently s kind = created s kind := by
  unfold accountIsNew at hnew
  rw [Bool.and_eq_true, Option.any_eq_true] at hnew
  rcases hnew.2 with ⟨since, hsince, hlt⟩
  rw [decide_eq_true_eq] at hlt
  have hold := (h.registered since hsince).2
  refine List.countP_congr ?_
  intro m hm
  have htime := hold m hm
  have hwindow : s.clock ≤ m.time + day := by omega
  simp [hwindow]

theorem Faithful.datedRecently_eq (h : Faithful uid s) :
    datedRecently s .comment = createdRecently s .comment := by
  refine List.countP_congr ?_
  intro m hm
  by_cases hkind : m.kind = .comment
  · simp [hkind, h.comments m hm hkind]
  · simp [hkind]

theorem datedRecently_le (s : State) (kind : Kind) : datedRecently s kind ≤ created s kind := by
  refine List.countP_mono_left ?_
  intro m _ hm
  rw [Bool.and_eq_true] at hm
  exact hm.1

/-! ## The verdict on a new account -/

theorem limitRefusal_action (kind : Kind) : (limitRefusal kind).action = .reject := by
  cases kind <;> rfl

theorem banned_ne_limitRefusal (action : Action) (kind : Kind) :
    (⟨action, bytes "banned_content"⟩ : Decision) ≠ limitRefusal kind := by
  intro h
  have hreason : bytes "banned_content" = (limitRefusal kind).reason := congrArg Decision.reason h
  have hpost : bytes "banned_content" ≠ bytes "new_user_post_limit" := by decide +kernel
  have hcomment : bytes "banned_content" ≠ bytes "new_user_comment_limit" := by decide +kernel
  cases kind with
  | post => exact hpost hreason
  | comment => exact hcomment hreason

/-- What is left of the check once filter and limits have nothing to say. -/
theorem not_reject_of_later {p q r : Prop} [Decidable p] [Decidable q] [Decidable r]
    {a b c : Bytes} :
    (if p then (⟨.pending, a⟩ : Decision) else if q then ⟨.pending, b⟩
      else if r then ⟨.pending, c⟩ else ⟨.allow, []⟩).action ≠ .reject := by
  split
  · exact nofun
  · split
    · exact nofun
    · split <;> exact nofun

theorem Limited.verdict_cases (h : Limited cfg uid s r) :
    (banned cfg r = true ∧
      verdict cfg uid s r =
        ⟨if cfg.filter.rejects then .reject else .pending, bytes "banned_content"⟩) ∨
    (banned cfg r = false ∧ limit r.kind ≤ recentCount s.tables uid r.kind s.clock ∧
      verdict cfg uid s r = limitRefusal r.kind) ∨
    (banned cfg r = false ∧ recentCount s.tables uid r.kind s.clock < limit r.kind ∧
      (verdict cfg uid s r).action ≠ .reject) := by
  rcases h with ⟨hlimits, hrole, hboard, hnew, htrusted⟩
  have hverdict : verdict cfg uid s r =
      checkSubmission cfg s.tables uid r.role r.kind r.content s.clock := by
    rw [verdict, if_neg (by rw [hboard]; decide)]
  rw [hverdict]
  unfold checkSubmission
  rw [if_neg (by rw [hrole]; decide), if_neg (by simp [hlimits])]
  cases hbanned : banned cfg r with
  | true =>
    refine .inl ⟨rfl, ?_⟩
    exact if_pos hbanned
  | false =>
    have hfilter : ¬ (cfg.filter.enabled && cfg.filter.matched r.content) = true := by
      rw [← banned, hbanned]
      decide
    rw [if_neg hfilter]
    dsimp only
    rw [hlimits, hnew, htrusted]
    simp only [Bool.and_false, Bool.not_false, Bool.true_and, decide_eq_true_eq]
    by_cases hcount : limit r.kind ≤ recentCount s.tables uid r.kind s.clock
    · refine .inr (.inl ⟨trivial, hcount, ?_⟩)
      rw [if_pos]
      · cases r.kind <;> rfl
      · cases hkind : r.kind <;> rw [hkind] at hcount <;> exact hcount
    · refine .inr (.inr ⟨trivial, Nat.lt_of_not_le hcount, ?_⟩)
      rw [if_neg]
      · exact not_reject_of_later
      · intro hpast
        apply hcount
        cases hkind : r.kind <;> rw [hkind] at hpast <;> exact hpast

/-- The refusal of a new account comes when what the code counts is at the limit. -/
theorem Limited.refused_iff (h : Limited cfg uid s r) :
    verdict cfg uid s r = limitRefusal r.kind ↔
      banned cfg r = false ∧ limit r.kind ≤ recentCount s.tables uid r.kind s.clock := by
  rcases h.verdict_cases with ⟨hbanned, hverdict⟩ | ⟨hbanned, hcount, hverdict⟩ |
    ⟨hbanned, hcount, hverdict⟩
  · rw [hverdict, hbanned]
    constructor
    · intro heq
      exact absurd heq (banned_ne_limitRefusal _ _)
    · rintro ⟨hfalse, -⟩
      exact absurd hfalse (by decide)
  · exact ⟨fun _ => ⟨hbanned, hcount⟩, fun _ => hverdict⟩
  · constructor
    · intro heq
      rw [heq] at hverdict
      exact absurd (limitRefusal_action r.kind) hverdict
    · rintro ⟨-, hpast⟩
      exact absurd hcount (Nat.not_lt_of_le hpast)

theorem Limited.rejected_iff (h : Limited cfg uid s r) :
    (verdict cfg uid s r).action = .reject ↔
      banned cfg r = true ∧ cfg.filter.rejects = true ∨
      banned cfg r = false ∧ limit r.kind ≤ recentCount s.tables uid r.kind s.clock := by
  rcases h.verdict_cases with ⟨hbanned, hverdict⟩ | ⟨hbanned, hcount, hverdict⟩ |
    ⟨hbanned, hcount, hverdict⟩
  · rw [hverdict, hbanned]
    cases cfg.filter.rejects <;> simp
  · rw [hverdict, limitRefusal_action]
    exact ⟨fun _ => .inr ⟨hbanned, hcount⟩, fun _ => rfl⟩
  · rw [hbanned]
    constructor
    · intro hreject
      exact absurd hreject hverdict
    · rintro (⟨hfalse, -⟩ | ⟨-, hpast⟩)
      · exact absurd hfalse (by decide)
      · exact absurd hcount (Nat.not_lt_of_le hpast)

theorem Faithful.refusedExactly_iff (h : Faithful uid s)
    (he : NewUntrusted cfg uid s e) : RefusedExactly cfg uid s e ↔ CountsRight cfg uid s e := by
  cases e with
  | wait d => exact Iff.rfl
  | exec i done => exact Iff.rfl
  | check r =>
    have hlimited : Limited cfg uid s r := he
    have hcount := h.recentCount_eq r.kind
    have hcreated := h.createdRecently_eq hlimited.2.2.2.1 r.kind
    have hdated : NewAccount.datedRecently s r.kind ≤ createdRecently s r.kind := by
      rw [hcreated]
      exact datedRecently_le s r.kind
    have hcomment : r.kind = .comment →
        NewAccount.datedRecently s r.kind = createdRecently s r.kind := by
      intro hkind
      rw [hkind]
      exact h.datedRecently_eq
    have hpost : r.kind = .post → heldRecently uid s r.kind = 0 := by
      intro hkind
      rw [hkind]
      rfl
    have hkinds : r.kind = .comment ∨ r.kind = .post := by
      cases r.kind <;> decide
    unfold RefusedExactly CountsRight
    dsimp only
    rw [hlimited.refused_iff, hcount]
    cases banned cfg r with
    | true =>
      simp only [Bool.true_eq_false, false_and, false_iff, true_or, implies_true, and_true,
        imp_false]
    | false =>
      simp only [true_and, Bool.false_eq_true, false_or]
      constructor
      · intro hexact
        refine ⟨?_, ?_⟩
        · intro hlimit
          have hpast := hexact.mpr hlimit
          rcases hkinds with hkind | hkind
          · rw [hcomment hkind]
            exact hlimit
          · rw [hpost hkind] at hpast
            exact hpast
        · intro hbelow
          have hnot := mt hexact.mp (Nat.not_le_of_lt hbelow)
          rcases hkinds with hkind | hkind
          · rw [hcomment hkind] at hnot
            exact Nat.lt_of_not_le hnot
          · rw [hpost hkind, Nat.add_zero]
            exact hbelow
      · rintro ⟨hlimit, hbelow⟩
        constructor
        · intro hpast
          by_contra hless
          have hroom := hbelow (Nat.lt_of_not_le hless)
          omega
        · intro hfull
          have hpast := hlimit hfull
          omega

/-! ## What a statement does -/

theorem rowsOf_insertPost (t : Tables) {p : Post} (hp : p.userId = uid) (kind : Kind) :
    rowsOf uid (insertPost t p) kind =
      rowsOf uid t kind ++ if kind = .post then [(t.nextPost, p.createdAt)] else [] := by
  cases kind with
  | post => simp [rowsOf, insertPost, List.filter_append, hp]
  | comment => simp [rowsOf, insertPost]

theorem rowsOf_insertComment (t : Tables) {c : Comment} (hc : c.userId = uid) (kind : Kind) :
    rowsOf uid (insertComment t c) kind =
      rowsOf uid t kind ++ if kind = .comment then [(t.nextComment, c.createdAt)] else [] := by
  cases kind with
  | post => simp [rowsOf, insertComment]
  | comment => simp [rowsOf, insertComment, List.filter_append, hc]

theorem rowsOf_hideComment (t : Tables) (id : ℕ) (kind : Kind) :
    rowsOf uid (hideComment t id) kind = rowsOf uid t kind := by
  cases kind with
  | post => rfl
  | comment =>
    simp only [rowsOf, hideComment, List.filter_map, List.map_map]
    have huser : ((fun c : Comment => decide (c.userId = uid)) ∘ fun c : Comment =>
        if c.id = id ∧ c.deleted = false then { c with deleted := true, content := [] } else c) =
          fun c => decide (c.userId = uid) := by
      funext c
      dsimp only [Function.comp]
      split <;> rfl
    rw [huser]
    refine List.map_congr_left ?_
    intro c _
    dsimp only [Function.comp]
    split <;> rfl

theorem rowsOf_deletePost (t : Tables) (id : ℕ) (kind : Kind) :
    rowsOf uid (t.deletePost id) kind =
      (rowsOf uid t kind).filter fun x => ¬ (kind = .post ∧ x.1 = id) := by
  cases kind with
  | post =>
    simp only [rowsOf, Tables.deletePost, List.filter_filter, List.filter_map]
    congr 1
    refine List.filter_congr ?_
    intro p _
    simp [Bool.and_comm]
  | comment => simp [rowsOf, Tables.deletePost]

theorem rowsOf_deleteComment (t : Tables) (id : ℕ) (kind : Kind) :
    rowsOf uid (deleteComment t id) kind =
      (rowsOf uid t kind).filter fun x => ¬ (kind = .comment ∧ x.1 = id) := by
  cases kind with
  | comment =>
    simp only [rowsOf, deleteComment, List.filter_filter, List.filter_map]
    congr 1
    refine List.filter_congr ?_
    intro c _
    simp [Bool.and_comm]
  | post => simp [rowsOf, deleteComment]

theorem madeOf_append (made : List Made) (m : Made) (kind : Kind) :
    madeOf (made ++ [m]) kind =
      madeOf made kind ++ if kind = m.kind then [(m.id, m.dated)] else [] := by
  by_cases hkind : m.kind = kind
  · simp [madeOf, List.filter_append, hkind]
  · simp [madeOf, List.filter_append, hkind, Ne.symm hkind]

theorem madeOf_filter (made : List Made) (kind kind' : Kind) (id : ℕ) :
    madeOf (made.filter fun m => ¬ (m.kind = kind' ∧ m.id = id)) kind =
      (madeOf made kind).filter fun x => ¬ (kind = kind' ∧ x.1 = id) := by
  simp only [madeOf, List.filter_filter, List.filter_map]
  congr 1
  refine List.filter_congr ?_
  intro m _
  by_cases hkind : m.kind = kind
  · simp [hkind]
  · simp [hkind]

/-- A statement writes what the memory says, dated by the clock if it is a comment. -/
theorem Faithful.exec (h : Faithful uid s) (th : Thread) (done : Bool) :
    (∀ kind, rowsOf uid (th.exec uid done s.tables s.clock s.made).1 kind =
      madeOf (th.exec uid done s.tables s.clock s.made).2.1 kind) ∧
    (th.exec uid done s.tables s.clock s.made).1.userSince = s.tables.userSince ∧
    ∀ m ∈ (th.exec uid done s.tables s.clock s.made).2.1,
      m ∈ s.made ∨ m.time = s.clock ∧ (m.kind = .comment → m.dated = m.time) := by
  have hsame : ∀ m ∈ s.made,
      m ∈ s.made ∨ m.time = s.clock ∧ (m.kind = .comment → m.dated = m.time) :=
    fun m hm => .inl hm
  unfold Thread.exec
  split
  · exact ⟨h.rows, rfl, hsame⟩
  · split
    · refine ⟨?_, rfl, ?_⟩
      · intro kind
        have huser : (th.post uid).userId = uid := rfl
        dsimp only
        rw [rowsOf_insertPost _ huser, madeOf_append, h.rows]
        rfl
      · intro m hm
        rcases List.mem_append.mp hm with hold | hnew
        · exact .inl hold
        · rw [List.mem_singleton.mp hnew]
          exact .inr ⟨rfl, nofun⟩
    · refine ⟨?_, rfl, ?_⟩
      · intro kind
        have huser : (th.comment uid s.clock).userId = uid := rfl
        dsimp only
        rw [rowsOf_insertComment _ huser, madeOf_append, h.rows]
        rfl
      · intro m hm
        rcases List.mem_append.mp hm with hold | hnew
        · exact .inl hold
        · rw [List.mem_singleton.mp hnew]
          exact .inr ⟨rfl, fun _ => rfl⟩
  · refine ⟨?_, rfl, hsame⟩
    intro kind
    dsimp only
    rw [rowsOf_hideComment, h.rows]
  · exact ⟨h.rows, rfl, hsame⟩
  · refine ⟨?_, rfl, hsame⟩
    intro kind
    rw [← h.rows]
    cases kind <;> rfl
  · exact ⟨h.rows, rfl, hsame⟩
  · refine ⟨?_, ?_, ?_⟩
    · intro kind
      dsimp only
      rw [madeOf_filter, ← h.rows]
      cases th.sub.kind with
      | post => exact rowsOf_deletePost s.tables _ kind
      | comment => exact rowsOf_deleteComment s.tables _ kind
    · dsimp only
      cases th.sub.kind <;> rfl
    · intro m hm
      exact .inl (List.mem_of_mem_filter hm)
  · exact ⟨h.rows, rfl, hsame⟩
  · exact ⟨h.rows, rfl, hsame⟩

theorem Faithful.afterStep (h : Faithful uid s) (e : Event) :
    Faithful uid (step cfg uid s e) := by
  cases e with
  | wait d =>
    refine ⟨h.rows, ?_, h.comments⟩
    intro since hsince
    rcases h.registered since hsince with ⟨hclock, hmade⟩
    exact ⟨Nat.le_add_right_of_le hclock, hmade⟩
  | check r =>
    dsimp only [step]
    split
    · exact h
    · exact ⟨h.rows, h.registered, h.comments⟩
  | exec i done =>
    dsimp only [step]
    split
    · next th hth =>
      rcases h.exec th done with ⟨hrows, husers, hmade⟩
      refine ⟨hrows, ?_, ?_⟩
      · intro since hsince
        rw [husers] at hsince
        rcases h.registered since hsince with ⟨hclock, hold⟩
        refine ⟨hclock, ?_⟩
        intro m hm
        rcases hmade m hm with hm | ⟨htime, -⟩
        · exact hold m hm
        · rw [htime]
          exact hclock
      · intro m hm hkind
        rcases hmade m hm with hm | ⟨-, hdated⟩
        · exact h.comments m hm hkind
        · exact hdated hkind
    · exact h

/-! ## Room for what is under way -/

def Room (s : State) : Prop := ∀ kind, created s kind + inFlight s kind ≤ limit kind

theorem exec_next (uid : ℕ) (th : Thread) (done : Bool) (t : Tables) (now : ℕ) (made : List Made) :
    (th.exec uid done t now made).2.2 ≠ .create := by
  unfold Thread.exec
  split
  · exact nofun
  · split
    · dsimp only
      split <;> exact nofun
    · dsimp only
      split <;> exact nofun
  · exact nofun
  · exact nofun
  · exact nofun
  · exact nofun
  · exact nofun
  · exact nofun
  · exact nofun

theorem exec_made (uid : ℕ) (th : Thread) (done : Bool) (t : Tables) (now : ℕ) (made : List Made)
    (kind : Kind) :
    (th.exec uid done t now made).2.1.countP (fun m => m.kind = kind) ≤
        made.countP (fun m => m.kind = kind) + (if th.creates kind then 1 else 0) ∧
      (th.creates kind = true →
        (th.exec uid true t now made).2.1.countP (fun m => m.kind = kind) =
          made.countP (fun m => m.kind = kind) + 1) := by
  constructor
  · unfold Thread.exec
    split
    · exact Nat.le_add_right _ _
    · next hnext =>
      have hcreates : th.creates kind = decide (th.sub.kind = kind) := by
        simp [Thread.creates, hnext]
      rw [hcreates]
      split
      · next hkind =>
        rw [hkind]
        simp [List.countP_append, List.countP_singleton]
      · next hkind =>
        rw [hkind]
        simp [List.countP_append, List.countP_singleton]
    · exact Nat.le_add_right _ _
    · exact Nat.le_add_right _ _
    · exact Nat.le_add_right _ _
    · exact Nat.le_add_right _ _
    · exact Nat.le_add_right_of_le List.filter_sublist.countP_le
    · exact Nat.le_add_right _ _
    · exact Nat.le_add_right _ _
  · intro hcreates
    unfold Thread.creates at hcreates
    rw [Bool.and_eq_true, decide_eq_true_eq, decide_eq_true_eq] at hcreates
    rcases hcreates with ⟨hkind, hnext⟩
    unfold Thread.exec
    rw [hnext]
    dsimp only
    split
    · next hpost =>
      rw [← hkind, hpost]
      simp [List.countP_append]
    · next hcomment =>
      rw [← hkind, hcomment]
      simp [List.countP_append]

theorem inFlight_set {i : ℕ} {th : Thread} (hth : s.threads[i]? = some th) {next : Stmt}
    (hnext : next ≠ .create) (kind : Kind) :
    (s.threads.set i { th with next := next }).countP (·.creates kind) +
      (if th.creates kind then 1 else 0) = inFlight s kind := by
  rcases List.getElem?_eq_some_iff.mp hth with ⟨hlt, rfl⟩
  have hcreates : Thread.creates { s.threads[i] with next := next } kind = false := by
    simp [Thread.creates, hnext]
  have hpos : (if s.threads[i].creates kind then 1 else 0) ≤
      s.threads.countP (·.creates kind) := by
    split
    · next h => exact List.countP_pos_iff.mpr ⟨_, List.getElem_mem hlt, h⟩
    · exact Nat.zero_le _
  rw [List.countP_set hlt, hcreates, if_neg Bool.false_ne_true, Nat.add_zero]
  exact Nat.sub_add_cancel hpos

theorem exec_load (s : State) (i : ℕ) (done : Bool) (kind : Kind) :
    created (step cfg uid s (.exec i done)) kind + inFlight (step cfg uid s (.exec i done)) kind ≤
      created s kind + inFlight s kind := by
  dsimp only [step]
  split
  · next th hth =>
    have hmade := (exec_made uid th done s.tables s.clock s.made kind).1
    have hset := inFlight_set hth (exec_next uid th done s.tables s.clock s.made) kind
    calc _ ≤ (created s kind + if th.creates kind then 1 else 0) +
          (s.threads.set i
            { th with next := (th.exec uid done s.tables s.clock s.made).2.2 }).countP
              (·.creates kind) := Nat.add_le_add_right hmade _
      _ = created s kind + inFlight s kind := by
        rw [← hset]
        omega
  · exact Nat.le_refl _

theorem exists_created_eq (cfg : Settings) (uid : ℕ) (s : State) (kind : Kind) :
    ∃ later : List (ℕ × Bool),
      created (run (step cfg uid) s (later.map fun x => .exec x.1 x.2)) kind =
        created s kind + inFlight s kind := by
  generalize hn : inFlight s kind = n
  induction n generalizing s with
  | zero => exact ⟨[], rfl⟩
  | succ n ih =>
    have hpos : 0 < inFlight s kind := by
      rw [hn]
      exact Nat.succ_pos n
    rcases List.countP_pos_iff.mp hpos with ⟨th, hmem, hcreates⟩
    rcases List.getElem?_of_mem hmem with ⟨i, hth⟩
    have hmade := (exec_made uid th true s.tables s.clock s.made kind).2 hcreates
    have hset := inFlight_set hth (exec_next uid th true s.tables s.clock s.made) kind
    rw [hcreates, if_pos rfl, hn] at hset
    have hstep : step cfg uid s (.exec i true) =
        { s with
          tables := (th.exec uid true s.tables s.clock s.made).1
          made := (th.exec uid true s.tables s.clock s.made).2.1
          threads := s.threads.set i
            { th with next := (th.exec uid true s.tables s.clock s.made).2.2 } } := by
      dsimp only [step]
      rw [hth]
    have hcreated : created (step cfg uid s (.exec i true)) kind = created s kind + 1 := by
      rw [hstep]
      exact hmade
    have hrest : inFlight (step cfg uid s (.exec i true)) kind = n := by
      rw [hstep]
      exact Nat.succ.inj hset
    rcases ih _ hrest with ⟨later, hlater⟩
    refine ⟨(i, true) :: later, ?_⟩
    rw [List.map_cons, run_cons, hlater, hcreated]
    omega

/-- The limits hold whatever comes exactly when there is room for all that is under way. -/
theorem neverMore_iff : NeverMore cfg uid s ↔ Room s := by
  constructor
  · intro h kind
    rcases exists_created_eq cfg uid s kind with ⟨later, hlater⟩
    rw [← hlater]
    exact h later kind
  · intro h later kind
    have hload : created (run (step cfg uid) s (later.map fun x => .exec x.1 x.2)) kind +
        inFlight (run (step cfg uid) s (later.map fun x => .exec x.1 x.2)) kind ≤ limit kind := by
      induction later generalizing s with
      | nil => exact h kind
      | cons x later ih =>
        refine ih ?_
        intro kind
        exact Nat.le_trans (exec_load s x.1 x.2 kind) (h kind)
    exact Nat.le_trans (Nat.le_add_right _ _) hload

theorem check_load (hpass : (verdict cfg uid s r).action ≠ .reject) (kind : Kind) :
    created (step cfg uid s (.check r)) kind + inFlight (step cfg uid s (.check r)) kind =
      created s kind + inFlight s kind + if r.kind = kind then 1 else 0 := by
  dsimp only [step]
  rw [if_neg hpass]
  simp only [inFlight, List.countP_append, List.countP_singleton, Thread.creates, decide_true,
    Bool.and_true, decide_eq_true_eq, Nat.add_assoc]
  rfl

/-- A step keeps the room exactly when a submission that is let through finds some. -/
theorem Room.step_iff (h : Room s) (e : Event) :
    Room (step cfg uid s e) ↔
      ∀ r, e = .check r → (verdict cfg uid s r).action ≠ .reject →
        created s r.kind + inFlight s r.kind < limit r.kind := by
  cases e with
  | wait d => exact ⟨fun _ => nofun, fun _ => h⟩
  | exec i done =>
    refine ⟨fun _ => nofun, ?_⟩
    intro _ kind
    exact Nat.le_trans (exec_load s i done kind) (h kind)
  | check r =>
    constructor
    · rintro hroom r' heq hpass
      rw [← Event.check.inj heq] at hpass ⊢
      have hkind := hroom r.kind
      rw [check_load hpass, if_pos rfl] at hkind
      exact hkind
    · intro hfree
      by_cases hpass : (verdict cfg uid s r).action = .reject
      · dsimp only [step]
        rw [if_pos hpass]
        exact h
      · intro kind
        rw [check_load hpass]
        split
        · next hkind =>
          rw [← hkind]
          exact hfree r rfl hpass
        · exact h kind

/-- Where the count is right, room is found exactly when those under way leave it. -/
theorem Faithful.leavesRoom_iff (h : Faithful uid s) (he : NewUntrusted cfg uid s e)
    (hcount : CountsRight cfg uid s e) :
    (∀ r, e = .check r → (verdict cfg uid s r).action ≠ .reject →
      created s r.kind + inFlight s r.kind < limit r.kind) ↔ LeavesRoom cfg s e := by
  cases e with
  | wait d => exact ⟨fun _ => trivial, fun _ => nofun⟩
  | exec i done => exact ⟨fun _ => trivial, fun _ => nofun⟩
  | check r =>
    have hlimited : Limited cfg uid s r := he
    have hcreated := h.createdRecently_eq hlimited.2.2.2.1 r.kind
    have hexact : verdict cfg uid s r = limitRefusal r.kind ↔
        limit r.kind ≤ createdRecently s r.kind := (h.refusedExactly_iff he).mpr hcount
    have hpass : (verdict cfg uid s r).action ≠ .reject ↔
        ¬ (banned cfg r = true ∧ cfg.filter.rejects = true) ∧
          createdRecently s r.kind < limit r.kind := by
      rw [← Nat.not_le, ← hexact, hlimited.refused_iff, ← not_or, ← hlimited.rejected_iff]
    unfold LeavesRoom
    dsimp only
    rw [hcreated] at hpass ⊢
    constructor
    · intro hroom hfilter hbelow
      exact hroom r rfl (hpass.mpr ⟨hfilter, hbelow⟩)
    · intro hroom r' heq hpass'
      rw [← Event.check.inj heq] at hpass' ⊢
      have hboth := hpass.mp hpass'
      exact hroom hboth.1 hboth.2

/-! ## Runs -/

/-- The account at its registration: it has nothing yet. -/
structure Registered (uid : ℕ) (s : State) : Prop where
  rows : ∀ kind, rowsOf uid s.tables kind = []
  since : ∀ since, s.tables.userSince uid = some since → since ≤ s.clock
  threads : s.threads = []
  made : s.made = []

theorem Registered.faithful (h : Registered uid s) : Faithful uid s where
  rows kind := by
    rw [h.rows, h.made]
    rfl
  registered since hsince := by
    rw [h.made]
    exact ⟨h.since since hsince, nofun⟩
  comments := by
    rw [h.made]
    exact nofun

theorem Registered.room (h : Registered uid s) : Room s := by
  intro kind
  simp [created, inFlight, h.made, h.threads]

/-- The limits of a new account are exact in a run, and never exceeded whatever becomes of
what is under way, exactly when at each submission the count is right and those under way
leave room. -/
theorem limits_exact_iff (cfg : Settings) (uid : ℕ) {s : State} (hs : Registered uid s)
    {es : List Event} (hes : AllSteps (step cfg uid) (NewUntrusted cfg uid) s es) :
    LimitsHold cfg uid s es ↔ AllSteps (step cfg uid) (Fits cfg uid) s es := by
  have hinv : ∀ s e, Faithful uid s → NewUntrusted cfg uid s e →
      Faithful uid (step cfg uid s e) :=
    fun _ e h _ => h.afterStep e
  have hexact : AllSteps (step cfg uid) (RefusedExactly cfg uid) s es ↔
      AllSteps (step cfg uid) (CountsRight cfg uid) s es :=
    hes.congr hinv (fun _ _ h he => h.refusedExactly_iff he) hs.faithful
  have hroom : (∀ t, Reaches (step cfg uid) s es t → NeverMore cfg uid t) ↔
      AllSteps (step cfg uid) (fun s e => ∀ r, e = .check r →
        (verdict cfg uid s r).action ≠ .reject →
          created s r.kind + inFlight s r.kind < limit r.kind) s es := by
    simp only [neverMore_iff]
    exact (hes.iff_forall_reaches hinv (fun _ e _ _ h => h.step_iff e) hs.faithful hs.room).symm
  rw [LimitsHold, hexact, hroom, ← allSteps_and]
  refine hes.congr hinv ?_ hs.faithful
  intro s e h he
  exact and_congr_right fun hcount => h.leavesRoom_iff he hcount

end Model

/-! ## A comment too few, and a post too many -/

def queueAll : Settings where
  filter := ⟨false, false, fun _ => false⟩
  roles := false
  boardDelegations := false
  newUserLimits := true
  trust := false
  spamDetection := false
  approvalQueue := true
  delegated _ _ := false

def registered : State where
  tables := ⟨[], [], [], fun uid => if uid = 7 then some 100 else none, 1, 1⟩
  clock := 100
  threads := []
  made := []

theorem registered_registered : Registered 7 registered where
  rows kind := by cases kind <;> rfl
  since since h := by
    have hsince : some 100 = some since := h
    exact Nat.le_of_eq (Option.some.inj hsince).symm
  threads := rfl
  made := rfl

def aComment : Submission := ⟨.comment, .user, 1, .post 1, [], bytes "hello", none⟩

def aPost : Submission := ⟨.post, .user, 1, .post 0, bytes "title", bytes "text", none⟩

def whole (r : Submission) (i : ℕ) : List Event := .check r :: List.replicate 3 (.exec i true)

def threeComments : List Event := whole aComment 0 ++ whole aComment 1 ++ [.check aComment]

def twoPosts : List Event := [.check aPost, .check aPost, .exec 0 true, .exec 1 true]

/-- Held comments are counted twice, so the third is refused; and two posts that are
checked before either is stored are both let through. -/
theorem new_account_limits_fail :
    (Registered 7 registered ∧
      AllSteps (step queueAll 7) (NewUntrusted queueAll 7) registered threeComments ∧
      created (run (step queueAll 7) registered threeComments) .comment = 2 ∧
      ¬ AllSteps (step queueAll 7) (RefusedExactly queueAll 7) registered threeComments) ∧
    (AllSteps (step queueAll 7) (NewUntrusted queueAll 7) registered twoPosts ∧
      created (run (step queueAll 7) registered twoPosts) .post = 2 ∧
      ¬ NeverMore queueAll 7 (run (step queueAll 7) registered twoPosts)) := by
  have hcomments : AllSteps (step queueAll 7) (NewUntrusted queueAll 7) registered threeComments ∧
      created (run (step queueAll 7) registered threeComments) .comment = 2 ∧
      ¬ AllSteps (step queueAll 7) (RefusedExactly queueAll 7) registered threeComments := by
    decide +kernel
  have hposts : AllSteps (step queueAll 7) (NewUntrusted queueAll 7) registered twoPosts ∧
      created (run (step queueAll 7) registered twoPosts) .post = 2 := by
    decide +kernel
  refine ⟨⟨registered_registered, hcomments⟩, hposts.1, hposts.2, ?_⟩
  intro h
  have hmost := h [] .post
  rw [List.map_nil, run_nil, hposts.2] at hmost
  exact absurd hmost (by decide)

/-- One comment alone. -/
theorem limits_exact_oneComment :
    LimitsHold queueAll 7 registered (whole aComment 0) ↔
      AllSteps (step queueAll 7) (Fits queueAll 7) registered (whole aComment 0) :=
  limits_exact_iff queueAll 7 registered_registered (by decide +kernel)

end FlyBoard.NewAccount

import FlyBoard.Db.Moderation
import FlyBoard.Lib.Keyed
import FlyBoard.Lib.Run

/-!
# Decisions on pending items (`src/db/moderation.c`)

`db_moderation_approve`, `db_moderation_reject` and `db_moderation_external_apply`
statement by statement. No transaction spans two statements: they run on their own,
may fail, and between two of them other calls may get their turn. The search index and
the journal, whose failures are ignored, are left out.
-/

namespace FlyBoard.Review

open Moderation Run

/-! ## Tables -/

/-- What the schema promises of `moderation_items`: UNIQUE(target_type,target_id). -/
def UniqueTargets (t : Tables) : Prop := (t.items.map (·.target)).Nodup

/-- A row of `moderation_external_requests`. -/
structure Request where
  correlationId : Bytes
  target : Target
  issuedAt : ℤ
  expiresAt : ℤ
deriving DecidableEq

/-- A row of `moderation_decision_receipts`. -/
structure Receipt where
  decisionId : Bytes
  correlationId : Bytes
  action : Action
  issuedAt : ℤ
  reason : Bytes
deriving DecidableEq

structure Store where
  tables : Tables
  requests : Keyed.Table Request.correlationId
  receipts : Keyed.Table Receipt.decisionId
  unique : UniqueTargets tables

/-! ## Approval and rejection -/

/-- What becomes of a statement: it is done, or fails in `sqlite3_prepare_v2` or in
`sqlite3_step`. -/
inductive Outcome
  | done
  | notPrepared
  | failed
deriving DecidableEq

inductive Verdict
  | approve
  | reject
deriving DecidableEq

def Verdict.status : Verdict → ItemStatus
  | .approve => .approved
  | .reject => .rejected

/-- The next statement of `db_moderation_approve` or `db_moderation_reject`. -/
inductive Body
  /-- `pending_item` -/
  | readItem (verdict : Verdict) (target : Target)
  /-- UPDATE posts SET status='published' -/
  | publishPost (id : ℕ)
  /-- UPDATE comments SET content=?,deleted=0 -/
  | publishComment (id : ℕ) (content : Bytes)
  /-- `db_post_delete` -/
  | removePost (id : ℕ)
  /-- `finish_review` -/
  | finish (verdict : Verdict) (target : Target)
deriving DecidableEq

namespace Body

def target : Body → Target
  | .readItem _ target => target
  | .publishPost id => .post id
  | .publishComment id _ => .comment id
  | .removePost id => .post id
  | .finish _ target => target

def verdict : Body → Verdict
  | .readItem verdict _ => verdict
  | .publishPost _ => .approve
  | .publishComment _ _ => .approve
  | .removePost _ => .reject
  | .finish verdict _ => verdict

def afterRead : Verdict → Target → Bytes → Body
  | .approve, .post id, _ => .publishPost id
  | .approve, .comment id, content => .publishComment id content
  | .reject, .post id, _ => .removePost id
  | .reject, .comment id, _ => .finish .reject (.comment id)

/-- The statement on the tables when it is done, and what follows or what the function
returns. -/
def run (t : Tables) : Body → Tables × (Body ⊕ Bool)
  | .readItem verdict target =>
    match t.pendingItem target with
    | some item => (t, .inl (afterRead verdict target item.content))
    | none => (t, .inr false)
  | .publishPost id =>
    match t.post id with
    | some p =>
      if p.status = .pending then
        (t.setPost { p with status := .published }, .inl (.finish .approve (.post id)))
      else (t, .inr false)
    | none => (t, .inr false)
  | .publishComment id content =>
    match t.comment id with
    | some c =>
      if c.deleted then
        (t.setComment { c with content := content, deleted := false },
          .inl (.finish .approve (.comment id)))
      else (t, .inr false)
    | none => (t, .inr false)
  | .removePost id => (t.deletePost id, .inl (.finish .reject (.post id)))
  | .finish verdict target =>
    match t.pendingItem target with
    | some _ => (t.finishReview target verdict.status, .inr true)
    | none => (t, .inr false)

/-- After a statement that fails the function returns false. -/
def exec (o : Outcome) (t : Tables) (b : Body) : Tables × (Body ⊕ Bool) :=
  if o = .done then b.run t else (t, .inr false)

theorem finishReview_targets (t : Tables) (target : Target) (status : ItemStatus) :
    (t.finishReview target status).items.map (·.target) = t.items.map (·.target) := by
  simp only [Tables.finishReview, List.map_map]
  refine List.map_congr_left ?_
  intro i _
  dsimp only [Function.comp]
  split <;> rfl

theorem exec_targets (o : Outcome) (t : Tables) (b : Body) :
    (b.exec o t).1.items.map (·.target) = t.items.map (·.target) := by
  unfold exec
  split
  · cases b with
    | readItem verdict target =>
      dsimp only [run]
      split <;> rfl
    | publishPost id =>
      dsimp only [run]
      split
      · split <;> rfl
      · rfl
    | publishComment id content =>
      dsimp only [run]
      split
      · split <;> rfl
      · rfl
    | removePost id => rfl
    | finish verdict target =>
      dsimp only [run]
      split
      · exact finishReview_targets t target verdict.status
      · rfl
  · rfl

end Body

/-! ## Requests to the reviewer -/

def targetId : Target → ℕ
  | .post id => id
  | .comment id => id

/-- The SELECT of `db_moderation_external_create`: content and reason of a pending item.
The content of a post is that of its row. -/
def reviewContent (t : Tables) (target : Target) : Option (Bytes × Bytes) :=
  match t.pendingItem target, target with
  | some i, .post id => (t.post id).map fun p => (p.content, i.reason)
  | some i, .comment _ => some (i.content, i.reason)
  | none, _ => none

/-- `db_moderation_external_create`, with the outcomes of its two statements. -/
def Store.externalCreate (s : Store) (target : Target) (correlationId : Bytes)
    (issuedAt expiresAt : ℤ) (inserted selected : Outcome) : Store × Option (Bytes × Bytes) :=
  -- PRIMARY KEY and UNIQUE(target_type,target_id)
  let taken := (s.requests.find? correlationId).isSome ||
    s.requests.rows.any fun r => r.target = target
  if targetId target = 0 ∨ expiresAt ≤ issuedAt ∨ inserted ≠ .done ∨ taken = true then (s, none)
  else
    ({ s with requests := s.requests.insertOrIgnore ⟨correlationId, target, issuedAt, expiresAt⟩ },
      if selected = .done then reviewContent s.tables target else none)

/-! ## Calls -/

/-- `moderation_external_result_t` -/
inductive ExternalResult
  | error
  | applied
  | duplicate
  | rejected
deriving DecidableEq

/-- The arguments of `db_moderation_external_apply`. -/
structure External where
  correlationId : Bytes
  decisionId : Bytes
  action : Action
  issuedAt : ℤ
  reason : Bytes
  now : ℤ
deriving DecidableEq

inductive Call
  | approve (target : Target)
  | reject (target : Target)
  | externalApply (e : External)

inductive Result
  | returned (ok : Bool)
  | external (r : ExternalResult)
deriving DecidableEq

/-- A call under way: its next statement, or what it has returned. -/
inductive Thread
  | findReceipt (e : External)
  | findRequest (e : External)
  | insertReceipt (e : External) (target : Target)
  | body (caller : Option External) (b : Body)
  | dropReceipt (e : External)
  | answered (r : Result)
deriving DecidableEq

def Call.start : Call → Thread
  | .approve target => .body none (.readItem .approve target)
  | .reject target => .body none (.readItem .reject target)
  | .externalApply e => .findReceipt e

def Receipt.same (r : Receipt) (e : External) : Bool :=
  r.correlationId == e.correlationId && r.action == e.action && r.issuedAt == e.issuedAt &&
    r.reason == e.reason

def Store.request (s : Store) (correlationId : Bytes) : Option Request :=
  (s.requests.find? correlationId).filter fun r => (s.tables.pendingItem r.target).isSome

/-- The decision comes too late, or its time does not fit the request's. -/
def Request.refuses (r : Request) (e : External) : Bool :=
  r.expiresAt < e.now || e.now + 300 < e.issuedAt || e.issuedAt < r.issuedAt - 300

/-- What follows once the receipt is stored. -/
def External.decide (e : External) (target : Target) : Thread :=
  match e.action with
  | .allow => .body (some e) (.readItem .approve target)
  | .pending => .answered (.external .applied)
  | .reject => .body (some e) (.readItem .reject target)

/-- What a call makes of the result of its approval or rejection. -/
def returnTo : Option External → Bool → Thread
  | none, ok => .answered (.returned ok)
  | some _, true => .answered (.external .applied)
  | some e, false => .dropReceipt e

def Thread.exec (o : Outcome) (s : Store) : Thread → Store × Thread
  | .findReceipt e =>
    match o, s.receipts.find? e.decisionId with
    | .notPrepared, _ => (s, .answered (.external .error))
    | .done, some r =>
      (s, .answered (.external (if r.same e then .duplicate else .rejected)))
    | _, _ => (s, .findRequest e)
  | .findRequest e =>
    match o, s.request e.correlationId with
    | .notPrepared, _ => (s, .answered (.external .error))
    | .done, some r =>
      if r.refuses e then (s, .answered (.external .rejected)) else (s, .insertReceipt e r.target)
    | _, _ => (s, .answered (.external .rejected))
  | .insertReceipt e target =>
    match o with
    | .notPrepared => (s, .answered (.external .error))
    | .failed => (s, .answered (.external .duplicate))
    | .done =>
      -- the decision id is the primary key
      if (s.receipts.find? e.decisionId).isSome then (s, .answered (.external .duplicate))
      else
        let receipt := ⟨e.decisionId, e.correlationId, e.action, e.issuedAt, e.reason⟩
        ({ s with receipts := s.receipts.insertOrIgnore receipt }, e.decide target)
  | .body caller b =>
    let r := b.exec o s.tables
    ({ s with
        tables := r.1
        unique := by
          have heq : r.1.items.map (·.target) = s.tables.items.map (·.target) :=
            b.exec_targets o s.tables
          unfold UniqueTargets
          rw [heq]
          exact s.unique },
      match r.2 with
      | .inl b => .body caller b
      | .inr ok => returnTo caller ok)
  | .dropReceipt e =>
    match o with
    | .done =>
      ({ s with receipts := s.receipts.remove e.decisionId }, .answered (.external .error))
    | _ => (s, .answered (.external .error))
  | .answered r => (s, .answered r)

/-! ## Runs -/

structure State where
  store : Store
  threads : List Thread

/-- A call begins, or the next statement of a call runs. -/
inductive Event
  | start (c : Call)
  | exec (i : ℕ) (o : Outcome)

def step (s : State) : Event → State
  | .start c => { s with threads := s.threads ++ [c.start] }
  | .exec i o =>
    match s.threads[i]? with
    | some th =>
      let r := th.exec o s.store
      ⟨r.1, s.threads.set i r.2⟩
    | none => s

/-- The decision that the call makes: it has read the item as pending and has not come to
the end of `db_moderation_approve` or `db_moderation_reject`. -/
def Thread.decision : Thread → Option (Verdict × Target)
  | .body _ (.readItem _ _) => none
  | .body _ b => some (b.verdict, b.target)
  | _ => none

def Thread.Deciding (v : Verdict) (target : Target) (th : Thread) : Prop :=
  th.decision = some (v, target)

instance (v : Verdict) (target : Target) : DecidablePred (Thread.Deciding v target) :=
  fun th => inferInstanceAs (Decidable (th.decision = some (v, target)))

def Verdict.other : Verdict → Verdict
  | .approve => .reject
  | .reject => .approve

/-- A call reads the item only while no opposite decision on it is under way, and once an
approval has made the target visible its `finish_review` does not fail. -/
def Undisturbed (target : Target) (s : State) : Event → Prop
  | .start _ => True
  | .exec i o =>
    match s.threads[i]? with
    | some (.body _ (.readItem v x)) =>
      x = target → ∀ th ∈ s.threads, ¬ th.Deciding v.other target
    | some (.body _ (.finish .approve x)) => x = target → o = .done
    | _ => True

instance (target : Target) (s : State) : DecidablePred (Undisturbed target s) := by
  intro e
  unfold Undisturbed
  split
  · infer_instance
  · split <;> infer_instance

/-! ## What a decision is about -/

/-- Whether the row of a target is hidden until a decision, visible, or a draft. -/
inductive Display
  | waiting
  | shown
  | draft
deriving DecidableEq

def postDisplay (p : Db.Post) : Display :=
  match p.status with
  | .pending => .waiting
  | .published => .shown
  | .draft => .draft

def commentDisplay (c : Comment) : Display := if c.deleted then .waiting else .shown

def display (t : Tables) : Target → Option Display
  | .post id => (t.post id).map postDisplay
  | .comment id => (t.comment id).map commentDisplay

def item (t : Tables) (target : Target) : Option Item := t.items.find? fun i => i.target = target

def status (t : Tables) (target : Target) : Option ItemStatus := (item t target).map (·.status)

/-- How a decision leaves the row of its target, whatever happens beside it. -/
def Settled : Verdict → Target → Option Display → Prop
  | .approve, .post _, d => d ≠ some .waiting ∧ d ≠ some .draft
  | .approve, .comment _, d => d = some .shown
  | .reject, .post _, d => d = none
  | .reject, .comment _, _ => True

/-! ### Lookups -/

section

variable {t : Tables} {target x : Target}

theorem item_finishReview (t : Tables) (target x : Target) (st : ItemStatus) :
    item (t.finishReview target st) x = (item t x).map fun i =>
      if i.target = target ∧ i.status = .pending then { i with status := st } else i := by
  unfold item Tables.finishReview
  rw [List.find?_map]
  congr 2
  funext i
  dsimp only [Function.comp]
  split <;> rfl

theorem status_finishReview (t : Tables) (target x : Target) (st : ItemStatus) :
    status (t.finishReview target st) x =
      if x = target ∧ status t x = some .pending then some st else status t x := by
  unfold status
  rw [item_finishReview]
  cases hi : item t x with
  | none => simp
  | some i =>
    have htarget : i.target = x := by simpa using List.find?_some hi
    by_cases hx : x = target
    · by_cases hp : i.status = .pending
      · simp [htarget, hx, hp]
      · simp [htarget, hx, hp]
    · simp [htarget, hx]

theorem item_of_pendingItem {i : Item} (hu : UniqueTargets t) (h : t.pendingItem target = some i) :
    item t target = some i ∧ i.status = .pending := by
  have hi : i.target = target ∧ i.status = .pending := by simpa using List.find?_some h
  have hmem : i ∈ t.items := List.mem_of_find?_eq_some h
  refine ⟨?_, hi.2⟩
  cases hj : item t target with
  | none =>
    have hnone := List.find?_eq_none.1 hj i hmem
    simp [hi.1] at hnone
  | some j =>
    have htarget : j.target = target := by simpa using List.find?_some hj
    have hji := List.inj_on_of_nodup_map hu (List.mem_of_find?_eq_some hj) hmem
      (htarget.trans hi.1.symm)
    rw [hji]

theorem pendingItem_of_status (hu : UniqueTargets t) (h : status t target = some .pending) :
    ∃ i, t.pendingItem target = some i ∧ item t target = some i := by
  obtain ⟨j, hj, hpending⟩ := Option.map_eq_some_iff.1 h
  have htarget : j.target = target := by simpa using List.find?_some hj
  have hsome : (t.pendingItem target).isSome := by
    rw [Tables.pendingItem, List.find?_isSome]
    exact ⟨j, List.mem_of_find?_eq_some hj, by simp [htarget, hpending]⟩
  obtain ⟨i, hi⟩ := Option.isSome_iff_exists.1 hsome
  exact ⟨i, hi, (item_of_pendingItem hu hi).1⟩

theorem status_of_pendingItem {i : Item} (hu : UniqueTargets t)
    (h : t.pendingItem target = some i) : status t target = some .pending := by
  obtain ⟨hi, hpending⟩ := item_of_pendingItem hu h
  rw [status, hi, Option.map_some, hpending]

theorem display_setPost {p p' : Db.Post} (h : t.post p.id = some p') (x : Target) :
    display (t.setPost p) x = if x = .post p.id then some (postDisplay p) else display t x := by
  cases x with
  | post id =>
    simp only [display, Tables.post_setPost, Target.post.injEq]
    split
    · next hid => rw [hid, h]; rfl
    · rfl
  | comment id => rfl

theorem display_setComment {c c' : Comment} (h : t.comment c.id = some c') (x : Target) :
    display (t.setComment c) x =
      if x = .comment c.id then some (commentDisplay c) else display t x := by
  cases x with
  | post id => rfl
  | comment id =>
    simp only [display, Tables.comment_setComment, Target.comment.injEq]
    split
    · next hid => rw [hid, h]; rfl
    · rfl

theorem display_deletePost (t : Tables) (id : ℕ) (x : Target) :
    display (t.deletePost id) x = if x = .post id then none else display t x := by
  cases x with
  | post id' =>
    simp only [display, Tables.post_deletePost, Target.post.injEq]
    split <;> rfl
  | comment id' => rfl

end

/-! ### What a statement does -/

/-- The UPDATE that makes a target visible. -/
def Body.Publishes : Body → Prop
  | .publishPost _ | .publishComment _ _ => True
  | _ => False

theorem Body.exec_cases {t : Tables} (hu : UniqueTargets t) (o : Outcome) (b : Body) :
    b.exec o t = (t, .inr false) ∨
    (∃ v x i, b = .readItem v x ∧ item t x = some i ∧ i.status = .pending ∧
      b.exec o t = (t, .inl (afterRead v x i.content))) ∨
    (b.Publishes ∧ display t b.target = some .waiting ∧
      (b.exec o t).2 = .inl (.finish .approve b.target) ∧
      (∀ x, display (b.exec o t).1 x = if x = b.target then some .shown else display t x) ∧
      (b.exec o t).1.items = t.items) ∨
    (∃ id, b = .removePost id ∧ b.exec o t = (t.deletePost id, .inl (.finish .reject (.post id)))) ∨
    (∃ v x, b = .finish v x ∧ status t x = some .pending ∧
      b.exec o t = (t.finishReview x v.status, .inr true)) := by
  by_cases ho : o = .done
  · rw [show b.exec o t = b.run t from if_pos ho]
    cases b with
    | readItem v x =>
      cases hi : t.pendingItem x with
      | none => exact .inl (by simp [run, hi])
      | some i =>
        obtain ⟨hitem, hpending⟩ := item_of_pendingItem hu hi
        exact .inr (.inl ⟨v, x, i, rfl, hitem, hpending, by simp [run, hi]⟩)
    | publishPost id =>
      cases hp : t.post id with
      | none => exact .inl (by simp [run, hp])
      | some p =>
        by_cases hpending : p.status = .pending
        · have hid := Tables.post_id hp
          subst hid
          refine .inr (.inr (.inl ⟨trivial, ?_, ?_, ?_, ?_⟩))
          · simp [display, target, hp, postDisplay, hpending]
          · simp [run, hp, hpending, target]
          · intro x
            simp only [run, hp, hpending, if_true]
            exact display_setPost (p := { p with status := .published }) hp x
          · simp [run, hp, hpending, Tables.setPost]
        · exact .inl (by simp [run, hp, hpending])
    | publishComment id content =>
      cases hc : t.comment id with
      | none => exact .inl (by simp [run, hc])
      | some c =>
        by_cases hdeleted : c.deleted = true
        · have hid := Tables.comment_id hc
          subst hid
          refine .inr (.inr (.inl ⟨trivial, ?_, ?_, ?_, ?_⟩))
          · simp [display, target, hc, commentDisplay, hdeleted]
          · simp [run, hc, hdeleted, target]
          · intro x
            simp only [run, hc, hdeleted, if_true]
            exact display_setComment (c := { c with content := content, deleted := false }) hc x
          · simp [run, hc, hdeleted, Tables.setComment]
        · exact .inl (by simp [run, hc, hdeleted])
    | removePost id => exact .inr (.inr (.inr (.inl ⟨id, rfl, rfl⟩)))
    | finish v x =>
      cases hi : t.pendingItem x with
      | none => exact .inl (by simp [run, hi])
      | some i =>
        have hpending := status_of_pendingItem hu hi
        exact .inr (.inr (.inr (.inr ⟨v, x, rfl, hpending, by simp [run, hi]⟩)))
  · exact .inl (if_neg ho)

theorem afterRead_target (v : Verdict) (y : Target) (content : Bytes) :
    (Body.afterRead v y content).target = y := by
  cases v <;> cases y <;> rfl

theorem exec_target {t : Tables} (hu : UniqueTargets t) {o : Outcome} {b b' : Body}
    (h : (b.exec o t).2 = .inl b') : b'.target = b.target := by
  rcases b.exec_cases hu o with heq | ⟨v, y, i, rfl, -, -, heq⟩ | ⟨-, -, hgoes, -, -⟩ |
    ⟨id, rfl, heq⟩ | ⟨w, y, -, -, heq⟩
  · rw [heq] at h
    cases h
  · rw [heq] at h
    obtain rfl := Sum.inl.inj h
    exact afterRead_target v y i.content
  · rw [hgoes] at h
    obtain rfl := Sum.inl.inj h
    rfl
  · rw [heq] at h
    obtain rfl := Sum.inl.inj h
    rfl
  · rw [heq] at h
    cases h

/-- A call outside of `db_moderation_approve` and `db_moderation_reject` leaves the
tables alone; inside, it runs their next statement. -/
theorem Thread.exec_cases (o : Outcome) (s : Store) (th : Thread) :
    ((∀ caller b, th ≠ .body caller b) ∧ (th.exec o s).1.tables = s.tables ∧
      ∀ caller b, (th.exec o s).2 = .body caller b → ∃ v x, b = .readItem v x) ∨
    (∃ caller b, th = .body caller b ∧ (th.exec o s).1.tables = (b.exec o s.tables).1 ∧
      (th.exec o s).2 = match (b.exec o s.tables).2 with
        | .inl b => .body caller b
        | .inr ok => returnTo caller ok) := by
  cases th with
  | body caller b => exact .inr ⟨caller, b, rfl, rfl, rfl⟩
  | findReceipt e =>
    refine .inl ⟨nofun, ?_, ?_⟩
    · simp only [exec]
      split <;> rfl
    · simp only [exec]
      split <;> exact nofun
  | findRequest e =>
    refine .inl ⟨nofun, ?_, ?_⟩
    · simp only [exec]
      split
      · rfl
      · split <;> rfl
      · rfl
    · simp only [exec]
      split
      · exact nofun
      · split <;> exact nofun
      · exact nofun
  | insertReceipt e target =>
    refine .inl ⟨nofun, ?_, ?_⟩
    · simp only [exec]
      split
      · rfl
      · rfl
      · split <;> rfl
    · intro caller b h
      simp only [exec] at h
      split at h
      · cases h
      · cases h
      · split at h
        · cases h
        · unfold External.decide at h
          -- allow and reject go on to read the item
          split at h
          · cases h
            exact ⟨_, _, rfl⟩
          · cases h
          · cases h
            exact ⟨_, _, rfl⟩
  | dropReceipt e =>
    refine .inl ⟨nofun, ?_, ?_⟩
    · simp only [exec]
      split <;> rfl
    · simp only [exec]
      split <;> exact nofun
  | answered r => exact .inl ⟨nofun, rfl, nofun⟩

theorem returnTo_ne_body (caller : Option External) (ok : Bool) (caller' : Option External)
    (b : Body) : returnTo caller ok ≠ .body caller' b := by
  cases caller <;> cases ok <;> exact nofun

/-- `display` and `status` of the state. -/
def State.display (s : State) : Target → Option Display := Review.display s.store.tables

def State.status (s : State) : Target → Option ItemStatus := Review.status s.store.tables

theorem step_exec {i : ℕ} {th : Thread} (hi : s.threads[i]? = some th) (o : Outcome) :
    step s (.exec i o) = ⟨(th.exec o s.store).1, s.threads.set i (th.exec o s.store).2⟩ := by
  simp [step, hi]

end FlyBoard.Review

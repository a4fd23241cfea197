import FlyBoard.Lib.Bytes
import FlyBoard.Lib.Redelivery
import Mathlib.Data.List.MinMax
import Mathlib.Data.Prod.Lex

/-!
# Federated notifications (`src/db/notification.c`, `src/nats/fly_nats.c`)

Every worker process of a node gets every comment event, so the same event reaches
`notification_store` several times. It is recognised by its event id, which the row of
the first delivery carries; where notifications are aggregated, a later event that is
folded into that row replaces the id, and the earlier event is taken for a new one.

A delivery is one transaction (`BEGIN IMMEDIATE`), so that any interleaving of the workers
is a sequence of deliveries.
-/

namespace FlyBoard.Notification

open Run Redelivery

/-! ## The table -/

/-- A row of `notifications`. `actor_history` is the JSON array of these names. -/
structure NotificationRow where
  id : ℕ
  userId : ℤ
  actorName : Bytes
  kind : Bytes
  postId : ℤ
  postSlug : Bytes
  commentId : ℤ
  excerpt : Bytes
  isRead : Bool
  createdAt : ℤ
  actorCount : ℕ
  actorHistory : List Bytes
  eventId : Option Bytes
deriving DecidableEq

/-- The table. `sequence` is the largest id that AUTOINCREMENT has given. -/
structure Table where
  rows : List NotificationRow
  sequence : ℕ
deriving DecidableEq

/-- What the node is configured with, and the ids of its users. -/
structure Site where
  rootUrl : Bytes
  notificationAggregation : Bool
  notificationWindowSeconds : ℕ
  users : ℤ → Bool

/-- What `notification_store` is given; without an event id, `eventId` is empty. -/
structure Item where
  userId : ℤ
  actorName : Bytes
  kind : Bytes
  postId : ℤ
  postSlug : Bytes
  commentId : ℤ
  excerpt : Bytes
  eventId : Bytes

/-- `actor_history_append`. -/
def actorHistoryAppend (history : List Bytes) (actor : Bytes) : List Bytes :=
  if actor ∈ history then history else history ++ [actor]

/-- `notification_event_exists`. -/
def eventExists (t : Table) (eventId : Bytes) : Bool :=
  !eventId.isEmpty && t.rows.any fun r => r.eventId == some eventId

/-- What is bound for `event_id`. -/
def boundEventId (eventId : Bytes) : Option Bytes := if eventId.isEmpty then none else some eventId

/-- When `notification_store` runs, whether its `BEGIN IMMEDIATE` succeeds, and whether
what follows is done and committed. -/
structure Attempt where
  now : ℤ
  begun : Bool
  committed : Bool

section Store

variable (site : Site) (t : Table) (n : Item) (now : ℤ)

-- the order of the times is to be computed
local instance preorderTime : Preorder ℤ := Int.instLinearOrder.toPreorder

def foldsInto (r : NotificationRow) : Bool :=
  r.userId = n.userId && r.kind = n.kind && r.postId = n.postId && r.postSlug = n.postSlug &&
    now - site.notificationWindowSeconds ≤ r.createdAt

def findRow : Option NotificationRow :=
  if site.notificationAggregation then
    (t.rows.filter (foldsInto site n now)).argmax fun r => toLex (r.createdAt, r.id)
  else none

def NotificationRow.fold (r : NotificationRow) (history : List Bytes) : NotificationRow :=
  { r with actorName := n.actorName, commentId := n.commentId, excerpt := n.excerpt,
           isRead := false, createdAt := now, actorCount := history.length,
           actorHistory := history, eventId := boundEventId n.eventId }

def Item.row (id : ℕ) : NotificationRow where
  id := id
  userId := n.userId
  actorName := n.actorName
  kind := n.kind
  postId := n.postId
  postSlug := n.postSlug
  commentId := n.commentId
  excerpt := n.excerpt
  isRead := false
  createdAt := now
  actorCount := 1
  actorHistory := actorHistoryAppend [] n.actorName
  eventId := boundEventId n.eventId

/-- `notification_store`. A transaction that does not commit is rolled back. -/
def notificationStore (a : Attempt) : Table × Bool :=
  let transactional := site.notificationAggregation || !n.eventId.isEmpty
  if n.userId ≤ 0 ∨ n.kind = [] then (t, false)
  else if transactional = true ∧ a.begun = false then (t, false)
  else if eventExists t n.eventId then (t, true)
  else if a.committed = false then (t, false)
  else
    match findRow site t n a.now with
    | some found =>
      let history := actorHistoryAppend found.actorHistory n.actorName
      ({ t with rows := t.rows.map fun r => if r.id = found.id then r.fold n a.now history else r },
        true)
    | none => (⟨t.rows ++ [n.row a.now (t.sequence + 1)], t.sequence + 1⟩, true)

end Store

/-! ## Where notifications come from -/

/-- The members of a comment event that `on_comment_msg` reads. -/
structure Message where
  origin : Bytes
  actorName : Bytes
  kind : Bytes
  postSlug : Bytes
  excerpt : Bytes
  eventId : Bytes
  recipient : ℤ
deriving DecidableEq

def Message.item (m : Message) : Item where
  userId := m.recipient
  actorName := m.actorName
  kind := m.kind
  postId := 0
  postSlug := m.postSlug
  commentId := 0
  excerpt := m.excerpt
  eventId := m.eventId

/-- `db_notification_deliver_federated`. -/
def deliverFederated (site : Site) (t : Table) (m : Message) (a : Attempt) : Table × Bool :=
  if m.recipient ≤ 0 ∨ site.users m.recipient = false then (t, false)
  else notificationStore site t m.item a

/-- `on_comment_msg`: events of this node were recorded when the comment was created. -/
def onCommentMsg (site : Site) (t : Table) (m : Message) (a : Attempt) : Table :=
  if site.rootUrl ≠ [] ∧ m.origin ≠ [] ∧ m.origin = site.rootUrl then t
  else if 0 < m.recipient ∧ m.kind ≠ [] then (deliverFederated site t m a).1
  else t

/-- `db_notification_create`. -/
def notificationCreate (site : Site) (t : Table) (n : Item) (a : Attempt) : Table × Bool :=
  notificationStore site t { n with eventId := [] } a

/-- `db_notification_mark_all_read`. -/
def markAllRead (t : Table) (userId : ℤ) : Table × Bool :=
  if userId ≤ 0 then (t, false)
  else
    ({ t with rows := t.rows.map fun r => if r.userId = userId then { r with isRead := true } else r },
      true)

/-! ## Runs -/

inductive Op where
  /-- a worker process gets an event -/
  | message (worker : ℕ) (m : Message) (a : Attempt)
  /-- a comment of this node -/
  | create (n : Item) (a : Attempt)
  | markAllRead (userId : ℤ)

variable (site : Site)

def step (t : Table) : Op → Table
  | .message _ m a => onCommentMsg site t m a
  | .create n a => (notificationCreate site t n a).1
  | .markAllRead userId => (markAllRead t userId).1

/-- The event is a federated one for a user of this node, and its transaction succeeds. -/
def Delivers (m : Message) (a : Attempt) : Prop :=
  ¬ (site.rootUrl ≠ [] ∧ m.origin ≠ [] ∧ m.origin = site.rootUrl) ∧ 0 < m.recipient ∧
    site.users m.recipient = true ∧ m.kind ≠ [] ∧ a.begun = true ∧ a.committed = true

instance (m : Message) (a : Attempt) : Decidable (Delivers site m a) :=
  inferInstanceAs (Decidable (_ ∧ _))

def delivered : Op → Option Bytes
  | .message _ m a => if Delivers site m a ∧ m.eventId ≠ [] then some m.eventId else none
  | _ => none

def Carries (t : Table) (eventId : Bytes) : Prop := ∃ r ∈ t.rows, r.eventId = some eventId

def received (worker : ℕ) (ops : List Op) : List Message :=
  ops.filterMap fun
    | .message w m _ => if w = worker then some m else none
    | _ => none

/-! ## One delivery -/

section Deliveries

variable {site} {t : Table} {eventId : Bytes} {n : Item} {a : Attempt}

theorem eventExists_iff (h : eventId ≠ []) :
    eventExists t eventId = true ↔ Carries t eventId := by
  simp [eventExists, Carries, h]

theorem boundEventId_of_ne (h : eventId ≠ []) :
    boundEventId eventId = some eventId := by
  simp [boundEventId, h]

theorem store_of_exists (h : eventExists t n.eventId = true) (a : Attempt) :
    (notificationStore site t n a).1 = t := by
  unfold notificationStore
  dsimp only
  split
  · rfl
  · split
    · rfl
    · rfl

theorem mem_of_findRow {now : ℤ} {r : NotificationRow}
    (h : findRow site t n now = some r) : r ∈ t.rows := by
  unfold findRow at h
  split at h
  · exact List.mem_of_mem_filter (List.argmax_mem (Option.mem_def.mpr h))
  · exact nomatch h

theorem carries_store (huser : 0 < n.userId) (hkind : n.kind ≠ [])
    (hid : n.eventId ≠ []) (hbegun : a.begun = true) (hcommitted : a.committed = true) :
    Carries (notificationStore site t n a).1 n.eventId := by
  have hvalid : ¬ (n.userId ≤ 0 ∨ n.kind = []) := by
    rintro (h | h)
    · omega
    · exact hkind h
  unfold notificationStore
  dsimp only
  rw [if_neg hvalid, if_neg fun h => absurd (hbegun.symm.trans h.2) (by decide)]
  split
  · next hexists => exact (eventExists_iff hid).mp hexists
  · rw [if_neg fun h => absurd (hcommitted.symm.trans h) (by decide)]
    split
    · next found hfound =>
      -- the row that was found is overwritten, its event id included
      refine ⟨_, List.mem_map_of_mem (mem_of_findRow hfound), ?_⟩
      rw [if_pos rfl]
      exact boundEventId_of_ne hid
    · exact ⟨_, List.mem_append_right _ (List.mem_singleton_self _), boundEventId_of_ne hid⟩

theorem onCommentMsg_of_delivers {m : Message} (h : Delivers site m a) :
    onCommentMsg site t m a = (notificationStore site t m.item a).1 := by
  rcases h with ⟨horigin, hrecipient, huser, hkind, -⟩
  have hknown : ¬ (m.recipient ≤ 0 ∨ site.users m.recipient = false) := by
    rintro (hle | hunknown)
    · omega
    · rw [huser] at hunknown
      exact absurd hunknown (by decide)
  rw [onCommentMsg, if_neg horigin, if_pos ⟨hrecipient, hkind⟩, deliverFederated, if_neg hknown]

theorem delivered_eq_some {op : Op} (h : delivered site op = some eventId) :
    ∃ worker m a, op = .message worker m a ∧ Delivers site m a ∧ m.eventId ≠ [] ∧
      m.eventId = eventId := by
  cases op with
  | message worker m a =>
    unfold delivered at h
    dsimp only at h
    split at h
    · next hboth => exact ⟨worker, m, a, rfl, hboth.1, hboth.2, Option.some.inj h⟩
    · exact nomatch h
  | create n a => exact nomatch h
  | markAllRead userId => exact nomatch h

theorem step_of_carries (t : Table) (op : Op) (eventId : Bytes)
    (h : delivered site op = some eventId) (hcarries : Carries t eventId) :
    step site t op = t := by
  rcases delivered_eq_some h with ⟨worker, m, a, rfl, hdelivers, hne, rfl⟩
  exact (onCommentMsg_of_delivers hdelivers).trans
    (store_of_exists ((eventExists_iff hne).mpr hcarries) a)

theorem carries_step (t : Table) (op : Op) (eventId : Bytes)
    (h : delivered site op = some eventId) : Carries (step site t op) eventId := by
  rcases delivered_eq_some h with ⟨worker, m, a, rfl, hdelivers, hne, rfl⟩
  have hstored := onCommentMsg_of_delivers (t := t) hdelivers
  rcases hdelivers with ⟨-, hrecipient, -, hkind, hbegun, hcommitted⟩
  show Carries (onCommentMsg site t m a) m.eventId
  rw [hstored]
  exact carries_store hrecipient hkind hne hbegun hcommitted

end Deliveries

/-! ## All deliveries -/

/-- After every beginning of a run the rows are those that each event has left at its first
delivery, exactly when every event that is delivered again is still carried by a row. -/
theorem federated_once_iff (t : Table) (ops : List Op) :
    (∀ pre, pre <+: ops → run (step site) t pre =
        run (step site) t (firsts (delivered site) [] pre)) ↔
      AllSteps (twinStep (step site) (delivered site)) (Recognised (delivered site) Carries)
        ⟨t, t, []⟩ ops :=
  once_iff step_of_carries carries_step t ops

/-! ## Two workers, and two events in one row -/

def aggregating : Site where
  rootUrl := bytes "https://a.example"
  notificationAggregation := true
  notificationWindowSeconds := 300
  users userId := userId == 1

def reply (actorName excerpt eventId : String) : Message where
  origin := bytes "https://b.example"
  actorName := bytes actorName
  kind := bytes "reply"
  postSlug := bytes "post"
  excerpt := bytes excerpt
  eventId := bytes eventId
  recipient := 1

def annReply : Message := reply "ann" "first" "https://b.example#comment-1"

def bobReply : Message := reply "bob" "second" "https://b.example#comment-2"

/-- Worker 1 gets both events, the user reads, and worker 2 gets both events. -/
def twoWorkers : List Op :=
  [.message 1 annReply ⟨0, true, true⟩, .message 1 bobReply ⟨1, true, true⟩, .markAllRead 1,
   .message 2 annReply ⟨2, true, true⟩, .message 2 bobReply ⟨3, true, true⟩]

def noRows : Table := ⟨[], 0⟩

def Table.seen (t : Table) : List (Bytes × Bytes × Bool) :=
  t.rows.map fun r => (r.actorName, r.excerpt, r.isRead)

/-- Each worker gets the two events in their order. The late copy of the first brings its
text back, and what was read is unread again. -/
theorem late_copy_takes_effect :
    annReply.eventId ≠ bobReply.eventId ∧
    (∀ worker ∈ [1, 2], received worker twoWorkers = [annReply, bobReply]) ∧
    (run (step aggregating) noRows (twoWorkers.take 4)).seen =
      [(bytes "ann", bytes "first", false)] ∧
    (run (step aggregating) noRows (firsts (delivered aggregating) [] (twoWorkers.take 4))).seen =
      [(bytes "bob", bytes "second", true)] ∧
    (run (step aggregating) noRows twoWorkers).seen = [(bytes "bob", bytes "second", false)] ∧
    (run (step aggregating) noRows (firsts (delivered aggregating) [] twoWorkers)).seen =
      [(bytes "bob", bytes "second", true)] := by
  decide +kernel

end FlyBoard.Notification

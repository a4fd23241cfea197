import FlyBoard.Lib.Bytes
import FlyBoard.Lib.Run
import FlyBoard.Lib.Totals
import Mathlib.Algebra.Order.BigOperators.Group.Finset

/-!
# Deferred route handlers (`src/engine/async_route.c`)

The thread of a connection does not run a route itself: it looks whether the lane of the route
has room, remembers the job, and queues it once the middleware has unwound. The workers of the
lane take its jobs one after the other. Other threads queue theirs between the look and the
queuing, and the hits of the reply store are queued without a look.
-/

namespace FlyBoard.AsyncRoute

open Run Totals

/-- `g_lane_main` and `g_lane_bulk` -/
inductive Lane where
  | main
  | bulk
deriving DecidableEq

/-- `fly_async_job`: a deferred exchange, or the path of a hit. -/
inductive Job where
  | exchange (id : ℕ)
  | hit (path : Bytes)
deriving DecidableEq

/-- A request that comes to `dispatch`. -/
structure Request where
  id : ℕ
  lane : Lane
  /-- `can_defer`, in the gate. -/
  canDefer : Bool
  /-- The job is allocated, and `cwist_async_defer` succeeds. -/
  defers : Bool

/-- What answers a request: the handler on the thread of the connection or on a worker, or
`respond_busy`. -/
inductive Answer where
  | inline
  | worker
  | busy
deriving DecidableEq

/-- A process with its connection threads `D` and its workers `W`. -/
structure State (D W : Type*) where
  queue : Lane → List Job
  /-- `workers_ok`, once the process has tried to start the workers. -/
  workersOk : Lane → Option Bool
  /-- `t_pending` -/
  pending : D → Option (Lane × ℕ)
  running : W → Option Job
  answers : List (ℕ × Answer)
  replayed : List Bytes

/-- What happens next; `starts` says whether a worker can be started, should it be tried. -/
inductive Action (D W : Type*) where
  | dispatch (d : D) (r : Request) (starts : Bool)
  | unwind (d : D) (starts : Bool)
  | hit (path : Bytes) (starts : Bool)
  | take (w : W)
  | finish (w : W)

variable {D W : Type*}

def start : State D W := ⟨fun _ => [], fun _ => none, fun _ => none, fun _ => none, [], []⟩

namespace State

def answer (s : State D W) (id : ℕ) (a : Answer) : State D W :=
  { s with answers := s.answers ++ [(id, a)] }

/-- `ensure_workers_locked` -/
def ensureWorkers (s : State D W) (lane : Lane) (starts : Bool) : State D W × Bool :=
  let ok := (s.workersOk lane).getD starts
  ({ s with workersOk := Function.update s.workersOk lane (some ok) }, ok)

/-- `enqueue` -/
def enqueue (s : State D W) (lane : Lane) (job : Job) (starts : Bool) : State D W × Bool :=
  let r := s.ensureWorkers lane starts
  if r.2 then
    ({ r.1 with queue := Function.update r.1.queue lane (r.1.queue lane ++ [job]) }, true)
  else (r.1, false)

/-- `run_job` -/
def runJob (s : State D W) (how : Answer) : Job → State D W
  | .exchange id => s.answer id how
  | .hit path => { s with replayed := s.replayed ++ [path] }

end State

section Steps

variable [DecidableEq D] [DecidableEq W] (queueMax : Lane → ℕ) (laneOf : W → Lane)

/-- `dispatch` -/
def dispatch (s : State D W) (d : D) (r : Request) (starts : Bool) : State D W :=
  if (s.pending d).isSome || !r.canDefer then s.answer r.id .inline
  else
    let e := s.ensureWorkers r.lane starts
    if !e.2 then e.1.answer r.id .inline
    else if queueMax r.lane ≤ (e.1.queue r.lane).length then e.1.answer r.id .busy
    else if !r.defers then e.1.answer r.id .busy
    else { e.1 with pending := Function.update e.1.pending d (some (r.lane, r.id)) }

/-- The end of `async_gate`. -/
def unwind (s : State D W) (d : D) (starts : Bool) : State D W :=
  match s.pending d with
  | none => s
  | some (lane, id) =>
    let s := { s with pending := Function.update s.pending d none }
    let e := s.enqueue lane (.exchange id) starts
    if e.2 then e.1 else e.1.runJob .inline (.exchange id)

/-- A turn of `request_worker`, up to `run_job`. -/
def take (s : State D W) (w : W) : State D W :=
  match s.running w, s.queue (laneOf w) with
  | none, job :: rest =>
    { s with
      queue := Function.update s.queue (laneOf w) rest
      running := Function.update s.running w (some job) }
  | _, _ => s

def finish (s : State D W) (w : W) : State D W :=
  match s.running w with
  | none => s
  | some job =>
    let s := { s with running := Function.update s.running w none }
    s.runJob .worker job

def step (s : State D W) : Action D W → State D W
  | .dispatch d r starts => dispatch queueMax s d r starts
  | .unwind d starts => unwind s d starts
  | .hit path starts => (s.enqueue .main (.hit path) starts).1
  | .take w => take laneOf s w
  | .finish w => finish s w

end Steps

/-- The requests of a run, in their order. -/
def requests (as : List (Action D W)) : List ℕ :=
  as.filterMap fun
    | .dispatch _ r _ => some r.id
    | _ => none

/-! ## No request is lost and none is answered twice -/

section Conservation

variable (id : ℕ)

def ofPending (p : Option (Lane × ℕ)) : ℕ := if p.map Prod.snd = some id then 1 else 0

def ofJob (job : Job) : ℕ := if job = .exchange id then 1 else 0

def ofRunning (job : Option Job) : ℕ := (job.map (ofJob id)).getD 0

def State.answered (s : State D W) : ℕ := (s.answers.map Prod.fst).count id

variable [Fintype D] [Fintype W]

/-- How often a request is on its way to its handler. -/
def State.underway (s : State D W) : ℕ :=
  slotTotal (ofPending id) s.pending +
    (total (ofJob id) (s.queue .main) + total (ofJob id) (s.queue .bulk)) +
    slotTotal (ofRunning id) s.running

def State.placed (s : State D W) : ℕ := s.answered id + s.underway id

variable {id} {s : State D W}

/-- Both lanes together, after a change to one of them. -/
theorem total_queue_update (id : ℕ) (queue : Lane → List Job) (lane : Lane) (jobs : List Job) :
    total (ofJob id) (Function.update queue lane jobs .main) +
        total (ofJob id) (Function.update queue lane jobs .bulk) + total (ofJob id) (queue lane) =
      total (ofJob id) (queue .main) + total (ofJob id) (queue .bulk) + total (ofJob id) jobs := by
  cases lane with
  | main =>
    rw [Function.update_self, Function.update_of_ne (by decide)]
    omega
  | bulk =>
    rw [Function.update_self, Function.update_of_ne (by decide)]
    omega

theorem placed_runJob (how : Answer) (job : Job) :
    (s.runJob how job).placed id = s.placed id + ofJob id job := by
  cases job with
  | hit path => rfl
  | exchange n =>
    have hcount : (s.runJob how (.exchange n)).answered id =
        s.answered id + ofJob id (.exchange n) := by
      rw [State.runJob, State.answer, State.answered, List.map_append, List.count_append]
      by_cases h : n = id <;> simp [State.answered, ofJob, h]
    have hsame : (s.runJob how (.exchange n)).underway id = s.underway id := rfl
    rw [State.placed, hcount, hsame, State.placed]
    omega

theorem placed_enqueue (id : ℕ) (s : State D W) (lane : Lane) (job : Job) (starts : Bool) :
    (s.enqueue lane job starts).1.placed id =
      s.placed id + if (s.enqueue lane job starts).2 then ofJob id job else 0 := by
  rw [State.enqueue]
  dsimp only
  split
  · have hqueue := total_queue_update id s.queue lane (s.queue lane ++ [job])
    rw [total_append, total_cons, total_nil] at hqueue
    simp only [State.placed, State.answered, State.underway, State.ensureWorkers, if_true]
    omega
  · rfl

variable [DecidableEq D] {queueMax : Lane → ℕ} {laneOf : W → Lane}

/-- What a thread remembers is moved to or from its slot. -/
theorem placed_pending (id : ℕ) (s : State D W) (d : D) (p : Option (Lane × ℕ)) :
    State.placed id { s with pending := Function.update s.pending d p } +
      ofPending id (s.pending d) = s.placed id + ofPending id p := by
  have htotal := slotTotal_update (ofPending id) s.pending d p
  simp only [State.placed, State.answered, State.underway]
  omega

theorem placed_dispatch (s : State D W) (d : D) (r : Request) (starts : Bool) :
    (dispatch queueMax s d r starts).placed id = s.placed id + ofJob id (.exchange r.id) := by
  have hworkers : (s.ensureWorkers r.lane starts).1.placed id = s.placed id := rfl
  have hanswer : ∀ (t : State D W) (a : Answer), t.placed id = s.placed id →
      (t.answer r.id a).placed id = s.placed id + ofJob id (.exchange r.id) :=
    fun t a ht => (placed_runJob a (.exchange r.id)).trans (by rw [ht])
  rw [dispatch]
  split
  · exact hanswer _ _ rfl
  next hfree =>
  dsimp only
  split
  · exact hanswer _ _ hworkers
  split
  · exact hanswer _ _ hworkers
  split
  · exact hanswer _ _ hworkers
  · have hpending : s.pending d = none := by
      cases hp : s.pending d with
      | none => rfl
      | some p => simp [hp] at hfree
    have hplaced := placed_pending id (s.ensureWorkers r.lane starts).1 d
      (some (r.lane, r.id))
    have hnow : (s.ensureWorkers r.lane starts).1.pending d = none := hpending
    rw [hnow, hworkers] at hplaced
    simpa [ofPending, ofJob] using hplaced

theorem placed_unwind (s : State D W) (d : D) (starts : Bool) :
    (unwind s d starts).placed id = s.placed id := by
  rw [unwind]
  split
  · rfl
  next lane n hpending =>
  have hplaced := placed_pending id s d none
  have hqueued := placed_enqueue id { s with pending := Function.update s.pending d none } lane
    (.exchange n) starts
  -- what leaves the slot is what the queue takes, or what runs at once
  rw [hpending] at hplaced
  have hweight : ofPending id (some (lane, n)) = ofJob id (.exchange n) := by
    simp [ofPending, ofJob]
  have hnone : ofPending id none = 0 := by simp [ofPending]
  rw [hweight, hnone] at hplaced
  dsimp only
  split
  next hok =>
    rw [if_pos hok] at hqueued
    omega
  next hno =>
    rw [if_neg hno] at hqueued
    rw [placed_runJob]
    omega

omit [DecidableEq D]

variable [DecidableEq W]

theorem placed_take (s : State D W) (w : W) : (take laneOf s w).placed id = s.placed id := by
  rw [take]
  split
  next job rest hidle hqueue =>
    have hrest := total_queue_update id s.queue (laneOf w) rest
    have htotal := slotTotal_update (ofRunning id) s.running w (some job)
    have hsome : ofRunning id (some job) = ofJob id job := rfl
    have hnone : ofRunning id none = 0 := rfl
    rw [hqueue, total_cons] at hrest
    rw [hidle, hsome, hnone] at htotal
    simp only [State.placed, State.answered, State.underway]
    omega
  · rfl

theorem placed_finish (s : State D W) (w : W) : (finish s w).placed id = s.placed id := by
  rw [finish]
  split
  · rfl
  next job hjob =>
  have htotal := slotTotal_update (ofRunning id) s.running w none
  have hjob' : ofRunning id (s.running w) = ofJob id job := by rw [hjob]; rfl
  have hnone : ofRunning id none = 0 := rfl
  rw [hjob', hnone] at htotal
  dsimp only
  rw [placed_runJob]
  simp only [State.placed, State.answered, State.underway]
  omega

variable [DecidableEq D] (queueMax laneOf)

/-- Whatever the threads and the workers do, and in whatever order, every request has been
answered or is on its way, as often as it was dispatched. -/
theorem answered_add_underway (as : List (Action D W)) (id : ℕ) :
    (run (step queueMax laneOf) start as).answered id +
        (run (step queueMax laneOf) start as).underway id = (requests as).count id := by
  have hstep : ∀ (s : State D W) a,
      (step queueMax laneOf s a).placed id = s.placed id + (requests [a]).count id := by
    intro s a
    cases a with
    | dispatch d r starts =>
      refine (placed_dispatch s d r starts).trans ?_
      by_cases h : r.id = id <;> simp [requests, ofJob, h]
    | unwind d starts => exact placed_unwind s d starts
    | hit path starts =>
      refine (placed_enqueue id s .main (.hit path) starts).trans ?_
      simp [requests, ofJob]
    | take w => exact placed_take s w
    | finish w => exact placed_finish s w
  change (run (step queueMax laneOf) start as).placed id = (requests as).count id
  induction as using List.reverseRecOn with
  | nil =>
    have hpending : ofPending id none = 0 := by simp [ofPending]
    have hrunning : ofRunning id none = 0 := rfl
    simp [State.placed, State.answered, State.underway, start, requests,
      slotTotal_const hpending, slotTotal_const hrunning]
  | append_singleton as a ih =>
    have happend : requests (as ++ [a]) = requests as ++ requests [a] := List.filterMap_append ..
    rw [run_append, run_cons, run_nil, hstep, ih, happend, List.count_append]

end Conservation

/-! ## How far a lane is overrun -/

section Backlog

variable (lane : Lane)

def isExchange : Job → Bool
  | .exchange _ => true
  | .hit _ => false

def forLane (p : Option (Lane × ℕ)) : ℕ := if p.map Prod.fst = some lane then 1 else 0

variable [Fintype D]

/-- The deferred requests of a lane that no worker has taken. -/
def State.backlog (s : State D W) : ℕ :=
  (s.queue lane).countP isExchange + slotTotal (forLane lane) s.pending

theorem slotTotal_forLane_le (pending : D → Option (Lane × ℕ)) :
    slotTotal (forLane lane) pending ≤ Fintype.card D := by
  rw [slotTotal, Fintype.card_eq_sum_ones]
  refine Finset.sum_le_sum fun d _ => ?_
  rw [forLane]
  split
  · exact le_rfl
  · exact Nat.zero_le 1

theorem backlog_enqueue (s : State D W) (lane' : Lane) (job : Job) (starts : Bool) :
    (s.enqueue lane' job starts).1.backlog lane ≤
      s.backlog lane + if lane' = lane ∧ isExchange job then 1 else 0 := by
  rw [State.enqueue]
  dsimp only
  split
  · rcases eq_or_ne lane' lane with rfl | hlane
    · simp only [State.backlog, State.ensureWorkers, Function.update_self, List.countP_append,
        List.countP_singleton, true_and]
      omega
    · simp only [State.backlog, State.ensureWorkers, Function.update_of_ne hlane.symm]
      omega
  · exact Nat.le_add_right _ _

variable {lane} {s : State D W} [DecidableEq D] {queueMax : Lane → ℕ}

theorem backlog_dispatch_le (h : s.backlog lane ≤ queueMax lane - 1 + Fintype.card D)
    (d : D) (r : Request) (starts : Bool) :
    (dispatch queueMax s d r starts).backlog lane ≤ queueMax lane - 1 + Fintype.card D := by
  rw [dispatch]
  split
  · exact h
  dsimp only
  split
  · exact h
  split
  · exact h
  next hroom =>
  split
  · exact h
  · rcases eq_or_ne r.lane lane with rfl | hlane
    · have hle := slotTotal_forLane_le r.lane
        (Function.update s.pending d (some (r.lane, r.id)))
      have hlen := List.countP_le_length (p := isExchange) (l := s.queue r.lane)
      -- a lane with room holds less than its limit, and a thread remembers one request
      have hlt : (s.queue r.lane).length < queueMax r.lane := not_le.mp hroom
      simp only [State.backlog, State.ensureWorkers]
      omega
    · have htotal := slotTotal_update (forLane lane) s.pending d (some (r.lane, r.id))
      have hother : forLane lane (some (r.lane, r.id)) = 0 := by simp [forLane, hlane]
      simp only [State.backlog, State.ensureWorkers] at h ⊢
      omega

theorem backlog_unwind_le (s : State D W) (d : D) (starts : Bool) :
    (unwind s d starts).backlog lane ≤ s.backlog lane := by
  rw [unwind]
  split
  · exact le_rfl
  next lane' n hpending =>
  have htotal := slotTotal_update (forLane lane) s.pending d none
  have hqueued := backlog_enqueue lane { s with pending := Function.update s.pending d none }
    lane' (.exchange n) starts
  have hnone : forLane lane none = 0 := by simp [forLane]
  have hsome : forLane lane (some (lane', n)) =
      if lane' = lane ∧ isExchange (.exchange n) then 1 else 0 := by
    simp [forLane, isExchange]
  rw [hpending, hnone, hsome] at htotal
  have hbefore : State.backlog lane { s with pending := Function.update s.pending d none } =
      (s.queue lane).countP isExchange +
        slotTotal (forLane lane) (Function.update s.pending d none) := rfl
  have hafter : s.backlog lane =
      (s.queue lane).countP isExchange + slotTotal (forLane lane) s.pending := rfl
  have hrun : ∀ (t : State D W) job, (t.runJob .inline job).backlog lane = t.backlog lane := by
    intro t job
    cases job <;> rfl
  dsimp only
  split
  · omega
  · rw [hrun]
    omega

variable [DecidableEq W] (queueMax) (laneOf : W → Lane)

/-- The look at the room is overrun by the other threads at most: besides what the hits add,
a lane holds fewer requests than its limit and the threads together. -/
theorem backlog_le (as : List (Action D W)) (lane : Lane) :
    (run (step queueMax laneOf) start as).backlog lane ≤ queueMax lane - 1 + Fintype.card D := by
  have hstep : ∀ (s : State D W) a, s.backlog lane ≤ queueMax lane - 1 + Fintype.card D →
      (step queueMax laneOf s a).backlog lane ≤ queueMax lane - 1 + Fintype.card D := by
    intro s a h
    cases a with
    | dispatch d r starts => exact backlog_dispatch_le h d r starts
    | unwind d starts => exact (backlog_unwind_le s d starts).trans h
    | hit path starts =>
      refine (backlog_enqueue lane s .main (.hit path) starts).trans ?_
      simpa [isExchange] using h
    | take w =>
      show (take laneOf s w).backlog lane ≤ _
      rw [take]
      split
      next job rest hidle hqueue =>
        refine le_trans ?_ h
        rcases eq_or_ne (laneOf w) lane with rfl | hlane
        · have hcount := List.countP_cons (p := isExchange) (a := job) (l := rest)
          simp only [State.backlog, Function.update_self, hqueue]
          omega
        · simp only [State.backlog, Function.update_of_ne hlane.symm, le_refl]
      · exact h
    | finish w =>
      show (finish s w).backlog lane ≤ _
      rw [finish]
      split
      · exact h
      next job hjob => cases job <;> exact h
  have hstart : (start : State D W).backlog lane ≤ queueMax lane - 1 + Fintype.card D := by
    have hnone : forLane lane none = 0 := by simp [forLane]
    simp [State.backlog, start, slotTotal_const hnone]
  exact run_invariant (step queueMax laneOf) hstep hstart as

end Backlog

end FlyBoard.AsyncRoute

import FlyBoard.Lib.Run
import Mathlib.Algebra.Order.Ring.Int
import Mathlib.Data.Fintype.Card
import Mathlib.Data.List.FinRange
import Mathlib.Logic.Function.Basic

/-!
# The failover cluster (`src/engine/flywire_cluster.c`)

Every site of a FlyWire cluster runs `cluster_tick` in a thread of its
supervisor: it probes `GET /flywire/status` of every peer and then adopts a
newer epoch, keeps or fences its own primary role, or takes the role over.

One step here is one tick of one node. The statuses a node has ever published
are kept in order, and a probe names the one that it got: ticks interleave
freely and a probe reads its peer as it was at some earlier moment. How far a
node's copy of the log reaches is read from its database, at the tick and at
the status request, and is an input of both. The persisted role file is only
read at a start, and the run begins with the first start of all nodes.
-/

namespace FlyBoard.Engine

/-- `flywire.settings` of a cluster of `n` sites. -/
structure Config (n : ℕ) where
  failoverAuto : Bool
  failoverSeconds : ℕ
  /-- `flywire_cluster_configured` -/
  nodes : 2 ≤ n
  /-- Smaller values are raised to this by the loader. -/
  seconds : 3 ≤ failoverSeconds

namespace Config

variable {n : ℕ}

/-- `fo_ms` -/
def foMs (cfg : Config n) : ℤ := cfg.failoverSeconds * 1000

/-- The first `nodes` entry. -/
def first (cfg : Config n) : Fin n := ⟨0, by have := cfg.nodes; omega⟩

end Config

/-- `flywire_shared_t`, as `handler_flywire_status` reports it. -/
structure Status (n : ℕ) where
  epoch : ℕ
  baseSeq : ℤ
  primary : Fin n
  fenced : Bool
  primaryDown : Bool
  candidate : Option (Fin n)
  handoverTo : Option (Fin n)
  meanRtt : ℕ
deriving DecidableEq

/-- `cluster_local_t`; a time of 0 stands for none. -/
structure Local where
  primarySilentSince : ℤ
  majorityLostSince : ℤ
  handoverSince : ℤ
  confirmed : Bool
deriving DecidableEq

/-- `peer_view_t` of a probe that succeeded. -/
structure PeerView (n : ℕ) where
  status : Status n
  journalMax : ℤ
  rtt : ℕ
deriving DecidableEq

/-- `peers` of a tick: `none` for the node itself and for a failed probe. -/
abbrev Peers (n : ℕ) := Fin n → Option (PeerView n)

structure Node (n : ℕ) where
  pub : Status n
  loc : Local
deriving DecidableEq

/-- All nodes, with everything each of them has published. -/
structure State (n : ℕ) where
  node : Fin n → Node n
  history : Fin n → List (Status n)

/-- A probe that succeeds: which status of the peer it got, and how far the
peer's log reached then. -/
structure Probe where
  published : ℕ
  journalMax : ℤ
  rtt : ℕ
deriving DecidableEq

structure Tick (n : ℕ) where
  self : Fin n
  /-- `probe_started`, on the node's own clock. -/
  now : ℤ
  /-- The clock counts from the start of the machine. -/
  uptime : 0 < now
  dbOk : Bool
  /-- `my_jm` -/
  journalMax : ℤ
  seen : Fin n → Option Probe

variable {n : ℕ} {i : Fin n} {s : State n} {t : Tick n} {v : PeerView n} {e : ℕ} {cfg : Config n}
  {x : Status n}

/-! ## Decisions -/

/-- `auto_better`: more of the log first, then lower mean RTT, then nodes order. -/
def autoBetter (jmA : ℤ) (rttA : ℕ) (idxA : Fin n) (jmB : ℤ) (rttB : ℕ) (idxB : Fin n) : Bool :=
  if jmA ≠ jmB then jmB < jmA
  else if rttA ≠ rttB then rttA < rttB
  else idxA < idxB

/-- A live node, with what `auto_better` compares. -/
structure Standing (n : ℕ) where
  idx : Fin n
  jm : ℤ
  rtt : ℕ

def standing (peers : Peers n) (self : Fin n) (myJm : ℤ) (myRtt : ℕ) (i : Fin n) :
    Option (Standing n) :=
  if i = self then some ⟨i, myJm, myRtt⟩
  else (peers i).map fun v => ⟨i, v.journalMax, v.status.meanRtt⟩

/-- The loop of `pick_candidate`. -/
def pickFrom (failoverAuto : Bool) (primary : Fin n) (alive : Fin n → Option (Standing n)) :
    Option (Standing n) → List (Fin n) → Option (Standing n)
  | best, [] => best
  | best, i :: is =>
    if i = primary then pickFrom failoverAuto primary alive best is
    else
      match alive i, best with
      | none, _ => pickFrom failoverAuto primary alive best is
      | some a, none =>
        if failoverAuto then pickFrom failoverAuto primary alive (some a) is
        else some a -- priority: first live node
      | some a, some b =>
        if autoBetter a.jm a.rtt a.idx b.jm b.rtt b.idx then
          pickFrom failoverAuto primary alive (some a) is
        else pickFrom failoverAuto primary alive (some b) is

def pickCandidate (cfg : Config n) (peers : Peers n) (self primary : Fin n) (myJm : ℤ)
    (myRtt : ℕ) : Option (Fin n) :=
  (pickFrom cfg.failoverAuto primary (standing peers self myJm myRtt) none
    (List.finRange n)).map (·.idx)

def reachable (peers : Peers n) : Finset (Fin n) :=
  Finset.univ.filter fun i => (peers i).isSome

def meanRtt (peers : Peers n) : ℕ :=
  let rtts := (List.finRange n).filterMap fun i => (peers i).map (·.rtt)
  rtts.sum / rtts.length

/-- The newer of the best view so far and the view of node `i`. -/
def newer (myEpoch : ℕ) (peers : Peers n) (best : Option (PeerView n)) (i : Fin n) :
    Option (PeerView n) :=
  match peers i with
  | none => best
  | some v =>
    if myEpoch < v.status.epoch && best.all (·.status.epoch < v.status.epoch) then some v
    else best

/-- The view with the newest epoch above `myEpoch`; the first of several. -/
def newest (myEpoch : ℕ) (peers : Peers n) : Option (PeerView n) :=
  (List.finRange n).foldl (newer myEpoch peers) none

def majority (peers : Peers n) : Bool := n < (1 + (reachable peers).card) * 2

/-- Whether the target of a pending handover still answers from the same epoch, in time. -/
def keepsHandover (cfg : Config n) (peers : Peers n) (myEpoch : ℕ) (now since : ℤ)
    (target : Fin n) : Bool :=
  ((peers target).any fun v => v.status.epoch == myEpoch) && now - since ≤ 3 * cfg.foMs

/-- The first node of higher priority that follows `self` and has its whole log. -/
def caughtUp (peers : Peers n) (self : Fin n) (myEpoch : ℕ) (myJm : ℤ) : Option (Fin n) :=
  (List.finRange n).find? fun i => i < self && (peers i).any fun v =>
    v.status.epoch == myEpoch && v.status.primary == self && v.journalMax == myJm

/-- Whether the primary has offered its role to `self`, with the whole log. -/
def handedOver (peers : Peers n) (self primary : Fin n) (myEpoch : ℕ) (myJm : ℤ) : Bool :=
  (peers primary).any fun v =>
    v.status.handoverTo == some self && v.status.epoch == myEpoch && v.journalMax == myJm

/-- The peers that report the same outage and name `self`. -/
def supporters (peers : Peers n) (self primary : Fin n) (myEpoch : ℕ) : Finset (Fin n) :=
  Finset.univ.filter fun i => i ≠ self ∧ i ≠ primary ∧ (peers i).any fun v =>
    v.status.epoch == myEpoch && v.status.primaryDown && v.status.candidate == some self

/-- `promote`: the primary of a new epoch whose log starts after `base`. -/
def promote (self : Fin n) (base : ℤ) (st : Status n) : Status n :=
  { st with
    epoch := st.epoch + 1, baseSeq := base, primary := self, handoverTo := none,
    primaryDown := false, candidate := none, fenced := false }

/-! ## One tick -/

/-- What a tick leaves behind: the statuses that could be read while it ran, in
order, and the node after it. -/
structure Outcome (n : ℕ) where
  interim : List (Status n)
  node : Node n

/-- Following the primary of a newer epoch. The reported outage and candidate are
not among the stores. -/
def adopt (v : PeerView n) (st : Status n) (loc : Local) : Node n where
  pub :=
    { st with
      epoch := v.status.epoch, primary := v.status.primary, baseSeq := v.status.baseSeq,
      handoverTo := none, fenced := false }
  loc := { loc with primarySilentSince := 0, majorityLostSince := 0, confirmed := false }

def primaryLocal (cfg : Config n) (peers : Peers n) (now : ℤ) (loc : Local) : Local :=
  if majority peers then { loc with majorityLostSince := 0, confirmed := true }
  else
    let since := if loc.majorityLostSince = 0 then now else loc.majorityLostSince
    { loc with
      majorityLostSince := since,
      confirmed := loc.confirmed && !(cfg.foMs ≤ now - since : Bool) }

def primaryHandover (cfg : Config n) (peers : Peers n) (t : Tick n) (st : Status n)
    (loc : Local) : Option (Fin n) × Local :=
  match st.handoverTo with
  | some h =>
    if keepsHandover cfg peers st.epoch t.now loc.handoverSince h then (some h, loc)
    else (none, loc)
  | none =>
    if !cfg.failoverAuto && loc.confirmed then
      match caughtUp peers t.self st.epoch t.journalMax with
      | some i => (some i, { loc with handoverSince := t.now })
      | none => (none, loc)
    else (none, loc)

def primaryTick (cfg : Config n) (peers : Peers n) (t : Tick n) (st : Status n) (loc : Local) :
    Node n :=
  let (handover, loc) := primaryHandover cfg peers t st (primaryLocal cfg peers t.now loc)
  { pub :=
      { st with
        handoverTo := handover, fenced := !loc.confirmed || handover.isSome,
        primaryDown := false, candidate := none },
    loc := loc }

def replicaLocal (peers : Peers n) (primary : Fin n) (now : ℤ) (loc : Local) : Local :=
  if (peers primary).isSome then { loc with primarySilentSince := 0 }
  else if loc.primarySilentSince = 0 then { loc with primarySilentSince := now }
  else loc

def watch (cfg : Config n) (peers : Peers n) (t : Tick n) (st : Status n) (loc : Local) :
    Status n :=
  let down := (peers st.primary).isNone && cfg.foMs ≤ t.now - loc.primarySilentSince
  { st with
    primaryDown := down,
    candidate :=
      if down then pickCandidate cfg peers t.self st.primary t.journalMax st.meanRtt else none }

/-- Whether a replica that reports `st` wins the election of the next epoch. -/
def elected (peers : Peers n) (self : Fin n) (st : Status n) : Bool :=
  st.primaryDown && st.candidate == some self &&
    n < (1 + (supporters peers self st.primary st.epoch).card) * 2

def replicaTick (cfg : Config n) (peers : Peers n) (t : Tick n) (st : Status n) (loc : Local) :
    Outcome n :=
  let loc := replicaLocal peers st.primary t.now loc
  let reported := watch cfg peers t st loc
  if handedOver peers t.self st.primary st.epoch t.journalMax || elected peers t.self reported then
    ⟨[st, reported], ⟨promote t.self t.journalMax reported, loc⟩⟩
  else ⟨[st], ⟨reported, loc⟩⟩

def Node.probed (node : Node n) (peers : Peers n) : Status n :=
  { node.pub with meanRtt := meanRtt peers }

/-- `cluster_tick`, with what the probes brought. -/
def clusterTick (cfg : Config n) (peers : Peers n) (t : Tick n) (node : Node n) : Outcome n :=
  let st := node.probed peers
  if !t.dbOk then ⟨[], ⟨st, node.loc⟩⟩
  else
    match newest st.epoch peers with
    | some v => ⟨[st], adopt v st node.loc⟩
    | none =>
      if st.primary = t.self then ⟨[st], primaryTick cfg peers t st node.loc⟩
      else replicaTick cfg peers t st node.loc

inductive TickCases (cfg : Config n) (peers : Peers n) (t : Tick n) (node : Node n) :
    Outcome n → Prop where
  | dbFailed : t.dbOk = false → TickCases cfg peers t node ⟨[], node.probed peers, node.loc⟩
  | adopted (v : PeerView n) : t.dbOk = true → newest node.pub.epoch peers = some v →
      TickCases cfg peers t node ⟨[node.probed peers], adopt v (node.probed peers) node.loc⟩
  | primary : t.dbOk = true → newest node.pub.epoch peers = none → node.pub.primary = t.self →
      TickCases cfg peers t node
        ⟨[node.probed peers], primaryTick cfg peers t (node.probed peers) node.loc⟩
  | replica (loc : Local) (reported : Status n) : t.dbOk = true →
      newest node.pub.epoch peers = none → node.pub.primary ≠ t.self →
      loc = replicaLocal peers node.pub.primary t.now node.loc →
      reported = watch cfg peers t (node.probed peers) loc →
      ¬ (handedOver peers t.self node.pub.primary node.pub.epoch t.journalMax = true ∨
        elected peers t.self reported = true) →
      TickCases cfg peers t node ⟨[node.probed peers], reported, loc⟩
  | promoted (loc : Local) (reported : Status n) : t.dbOk = true →
      newest node.pub.epoch peers = none → node.pub.primary ≠ t.self →
      loc = replicaLocal peers node.pub.primary t.now node.loc →
      reported = watch cfg peers t (node.probed peers) loc →
      handedOver peers t.self node.pub.primary node.pub.epoch t.journalMax = true ∨
        elected peers t.self reported = true →
      TickCases cfg peers t node
        ⟨[node.probed peers, reported], promote t.self t.journalMax reported, loc⟩

theorem clusterTick_cases (cfg : Config n) (peers : Peers n) (t : Tick n) (node : Node n) :
    TickCases cfg peers t node (clusterTick cfg peers t node) := by
  unfold clusterTick
  cases hdb : t.dbOk with
  | false => exact .dbFailed hdb
  | true =>
    simp only [Bool.not_true, Bool.false_eq_true, if_false]
    cases hnew : newest (node.probed peers).epoch peers with
    | some v => exact .adopted v hdb hnew
    | none =>
      dsimp only
      split
      next hp => exact .primary hdb hnew hp
      next hp =>
        unfold replicaTick
        dsimp only
        split
        next h =>
          rw [Bool.or_eq_true] at h
          exact .promoted _ _ hdb hnew hp rfl rfl h
        next h =>
          rw [Bool.or_eq_true] at h
          exact .replica _ _ hdb hnew hp rfl rfl h

/-! ## The cluster -/

/-- `probe_all` -/
def State.peers (s : State n) (t : Tick n) : Peers n := fun i =>
  if i = t.self then none
  else do
    let p ← t.seen i
    let st ← (s.history i)[p.published]?
    return ⟨st, p.journalMax, p.rtt⟩

def tickOutcome (cfg : Config n) (s : State n) (t : Tick n) : Outcome n :=
  clusterTick cfg (s.peers t) t (s.node t.self)

def step (cfg : Config n) (s : State n) (t : Tick n) : State n :=
  let out := tickOutcome cfg s t
  { node := Function.update s.node t.self out.node,
    history := Function.update s.history t.self
      (s.history t.self ++ out.interim ++ [out.node.pub]) }

/-- `flywire_cluster_start` without a saved role. -/
def startStatus (cfg : Config n) (i : Fin n) : Status n where
  epoch := 0
  baseSeq := 0
  primary := cfg.first
  fenced := i = cfg.first
  primaryDown := false
  candidate := none
  handoverTo := none
  meanRtt := 0

def start (cfg : Config n) : State n where
  node i := ⟨startStatus cfg i, ⟨0, 0, 0, false⟩⟩
  history i := [startStatus cfg i]

theorem shortest : 3 ≤ 3 := Nat.le_refl 3

/-- Three sites with the shortest silence that the settings allow. -/
def trio (failoverAuto : Bool) : Config 3 := ⟨failoverAuto, 3, by decide, shortest⟩

instance neZero_three : NeZero (2 + 1) := ⟨Nat.succ_ne_zero 2⟩

theorem pos_1000 : (0 : ℤ) < 1000 := by decide

theorem pos_4000 : (0 : ℤ) < 4000 := by decide

theorem pos_5000 : (0 : ℤ) < 5000 := by decide

theorem pos_6000 : (0 : ℤ) < 6000 := by decide

theorem pos_9000 : (0 : ℤ) < 9000 := by decide

/-- Probes that got the listed statuses of the listed peers, in the listed times,
from peers with an empty log. -/
def sees (got : List (Fin n × ℕ × ℕ)) (i : Fin n) : Option Probe :=
  (got.find? fun g => g.1 = i).map fun g => ⟨g.2.1, 0, g.2.2⟩

def State.IsPrimary (s : State n) (i : Fin n) : Prop := (s.node i).pub.primary = i

instance (s : State n) (i : Fin n) : Decidable (s.IsPrimary i) :=
  inferInstanceAs (Decidable (_ = _))

/-! ### What a tick changes -/

theorem peers_some (h : s.peers t i = some v) : i ≠ t.self ∧ v.status ∈ s.history i := by
  unfold State.peers at h
  split at h
  next => cases h
  next hi =>
    rcases Option.bind_eq_some_iff.mp h with ⟨p, -, hp⟩
    rcases Option.bind_eq_some_iff.mp hp with ⟨st, hst, hv⟩
    cases hv
    exact ⟨hi, List.mem_of_getElem? hst⟩

theorem newer_some {peers : Peers n} {best : Option (PeerView n)}
    (h : newer e peers best i = some v) :
    best = some v ∨ e < v.status.epoch ∧ peers i = some v := by
  unfold newer at h
  split at h
  next => exact .inl h
  next w hw =>
    split at h
    next hnew =>
      cases h
      rw [Bool.and_eq_true, decide_eq_true_eq] at hnew
      exact .inr ⟨hnew.1, hw⟩
    next => exact .inl h

theorem newest_some {peers : Peers n} (h : newest e peers = some v) :
    e < v.status.epoch ∧ ∃ i, peers i = some v := by
  -- the loop keeps this of its best view so far
  have hloop : ∀ (l : List (Fin n)) (best : Option (PeerView n)),
      l.foldl (newer e peers) best = some v →
      best = some v ∨ e < v.status.epoch ∧ ∃ i, peers i = some v := by
    intro l
    induction l with
    | nil => exact fun best hb => .inl hb
    | cons i is ih =>
      intro best hb
      rcases ih _ hb with hnew | hlater
      · rcases newer_some hnew with hbest | ⟨he, hi⟩
        · exact .inl hbest
        · exact .inr ⟨he, i, hi⟩
      · exact .inr hlater
  rcases hloop _ none h with hnone | hsome
  · cases hnone
  · exact hsome

@[simp] theorem step_node_self (cfg : Config n) (s : State n) (t : Tick n) :
    (step cfg s t).node t.self = (tickOutcome cfg s t).node := by
  simp [step]

theorem step_node_of_ne (cfg : Config n) (s : State n) (t : Tick n)
    (h : i ≠ t.self) : (step cfg s t).node i = s.node i := by
  simp [step, h]

theorem mem_history_step :
    x ∈ (step cfg s t).history i ↔ x ∈ s.history i ∨
      i = t.self ∧ x ∈ (tickOutcome cfg s t).interim ++ [(tickOutcome cfg s t).node.pub] := by
  by_cases h : i = t.self
  · subst h
    simp only [step, Function.update_self, List.append_assoc, List.mem_append, true_and]
  · simp only [step, Function.update_of_ne h, h, false_and, or_false]

theorem mem_history_step_of_mem (t : Tick n) (h : x ∈ s.history i) : x ∈ (step cfg s t).history i :=
  mem_history_step.mpr (.inl h)

end FlyBoard.Engine

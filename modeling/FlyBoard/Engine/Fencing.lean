import FlyBoard.Engine.Election

/-!
# Write fencing of the failover cluster

A primary that cannot reach a majority for `failover_seconds` fences itself, and
the replicas wait as long before they elect another. The two timers start at
ticks of different nodes and are only looked at by ticks, and a majority that
answers is no promise to follow: nothing makes the old primary's fence come first
or stay.

Writes are safe in the runs where every takeover finds the other primaries stood
down, and where a primary that is not the only one does not come back.
-/

namespace FlyBoard.Engine

open Run

variable {n : ℕ}

/-- The node takes itself for the primary and takes writes: not `flywire_write_fenced`. -/
def State.TakesWrites (s : State n) (i : Fin n) : Prop :=
  s.IsPrimary i ∧ (s.node i).pub.fenced = false

instance (s : State n) (i : Fin n) : Decidable (s.TakesWrites i) :=
  inferInstanceAs (Decidable (_ ∧ _))

def OneTakesWrites (s : State n) : Prop :=
  ∀ i j, s.TakesWrites i → s.TakesWrites j → i = j

instance (s : State n) : Decidable (OneTakesWrites s) :=
  inferInstanceAs (Decidable (∀ i j, s.TakesWrites i → s.TakesWrites j → i = j))

/-! ## When a primary is out of the way -/

/-- The primary is handing its role over, or no majority confirms it: it has lost
its majority by a tick of its own, or is the first primary and never had one. -/
def StoodDown (node : Node n) : Prop :=
  node.pub.handoverTo.isSome = true ∨
    node.loc.confirmed = false ∧ (node.pub.epoch = 0 ∨ node.loc.majorityLostSince ≠ 0)

def RunOut (cfg : Config n) (now : ℤ) (loc : Local) : Prop :=
  loc.majorityLostSince ≠ 0 ∧ cfg.foMs ≤ now - loc.majorityLostSince

instance (cfg : Config n) (now : ℤ) (loc : Local) : Decidable (RunOut cfg now loc) :=
  inferInstanceAs (Decidable (_ ∧ _))

/-- A handover goes on, or a node of higher priority is there to be handed the role. -/
def handsOver (cfg : Config n) (peers : Peers n) (t : Tick n) (node : Node n) : Bool :=
  match node.pub.handoverTo with
  | some h => keepsHandover cfg peers node.pub.epoch t.now node.loc.handoverSince h
  | none => !cfg.failoverAuto && (caughtUp peers t.self node.pub.epoch t.journalMax).isSome

/-- The primary has no majority and is unconfirmed or out of time, or hands over. -/
def HoldsBack (cfg : Config n) (peers : Peers n) (t : Tick n) (node : Node n) : Prop :=
  majority peers = false ∧ (node.loc.confirmed = false ∨ RunOut cfg t.now node.loc) ∨
    handsOver cfg peers t node = true

instance (cfg : Config n) (peers : Peers n) (t : Tick n) (node : Node n) :
    Decidable (HoldsBack cfg peers t node) :=
  inferInstanceAs (Decidable (_ ∨ _))

/-- A takeover finds every other primary stood down, and the tick of a primary
beside one that takes writes sees a newer epoch or holds back. -/
def StandsBack (cfg : Config n) (s : State n) (t : Tick n) : Prop :=
  (ByHandover s t ∨ ByElection cfg s t →
    ∀ i, i ≠ t.self → s.IsPrimary i → StoodDown (s.node i)) ∧
  (s.IsPrimary t.self → t.dbOk = true →
    newest (s.node t.self).pub.epoch (s.peers t) = none →
    (∃ i, i ≠ t.self ∧ s.TakesWrites i) →
      HoldsBack cfg (s.peers t) t (s.node t.self))

/-! ## The ticks of a primary -/

section PrimaryTick

variable {cfg : Config n} {peers : Peers n} {t : Tick n} {st : Status n} {loc : Local}

theorem primaryHandover_timer :
    (primaryHandover cfg peers t st loc).2.confirmed = loc.confirmed ∧
      (primaryHandover cfg peers t st loc).2.majorityLostSince = loc.majorityLostSince := by
  unfold primaryHandover
  split
  next => split <;> exact ⟨rfl, rfl⟩
  next =>
    split
    next => split <;> exact ⟨rfl, rfl⟩
    next => exact ⟨rfl, rfl⟩

theorem primaryTick_fenced :
    (primaryTick cfg peers t st loc).pub.fenced =
      (!(primaryTick cfg peers t st loc).loc.confirmed ||
        (primaryTick cfg peers t st loc).pub.handoverTo.isSome) := rfl

theorem primaryTick_lost :
    (primaryTick cfg peers t st loc).loc.majorityLostSince =
      (primaryLocal cfg peers t.now loc).majorityLostSince :=
  primaryHandover_timer.2

theorem primaryTick_confirmed :
    (primaryTick cfg peers t st loc).loc.confirmed =
      (primaryLocal cfg peers t.now loc).confirmed :=
  primaryHandover_timer.1

/-- A primary without a majority is unconfirmed from the start or out of time. -/
theorem primaryLocal_confirmed_iff {now : ℤ} :
    (primaryLocal cfg peers now loc).confirmed = false ↔
      majority peers = false ∧ (loc.confirmed = false ∨ RunOut cfg now loc) := by
  -- the timer cannot run out in the tick that starts it
  have hfo : 0 < cfg.foMs := by
    have := cfg.seconds
    unfold Config.foMs
    omega
  unfold primaryLocal RunOut
  cases hmaj : majority peers with
  | true => simp
  | false =>
    by_cases hlost : loc.majorityLostSince = 0
    · simp [hlost, Int.not_le.mpr hfo]
    · cases loc.confirmed <;> simp [hlost]

theorem primaryLocal_handoverSince {now : ℤ} :
    (primaryLocal cfg peers now loc).handoverSince = loc.handoverSince := by
  unfold primaryLocal
  split <;> rfl

theorem primaryLocal_lost {now : ℤ} (hnow : 0 < now)
    (h : (primaryLocal cfg peers now loc).confirmed = false) :
    (primaryLocal cfg peers now loc).majorityLostSince ≠ 0 := by
  have hmaj := (primaryLocal_confirmed_iff.mp h).1
  unfold primaryLocal
  rw [hmaj]
  by_cases hlost : loc.majorityLostSince = 0
  · simp [hlost, hnow.ne']
  · simp [hlost]

theorem primaryTick_fenced_iff_stoodDown :
    (primaryTick cfg peers t st loc).pub.fenced = true ↔
      StoodDown (primaryTick cfg peers t st loc) := by
  rw [primaryTick_fenced, Bool.or_eq_true, Bool.not_eq_true', StoodDown, or_comm]
  refine or_congr_right ⟨fun hconf => ⟨hconf, .inr ?_⟩, And.left⟩
  rw [primaryTick_confirmed] at hconf
  rw [primaryTick_lost]
  exact primaryLocal_lost t.uptime hconf

theorem primaryHandover_isSome {node : Node n} (hconf : loc.confirmed = true)
    (hsince : loc.handoverSince = node.loc.handoverSince) :
    (primaryHandover cfg peers t (node.probed peers) loc).1.isSome =
      handsOver cfg peers t node := by
  unfold primaryHandover handsOver
  have hto : (node.probed peers).handoverTo = node.pub.handoverTo := rfl
  have hep : (node.probed peers).epoch = node.pub.epoch := rfl
  rw [hto, hep, hsince]
  cases node.pub.handoverTo with
  | some h =>
    dsimp only
    split
    next hk => exact hk.symm
    next hk => exact (Bool.not_eq_true _ ▸ hk).symm
  | none =>
    dsimp only
    rw [hconf, Bool.and_true]
    cases cfg.failoverAuto with
    | true => rfl
    | false => cases caughtUp peers t.self node.pub.epoch t.journalMax <;> rfl

theorem primaryTick_fenced_iff_holdsBack {node : Node n} :
    (primaryTick cfg peers t (node.probed peers) node.loc).pub.fenced = true ↔
      HoldsBack cfg peers t node := by
  rw [primaryTick_fenced, Bool.or_eq_true, Bool.not_eq_true', primaryTick_confirmed, HoldsBack]
  cases hconf : (primaryLocal cfg peers t.now node.loc).confirmed with
  | false => simp only [true_or, primaryLocal_confirmed_iff.mp hconf, and_self]
  | true =>
    have hout := mt primaryLocal_confirmed_iff.mpr (by rw [hconf]; decide)
    simp only [Bool.true_eq_false, false_or, or_iff_right hout]
    rw [← primaryHandover_isSome hconf primaryLocal_handoverSince]
    rfl

end PrimaryTick

/-! ## What every run keeps -/

structure FenceInv (s : State n) : Prop where
  published : Published s
  /-- No report of an epoch is ahead of the node that leads it. -/
  epoch_le : ∀ e c, Led s e c → e ≤ (s.node c).pub.epoch
  lost_eq_zero : ∀ i, ¬ s.IsPrimary i → (s.node i).loc.majorityLostSince = 0
  fenced_iff : ∀ i, s.IsPrimary i → ((s.node i).pub.fenced = true ↔ StoodDown (s.node i))

theorem fenceInv_start (cfg : Config n) : FenceInv (start cfg) where
  published := published_start cfg
  epoch_le e c := by
    rintro ⟨i, x, hx, rfl, -⟩
    rw [List.mem_singleton.mp hx]
    exact Nat.zero_le _
  lost_eq_zero i _ := rfl
  fenced_iff i hi := by
    have hi' : cfg.first = i := hi
    simp [start, startStatus, StoodDown, hi']

theorem oneTakesWrites_start (cfg : Config n) : OneTakesWrites (start cfg) := by
  intro i j hi
  have hi' : cfg.first = i := hi.1
  have hopen := hi.2
  simp [start, startStatus, hi'] at hopen

section Step

variable {cfg : Config n} {s : State n} {t : Tick n}

theorem epoch_le_step (i : Fin n) :
    (s.node i).pub.epoch ≤ ((step cfg s t).node i).pub.epoch := by
  by_cases hi : i = t.self
  · subst hi
    rw [step_node_self]
    have hcases := clusterTick_cases cfg (s.peers t) t (s.node t.self)
    rw [← tickOutcome] at hcases
    generalize tickOutcome cfg s t = out at hcases ⊢
    cases hcases with
    | dbFailed => exact le_rfl
    | adopted v _ hnew => exact (newest_some hnew).1.le
    | primary => exact le_rfl
    | replica loc reported _ _ _ _ hrep => subst hrep; exact le_rfl
    | promoted loc reported _ _ _ _ hrep => subst hrep; exact Nat.le_succ _
  · rw [step_node_of_ne cfg s t hi]

inductive After (cfg : Config n) (s : State n) (t : Tick n) : Node n → Prop where
  | same (st : Status n) : t.dbOk = false → st = (s.node t.self).probed (s.peers t) →
      After cfg s t ⟨st, (s.node t.self).loc⟩
  | kept : s.IsPrimary t.self → t.dbOk = true →
      newest (s.node t.self).pub.epoch (s.peers t) = none →
      After cfg s t (primaryTick cfg (s.peers t) t ((s.node t.self).probed (s.peers t))
        (s.node t.self).loc)
  | follows (node : Node n) :
      (newest (s.node t.self).pub.epoch (s.peers t) = none →
        ¬ s.IsPrimary t.self ∧ ¬ (ByHandover s t ∨ ByElection cfg s t)) →
      node.pub.primary ≠ t.self → node.loc.majorityLostSince = 0 → After cfg s t node
  | taken (node : Node n) : ByHandover s t ∨ ByElection cfg s t →
      node.pub.primary = t.self → node.pub.fenced = false → ¬ StoodDown node →
      After cfg s t node

theorem replicaLocal_lost {peers : Peers n} {primary : Fin n} {now : ℤ} {loc : Local} :
    (replicaLocal peers primary now loc).majorityLostSince = loc.majorityLostSince := by
  unfold replicaLocal
  split
  next => rfl
  next => split <;> rfl

theorem FenceInv.after (h : FenceInv s) (cfg : Config n) (t : Tick n) :
    After cfg s t (tickOutcome cfg s t).node := by
  have hcases := clusterTick_cases cfg (s.peers t) t (s.node t.self)
  rw [← tickOutcome] at hcases
  generalize tickOutcome cfg s t = out at hcases ⊢
  cases hcases with
  | dbFailed hdb => exact .same _ hdb rfl
  | adopted v _ hnew =>
    rcases newest_some hnew with ⟨hlt, i, hi⟩
    refine .follows _ (fun hnone => by rw [hnone] at hnew; cases hnew) ?_ rfl
    -- a report that this node leads is not ahead of its own epoch
    intro hself
    have hle := h.epoch_le _ _ (led_of_peers hi)
    rw [show v.status.primary = t.self from hself] at hle
    omega
  | primary hdb hnew hp => exact .kept hp hdb hnew
  | replica loc reported _ _ hp hloc hrep hlose =>
    subst hloc hrep
    refine .follows _ (fun _ => ⟨hp, ?_⟩) hp
      (replicaLocal_lost.trans (h.lost_eq_zero t.self hp))
    exact mt (Or.imp And.right And.right) hlose
  | promoted loc reported hdb hnew hp hloc hrep hwin =>
    subst hloc hrep
    refine .taken _ ?_ rfl rfl ?_
    · rcases hwin with hhand | helect
      · exact .inl ⟨⟨hdb, hnew, hp⟩, hhand⟩
      · exact .inr ⟨⟨hdb, hnew, hp⟩, helect⟩
    · rintro (hhand | ⟨-, hepoch | hlost⟩)
      · cases hhand
      · cases hepoch
      · exact hlost (replicaLocal_lost.trans (h.lost_eq_zero t.self hp))

theorem FenceInv.step (h : FenceInv s) : FenceInv (step cfg s t) where
  published := h.published.step
  epoch_le e c hled := by
    rcases led_step h.published hled with hold | ⟨htake, rfl, rfl⟩
    · exact (h.epoch_le e c hold).trans (epoch_le_step c)
    · rw [step_node_self, tickOutcome_of_takeover htake]
      exact le_rfl
  lost_eq_zero i hi := by
    by_cases hself : i = t.self
    · -- whoever stops to be primary does so by an adoption, which resets the timer
      subst hself
      rw [State.IsPrimary, step_node_self] at hi
      rw [step_node_self]
      have hafter := h.after cfg t
      generalize (tickOutcome cfg s t).node = node at hafter hi ⊢
      cases hafter with
      | same st hdb hst => subst hst; exact h.lost_eq_zero t.self hi
      | kept hp => exact absurd hp hi
      | follows _ _ _ hlost => exact hlost
      | taken _ _ hp => exact absurd hp hi
    · rw [State.IsPrimary, step_node_of_ne cfg s t hself] at hi
      rw [step_node_of_ne cfg s t hself]
      exact h.lost_eq_zero i hi
  fenced_iff i hi := by
    by_cases hself : i = t.self
    · -- the fence is stored by the primary's own ticks, and cleared by a takeover
      subst hself
      rw [State.IsPrimary, step_node_self] at hi
      rw [step_node_self]
      have hafter := h.after cfg t
      generalize (tickOutcome cfg s t).node = node at hafter hi ⊢
      cases hafter with
      | same st hdb hst => subst hst; exact h.fenced_iff t.self hi
      | kept => exact primaryTick_fenced_iff_stoodDown
      | follows _ _ hp => exact absurd hi hp
      | taken _ _ _ hopen hup => simp [hopen, hup]
    · rw [State.IsPrimary, step_node_of_ne cfg s t hself] at hi
      rw [step_node_of_ne cfg s t hself]
      exact h.fenced_iff i hi

theorem oneTakesWrites_step (hone : OneTakesWrites s) :
    OneTakesWrites (step cfg s t) ↔
      ((step cfg s t).TakesWrites t.self → ∀ i, i ≠ t.self → ¬ s.TakesWrites i) := by
  have hother : ∀ i, i ≠ t.self → ((step cfg s t).TakesWrites i ↔ s.TakesWrites i) := by
    intro i hi
    rw [State.TakesWrites, State.IsPrimary, step_node_of_ne cfg s t hi]
    exact Iff.rfl
  constructor
  · intro h hself i hi hopen
    exact hi (h i t.self ((hother i hi).mpr hopen) hself)
  · intro h i j hopen hopen'
    by_cases hi : i = t.self <;> by_cases hj : j = t.self
    · rw [hi, hj]
    · exact absurd ((hother j hj).mp hopen') (h (hi ▸ hopen) j hj)
    · exact absurd ((hother i hi).mp hopen) (h (hj ▸ hopen') i hi)
    · exact hone i j ((hother i hi).mp hopen) ((hother j hj).mp hopen')

/-- From a state where one node takes writes, a tick leads to such a state exactly
when it stands back. -/
theorem oneTakesWrites_step_iff (h : FenceInv s) (hone : OneTakesWrites s) :
    OneTakesWrites (step cfg s t) ↔ StandsBack cfg s t := by
  rw [oneTakesWrites_step hone, State.TakesWrites, State.IsPrimary, step_node_self]
  have hafter := h.after cfg t
  generalize (tickOutcome cfg s t).node = node at hafter ⊢
  cases hafter with
  | same st hdb hst =>
    -- neither part of the condition applies, and the node is as open as before
    subst hst
    refine iff_of_true ?_ ⟨?_, ?_⟩
    · intro hself i hi hopen
      exact hi (hone i t.self hopen hself)
    · intro htake
      have hpart := replicaPart_of_takeover htake
      rw [hpart.1] at hdb
      cases hdb
    · intro _ hdb'
      rw [hdb'] at hdb
      cases hdb
  | kept hp hdb hnew =>
    -- the second part of the condition says when such a tick ends fenced
    have hopen : ∀ b, b = false ↔ ¬ b = true := fun b => by cases b <;> simp
    rw [hopen, primaryTick_fenced_iff_holdsBack]
    constructor
    · intro hback
      refine ⟨fun htake => ?_, fun _ _ _ ⟨i, hi, hwrites⟩ => ?_⟩
      · have hpart := replicaPart_of_takeover htake
        exact absurd hp hpart.2.2
      · by_contra hnot
        exact hback ⟨hp, hnot⟩ i hi hwrites
    · rintro hback ⟨-, hnot⟩ i hi hwrites
      exact hnot (hback.2 hp hdb hnew ⟨i, hi, hwrites⟩)
  | follows _ hno hp =>
    refine iff_of_true (fun hself => absurd hself.1 hp) ⟨fun htake => ?_, fun hp' _ hnew _ => ?_⟩
    · have hpart := replicaPart_of_takeover htake
      exact absurd htake (hno hpart.2.1).2
    · exact absurd hp' (hno hnew).1
  | taken _ htake hp hwrites =>
    -- a new primary takes writes at once, so the others must be fenced already
    have hpart := replicaPart_of_takeover htake
    constructor
    · intro hback
      refine ⟨fun _ i hi hprimary => ?_, fun hp' => absurd hp' hpart.2.2⟩
      rw [← h.fenced_iff i hprimary]
      by_contra hnot
      exact hback ⟨hp, hwrites⟩ i hi ⟨hprimary, Bool.not_eq_true _ ▸ hnot⟩
    · rintro hback - i hi ⟨hprimary, hopen⟩
      have hfenced := (h.fenced_iff i hprimary).mpr (hback.1 htake i hi hprimary)
      rw [hopen] at hfenced
      cases hfenced

end Step

/-- Node 0 is cut off after 1500 ms. Nodes 1 and 2 notice at once and node 0 at its
next tick, so that its timer still runs when theirs is out. -/
def cutOff : List (Tick 3) :=
  [⟨0, 1000, pos_1000, true, 0, sees [(1, 0, 10), (2, 0, 10)]⟩,
   ⟨1, 1600, by decide, true, 0, sees [(2, 0, 10)]⟩,
   ⟨2, 1600, by decide, true, 0, sees [(1, 2, 10)]⟩,
   ⟨0, 2000, by decide, true, 0, sees []⟩,
   ⟨0, 4000, pos_4000, true, 0, sees []⟩,
   ⟨2, 4700, by decide, true, 0, sees [(1, 2, 10)]⟩,
   ⟨1, 4800, by decide, true, 0, sees [(2, 4, 10)]⟩]

/-- The links during `cutOff`. -/
def linkUp (now : ℤ) (i j : Fin 3) : Bool := i ≠ j && (now < 1500 || (i ≠ 0 && j ≠ 0))

end FlyBoard.Engine

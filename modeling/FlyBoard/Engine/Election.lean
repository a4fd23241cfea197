import FlyBoard.Engine.Cluster
import FlyBoard.Lib.Quorum

/-!
# Elections of the failover cluster

A node takes the primary role for the next epoch when a majority of the sites
name it (`elected`) or the primary hands the role over (`handedOver`). Both are
read from statuses of the present epoch, and nothing ties a node to the candidate
it has once named: the next tick names whoever is best then, and an adoption
carries the old name into the new epoch. Two candidates can so be named by
majorities, one tick apart.

Epochs are safe in the runs where each takeover rests on names that never
changed.
-/

namespace FlyBoard.Engine

open Quorum Run

variable {n : ℕ}

/-! ## What has been published -/

/-- Some status reported `c` as the primary of epoch `e`. -/
def Led (s : State n) (e : ℕ) (c : Fin n) : Prop :=
  ∃ i, ∃ x ∈ s.history i, x.epoch = e ∧ x.primary = c

/-- Node `v` has reported an outage in epoch `e` and named `c`. -/
def Named (s : State n) (v : Fin n) (e : ℕ) (c : Fin n) : Prop :=
  ∃ x ∈ s.history v, x.epoch = e ∧ x.primaryDown = true ∧ x.candidate = some c

instance (s : State n) (v : Fin n) (e : ℕ) (c : Fin n) : Decidable (Named s v e c) :=
  inferInstanceAs (Decidable (∃ x ∈ s.history v, _))

/-- The nodes that have named `c` in epoch `e`. -/
def namers (s : State n) (e : ℕ) (c : Fin n) : Finset (Fin n) :=
  Finset.univ.filter fun v => Named s v e c

/-- The role has been offered to `c` in epoch `e`. -/
def Offered (s : State n) (e : ℕ) (c : Fin n) : Prop :=
  ∃ i, ∃ x ∈ s.history i, x.epoch = e ∧ x.handoverTo = some c

instance (s : State n) (e : ℕ) (c : Fin n) : Decidable (Offered s e c) :=
  inferInstanceAs (Decidable (∃ i, ∃ x ∈ s.history i, _))

/-- What entitles `c` to lead the epoch after `e`. -/
def Entitled (s : State n) (e : ℕ) (c : Fin n) : Prop :=
  IsMajority (namers s e c) ∨ Offered s e c

/-- No two nodes have ever taken themselves for the primary of one epoch. -/
def OnePrimaryPerEpoch (s : State n) : Prop :=
  ∀ i j, ∀ x ∈ s.history i, ∀ y ∈ s.history j,
    x.primary = i → y.primary = j → x.epoch = y.epoch → i = j

/-! ## Takeovers -/

def ReplicaPart (s : State n) (t : Tick n) : Prop :=
  t.dbOk = true ∧ newest (s.node t.self).pub.epoch (s.peers t) = none ∧
    (s.node t.self).pub.primary ≠ t.self

instance (s : State n) (t : Tick n) : Decidable (ReplicaPart s t) :=
  inferInstanceAs (Decidable (_ ∧ _))

def reportOf (cfg : Config n) (s : State n) (t : Tick n) : Status n :=
  watch cfg (s.peers t) t ((s.node t.self).probed (s.peers t))
    (replicaLocal (s.peers t) (s.node t.self).pub.primary t.now (s.node t.self).loc)

def ByHandover (s : State n) (t : Tick n) : Prop :=
  ReplicaPart s t ∧ handedOver (s.peers t) t.self (s.node t.self).pub.primary
    (s.node t.self).pub.epoch t.journalMax = true

instance (s : State n) (t : Tick n) : Decidable (ByHandover s t) :=
  inferInstanceAs (Decidable (_ ∧ _))

def ByElection (cfg : Config n) (s : State n) (t : Tick n) : Prop :=
  ReplicaPart s t ∧ elected (s.peers t) t.self (reportOf cfg s t) = true

instance (cfg : Config n) (s : State n) (t : Tick n) : Decidable (ByElection cfg s t) :=
  inferInstanceAs (Decidable (_ ∧ _))

def electors (s : State n) (t : Tick n) : Finset (Fin n) :=
  insert t.self
    (supporters (s.peers t) t.self (s.node t.self).pub.primary (s.node t.self).pub.epoch)

/-- No takeover rests on a name that has changed: the electors have named nobody
else in that epoch, nor has the role been offered to anybody else; and no
handover overtakes an election that somebody else can have won. -/
def NamesKept (cfg : Config n) (s : State n) (t : Tick n) : Prop :=
  let e := (s.node t.self).pub.epoch
  (ByHandover s t → ∀ c, Entitled s e c → c = t.self) ∧
  (ByElection cfg s t → ∀ c, (Offered s e c → c = t.self) ∧
    ∀ v ∈ electors s t, Named s v e c → c = t.self)

instance (s : State n) (e : ℕ) (c : Fin n) : Decidable (Entitled s e c) :=
  inferInstanceAs (Decidable (_ ∨ _))

instance (cfg : Config n) (s : State n) (t : Tick n) : Decidable (NamesKept cfg s t) :=
  inferInstanceAs (Decidable (_ ∧ _))

/-! ## What a tick publishes -/

section Step

variable {cfg : Config n} {s : State n} {t : Tick n} {e : ℕ} {c : Fin n}

theorem Named.step {v c : Fin n} (h : Named s v e c) : Named (step cfg s t) v e c := by
  rcases h with ⟨x, hx, hname⟩
  exact ⟨x, mem_history_step_of_mem t hx, hname⟩

theorem Offered.step (h : Offered s e c) : Offered (step cfg s t) e c := by
  rcases h with ⟨i, x, hx, hoffer⟩
  exact ⟨i, x, mem_history_step_of_mem t hx, hoffer⟩

theorem Entitled.step (h : Entitled s e c) :
    Entitled (step cfg s t) e c := by
  rcases h with hmaj | hoffer
  · refine .inl (hmaj.mono ?_)
    intro v hv
    rw [namers, Finset.mem_filter] at hv ⊢
    exact ⟨Finset.mem_univ v, hv.2.step⟩
  · exact .inr hoffer.step

theorem led_of_peers {i : Fin n} {v : PeerView n} (h : s.peers t i = some v) :
    Led s v.status.epoch v.status.primary :=
  ⟨i, v.status, (peers_some h).2, rfl, rfl⟩

def Published (s : State n) : Prop := ∀ i, (s.node i).pub ∈ s.history i

instance (s : State n) : Decidable (Published s) :=
  inferInstanceAs (Decidable (∀ i, (s.node i).pub ∈ s.history i))

theorem published_start (cfg : Config n) : Published (start cfg) :=
  fun _ => List.mem_singleton.mpr rfl

theorem Published.step (h : Published s) : Published (step cfg s t) := by
  intro i
  by_cases hi : i = t.self
  · subst hi
    rw [step_node_self]
    exact mem_history_step.mpr (.inr ⟨rfl, by simp⟩)
  · rw [step_node_of_ne cfg s t hi]
    exact mem_history_step_of_mem t (h i)

/-- A tick reports a primary that was reported before, or has taken the role over. -/
theorem published_led (h : Published s) {x : Status n}
    (hx : x ∈ (tickOutcome cfg s t).interim ++ [(tickOutcome cfg s t).node.pub]) :
    Led s x.epoch x.primary ∨
      (ByHandover s t ∨ ByElection cfg s t) ∧
        x.epoch = (s.node t.self).pub.epoch + 1 ∧ x.primary = t.self := by
  have hpub : Led s (s.node t.self).pub.epoch (s.node t.self).pub.primary :=
    ⟨t.self, _, h t.self, rfl, rfl⟩
  have hcases := clusterTick_cases cfg (s.peers t) t (s.node t.self)
  rw [← tickOutcome] at hcases
  generalize tickOutcome cfg s t = out at hcases hx
  -- only an adoption and a takeover store another primary
  cases hcases with
  | dbFailed =>
    simp only [List.nil_append, List.mem_singleton] at hx
    exact .inl (hx ▸ hpub)
  | adopted v _ hnew =>
    simp only [List.mem_append, List.mem_singleton] at hx
    rcases hx with rfl | rfl
    · exact .inl hpub
    · rcases newest_some hnew with ⟨-, i, hi⟩
      exact .inl (led_of_peers hi)
  | primary =>
    simp only [List.mem_append, List.mem_singleton] at hx
    rcases hx with rfl | rfl <;> exact .inl hpub
  | replica loc reported _ _ _ _ hrep =>
    simp only [List.mem_append, List.mem_singleton] at hx
    subst hrep
    rcases hx with rfl | rfl <;> exact .inl hpub
  | promoted loc reported hdb hnew hp hloc hrep hwin =>
    simp only [List.cons_append, List.nil_append, List.mem_cons, List.not_mem_nil,
      or_false] at hx
    subst hloc hrep
    rcases hx with rfl | rfl | rfl
    · exact .inl hpub
    · exact .inl hpub
    · refine .inr ⟨?_, rfl, rfl⟩
      rcases hwin with hhand | helect
      · exact .inl ⟨⟨hdb, hnew, hp⟩, hhand⟩
      · exact .inr ⟨⟨hdb, hnew, hp⟩, helect⟩

/-- Who leads an epoch after a tick led it before, or has taken it over. -/
theorem led_step (h : Published s) (hled : Led (step cfg s t) e c) :
    Led s e c ∨ (ByHandover s t ∨ ByElection cfg s t) ∧
      e = (s.node t.self).pub.epoch + 1 ∧ c = t.self := by
  rcases hled with ⟨i, x, hx, rfl, rfl⟩
  rcases mem_history_step.mp hx with hold | ⟨rfl, hnew⟩
  · exact .inl ⟨i, x, hold, rfl, rfl⟩
  · exact published_led h hnew

theorem self_notMem_supporters (peers : Peers n) (self primary : Fin n) (e : ℕ) :
    self ∉ supporters peers self primary e := by
  simp [supporters]

theorem named_of_supporter {v : Fin n}
    (h : v ∈ supporters (s.peers t) t.self (s.node t.self).pub.primary
      (s.node t.self).pub.epoch) :
    Named s v (s.node t.self).pub.epoch t.self := by
  simp only [supporters, Finset.mem_filter, Finset.mem_univ, true_and] at h
  rcases h with ⟨-, -, hany⟩
  rcases (Option.any_eq_true _ _).mp hany with ⟨w, hw, hvote⟩
  simp only [Bool.and_eq_true, beq_iff_eq] at hvote
  exact ⟨w.status, (peers_some hw).2, hvote.1.1, hvote.1.2, hvote.2⟩

theorem majority_electors (h : ByElection cfg s t) : IsMajority (electors s t) := by
  have helect := h.2
  simp only [elected, Bool.and_eq_true, decide_eq_true_eq] at helect
  have hcard : n < (1 + (supporters (s.peers t) t.self (s.node t.self).pub.primary
    (s.node t.self).pub.epoch).card) * 2 := helect.2
  rw [IsMajority, electors, Finset.card_insert_of_notMem (self_notMem_supporters _ _ _ _),
    Fintype.card_fin]
  omega

theorem tickOutcome_of_replicaPart (h : ReplicaPart s t) :
    tickOutcome cfg s t = replicaTick cfg (s.peers t) t
      ((s.node t.self).probed (s.peers t)) (s.node t.self).loc := by
  rcases h with ⟨hdb, hnew, hp⟩
  have hnew' : newest ((s.node t.self).probed (s.peers t)).epoch (s.peers t) = none := hnew
  have hp' : ((s.node t.self).probed (s.peers t)).primary ≠ t.self := hp
  unfold tickOutcome clusterTick
  simp [hdb, hnew', hp']

theorem replicaPart_of_takeover (h : ByHandover s t ∨ ByElection cfg s t) : ReplicaPart s t :=
  h.elim And.left And.left

theorem tickOutcome_of_takeover (h : ByHandover s t ∨ ByElection cfg s t) :
    (tickOutcome cfg s t).node.pub = promote t.self t.journalMax (reportOf cfg s t) := by
  have hwin : (handedOver (s.peers t) t.self (s.node t.self).pub.primary
      (s.node t.self).pub.epoch t.journalMax || elected (s.peers t) t.self (reportOf cfg s t)) =
      true := by
    rw [Bool.or_eq_true]
    exact h.imp And.right And.right
  rw [tickOutcome_of_replicaPart (replicaPart_of_takeover h)]
  unfold replicaTick
  exact congrArg (fun out : Outcome n => out.node.pub) (if_pos hwin)

/-- A replica publishes its report, also when it then takes the role over. -/
theorem reportOf_mem_history (h : ReplicaPart s t) :
    reportOf cfg s t ∈ (step cfg s t).history t.self := by
  refine mem_history_step.mpr (.inr ⟨rfl, ?_⟩)
  rw [tickOutcome_of_replicaPart h]
  unfold replicaTick
  dsimp only
  split <;> simp [reportOf, Node.probed]

/-- The electors have named the node, itself included once its tick is done. -/
theorem electors_subset_namers (h : ByElection cfg s t) :
    electors s t ⊆ namers (step cfg s t) (s.node t.self).pub.epoch t.self := by
  intro v hv
  rw [namers, Finset.mem_filter]
  refine ⟨Finset.mem_univ v, ?_⟩
  rcases Finset.mem_insert.mp hv with rfl | hsup
  · have helect := h.2
    simp only [elected, Bool.and_eq_true, beq_iff_eq] at helect
    exact ⟨reportOf cfg s t, reportOf_mem_history h.1, rfl, helect.1.1, helect.1.2⟩
  · exact (named_of_supporter hsup).step

theorem offered_of_byHandover (h : ByHandover s t) :
    Offered s (s.node t.self).pub.epoch t.self := by
  rcases (Option.any_eq_true _ _).mp h.2 with ⟨w, hw, hoffer⟩
  simp only [Bool.and_eq_true, beq_iff_eq] at hoffer
  exact ⟨_, w.status, (peers_some hw).2, hoffer.1.2, hoffer.1.1⟩

theorem entitled_of_takeover (h : ByHandover s t ∨ ByElection cfg s t) :
    Entitled (step cfg s t) (s.node t.self).pub.epoch t.self := by
  rcases h with hhand | helect
  · exact .inr (offered_of_byHandover hhand).step
  · exact .inl ((majority_electors helect).mono (electors_subset_namers helect))

/-- Under the condition nobody else is entitled to the epoch that is taken over. -/
theorem eq_of_entitled (hkept : NamesKept cfg s t) (h : ByHandover s t ∨ ByElection cfg s t)
    (hc : Entitled s (s.node t.self).pub.epoch c) : c = t.self := by
  rcases h with hhand | helect
  · exact hkept.1 hhand c hc
  · rcases hkept.2 helect c with ⟨hoffers, hnames⟩
    rcases hc with hmaj | hoffer
    · -- the majority that named `c` shares a node with the electors
      rcases hmaj.exists_mem_both (majority_electors helect) with ⟨v, hv, hve⟩
      exact hnames v hve (Finset.mem_filter.mp hv).2
    · exact hoffers hoffer

end Step

/-! ## Election safety -/

/-- What holds in a run whose takeovers all rest on names that never changed. -/
structure ElectionInv (s : State n) : Prop where
  published : Published s
  entitled : ∀ e c, Led s (e + 1) c → Entitled s e c
  agree : ∀ e c c', Led s e c → Led s e c' → c = c'

theorem electionInv_start (cfg : Config n) : ElectionInv (start cfg) where
  published := published_start cfg
  entitled e c := by
    rintro ⟨i, x, hx, he, -⟩
    rw [List.mem_singleton.mp hx] at he
    cases he
  agree e c c' := by
    rintro ⟨i, x, hx, -, rfl⟩ ⟨j, y, hy, -, rfl⟩
    rw [List.mem_singleton.mp hx, List.mem_singleton.mp hy]
    rfl

namespace ElectionInv

variable {cfg : Config n} {s : State n} {t : Tick n}

theorem step (h : ElectionInv s) (hkept : NamesKept cfg s t) :
    ElectionInv (Engine.step cfg s t) where
  published := h.published.step
  entitled e c hled := by
    rcases led_step h.published hled with hold | ⟨htake, he, rfl⟩
    · exact (h.entitled e c hold).step
    · cases he
      exact entitled_of_takeover htake
  agree e c c' hled hled' := by
    -- an epoch that is taken over has no other leader: a leader would be entitled to it
    have huniq : ∀ d, Led s ((s.node t.self).pub.epoch + 1) d →
        ByHandover s t ∨ ByElection cfg s t → d = t.self :=
      fun d hd htake => eq_of_entitled hkept htake (h.entitled _ d hd)
    rcases led_step h.published hled with hold | ⟨htake, rfl, rfl⟩
    · rcases led_step h.published hled' with hold' | ⟨htake, rfl, rfl⟩
      · exact h.agree e c c' hold hold'
      · exact huniq c hold htake
    · rcases led_step h.published hled' with hold' | ⟨-, -, rfl⟩
      · exact (huniq c' hold' htake).symm
      · rfl

theorem onePrimaryPerEpoch (h : ElectionInv s) : OnePrimaryPerEpoch s := by
  intro i j x hx y hy hi hj he
  exact h.agree x.epoch i j ⟨i, x, hx, rfl, hi⟩ ⟨j, y, hy, he.symm, hj⟩

end ElectionInv

/-- Node 2 names node 1, which takes over from the silent node 0; node 0 then
follows, catches up and is handed the role back. -/
def failoverAndBack : List (Tick 3) :=
  [⟨1, 1000, pos_1000, true, 0, sees [(2, 0, 10)]⟩,
   ⟨2, 1000, pos_1000, true, 0, sees [(1, 0, 10)]⟩,
   ⟨2, 4000, pos_4000, true, 0, sees [(1, 2, 10)]⟩,
   ⟨1, 5000, pos_5000, true, 0, sees [(2, 4, 10)]⟩,
   ⟨2, 6000, pos_6000, true, 0, sees [(1, 5, 10)]⟩,
   ⟨0, 7000, by decide, true, 0, sees [(1, 5, 10), (2, 6, 10)]⟩,
   ⟨1, 8000, by decide, true, 0, sees [(0, 2, 10), (2, 6, 10)]⟩,
   ⟨0, 9000, pos_9000, true, 0, sees [(1, 7, 10), (2, 6, 10)]⟩]

/-- Node 0 is silent. Nodes 1 and 2 first name each other; then node 1 measures a
shorter RTT, names itself and finds the name of node 2, while the probe of node 2
still has the name that node 1 has just taken back. -/
def crossedNames : List (Tick 3) :=
  [⟨1, 1000, by decide, true, 0, sees [(2, 0, 10)]⟩,
   ⟨2, 1000, by decide, true, 0, sees [(1, 0, 10)]⟩,
   ⟨2, 4000, by decide, true, 0, sees [(1, 2, 20)]⟩,
   ⟨1, 4000, by decide, true, 0, sees [(2, 2, 30)]⟩,
   ⟨1, 5000, by decide, true, 0, sees [(2, 4, 5)]⟩,
   ⟨2, 5000, by decide, true, 0, sees [(1, 4, 5)]⟩]

def afterCrossedNames : State 3 := run (step (trio true)) (start (trio true)) crossedNames

end FlyBoard.Engine

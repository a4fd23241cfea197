import FlyBoard.Engine.Cluster
import FlyBoard.Lib.EpochLog
import FlyBoard.Sync.Feed
import FlyBoard.Sync.Wire

/-!
# The replicated log of a cluster (`src/engine/flywire_cluster.c`, `flywire_poll_once`)

Under the roles of `Cluster` every node keeps a journal and a checkpoint. The primary
appends, the others copy its rows under its seqs, a node that takes over goes on from what
it has, and a node that follows a new primary drops what lies past that primary's base.
This module asks when all of that is one log: when a replica and the primary it follows say
the same wherever both have a row.

How far a peer's log reaches is still an input of a probe, as in `Cluster`; the reading of a
node's own database is not.
-/

namespace FlyBoard.Engine

open Sync Wire EpochLog

variable {n : ℕ}

/-- The cluster with the journal and the checkpoint file of every node. -/
structure LogState (n : ℕ) where
  cluster : State n
  journal : Fin n → SyncJournal
  checkpoint : Fin n → ℕ

namespace LogState

def pub (s : LogState n) (i : Fin n) : Status n := (s.cluster.node i).pub

/-- `applied_seq`: how far the node's copy of the log reaches. -/
def appliedSeq (s : LogState n) (i : Fin n) : ℕ :=
  if (s.pub i).primary = i then (s.journal i).maxSeq
  else max (s.checkpoint i) (s.journal i).maxSeq

/-- The tick reads `my_jm` from the node's own database. -/
def reads (s : LogState n) (t : Tick n) : Tick n := { t with journalMax := s.appliedSeq t.self }

end LogState

/-! ## Steps -/

section Steps

variable (cfg : Config n) (s : LogState n)

/-- What `cluster_tick` does to the journal and the checkpoint of its node. -/
def logTick (t : Tick n) : SyncJournal × ℕ :=
  let journal := s.journal t.self
  let checkpoint := s.checkpoint t.self
  let myJm := s.appliedSeq t.self
  if !t.dbOk then (journal, checkpoint)
  else
    match newest (s.pub t.self).epoch (s.cluster.peers t) with
    | some v =>
      let base := v.status.baseSeq
      if v.status.primary = t.self then (journal, checkpoint)
      else if base < myJm then (journal.truncateAfter base.toNat, base.toNat)
      -- a former primary has no checkpoint of its own
      else (journal, myJm)
    | none =>
      -- `promote`: the node was a replica and is the primary after the tick
      if (s.pub t.self).primary ≠ t.self ∧
          (tickOutcome cfg s.cluster (s.reads t)).node.pub.primary = t.self then
        (journal.continueAfter myJm, checkpoint)
      else (journal, checkpoint)

/-- `cluster_tick`. -/
def LogState.tick (t : Tick n) : LogState n where
  cluster := step cfg s.cluster (s.reads t)
  journal := Function.update s.journal t.self (logTick cfg s t).1
  checkpoint := Function.update s.checkpoint t.self (logTick cfg s t).2

/-- A mutation on a node that takes itself for the primary, with its journal row. -/
def LogState.write (i : Fin n) (change : Change) (now : Int) : LogState n :=
  if (s.pub i).primary = i then
    { s with journal := Function.update s.journal i ((s.journal i).append change now) }
  else s

variable {J : Type*} (cjson : CJson J)

/-- A feed row as it is stored on the other side. -/
def mirrored (now : Int) (r : Entry) : Entry :=
  { r with
    change := { r.change with payload := received cjson r.change.payload }, createdAt := now }

/-- One row of a page: `flywire_cluster_mirror_row` and `flywire_checkpoint_write`. -/
def LogState.mirror (i : Fin n) (now : Int) (r : Entry) : LogState n :=
  { s with
    journal := Function.update s.journal i ((s.journal i).mirrorRow (mirrored cjson now r))
    checkpoint := Function.update s.checkpoint i r.seq }

/-- `flywire_poll_once` of a replica, of whose page the first `applied` rows are stored. A
node that does not take itself for the primary has no feed, and a feed of another epoch is
left alone. -/
def LogState.poll (i : Fin n) (limit : Int) (applied : ℕ) (now : Int) : LogState n :=
  let p := (s.pub i).primary
  if p = i ∨ (s.pub p).primary ≠ p ∨ (s.pub p).epoch ≠ (s.pub i).epoch then s
  else
    match Feed.handlerFeed (s.journal p) (s.checkpoint i) limit with
    | .journalPurged => s
    | .page rows _ => (rows.take applied).foldl (fun s r => s.mirror cjson i now r) s

/-- `flywire_cluster_start` with the saved role. -/
def Status.restarted (st : Status n) (i : Fin n) : Status n :=
  { st with
    fenced := st.primary = i, primaryDown := false, candidate := none, handoverTo := none,
    meanRtt := 0 }

/-- A node starts again. The journal, the checkpoint and the role are on disk. -/
def LogState.restart (i : Fin n) : LogState n :=
  let node : Node n := ⟨(s.pub i).restarted i, ⟨0, 0, 0, false⟩⟩
  { s with
    cluster :=
      { node := Function.update s.cluster.node i node
        history := Function.update s.cluster.history i (s.cluster.history i ++ [node.pub]) } }

end Steps

inductive LogEvent (n : ℕ) where
  | tick (t : Tick n)
  | write (i : Fin n) (change : Change) (now : Int)
  | poll (i : Fin n) (limit : Int) (applied : ℕ) (now : Int)
  | restart (i : Fin n)

def logStep {J : Type*} (cfg : Config n) (cjson : CJson J) (s : LogState n) :
    LogEvent n → LogState n
  | .tick t => s.tick cfg t
  | .write i change now => s.write i change now
  | .poll i limit applied now => s.poll cjson i limit applied now
  | .restart i => s.restart i

def logStart (cfg : Config n) (journal : SyncJournal) : LogState n where
  cluster := start cfg
  journal := fun i => if i = cfg.first then journal else .empty
  checkpoint := fun _ => 0

/-! ## One log -/

/-- A replica and the primary of its epoch have the same rows, up to where the replica has
applied the feed, wherever both have one. -/
def OneLog (s : LogState n) : Prop :=
  ∀ i p, p ≠ i → (s.pub i).primary = p → (s.pub p).primary = p →
    (s.pub p).epoch = (s.pub i).epoch →
    ∀ r ∈ (s.journal i).rows, ∀ r' ∈ (s.journal p).rows,
      r.seq = r'.seq → r.seq ≤ s.checkpoint i → r.change = r'.change

def TakesOver (cfg : Config n) (s : LogState n) (t : Tick n) : Prop :=
  t.dbOk = true ∧ newest (s.pub t.self).epoch (s.cluster.peers t) = none ∧
    (s.pub t.self).primary ≠ t.self ∧
    (tickOutcome cfg s.cluster (s.reads t)).node.pub.primary = t.self

/-- What keeps the log one: payloads that survive the wire; epochs that are taken over
once; and nodes that, when they follow a new primary, have nothing past the base of an
epoch they missed. -/
def KeepsOne {J : Type*} (cfg : Config n) (cjson : CJson J) (s : LogState n) : LogEvent n → Prop
  | .write i change _ =>
    (s.pub i).primary = i → received cjson change.payload = change.payload
  | .tick t =>
    (TakesOver cfg s t → ∀ i, ∀ x ∈ s.cluster.history i, x.epoch ≠ (s.pub t.self).epoch + 1) ∧
    (t.dbOk = true → ∀ v ∈ newest (s.pub t.self).epoch (s.cluster.peers t),
      ∀ i, ∀ x ∈ s.cluster.history i, (s.pub t.self).epoch < x.epoch →
        x.epoch < v.status.epoch → (s.appliedSeq t.self : ℤ) ≤ x.baseSeq)
  | .poll .. | .restart .. => True

instance (cfg : Config n) (s : LogState n) (t : Tick n) : Decidable (TakesOver cfg s t) :=
  inferInstanceAs (Decidable (_ ∧ _))

instance {J : Type*} (cfg : Config n) (cjson : CJson J) (s : LogState n) :
    ∀ e, Decidable (KeepsOne cfg cjson s e)
  | .write .. => inferInstanceAs (Decidable (_ → _))
  | .tick _ => inferInstanceAs (Decidable (_ ∧ _))
  | .poll .. => instDecidableTrue
  | .restart .. => instDecidableTrue

instance (s : LogState n) : Decidable (OneLog s) :=
  inferInstanceAs (Decidable (∀ _ _, _))

/-! ## The chronicle of a run -/

/-- The primary of every epoch with its log. -/
structure Chronicle (n : ℕ) extends Chain Change where
  lead : ℕ → Fin n

/-- The run so far has gone as the chronicle says. -/
structure Follows {J : Type*} (cjson : CJson J) (c : Chronicle n) (s : LogState n) : Prop where
  published : ∀ i, s.pub i ∈ s.cluster.history i
  told : ∀ i, ∀ x ∈ s.cluster.history i,
    x.epoch ≤ c.top ∧ x.primary = c.lead x.epoch ∧ x.baseSeq = c.base x.epoch
  /-- Every epoch has been heard of. -/
  heard : ∀ e ≤ c.top, ∃ i, ∃ x ∈ s.cluster.history i, x.epoch = e
  /-- Nobody forgets having led. -/
  led : ∀ e ≤ c.top, e ≤ (s.pub (c.lead e)).epoch
  primary : ∀ i, (s.pub i).primary = i → (s.journal i).lookup = c.log (s.pub i).epoch
  replica : ∀ i, (s.pub i).primary ≠ i →
    (s.journal i).lookup = upTo (s.checkpoint i) (c.log (s.pub i).epoch)
  /-- The counter of a primary is past all that others count on. -/
  base_le : ∀ p, (s.pub p).primary = p → c.base (s.pub p).epoch ≤ (s.journal p).sequence
  next_le : ∀ p, (s.pub p).primary = p → (s.pub p).epoch < c.top →
    c.base ((s.pub p).epoch + 1) ≤ (s.journal p).sequence
  checkpoint_le : ∀ p i, (s.pub p).primary = p → (s.pub i).primary ≠ i →
    (s.pub i).epoch = (s.pub p).epoch → s.checkpoint i ≤ (s.journal p).sequence
  survives : ∀ e q d, c.log e q = some d → received cjson d.payload = d.payload

section Follows

variable {J : Type*} {cjson : CJson J} {c : Chronicle n} {s : LogState n} {rows : List Entry}
  {cfg : Config n} {v : PeerView n} {i : Fin n} {d : Change} {e q : ℕ} {b : ℕ} {k : Fin n}
  {t : Tick n} {x : Status n}

theorem Follows.oneLog (h : Follows cjson c s) : OneLog s := by
  intro i p hne hi hp hepoch r hr r' hr' hseq hle
  have hreplica := h.replica i (by rw [hi]; exact hne)
  have hprimary := h.primary p hp
  have hr1 : (s.journal i).lookup r.seq = some r.change :=
    SyncJournal.lookup_eq_some.mpr ⟨r, hr, rfl, rfl⟩
  have hr2 : (s.journal p).lookup r.seq = some r'.change :=
    SyncJournal.lookup_eq_some.mpr ⟨r', hr', hseq.symm, rfl⟩
  rw [hreplica, upTo, if_pos hle] at hr1
  rw [hprimary, hepoch] at hr2
  exact Option.some.inj (hr1.symm.trans hr2)

theorem Follows.appliedSeq_of_replica (h : Follows cjson c s)
    (hi : (s.pub i).primary ≠ i) : s.appliedSeq i = s.checkpoint i := by
  have hmax : (s.journal i).maxSeq ≤ s.checkpoint i := by
    apply SyncJournal.maxSeq_le_of_lookup
    intro q hq
    rw [h.replica i hi, upTo, if_neg (by omega)]
  rw [LogState.appliedSeq, if_neg hi]
  exact max_eq_left hmax

/-- Whatever its role, a node has the log of its epoch as far as it says. -/
theorem Follows.applied (h : Follows cjson c s) (i : Fin n) :
    (s.journal i).lookup = upTo (s.appliedSeq i) (c.log (s.pub i).epoch) := by
  by_cases hi : (s.pub i).primary = i
  · rw [LogState.appliedSeq, if_pos hi, ← h.primary i hi]
    funext q
    rw [upTo]
    split
    · rfl
    · rename_i hq
      exact SyncJournal.lookup_eq_none_of_maxSeq_lt (Nat.not_le.mp hq)
  · rw [h.appliedSeq_of_replica hi]
    exact h.replica i hi

theorem Follows.epoch_le (h : Follows cjson c s) (i : Fin n) : (s.pub i).epoch ≤ c.top :=
  (h.told i _ (h.published i)).1

theorem Follows.primary_eq (h : Follows cjson c s) (i : Fin n) :
    (s.pub i).primary = c.lead (s.pub i).epoch :=
  (h.told i _ (h.published i)).2.1

/-! ### Steps that change no role -/

def SameRole (x y : Status n) : Prop :=
  x.epoch = y.epoch ∧ x.primary = y.primary ∧ x.baseSeq = y.baseSeq

theorem Follows.republish (h : Follows cjson c s) {s' : LogState n}
    (hjournal : s'.journal = s.journal) (hcheckpoint : s'.checkpoint = s.checkpoint)
    (hrole : ∀ i, SameRole (s'.pub i) (s.pub i))
    (hpublished : ∀ i, s'.pub i ∈ s'.cluster.history i)
    (hold : ∀ i, ∀ x ∈ s.cluster.history i, x ∈ s'.cluster.history i)
    (hnew : ∀ i, ∀ x ∈ s'.cluster.history i, x ∈ s.cluster.history i ∨ SameRole x (s.pub i)) :
    Follows cjson c s' where
  published := hpublished
  told := by
    intro i x hx
    rcases hnew i x hx with hmem | ⟨he, hp, hb⟩
    · exact h.told i x hmem
    · rw [he, hp, hb]
      exact h.told i _ (h.published i)
  heard := by
    intro e he
    rcases h.heard e he with ⟨i, x, hx, hxe⟩
    exact ⟨i, x, hold i x hx, hxe⟩
  led := by
    intro e he
    rw [(hrole _).1]
    exact h.led e he
  primary := by
    intro i hi
    rw [(hrole i).2.1] at hi
    rw [hjournal, (hrole i).1]
    exact h.primary i hi
  replica := by
    intro i hi
    rw [(hrole i).2.1] at hi
    rw [hjournal, hcheckpoint, (hrole i).1]
    exact h.replica i hi
  base_le := by
    intro p hp
    rw [(hrole p).2.1] at hp
    rw [hjournal, (hrole p).1]
    exact h.base_le p hp
  next_le := by
    intro p hp he
    rw [(hrole p).2.1] at hp
    rw [(hrole p).1] at he
    rw [hjournal, (hrole p).1]
    exact h.next_le p hp he
  checkpoint_le := by
    intro p i hp hi he
    rw [(hrole p).2.1] at hp
    rw [(hrole i).2.1] at hi
    rw [(hrole i).1, (hrole p).1] at he
    rw [hjournal, hcheckpoint]
    exact h.checkpoint_le p i hp hi he
  survives := h.survives

theorem Follows.restart (h : Follows cjson c s) (i : Fin n) : Follows cjson c (s.restart i) := by
  have hpub : ∀ k, (s.restart i).pub k = if k = i then (s.pub i).restarted i else s.pub k := by
    intro k
    by_cases hk : k = i
    · subst hk
      simp [LogState.restart, LogState.pub]
    · simp [LogState.restart, LogState.pub, hk]
  have hhistory : ∀ k x, x ∈ (s.restart i).cluster.history k ↔
      x ∈ s.cluster.history k ∨ k = i ∧ x = (s.pub i).restarted i := by
    intro k x
    by_cases hk : k = i
    · subst hk
      simp [LogState.restart]
    · simp [LogState.restart, hk]
  -- the saved role is the role
  refine h.republish rfl rfl ?_ ?_ ?_ ?_
  · intro k
    rw [hpub]
    split
    · rename_i hk
      subst hk
      exact ⟨rfl, rfl, rfl⟩
    · exact ⟨rfl, rfl, rfl⟩
  · intro k
    rw [hhistory, hpub]
    split
    · rename_i hk
      exact .inr ⟨hk, rfl⟩
    · exact .inl (h.published k)
  · intro k x hx
    exact (hhistory k x).mpr (.inl hx)
  · intro k x hx
    rcases (hhistory k x).mp hx with hold | ⟨rfl, rfl⟩
    · exact .inl hold
    · exact .inr ⟨rfl, rfl, rfl⟩

/-! ### Writes -/

/-- The chronicle with another row of the primary of an epoch. -/
def Chronicle.write (c : Chronicle n) (e q : ℕ) (d : Change) (hbase : c.base e < q)
    (hnext : e < c.top → c.base (e + 1) < q) : Chronicle n where
  toChain := c.toChain.write e q d hbase hnext
  lead := c.lead

variable {hbase : c.base e < q} {hnext : e < c.top → c.base (e + 1) < q}

theorem Chronicle.write_log_of_ne {e' : ℕ} (h : e' ≠ e) :
    (c.write e q d hbase hnext).log e' = c.log e' :=
  Function.update_of_ne h ..

theorem Chronicle.write_log_self
    :
    (c.write e q d hbase hnext).log e = Function.update (c.log e) q (some d) :=
  Function.update_self ..

theorem Chronicle.upTo_write_log (hb : b < q) (e' : ℕ) :
    upTo b ((c.write e q d hbase hnext).log e') = upTo b (c.log e') := by
  by_cases he : e' = e
  · subst he
    rw [Chronicle.write_log_self]
    apply AgreeUpTo.upTo_eq
    intro x hx
    exact Function.update_of_ne (by omega) ..
  · rw [Chronicle.write_log_of_ne he]

theorem Follows.write (h : Follows cjson c s) (now : Int)
    (hd : (s.pub i).primary = i → received cjson d.payload = d.payload) :
    ∃ c', Follows cjson c' (s.write i d now) := by
  rw [LogState.write]
  split
  swap
  · exact ⟨c, h⟩
  rename_i hi
  have hbase : c.base (s.pub i).epoch < (s.journal i).sequence + 1 :=
    Nat.lt_succ_of_le (h.base_le i hi)
  have hnext : (s.pub i).epoch < c.top →
      c.base ((s.pub i).epoch + 1) < (s.journal i).sequence + 1 :=
    fun he => Nat.lt_succ_of_le (h.next_le i hi he)
  -- nobody else leads this epoch
  have hother : ∀ k, k ≠ i → (s.pub k).primary = k → (s.pub k).epoch ≠ (s.pub i).epoch := by
    intro k hk hkp he
    rw [h.primary_eq k, he, ← h.primary_eq i, hi] at hkp
    exact hk hkp.symm
  have hsequence : ∀ p, (s.journal p).sequence ≤
      (Function.update s.journal i ((s.journal i).append d now) p).sequence := by
    intro p
    by_cases hp : p = i
    · subst hp
      rw [Function.update_self]
      exact Nat.le_succ _
    · rw [Function.update_of_ne hp]
  refine ⟨c.write (s.pub i).epoch ((s.journal i).sequence + 1) d hbase hnext, ?_⟩
  constructor
  case published => exact h.published
  case told => exact h.told
  case heard => exact h.heard
  case led => exact h.led
  case primary =>
    intro k hk
    show (Function.update s.journal i ((s.journal i).append d now) k).lookup = _
    by_cases hki : k = i
    · subst hki
      rw [Function.update_self, SyncJournal.lookup_append, h.primary k hk]
      exact Chronicle.write_log_self.symm
    · rw [Function.update_of_ne hki, h.primary k hk]
      exact (Chronicle.write_log_of_ne (hother k hki hk)).symm
  case replica =>
    intro k hk
    have hki : k ≠ i := by
      rintro rfl
      exact hk hi
    show (Function.update s.journal i ((s.journal i).append d now) k).lookup = upTo (s.checkpoint k) _
    rw [Function.update_of_ne hki, h.replica k hk]
    show _ = upTo (s.checkpoint k) (Chain.log _ (s.pub k).epoch)
    by_cases he : (s.pub k).epoch = (s.pub i).epoch
    · exact (Chronicle.upTo_write_log
        (Nat.lt_succ_of_le (h.checkpoint_le i k hi hk he)) _).symm
    · rw [Chronicle.write_log_of_ne he]
  case base_le =>
    intro p hp
    exact le_trans (h.base_le p hp) (hsequence p)
  case next_le =>
    intro p hp he
    exact le_trans (h.next_le p hp he) (hsequence p)
  case checkpoint_le =>
    intro p k hp hk he
    exact le_trans (h.checkpoint_le p k hp hk he) (hsequence p)
  case survives =>
    intro e q x hx
    by_cases he : e = (s.pub i).epoch
    · subst he
      rw [Chronicle.write_log_self] at hx
      by_cases hq : q = (s.journal i).sequence + 1
      · subst hq
        rw [Function.update_self] at hx
        rw [← Option.some.inj hx]
        exact hd hi
      · rw [Function.update_of_ne hq] at hx
        exact h.survives _ q x hx
    · rw [Chronicle.write_log_of_ne he] at hx
      exact h.survives e q x hx

/-! ### Polls -/

def IsNextRows (journal : SyncJournal) : ℕ → List Entry → Prop
  | _, [] => True
  | checkpoint, r :: rest =>
    r ∈ journal.rows ∧ checkpoint < r.seq ∧
      (∀ x ∈ journal.rows, checkpoint < x.seq → r.seq ≤ x.seq) ∧ IsNextRows journal r.seq rest

theorem isNextRows_of_sorted {journal : SyncJournal} {checkpoint : ℕ}
    (hsorted : rows.Pairwise fun a b => a.seq < b.seq)
    (hmem : ∀ x, x ∈ rows ↔ x ∈ journal.rows ∧ checkpoint < x.seq) :
    IsNextRows journal checkpoint rows := by
  induction rows generalizing checkpoint with
  | nil => trivial
  | cons r rest ih =>
    rcases List.pairwise_cons.mp hsorted with ⟨hfirst, hrest⟩
    rcases (hmem r).mp List.mem_cons_self with ⟨hr, hlt⟩
    refine ⟨hr, hlt, ?_, ih hrest ?_⟩
    · intro x hx hxlt
      rcases List.mem_cons.mp ((hmem x).mpr ⟨hx, hxlt⟩) with rfl | hin
      · exact le_rfl
      · exact le_of_lt (hfirst x hin)
    · intro x
      constructor
      · intro hx
        exact ⟨((hmem x).mp (List.mem_cons_of_mem r hx)).1, hfirst x hx⟩
      · rintro ⟨hx, hxlt⟩
        rcases List.mem_cons.mp ((hmem x).mpr ⟨hx, lt_trans hlt hxlt⟩) with rfl | hin
        · exact absurd hxlt (lt_irrefl _)
        · exact hin

theorem IsNextRows.take {journal : SyncJournal} {checkpoint : ℕ}
    (h : IsNextRows journal checkpoint rows) (k : ℕ) :
    IsNextRows journal checkpoint (rows.take k) := by
  induction rows generalizing checkpoint k with
  | nil =>
    rw [List.take_nil]
    trivial
  | cons r rest ih =>
    cases k with
    | zero => trivial
    | succ k => exact ⟨h.1, h.2.1, h.2.2.1, ih h.2.2.2 k⟩

theorem isNextRows_feedRows (journal : SyncJournal) (since : ℕ) (limit : Int) :
    IsNextRows journal since (Feed.feedRows journal since limit) := by
  apply IsNextRows.take
  apply isNextRows_of_sorted (journal.sorted.filter _)
  intro x
  rw [List.mem_filter, decide_eq_true_eq]

theorem Follows.mirror (h : Follows cjson c s) {i p : Fin n} (hi : (s.pub i).primary = p)
    (hp : (s.pub p).primary = p) (hne : p ≠ i) (he : (s.pub p).epoch = (s.pub i).epoch)
    {r : Entry} (hr : r ∈ (s.journal p).rows) (hlt : s.checkpoint i < r.seq)
    (hnext : ∀ x ∈ (s.journal p).rows, s.checkpoint i < x.seq → r.seq ≤ x.seq) (now : Int) :
    Follows cjson c (s.mirror cjson i now r) := by
  have hrep : (s.pub i).primary ≠ i := by
    rw [hi]
    exact hne
  have hrow : c.log (s.pub i).epoch r.seq = some r.change := by
    rw [← he, ← h.primary p hp]
    exact SyncJournal.lookup_eq_some.mpr ⟨r, hr, rfl, rfl⟩
  have hpayload : (mirrored cjson now r).change = r.change := by
    show { r.change with payload := received cjson r.change.payload } = r.change
    rw [h.survives _ _ _ hrow]
  -- nothing is skipped
  have hgap : ∀ q, s.checkpoint i < q → q < r.seq → c.log (s.pub i).epoch q = none := by
    intro q hcp hq
    rw [← he, ← h.primary p hp, Option.eq_none_iff_forall_ne_some]
    intro d hd
    rcases SyncJournal.lookup_eq_some.mp hd with ⟨x, hx, rfl, -⟩
    exact absurd (hnext x hx hcp) (Nat.not_le.mpr hq)
  -- a primary is not `i`
  have hjournal : ∀ k, (s.pub k).primary = k → (s.mirror cjson i now r).journal k = s.journal k := by
    intro k hk
    apply Function.update_of_ne
    rintro rfl
    exact hrep hk
  constructor
  case published => exact h.published
  case told => exact h.told
  case heard => exact h.heard
  case led => exact h.led
  case primary =>
    intro k hk
    rw [hjournal k hk]
    exact h.primary k hk
  case replica =>
    intro k hk
    show (Function.update s.journal i _ k).lookup =
      upTo (Function.update s.checkpoint i r.seq k) (c.log (s.pub k).epoch)
    by_cases hki : k = i
    · subst hki
      rw [Function.update_self, Function.update_self, SyncJournal.lookup_mirrorRow, hpayload,
        h.replica k hk]
      exact update_upTo_next hlt.le hrow hgap
    · rw [Function.update_of_ne hki, Function.update_of_ne hki]
      exact h.replica k hk
  case base_le =>
    intro q hq
    rw [hjournal q hq]
    exact h.base_le q hq
  case next_le =>
    intro q hq hlast
    rw [hjournal q hq]
    exact h.next_le q hq hlast
  case checkpoint_le =>
    intro q k hq hk hqe
    rw [hjournal q hq]
    show Function.update s.checkpoint i r.seq k ≤ _
    by_cases hki : k = i
    · -- the only primary of this epoch is the one that sent the row
      have hsame : q = p := by
        have hqp := h.primary_eq q
        rw [show (s.pub q).primary = q from hq, ← show (s.pub k).epoch = (s.pub q).epoch from hqe,
          hki, ← h.primary_eq i, hi] at hqp
        exact hqp
      rw [hki, Function.update_self, hsame]
      exact (s.journal p).le_sequence r hr
    · rw [Function.update_of_ne hki]
      exact h.checkpoint_le q k hq hk hqe
  case survives => exact h.survives

theorem Follows.mirrorAll (h : Follows cjson c s) {i p : Fin n} (hi : (s.pub i).primary = p)
    (hp : (s.pub p).primary = p) (hne : p ≠ i) (he : (s.pub p).epoch = (s.pub i).epoch)
    (hrows : IsNextRows (s.journal p) (s.checkpoint i) rows) (now : Int) :
    Follows cjson c (rows.foldl (fun s r => s.mirror cjson i now r) s) := by
  induction rows generalizing s with
  | nil => exact h
  | cons r rest ih =>
    rcases hrows with ⟨hr, hlt, hnext, hrest⟩
    have hjournal : (s.mirror cjson i now r).journal p = s.journal p :=
      Function.update_of_ne hne ..
    have hcheckpoint : (s.mirror cjson i now r).checkpoint i = r.seq := Function.update_self ..
    refine ih (h.mirror hi hp hne he hr hlt hnext now) hi hp he ?_
    rw [hjournal, hcheckpoint]
    exact hrest

theorem Follows.poll (h : Follows cjson c s) (i : Fin n) (limit : Int) (applied : ℕ) (now : Int) :
    Follows cjson c (s.poll cjson i limit applied now) := by
  rw [LogState.poll]
  split
  · exact h
  · rename_i hfeed
    rw [not_or, not_or, not_not, not_not] at hfeed
    rcases hfeed with ⟨hne, hp, he⟩
    split
    · exact h
    · rename_i rows next hpage
      have hrows : rows = Feed.feedRows (s.journal (s.pub i).primary) (s.checkpoint i) limit := by
        rw [Feed.handlerFeed] at hpage
        dsimp only at hpage
        split at hpage
        · exact nomatch hpage
        · exact (Feed.Answer.page.inj hpage).1.symm
      -- the replica need not get through the whole page
      apply h.mirrorAll rfl hp hne he
      rw [hrows]
      exact (isNextRows_feedRows _ _ _).take applied

/-! ### Ticks -/

theorem LogState.pub_tick_of_ne (hk : k ≠ t.self) :
    (s.tick cfg t).pub k = s.pub k := by
  rw [LogState.pub, LogState.tick, step_node_of_ne cfg s.cluster (s.reads t) hk, LogState.pub]

theorem LogState.pub_tick_self (cfg : Config n) (t : Tick n) :
    (s.tick cfg t).pub t.self = (tickOutcome cfg s.cluster (s.reads t)).node.pub := by
  rw [LogState.pub, LogState.tick]
  exact congrArg Node.pub (step_node_self cfg s.cluster (s.reads t))

theorem LogState.mem_history_tick :
    x ∈ (s.tick cfg t).cluster.history k ↔ x ∈ s.cluster.history k ∨ k = t.self ∧
      x ∈ (tickOutcome cfg s.cluster (s.reads t)).interim ++
        [(tickOutcome cfg s.cluster (s.reads t)).node.pub] :=
  mem_history_step

theorem LogState.pub_mem_history_tick (cfg : Config n) (t : Tick n) :
    (s.tick cfg t).pub t.self ∈ (s.tick cfg t).cluster.history t.self := by
  rw [LogState.mem_history_tick, LogState.pub_tick_self]
  exact .inr ⟨rfl, List.mem_append_right _ (List.mem_singleton.mpr rfl)⟩

theorem Follows.published_tick (h : Follows cjson c s) (cfg : Config n) (t : Tick n) (k : Fin n) :
    (s.tick cfg t).pub k ∈ (s.tick cfg t).cluster.history k := by
  by_cases hk : k = t.self
  · subst hk
    exact LogState.pub_mem_history_tick cfg t
  · rw [LogState.pub_tick_of_ne hk, LogState.mem_history_tick]
    exact .inl (h.published k)

theorem Follows.tick_same (h : Follows cjson c s)
    (hlog : logTick cfg s t = (s.journal t.self, s.checkpoint t.self))
    (hrole : ∀ x ∈ (tickOutcome cfg s.cluster (s.reads t)).interim ++
      [(tickOutcome cfg s.cluster (s.reads t)).node.pub], SameRole x (s.pub t.self)) :
    Follows cjson c (s.tick cfg t) := by
  refine h.republish ?_ ?_ ?_ ?_ ?_ ?_
  · rw [LogState.tick, hlog]
    exact Function.update_eq_self ..
  · rw [LogState.tick, hlog]
    exact Function.update_eq_self ..
  · intro k
    by_cases hk : k = t.self
    · subst hk
      rw [LogState.pub_tick_self]
      exact hrole _ (List.mem_append_right _ (List.mem_singleton.mpr rfl))
    · rw [LogState.pub_tick_of_ne hk]
      exact ⟨rfl, rfl, rfl⟩
  · exact h.published_tick cfg t
  · intro k x hx
    exact LogState.mem_history_tick.mpr (.inl hx)
  · intro k x hx
    rcases LogState.mem_history_tick.mp hx with hold | ⟨rfl, hnew⟩
    · exact .inl hold
    · exact .inr (hrole x hnew)

/-- What a node keeps when it follows the primary of a newer epoch: the log of that epoch,
as far as its new checkpoint. -/
theorem Follows.lookup_adopted (h : Follows cjson c s) {e : ℕ}
    (hlt : (s.pub i).epoch < e) (htop : e ≤ c.top)
    (hskip : ∀ k, (s.pub i).epoch < k → k < e → s.appliedSeq i ≤ c.base k) :
    upTo (c.base e) (s.journal i).lookup =
      upTo (min (c.base e) (s.appliedSeq i)) (c.log e) := by
  have hagree : AgreeUpTo (min (c.base e) (s.appliedSeq i)) (c.log e)
      (c.log (s.pub i).epoch) := by
    apply c.agree hlt.le htop
    intro k hk hke
    rcases Nat.lt_or_eq_of_le hke with hbefore | rfl
    · exact le_trans (min_le_right _ _) (hskip k hk hbefore)
    · exact min_le_left _ _
  rw [h.applied i, upTo_upTo, hagree.upTo_eq]

theorem LogState.journal_tick_of_ne (hk : k ≠ t.self) : (s.tick cfg t).journal k = s.journal k :=
  Function.update_of_ne hk ..

theorem LogState.checkpoint_tick_of_ne
    (hk : k ≠ t.self) : (s.tick cfg t).checkpoint k = s.checkpoint k :=
  Function.update_of_ne hk ..

theorem LogState.journal_tick_self (cfg : Config n) (t : Tick n) :
    (s.tick cfg t).journal t.self = (logTick cfg s t).1 :=
  Function.update_self ..

theorem LogState.checkpoint_tick_self (cfg : Config n) (t : Tick n) :
    (s.tick cfg t).checkpoint t.self = (logTick cfg s t).2 :=
  Function.update_self ..

theorem logTick_adopt (hdb : t.dbOk = true)
    (hnewest : newest (s.pub t.self).epoch (s.cluster.peers t) = some v) :
    logTick cfg s t =
      if v.status.primary = t.self then (s.journal t.self, s.checkpoint t.self)
      else if v.status.baseSeq < s.appliedSeq t.self then
        ((s.journal t.self).truncateAfter v.status.baseSeq.toNat, v.status.baseSeq.toNat)
      else (s.journal t.self, s.appliedSeq t.self) := by
  rw [logTick, hdb, hnewest]
  rfl

theorem logTick_of_newest_none (hdb : t.dbOk = true)
    (hnewest : newest (s.pub t.self).epoch (s.cluster.peers t) = none) :
    logTick cfg s t =
      if (s.pub t.self).primary ≠ t.self ∧
          (tickOutcome cfg s.cluster (s.reads t)).node.pub.primary = t.self then
        ((s.journal t.self).continueAfter (s.appliedSeq t.self), s.checkpoint t.self)
      else (s.journal t.self, s.checkpoint t.self) := by
  rw [logTick, hdb, hnewest]
  rfl

theorem logTick_of_dbFailed (hdb : t.dbOk = false) :
    logTick cfg s t = (s.journal t.self, s.checkpoint t.self) := by
  rw [logTick, hdb]
  rfl

theorem logTick_of_primary (hdb : t.dbOk = true)
    (hnewest : newest (s.pub t.self).epoch (s.cluster.peers t) = none)
    (hself : (s.pub t.self).primary = t.self) :
    logTick cfg s t = (s.journal t.self, s.checkpoint t.self) := by
  rw [logTick_of_newest_none hdb hnewest, if_neg]
  exact fun hand => hand.1 hself

theorem logTick_of_replica (hdb : t.dbOk = true)
    (hnewest : newest (s.pub t.self).epoch (s.cluster.peers t) = none)
    (hself : (tickOutcome cfg s.cluster (s.reads t)).node.pub.primary ≠ t.self) :
    logTick cfg s t = (s.journal t.self, s.checkpoint t.self) := by
  rw [logTick_of_newest_none hdb hnewest, if_neg]
  exact fun hand => hself hand.2

/-- After an adoption a node has the log of its new primary as far as its checkpoint says,
and nothing past the base. -/
theorem Follows.log_adopted (h : Follows cjson c s) (hdb : t.dbOk = true)
    (hnewest : newest (s.pub t.self).epoch (s.cluster.peers t) = some v)
    (hne : v.status.primary ≠ t.self) (hbase : v.status.baseSeq = c.base v.status.epoch)
    (htop : v.status.epoch ≤ c.top) (hskip : ∀ k, (s.pub t.self).epoch < k → k < v.status.epoch →
      s.appliedSeq t.self ≤ c.base k) :
    (logTick cfg s t).1.lookup = upTo (logTick cfg s t).2 (c.log v.status.epoch) ∧
      (logTick cfg s t).2 ≤ c.base v.status.epoch := by
  have hlookup := h.lookup_adopted (newest_some hnewest).1 htop hskip
  rw [logTick_adopt hdb hnewest, if_neg hne, hbase]
  split
  · -- `journal_truncate_after`
    rename_i hover
    have hover' : c.base v.status.epoch < s.appliedSeq t.self := by exact_mod_cast hover
    rw [min_eq_left hover'.le] at hlookup
    refine ⟨?_, le_rfl⟩
    rw [Int.toNat_natCast, ← hlookup]
    funext q
    exact SyncJournal.lookup_truncateAfter _ _ q
  · -- nothing to drop; the checkpoint is what the node has applied
    rename_i hover
    have hover' : s.appliedSeq t.self ≤ c.base v.status.epoch := by
      rw [not_lt] at hover
      exact_mod_cast hover
    rw [min_eq_right hover'] at hlookup
    refine ⟨?_, hover'⟩
    show (s.journal t.self).lookup = upTo (s.appliedSeq t.self) (c.log v.status.epoch)
    rw [← hlookup, h.applied t.self, upTo_upTo, min_eq_right hover']

/-- The checkpoints of the replicas stay behind their primaries when a node comes to follow
one of these with nothing past its base. -/
theorem Follows.checkpoint_le_adopt (h : Follows cjson c s)
    (hreplica : ((s.tick cfg t).pub t.self).primary ≠ t.self)
    (hbase : (s.tick cfg t).checkpoint t.self ≤ c.base ((s.tick cfg t).pub t.self).epoch)
    {p k : Fin n} (hp : ((s.tick cfg t).pub p).primary = p)
    (hk : ((s.tick cfg t).pub k).primary ≠ k)
    (he : ((s.tick cfg t).pub k).epoch = ((s.tick cfg t).pub p).epoch) :
    (s.tick cfg t).checkpoint k ≤ ((s.tick cfg t).journal p).sequence := by
  have hself : p ≠ t.self := by
    rintro rfl
    exact hreplica hp
  rw [LogState.pub_tick_of_ne hself] at hp he
  rw [LogState.journal_tick_of_ne hself]
  by_cases hkself : k = t.self
  · -- the node has kept nothing past the base of its new primary
    subst hkself
    rw [he] at hbase
    exact le_trans hbase (h.base_le p hp)
  · rw [LogState.pub_tick_of_ne hkself] at hk he
    rw [LogState.checkpoint_tick_of_ne hkself]
    exact h.checkpoint_le p k hp hk he

theorem Follows.led_tick (h : Follows cjson c s)
    (hle : (s.pub t.self).epoch ≤ ((s.tick cfg t).pub t.self).epoch) {e : ℕ} (he : e ≤ c.top) :
    e ≤ ((s.tick cfg t).pub (c.lead e)).epoch := by
  have hled := h.led e he
  by_cases hk : c.lead e = t.self
  · rw [hk] at hled ⊢
    exact le_trans hled hle
  · rw [LogState.pub_tick_of_ne hk]
    exact hled

theorem Follows.adopt (h : Follows cjson c s)
    (hdb : t.dbOk = true) (hnewest : newest (s.pub t.self).epoch (s.cluster.peers t) = some v)
    (hout : tickOutcome cfg s.cluster (s.reads t) =
      ⟨[(s.cluster.node t.self).probed (s.cluster.peers t)],
        adopt v ((s.cluster.node t.self).probed (s.cluster.peers t)) (s.cluster.node t.self).loc⟩)
    (hskip : ∀ i, ∀ x ∈ s.cluster.history i, (s.pub t.self).epoch < x.epoch →
      x.epoch < v.status.epoch → (s.appliedSeq t.self : ℤ) ≤ x.baseSeq) :
    Follows cjson c (s.tick cfg t) := by
  rcases newest_some hnewest with ⟨hlt, j, hj⟩
  rcases h.told j _ (peers_some hj).2 with ⟨htop, hlead, hbase⟩
  -- a node that led this epoch would not be behind it
  have hne : c.lead v.status.epoch ≠ t.self := by
    intro heq
    have hled := h.led _ htop
    rw [heq] at hled
    omega
  have hskip' : ∀ k, (s.pub t.self).epoch < k → k < v.status.epoch →
      s.appliedSeq t.self ≤ c.base k := by
    intro k hk hke
    rcases h.heard k (by omega) with ⟨i, x, hx, rfl⟩
    have hle := hskip i x hx hk hke
    rw [(h.told i x hx).2.2] at hle
    exact_mod_cast hle
  -- the new status, journal and checkpoint of the node
  have hpub : (s.tick cfg t).pub t.self = (Engine.adopt v
      ((s.cluster.node t.self).probed (s.cluster.peers t)) (s.cluster.node t.self).loc).pub := by
    rw [LogState.pub_tick_self, hout]
  have hepoch : ((s.tick cfg t).pub t.self).epoch = v.status.epoch := by
    rw [hpub]
    rfl
  have hprimary : ((s.tick cfg t).pub t.self).primary = c.lead v.status.epoch := by
    rw [hpub]
    exact hlead
  have hlog : ((s.tick cfg t).journal t.self).lookup =
        upTo ((s.tick cfg t).checkpoint t.self) (c.log v.status.epoch) ∧
      (s.tick cfg t).checkpoint t.self ≤ c.base v.status.epoch := by
    rw [LogState.journal_tick_self, LogState.checkpoint_tick_self]
    exact h.log_adopted hdb hnewest (by rw [hlead]; exact hne) hbase htop hskip'
  have hreplica : ((s.tick cfg t).pub t.self).primary ≠ t.self := by
    rw [hprimary]
    exact hne
  constructor
  case published => exact h.published_tick cfg t
  case told =>
    intro k x hx
    rcases LogState.mem_history_tick.mp hx with hold | ⟨rfl, hnew⟩
    · exact h.told k x hold
    · rw [hout] at hnew
      rcases List.mem_cons.mp hnew with rfl | hlast
      · exact h.told t.self (s.pub t.self) (h.published t.self)
      · rw [List.mem_singleton.mp hlast]
        exact ⟨htop, hlead, hbase⟩
  case heard =>
    intro e he
    rcases h.heard e he with ⟨i, x, hx, hxe⟩
    exact ⟨i, x, LogState.mem_history_tick.mpr (.inl hx), hxe⟩
  case led =>
    intro e he
    exact h.led_tick (by rw [hepoch]; exact hlt.le) he
  case primary =>
    intro k hk
    have hself : k ≠ t.self := by
      rintro rfl
      exact hreplica hk
    rw [LogState.pub_tick_of_ne hself] at hk ⊢
    rw [LogState.journal_tick_of_ne hself]
    exact h.primary k hk
  case replica =>
    intro k hk
    by_cases hself : k = t.self
    · subst hself
      rw [hepoch]
      exact hlog.1
    · rw [LogState.pub_tick_of_ne hself] at hk ⊢
      rw [LogState.journal_tick_of_ne hself, LogState.checkpoint_tick_of_ne hself]
      exact h.replica k hk
  case base_le =>
    intro p hp
    have hself : p ≠ t.self := by
      rintro rfl
      exact hreplica hp
    rw [LogState.pub_tick_of_ne hself] at hp ⊢
    rw [LogState.journal_tick_of_ne hself]
    exact h.base_le p hp
  case next_le =>
    intro p hp he
    have hself : p ≠ t.self := by
      rintro rfl
      exact hreplica hp
    rw [LogState.pub_tick_of_ne hself] at hp he ⊢
    rw [LogState.journal_tick_of_ne hself]
    exact h.next_le p hp he
  case checkpoint_le =>
    intro p k hp hk he
    exact h.checkpoint_le_adopt hreplica (by rw [hepoch]; exact hlog.2) hp hk he
  case survives => exact h.survives

def Chronicle.extend (c : Chronicle n) (b : ℕ) (i : Fin n) : Chronicle n where
  toChain := c.toChain.extend b
  lead := Function.update c.lead (c.top + 1) i

section Extend

theorem Chronicle.extend_lead_of_le {e : ℕ} (he : e ≤ c.top) :
    (c.extend b i).lead e = c.lead e :=
  Function.update_of_ne (by omega) ..

theorem Chronicle.extend_base_of_le {e : ℕ} (he : e ≤ c.top) :
    (c.extend b i).base e = c.base e :=
  Function.update_of_ne (by omega) ..

theorem Chronicle.extend_log_of_ne {e : ℕ} (he : e ≠ c.top + 1) :
    (c.extend b i).log e = c.log e :=
  Function.update_of_ne he ..

theorem Chronicle.extend_log_of_le {e : ℕ} (he : e ≤ c.top) :
    (c.extend b i).log e = c.log e :=
  Chronicle.extend_log_of_ne (by omega)

theorem Chronicle.extend_lead_last : (c.extend b i).lead (c.top + 1) = i :=
  Function.update_self ..

theorem Chronicle.extend_base_last : (c.extend b i).base (c.top + 1) = b :=
  Function.update_self ..

theorem Chronicle.extend_log_last : (c.extend b i).log (c.top + 1) = upTo b (c.log c.top) :=
  Function.update_self ..

end Extend

theorem Follows.told_extend (h : Follows cjson c s)
    (hx : x ∈ s.cluster.history i) (b : ℕ) (j : Fin n) :
    x.epoch ≤ (c.extend b j).top ∧ x.primary = (c.extend b j).lead x.epoch ∧
      x.baseSeq = (c.extend b j).base x.epoch := by
  rcases h.told i x hx with ⟨hxe, hxp, hxb⟩
  rw [Chronicle.extend_lead_of_le hxe, Chronicle.extend_base_of_le hxe]
  exact ⟨Nat.le_succ_of_le hxe, hxp, hxb⟩

theorem Follows.survives_extend (h : Follows cjson c s)
    (hd : (c.extend b i).log e q = some d) : received cjson d.payload = d.payload := by
  by_cases he : e = c.top + 1
  · subst he
    rw [Chronicle.extend_log_last, upTo] at hd
    split at hd
    · exact h.survives _ q d hd
    · cases hd
  · rw [Chronicle.extend_log_of_ne he] at hd
    exact h.survives e q d hd

/-- A primary that is left behind has counted past the base of its successor: that is the
checkpoint of one of its replicas. -/
theorem Follows.next_le_promote (h : Follows cjson c s)
    (hrep : (s.pub t.self).primary ≠ t.self) (hlast : (s.pub t.self).epoch = c.top) {p : Fin n}
    (hp : (s.pub p).primary = p) :
    (c.extend (s.appliedSeq t.self) t.self).base ((s.pub p).epoch + 1) ≤
      (s.journal p).sequence := by
  rcases Nat.lt_or_eq_of_le (h.epoch_le p) with hbefore | hsame
  · rw [Chronicle.extend_base_of_le (by omega)]
    exact h.next_le p hp hbefore
  · rw [hsame, Chronicle.extend_base_last, h.appliedSeq_of_replica hrep]
    exact h.checkpoint_le p t.self hp hrep (hlast.trans hsame.symm)

theorem Follows.checkpoint_le_promote (h : Follows cjson c s)
    (hepoch : ((s.tick cfg t).pub t.self).epoch = c.top + 1)
    (hprimary : ((s.tick cfg t).pub t.self).primary = t.self)
    {p k : Fin n} (hp : ((s.tick cfg t).pub p).primary = p)
    (hk : ((s.tick cfg t).pub k).primary ≠ k)
    (he : ((s.tick cfg t).pub k).epoch = ((s.tick cfg t).pub p).epoch) :
    (s.tick cfg t).checkpoint k ≤ ((s.tick cfg t).journal p).sequence := by
  have hkself : k ≠ t.self := by
    rintro rfl
    exact hk hprimary
  rw [LogState.pub_tick_of_ne hkself] at hk he
  rw [LogState.checkpoint_tick_of_ne hkself]
  by_cases hpself : p = t.self
  · -- nobody follows the new primary yet
    subst hpself
    have hkle := h.epoch_le k
    rw [hepoch] at he
    omega
  · rw [LogState.pub_tick_of_ne hpself] at hp he
    rw [LogState.journal_tick_of_ne hpself]
    exact h.checkpoint_le p k hp hk he

theorem Follows.promote (h : Follows cjson c s) {loc : Local}
    {reported : Status n} (hover : TakesOver cfg s t) (hreported : SameRole reported (s.pub t.self))
    (hout : tickOutcome cfg s.cluster (s.reads t) =
      ⟨[(s.cluster.node t.self).probed (s.cluster.peers t), reported],
        promote t.self (s.appliedSeq t.self) reported, loc⟩)
    (honce : ∀ i, ∀ x ∈ s.cluster.history i, x.epoch ≠ (s.pub t.self).epoch + 1) :
    Follows cjson (c.extend (s.appliedSeq t.self) t.self) (s.tick cfg t) := by
  rcases hover with ⟨hdb, hnewest, hrep, hself⟩
  -- nobody has heard of the new epoch, so the node was in the last one
  have hlast : (s.pub t.self).epoch = c.top := by
    by_contra hne
    have hle := h.epoch_le t.self
    rcases h.heard ((s.pub t.self).epoch + 1) (by omega) with ⟨i, x, hx, hxe⟩
    exact honce i x hx hxe
  have hpub : (s.tick cfg t).pub t.self = Engine.promote t.self (s.appliedSeq t.self) reported := by
    rw [LogState.pub_tick_self, hout]
  have hepoch : ((s.tick cfg t).pub t.self).epoch = c.top + 1 := by
    rw [hpub]
    show reported.epoch + 1 = _
    rw [hreported.1, hlast]
  have hprimary : ((s.tick cfg t).pub t.self).primary = t.self := by
    rw [hpub]
    rfl
  have hlog : logTick cfg s t =
      ((s.journal t.self).continueAfter (s.appliedSeq t.self), s.checkpoint t.self) := by
    rw [logTick_of_newest_none hdb hnewest, if_pos ⟨hrep, hself⟩]
  have hsequence : s.appliedSeq t.self ≤ ((s.tick cfg t).journal t.self).sequence := by
    rw [LogState.journal_tick_self, hlog]
    exact le_max_right _ _
  have htop : (c.extend (s.appliedSeq t.self) t.self).top = c.top + 1 := rfl
  constructor
  case published => exact h.published_tick cfg t
  case told =>
    intro k x hx
    rcases LogState.mem_history_tick.mp hx with hold | ⟨rfl, hnew⟩
    · exact h.told_extend hold _ _
    · have hown := h.told_extend (h.published t.self) (s.appliedSeq t.self) t.self
      rw [hout] at hnew
      rcases List.mem_cons.mp hnew with rfl | hnew
      · exact hown
      · rcases List.mem_cons.mp hnew with rfl | hfinal
        · rw [hreported.1, hreported.2.1, hreported.2.2]
          exact hown
        · rw [List.mem_singleton.mp hfinal, ← hpub, hepoch, hprimary, Chronicle.extend_lead_last,
          Chronicle.extend_base_last, hpub]
          exact ⟨le_rfl, rfl, rfl⟩
  case heard =>
    intro e he
    rcases Nat.lt_or_eq_of_le he with hbefore | rfl
    · rcases h.heard e (by omega) with ⟨i, x, hx, hxe⟩
      exact ⟨i, x, LogState.mem_history_tick.mpr (.inl hx), hxe⟩
    · exact ⟨t.self, _, LogState.pub_mem_history_tick cfg t, hepoch⟩
  case led =>
    intro e he
    rcases Nat.lt_or_eq_of_le he with hbefore | rfl
    · rw [Chronicle.extend_lead_of_le (by omega)]
      exact h.led_tick (by omega) (by omega)
    · rw [htop, Chronicle.extend_lead_last, hepoch]
  case primary =>
    intro k hk
    by_cases hkself : k = t.self
    · -- the new log is what the node has
      subst hkself
      rw [LogState.journal_tick_self, hlog, hepoch, Chronicle.extend_log_last, ← hlast]
      exact h.applied t.self
    · rw [LogState.pub_tick_of_ne hkself] at hk ⊢
      rw [LogState.journal_tick_of_ne hkself, Chronicle.extend_log_of_le (h.epoch_le k)]
      exact h.primary k hk
  case replica =>
    intro k hk
    have hkself : k ≠ t.self := by
      rintro rfl
      exact hk hprimary
    rw [LogState.pub_tick_of_ne hkself] at hk ⊢
    rw [LogState.journal_tick_of_ne hkself, LogState.checkpoint_tick_of_ne hkself,
      Chronicle.extend_log_of_le (h.epoch_le k)]
    exact h.replica k hk
  case base_le =>
    intro p hp
    by_cases hpself : p = t.self
    · subst hpself
      rw [hepoch, Chronicle.extend_base_last]
      exact hsequence
    · rw [LogState.pub_tick_of_ne hpself] at hp ⊢
      rw [LogState.journal_tick_of_ne hpself, Chronicle.extend_base_of_le (h.epoch_le p)]
      exact h.base_le p hp
  case next_le =>
    intro p hp he
    by_cases hpself : p = t.self
    · subst hpself
      rw [hepoch, htop] at he
      exact absurd he (lt_irrefl _)
    · rw [LogState.pub_tick_of_ne hpself] at hp ⊢
      rw [LogState.journal_tick_of_ne hpself]
      exact h.next_le_promote hrep hlast hp
  case checkpoint_le =>
    intro p k hp hk he
    exact h.checkpoint_le_promote hepoch hprimary hp hk he
  case survives => exact fun e q d => h.survives_extend

theorem Follows.tick (h : Follows cjson c s)
    (hk : KeepsOne cfg cjson s (.tick t)) : ∃ c', Follows cjson c' (s.tick cfg t) := by
  have hcases := clusterTick_cases cfg (s.cluster.peers t) (s.reads t) (s.cluster.node t.self)
  have hout : tickOutcome cfg s.cluster (s.reads t) =
      clusterTick cfg (s.cluster.peers t) (s.reads t) (s.cluster.node t.self) := rfl
  generalize clusterTick cfg (s.cluster.peers t) (s.reads t) (s.cluster.node t.self) = out
    at hcases hout
  cases hcases with
  | dbFailed hdb =>
    refine ⟨c, h.tick_same (logTick_of_dbFailed hdb) ?_⟩
    rw [hout]
    intro x hx
    rw [List.mem_singleton.mp hx]
    exact ⟨rfl, rfl, rfl⟩
  | adopted v hdb hnewest => exact ⟨c, h.adopt hdb hnewest hout (hk.2 hdb v hnewest)⟩
  | primary hdb hnewest hself =>
    refine ⟨c, h.tick_same (logTick_of_primary hdb hnewest hself) ?_⟩
    rw [hout]
    intro x hx
    rcases List.mem_cons.mp hx with rfl | hlast
    · exact ⟨rfl, rfl, rfl⟩
    · rw [List.mem_singleton.mp hlast]
      exact ⟨rfl, rfl, rfl⟩
  | replica loc reported hdb hnewest hself hloc hreported hnot =>
    have hsame : SameRole reported (s.pub t.self) := by
      rw [hreported]
      exact ⟨rfl, rfl, rfl⟩
    refine ⟨c, h.tick_same (logTick_of_replica hdb hnewest ?_) ?_⟩
    · rw [hout]
      exact fun heq => hself (hsame.2.1.symm.trans heq)
    · rw [hout]
      intro x hx
      rcases List.mem_cons.mp hx with rfl | hlast
      · exact ⟨rfl, rfl, rfl⟩
      · rw [List.mem_singleton.mp hlast]
        exact hsame
  | promoted loc reported hdb hnewest hself hloc hreported hwon =>
    have hsame : SameRole reported (s.pub t.self) := by
      rw [hreported]
      exact ⟨rfl, rfl, rfl⟩
    have hover : TakesOver cfg s t := ⟨hdb, hnewest, hself, by rw [hout]; rfl⟩
    exact ⟨_, h.promote hover hsame hout (hk.1 hover)⟩

theorem Follows.step (h : Follows cjson c s) {e : LogEvent n}
    (hk : KeepsOne cfg cjson s e) : ∃ c', Follows cjson c' (logStep cfg cjson s e) := by
  cases e with
  | tick t => exact h.tick hk
  | write i change now => exact h.write now hk
  | poll i limit applied now => exact ⟨c, h.poll i limit applied now⟩
  | restart i => exact ⟨c, h.restart i⟩

end Follows

def Chronicle.start (cfg : Config n) (journal : SyncJournal) : Chronicle n where
  top := 0
  base := fun _ => 0
  log := fun _ => journal.lookup
  linked := fun e he => absurd he (Nat.not_lt_zero e)
  lead := fun _ => cfg.first

theorem follows_start {J : Type*} {cjson : CJson J} (cfg : Config n) (journal : SyncJournal)
    (hjournal : ∀ r ∈ journal.rows, received cjson r.change.payload = r.change.payload) :
    Follows cjson (Chronicle.start cfg journal) (logStart cfg journal) where
  published := fun i => List.mem_singleton.mpr rfl
  told := by
    intro i x hx
    rw [List.mem_singleton.mp hx]
    exact ⟨le_rfl, rfl, rfl⟩
  heard := by
    intro e he
    exact ⟨cfg.first, _, List.mem_singleton.mpr rfl, (Nat.le_zero.mp he).symm⟩
  led := fun e he => he
  primary := by
    intro i hi
    show (if i = cfg.first then journal else .empty).lookup = journal.lookup
    rw [if_pos (show cfg.first = i from hi).symm]
  replica := by
    intro i hi
    show (if i = cfg.first then journal else .empty).lookup = upTo 0 journal.lookup
    rw [if_neg (fun h => hi (show cfg.first = i from h.symm))]
    funext q
    rw [upTo]
    split
    · rename_i hq
      -- a seq is positive
      have hnone : journal.lookup q = none := by
        rw [Option.eq_none_iff_forall_ne_some]
        intro d hd
        rcases SyncJournal.lookup_eq_some.mp hd with ⟨r, -, hseq, -⟩
        have hpos := r.pos
        omega
      rw [hnone]
      rfl
    · rfl
  base_le := fun _ _ => Nat.zero_le _
  next_le := fun _ _ he => absurd he (Nat.not_lt_zero _)
  checkpoint_le := fun _ _ _ _ _ => Nat.zero_le _
  survives := by
    intro e q d hd
    rcases SyncJournal.lookup_eq_some.mp hd with ⟨r, hr, -, rfl⟩
    exact hjournal r hr

/-- Probes that got the listed statuses of the listed peers, each with how far the peer's
log reached. -/
def probes (got : List (Fin n × ℕ × ℤ)) (i : Fin n) : Option Probe :=
  (got.find? fun g => g.1 = i).map fun g => ⟨g.2.1, g.2.2, 10⟩

def edit (payload : String) : Change := ⟨bytes "post", 7, bytes "upsert", bytes payload⟩

/-- Five sites in the order of their priority. -/
def quintet : Config 5 := ⟨false, 3, by decide, shortest⟩

/-- Node 0 writes a row that nobody copies and is cut off. Node 1 takes over and writes two
rows, node 2 copies them and takes over when node 1 falls silent. Then node 0 is back. -/
def twoTakeovers : List (LogEvent 5) :=
  [.tick ⟨0, 1000, pos_1000, true, 0, probes [(1, 0, 0), (2, 0, 0), (3, 0, 0), (4, 0, 0)]⟩,
    .write 0 (edit "\x7b\x22title\x22:\x22a\x22\x7d") 0,
    -- the others miss node 0 and agree on node 1
    .tick ⟨1, 1000, pos_1000, true, 0, probes [(2, 0, 0), (3, 0, 0), (4, 0, 0)]⟩,
    .tick ⟨2, 1000, pos_1000, true, 0, probes [(1, 2, 0), (3, 0, 0), (4, 0, 0)]⟩,
    .tick ⟨3, 1000, pos_1000, true, 0, probes [(1, 2, 0), (2, 2, 0), (4, 0, 0)]⟩,
    .tick ⟨2, 4000, pos_4000, true, 0, probes [(1, 2, 0), (3, 2, 0), (4, 0, 0)]⟩,
    .tick ⟨3, 4000, pos_4000, true, 0, probes [(1, 2, 0), (2, 4, 0), (4, 0, 0)]⟩,
    .tick ⟨1, 4000, pos_4000, true, 0, probes [(2, 4, 0), (3, 4, 0), (4, 0, 0)]⟩,
    .write 1 (edit "\x7b\x22title\x22:\x22b\x22\x7d") 0,
    .write 1 (edit "\x7b\x22title\x22:\x22c\x22\x7d") 0,
    -- nodes 2, 3 and 4 follow node 1, and node 2 copies its rows
    .tick ⟨2, 5000, pos_5000, true, 0, probes [(1, 5, 2), (3, 4, 0), (4, 0, 0)]⟩,
    .tick ⟨3, 5000, pos_5000, true, 0, probes [(1, 5, 2), (2, 6, 0), (4, 0, 0)]⟩,
    .tick ⟨4, 5000, pos_5000, true, 0, probes [(1, 5, 2), (2, 6, 0), (3, 6, 0)]⟩,
    .poll 2 500 2 0,
    -- they miss node 1 and agree on node 2
    .tick ⟨2, 6000, pos_6000, true, 0, probes [(3, 6, 0), (4, 2, 0)]⟩,
    .tick ⟨3, 6000, pos_6000, true, 0, probes [(2, 8, 2), (4, 2, 0)]⟩,
    .tick ⟨4, 6000, pos_6000, true, 0, probes [(2, 8, 2), (3, 8, 0)]⟩,
    .tick ⟨3, 9000, pos_9000, true, 0, probes [(2, 8, 2), (4, 4, 0)]⟩,
    .tick ⟨4, 9000, pos_9000, true, 0, probes [(2, 8, 2), (3, 10, 0)]⟩,
    .tick ⟨2, 9000, pos_9000, true, 0, probes [(3, 10, 0), (4, 6, 0)]⟩,
    -- node 0 follows node 2
    .tick ⟨0, 10000, by decide, true, 0, probes [(2, 11, 2)]⟩,
    .poll 0 500 1 0]

end FlyBoard.Engine

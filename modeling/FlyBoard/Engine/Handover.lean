import FlyBoard.Engine.Fencing
import FlyBoard.Engine.ReplicatedLog

/-!
# Writes during a planned handover (`flywire_write_fenced`, `cluster_tick`)

A primary that hands its role back first fences itself, so that the journal the target has
caught up with is the whole journal. But a write looks at the fence, commits its journal row
and is acknowledged in three steps, and a worker can stand between any two of them when the
supervisor's tick raises the fence. This module asks when no acknowledged write is lost.

The base that a target takes over with and the epoch that a site was in when it
acknowledged a write are kept as histories.
-/

namespace FlyBoard.Engine

open Sync Wire

variable {n : ℕ}

/-- Where a request stands at the site that serves it: past the fence, or past the commit of
its journal row with the epoch of the site and the seq of the row. -/
inductive Phase (n : ℕ) where
  | idle
  | checked (site : Fin n)
  | committed (site : Fin n) (epoch seq : ℕ)
deriving DecidableEq

/-- A write that a site acknowledged, and the epoch the site was in. -/
structure Ack (n : ℕ) where
  site : Fin n
  epoch : ℕ
  seq : ℕ
deriving DecidableEq

/-- A role that was handed over: by whom, in which epoch, and the base of the new one. -/
structure HandedOver (n : ℕ) where
  site : Fin n
  epoch : ℕ
  base : ℕ
deriving DecidableEq

/-- The cluster with its logs, the requests `ι`, and what has come of them. -/
structure WriteState (n : ℕ) (ι : Type*) where
  log : LogState n
  writer : ι → Phase n
  acked : List (Ack n)
  handovers : List (HandedOver n)

inductive WriteEvent (n : ℕ) (ι : Type*) where
  | check (w : ι) (i : Fin n)
  | commit (w : ι) (change : Change) (now : Int)
  | ack (w : ι)
  | tick (t : Tick n)
  | poll (i : Fin n) (limit : Int) (applied : ℕ) (now : Int)

section Steps

variable {ι : Type*} [DecidableEq ι] {J : Type*} (cfg : Config n) (cjson : CJson J)
  (s : WriteState n ι)

/-- The site takes the write itself: a replica forwards it, a fenced primary refuses it. -/
def takesWrite (st : Status n) (i : Fin n) : Bool := st.primary == i && !st.fenced

def WriteState.check (w : ι) (i : Fin n) : WriteState n ι :=
  if s.writer w = .idle ∧ takesWrite (s.log.pub i) i then
    { s with writer := Function.update s.writer w (.checked i) }
  else s

/-- The journal row of a request, whatever has happened since it was taken. -/
def WriteState.commit (w : ι) (change : Change) (now : Int) : WriteState n ι :=
  match s.writer w with
  | .checked i =>
    let journal := s.log.journal i
    { s with
      log := { s.log with
        journal := Function.update s.log.journal i (journal.append change now) }
      writer := Function.update s.writer w
        (.committed i (s.log.pub i).epoch (journal.sequence + 1)) }
  | _ => s

def WriteState.ack (w : ι) : WriteState n ι :=
  match s.writer w with
  | .committed i _ seq =>
    { s with
      writer := Function.update s.writer w .idle
      acked := ⟨i, (s.log.pub i).epoch, seq⟩ :: s.acked }
  | _ => s

/-- `cluster_tick`; a handover that it accepts goes into the history. -/
def WriteState.tick (t : Tick n) : WriteState n ι :=
  { s with
    log := s.log.tick cfg t
    handovers :=
      if ByHandover s.log.cluster (s.log.reads t) then
        ⟨(s.log.pub t.self).primary, (s.log.pub t.self).epoch, s.log.appliedSeq t.self⟩ ::
          s.handovers
      else s.handovers }

def writeStep : WriteEvent n ι → WriteState n ι
  | .check w i => s.check w i
  | .commit w change now => s.commit w change now
  | .ack w => s.ack w
  | .tick t => s.tick cfg t
  | .poll i limit applied now => { s with log := s.log.poll cjson i limit applied now }

end Steps

def writeStart (ι : Type*) (cfg : Config n) (journal : SyncJournal) : WriteState n ι where
  log := logStart cfg journal
  writer := fun _ => .idle
  acked := []
  handovers := []

/-- What a primary acknowledged before it followed the node it handed over to is in front of
that node's base. -/
def LosesNothing {ι : Type*} (s : WriteState n ι) : Prop :=
  ∀ h ∈ s.handovers, ∀ a ∈ s.acked, a.site = h.site → a.epoch = h.epoch → a.seq ≤ h.base

instance {ι : Type*} (s : WriteState n ι) : Decidable (LosesNothing s) :=
  inferInstanceAs (Decidable (∀ _ ∈ _, _))

/-! ## Orderly handovers -/

section Orderly

variable {ι : Type*} (cfg : Config n) (s : WriteState n ι)

/-- The target accepts a handover that is still pending, of a journal that has not grown,
while no request stands between the fence and its commit. -/
def AcceptsWhole (t : Tick n) : Prop :=
  let p := (s.log.pub t.self).primary
  (s.log.pub p).epoch = (s.log.pub t.self).epoch ∧ (s.log.pub p).primary = p ∧
    (s.log.pub p).handoverTo = some t.self ∧
    (s.log.journal p).maxSeq ≤ s.log.appliedSeq t.self ∧ ∀ w, s.writer w ≠ .checked p

/-- The tick of a primary keeps the handover that it has pending, or follows a newer epoch. -/
def KeepsPending (t : Tick n) : Prop :=
  newest (s.log.pub t.self).epoch (s.log.cluster.peers t) = none →
    ∀ target ∈ (s.log.pub t.self).handoverTo,
      keepsHandover cfg (s.log.cluster.peers t) (s.log.pub t.self).epoch t.now
        (s.log.cluster.node t.self).loc.handoverSince target = true

def SameEpoch (log : LogState n) : Phase n → Prop
  | .committed i epoch _ => (log.pub i).epoch = epoch
  | _ => True

/-- A step that leaves the fence of a handover closed: handovers are accepted whole, a
primary whose role has been taken over does not open again before it follows the new one,
and requests are answered in the epoch they were committed in. -/
def Orderly : WriteEvent n ι → Prop
  | .tick t =>
    (ByHandover s.log.cluster (s.log.reads t) → AcceptsWhole s t) ∧
    ((∃ h ∈ s.handovers, h.site = t.self ∧ h.epoch = (s.log.pub t.self).epoch) →
      t.dbOk = true → KeepsPending cfg s t)
  | .ack w => SameEpoch s.log (s.writer w)
  | .check .. | .commit .. | .poll .. => True

instance [Fintype ι] (t : Tick n) : Decidable (AcceptsWhole s t) :=
  inferInstanceAs (Decidable (_ ∧ _))

instance (t : Tick n) : Decidable (KeepsPending cfg s t) :=
  inferInstanceAs (Decidable (_ → _))

instance (log : LogState n) : ∀ phase, Decidable (SameEpoch log phase)
  | .idle => instDecidableTrue
  | .checked _ => instDecidableTrue
  | .committed .. => inferInstanceAs (Decidable (_ = _))

instance [Fintype ι] : ∀ e, Decidable (Orderly cfg s e)
  | .tick _ => inferInstanceAs (Decidable (_ ∧ _))
  | .ack w => inferInstanceAs (Decidable (SameEpoch s.log (s.writer w)))
  | .check .. => instDecidableTrue
  | .commit .. => instDecidableTrue
  | .poll .. => instDecidableTrue

end Orderly

/-! ## What a tick does to its node -/

section Tick

variable {cfg : Config n} {s : LogState n} {t : Tick n}

/-- Every way a tick can leave the role of its node. -/
inductive RoleCases (cfg : Config n) (s : LogState n) (t : Tick n) : Prop where
  | kept (epoch : ((s.tick cfg t).pub t.self).epoch = (s.pub t.self).epoch)
      (primary : ((s.tick cfg t).pub t.self).primary = (s.pub t.self).primary)
      (handoverTo : ((s.tick cfg t).pub t.self).handoverTo = (s.pub t.self).handoverTo)
      (fenced : ((s.tick cfg t).pub t.self).fenced = (s.pub t.self).fenced)
      (journal : (s.tick cfg t).journal t.self = s.journal t.self)
  | primary (dbOk : t.dbOk = true)
      (newest : newest (s.pub t.self).epoch (s.cluster.peers t) = none)
      (pub : (s.tick cfg t).pub t.self = (primaryTick cfg (s.cluster.peers t) (s.reads t)
        ((s.cluster.node t.self).probed (s.cluster.peers t)) (s.cluster.node t.self).loc).pub)
      (journal : (s.tick cfg t).journal t.self = s.journal t.self)
  | moved (epoch : (s.pub t.self).epoch < ((s.tick cfg t).pub t.self).epoch)
      (handoverTo : ((s.tick cfg t).pub t.self).handoverTo = none)

theorem roleCases (cfg : Config n) (s : LogState n) (t : Tick n) : RoleCases cfg s t := by
  have hcases := clusterTick_cases cfg (s.cluster.peers t) (s.reads t) (s.cluster.node t.self)
  have hpub := LogState.pub_tick_self (s := s) cfg t
  have hjournal := LogState.journal_tick_self (s := s) cfg t
  have hout : tickOutcome cfg s.cluster (s.reads t) =
      clusterTick cfg (s.cluster.peers t) (s.reads t) (s.cluster.node t.self) := rfl
  generalize clusterTick cfg (s.cluster.peers t) (s.reads t) (s.cluster.node t.self) = out
    at hcases hout
  rw [hout] at hpub
  cases hcases with
  | dbFailed hdb =>
    rw [logTick_of_dbFailed (show t.dbOk = false from hdb)] at hjournal
    refine .kept ?_ ?_ ?_ ?_ hjournal
    all_goals
      rw [hpub]
      rfl
  | adopted v hdb hnewest =>
    -- a view that is adopted is of a newer epoch
    refine .moved ?_ ?_
    all_goals rw [hpub]
    · exact (newest_some hnewest).1
    · rfl
  | primary hdb hnewest hself =>
    rw [logTick_of_primary (show t.dbOk = true from hdb) hnewest hself] at hjournal
    exact .primary hdb hnewest hpub hjournal
  | replica loc reported hdb hnewest hself hloc hreported hnot =>
    have hrole : reported.primary = (s.pub t.self).primary := by
      rw [hreported]
      rfl
    have hstays : (tickOutcome cfg s.cluster (s.reads t)).node.pub.primary ≠ t.self := by
      rw [hout]
      exact fun heq => hself (hrole.symm.trans heq)
    rw [logTick_of_replica (show t.dbOk = true from hdb) hnewest hstays] at hjournal
    refine .kept ?_ ?_ ?_ ?_ hjournal
    all_goals
      rw [hpub, hreported]
      rfl
  | promoted loc reported hdb hnewest hself hloc hreported hwon =>
    refine .moved ?_ ?_
    all_goals rw [hpub]
    · show (s.pub t.self).epoch < reported.epoch + 1
      rw [hreported]
      exact Nat.lt_succ_self _
    · rfl

theorem primaryTick_handoverTo {peers : Peers n} {st : Status n} {loc : Local} {target : Fin n}
    (h : st.handoverTo = some target)
    (hkeeps : keepsHandover cfg peers st.epoch t.now loc.handoverSince target = true) :
    (primaryTick cfg peers t st loc).pub.handoverTo = some target := by
  show (primaryHandover cfg peers t st (primaryLocal cfg peers t.now loc)).1 = some target
  rw [primaryHandover, h]
  dsimp only
  rw [primaryLocal_handoverSince, if_pos hkeeps]

end Tick

/-! ## Rows that stay -/

section Advances

variable {log log' : LogState n}

/-- A site stays in its epoch, and in its role, or goes on to a newer one; while it is the
primary its journal does not shrink. -/
def Advances (log log' : LogState n) : Prop :=
  ∀ k, (log.pub k).epoch < (log'.pub k).epoch ∨
    (log'.pub k).epoch = (log.pub k).epoch ∧ (log'.pub k).primary = (log.pub k).primary ∧
      ((log.pub k).primary = k → (log.journal k).maxSeq ≤ (log'.journal k).maxSeq)

def Recorded (log : LogState n) (i : Fin n) (epoch seq : ℕ) : Prop :=
  epoch ≤ (log.pub i).epoch ∧
    ((log.pub i).epoch = epoch → (log.pub i).primary = i → seq ≤ (log.journal i).maxSeq)

theorem Recorded.advances {i : Fin n} {epoch seq : ℕ} (h : Recorded log i epoch seq)
    (hadv : Advances log log') : Recorded log' i epoch seq := by
  rcases h with ⟨hle, hrow⟩
  rcases hadv i with hmoved | ⟨hepoch, hprimary, hgrows⟩
  · -- the site has left the epoch of the row
    constructor
    · omega
    · intro he
      omega
  · constructor
    · rw [hepoch]
      exact hle
    · intro he hp
      rw [hepoch] at he
      rw [hprimary] at hp
      exact le_trans (hrow he hp) (hgrows hp)

theorem advances_tick (cfg : Config n) (log : LogState n) (t : Tick n) :
    Advances log (log.tick cfg t) := by
  intro k
  by_cases hk : k = t.self
  · subst hk
    cases roleCases cfg log t with
    | kept hepoch hprimary _ _ hjournal =>
      refine .inr ⟨hepoch, hprimary, ?_⟩
      rw [hjournal]
      exact fun _ => le_rfl
    | primary _ _ hpub hjournal =>
      rw [hpub, hjournal]
      exact .inr ⟨rfl, rfl, fun _ => le_rfl⟩
    | moved hepoch _ => exact .inl hepoch
  · rw [LogState.pub_tick_of_ne hk, LogState.journal_tick_of_ne hk]
    exact .inr ⟨rfl, rfl, fun _ => le_rfl⟩

variable {J : Type*} {cjson : CJson J}

theorem pub_mirrorAll (i : Fin n) (now : Int) (rows : List Entry) (log : LogState n) (k : Fin n) :
    (rows.foldl (fun s r => s.mirror cjson i now r) log).pub k = log.pub k := by
  induction rows generalizing log with
  | nil => rfl
  | cons r rest ih => exact ih (log.mirror cjson i now r)

theorem journal_mirrorAll_of_ne {i k : Fin n} (hk : k ≠ i) (now : Int) (rows : List Entry)
    (log : LogState n) :
    (rows.foldl (fun s r => s.mirror cjson i now r) log).journal k = log.journal k := by
  induction rows generalizing log with
  | nil => rfl
  | cons r rest ih => exact (ih (log.mirror cjson i now r)).trans (Function.update_of_ne hk ..)

theorem poll_frame (cjson : CJson J) (log : LogState n) (i : Fin n) (limit : Int) (applied : ℕ)
    (now : Int) (k : Fin n) :
    (log.poll cjson i limit applied now).pub k = log.pub k ∧
      ((log.pub k).primary = k →
        (log.poll cjson i limit applied now).journal k = log.journal k) := by
  rw [LogState.poll]
  split
  · exact ⟨rfl, fun _ => rfl⟩
  · rename_i hfeed
    rw [not_or] at hfeed
    split
    · exact ⟨rfl, fun _ => rfl⟩
    · constructor
      · exact pub_mirrorAll i now _ log k
      · intro hk
        -- a node that polls is not a primary
        have hne : k ≠ i := by
          rintro rfl
          exact hfeed.1 hk
        exact journal_mirrorAll_of_ne hne now _ log

end Advances

/-! ## Nothing is lost -/

section Guarded

variable {ι : Type*} {s : WriteState n ι} {J : Type*} {cfg : Config n} {t : Tick n}

/-- While a site is in the epoch whose role it handed over, it is fenced, no request is on
its way into the journal, and the journal ends before the new base. -/
def Closed (s : WriteState n ι) (h : HandedOver n) : Prop :=
  h.epoch ≤ (s.log.pub h.site).epoch ∧
    ((s.log.pub h.site).epoch = h.epoch →
      (s.log.pub h.site).primary = h.site ∧ (s.log.pub h.site).handoverTo.isSome ∧
        (s.log.journal h.site).maxSeq ≤ h.base ∧ ∀ w, s.writer w ≠ .checked h.site)

structure Guarded (s : WriteState n ι) : Prop where
  fenced : ∀ i, (s.log.pub i).primary = i → (s.log.pub i).handoverTo.isSome →
    (s.log.pub i).fenced = true
  closed : ∀ h ∈ s.handovers, Closed s h
  committed : ∀ w i epoch seq, s.writer w = .committed i epoch seq → Recorded s.log i epoch seq
  acked : ∀ a ∈ s.acked, Recorded s.log a.site a.epoch a.seq
  losesNothing : LosesNothing s

variable {cjson : CJson J}

theorem Guarded.poll (h : Guarded s) (i : Fin n) (limit : Int) (applied : ℕ) (now : Int) :
    Guarded { s with log := s.log.poll cjson i limit applied now } := by
  have hpub := fun k => (poll_frame cjson s.log i limit applied now k).1
  have hjournal := fun k => (poll_frame cjson s.log i limit applied now k).2
  have hadv : Advances s.log (s.log.poll cjson i limit applied now) := by
    intro k
    rw [hpub]
    refine .inr ⟨rfl, rfl, ?_⟩
    intro hk
    rw [hjournal k hk]
  constructor
  case fenced =>
    intro k
    dsimp only
    rw [hpub]
    exact h.fenced k
  case closed =>
    intro o ho
    rw [Closed]
    dsimp only
    rw [hpub]
    refine ⟨(h.closed o ho).1, ?_⟩
    intro he
    rcases (h.closed o ho).2 he with ⟨hp, hpending, hbase, hnone⟩
    rw [hjournal _ hp]
    exact ⟨hp, hpending, hbase, hnone⟩
  case committed =>
    intro w k epoch seq hw
    exact (h.committed w k epoch seq hw).advances hadv
  case acked =>
    intro a ha
    exact (h.acked a ha).advances hadv
  case losesNothing => exact h.losesNothing

theorem Guarded.fenced_tick (h : Guarded s) (cfg : Config n) (t : Tick n) (i : Fin n)
    (hi : ((s.log.tick cfg t).pub i).primary = i)
    (hpending : ((s.log.tick cfg t).pub i).handoverTo.isSome) :
    ((s.log.tick cfg t).pub i).fenced = true := by
  by_cases hself : i = t.self
  · subst hself
    cases roleCases cfg s.log t with
    | kept _ hprimary hhandover hfenced _ =>
      rw [hprimary] at hi
      rw [hhandover] at hpending
      rw [hfenced]
      exact h.fenced _ hi hpending
    | primary _ _ hpub _ =>
      -- the fence is stored with the handover
      rw [hpub] at hpending ⊢
      rw [primaryTick_fenced, Bool.or_eq_true]
      exact .inr hpending
    | moved _ hnone =>
      rw [hnone] at hpending
      exact absurd hpending (by simp)
  · rw [LogState.pub_tick_of_ne hself] at hi hpending ⊢
    exact h.fenced i hi hpending

theorem Guarded.closed_tick (h : Guarded s) {o : HandedOver n} (ho : o ∈ s.handovers)
    (hkeeps : (∃ h ∈ s.handovers, h.site = t.self ∧ h.epoch = (s.log.pub t.self).epoch) →
      t.dbOk = true → KeepsPending cfg s t) :
    Closed (s.tick cfg t) o := by
  rcases h.closed o ho with ⟨hle, hclosed⟩
  show _ ≤ ((s.log.tick cfg t).pub o.site).epoch ∧
    (((s.log.tick cfg t).pub o.site).epoch = o.epoch →
      ((s.log.tick cfg t).pub o.site).primary = o.site ∧
        ((s.log.tick cfg t).pub o.site).handoverTo.isSome ∧
        ((s.log.tick cfg t).journal o.site).maxSeq ≤ o.base ∧ ∀ w, s.writer w ≠ .checked o.site)
  by_cases hself : o.site = t.self
  · rw [hself] at hle hclosed ⊢
    cases roleCases cfg s.log t with
    | kept hepoch hprimary hhandover _ hjournal =>
      rw [hepoch, hprimary, hhandover, hjournal]
      exact ⟨hle, hclosed⟩
    | primary hdb hnewest hpub hjournal =>
      refine ⟨by rw [hpub]; exact hle, ?_⟩
      intro he
      have he' : (s.log.pub t.self).epoch = o.epoch := by
        rw [hpub] at he
        exact he
      rcases hclosed he' with ⟨hp, hpending, hbase, hnone⟩
      -- the primary does not take its offer back
      rcases Option.isSome_iff_exists.mp hpending with ⟨target, htarget⟩
      have hkept := hkeeps ⟨o, ho, hself, he'.symm⟩ hdb hnewest target htarget
      rw [hjournal, hpub]
      refine ⟨hp, ?_, hbase, hnone⟩
      exact Option.isSome_iff_exists.mpr ⟨target, primaryTick_handoverTo htarget hkept⟩
    | moved hepoch _ =>
      -- it follows a newer epoch, and is done with this one
      constructor
      · omega
      · intro he
        omega
  · rw [LogState.pub_tick_of_ne hself, LogState.journal_tick_of_ne hself]
    exact ⟨hle, hclosed⟩

theorem closed_accepted
    (hover : ByHandover s.log.cluster (s.log.reads t)) (hwhole : AcceptsWhole s t) :
    Closed (s.tick cfg t)
      ⟨(s.log.pub t.self).primary, (s.log.pub t.self).epoch, s.log.appliedSeq t.self⟩ := by
  rcases hwhole with ⟨hepoch, hprimary, hpending, hbase, hnone⟩
  -- the tick is that of another node
  have hne : (s.log.pub t.self).primary ≠ t.self := hover.1.2.2
  show _ ≤ ((s.log.tick cfg t).pub _).epoch ∧ (((s.log.tick cfg t).pub _).epoch = _ →
    ((s.log.tick cfg t).pub _).primary = _ ∧ ((s.log.tick cfg t).pub _).handoverTo.isSome ∧
      ((s.log.tick cfg t).journal _).maxSeq ≤ _ ∧ ∀ w, s.writer w ≠ .checked _)
  rw [LogState.pub_tick_of_ne hne, LogState.journal_tick_of_ne hne]
  refine ⟨hepoch.ge, ?_⟩
  intro _
  exact ⟨hprimary, by rw [hpending]; rfl, hbase, hnone⟩

theorem Guarded.tick (h : Guarded s) (hok : Orderly cfg s (.tick t)) : Guarded (s.tick cfg t) := by
  rcases hok with ⟨haccepts, hkeeps⟩
  have hadv := advances_tick cfg s.log t
  -- a new entry of the history is a handover that was accepted whole
  have hnew : ∀ o ∈ (s.tick cfg t).handovers, o ∈ s.handovers ∨
      ByHandover s.log.cluster (s.log.reads t) ∧
        o = ⟨(s.log.pub t.self).primary, (s.log.pub t.self).epoch, s.log.appliedSeq t.self⟩ := by
    intro o ho
    by_cases hover : ByHandover s.log.cluster (s.log.reads t)
    · rw [WriteState.tick, if_pos hover] at ho
      rcases List.mem_cons.mp ho with hfirst | hold
      · exact .inr ⟨hover, hfirst⟩
      · exact .inl hold
    · rw [WriteState.tick, if_neg hover] at ho
      exact .inl ho
  constructor
  case fenced => exact h.fenced_tick cfg t
  case closed =>
    intro o ho
    rcases hnew o ho with hold | ⟨hover, rfl⟩
    · exact h.closed_tick hold hkeeps
    · exact closed_accepted hover (haccepts hover)
  case committed =>
    intro w k epoch seq hw
    exact (h.committed w k epoch seq hw).advances hadv
  case acked =>
    intro a ha
    exact (h.acked a ha).advances hadv
  case losesNothing =>
    intro o ho a ha hsite he
    rcases hnew o ho with hold | ⟨hover, rfl⟩
    · exact h.losesNothing o hold a ha hsite he
    · -- what was acknowledged is in the journal, and the target has all of it
      rcases haccepts hover with ⟨hepoch, hprimary, -, hbase, -⟩
      have hrow := h.acked a ha
      rw [show a.site = (s.log.pub t.self).primary from hsite,
        show a.epoch = (s.log.pub t.self).epoch from he] at hrow
      exact le_trans (hrow.2 hepoch hprimary) hbase

variable [DecidableEq ι]

theorem Guarded.check (h : Guarded s) (w : ι) (i : Fin n) : Guarded (s.check w i) := by
  rw [WriteState.check]
  split
  · rename_i htaken
    rcases htaken with ⟨-, htakes⟩
    rw [takesWrite, Bool.and_eq_true, beq_iff_eq, Bool.not_eq_true'] at htakes
    rcases htakes with ⟨hprimary, hopen⟩
    constructor
    case fenced => exact h.fenced
    case closed =>
      intro o ho
      refine ⟨(h.closed o ho).1, ?_⟩
      intro he
      rcases (h.closed o ho).2 he with ⟨hp, hpending, hbase, hnone⟩
      refine ⟨hp, hpending, hbase, ?_⟩
      intro x
      show Function.update s.writer w (.checked i) x ≠ _
      by_cases hx : x = w
      · -- the fence of this site is closed
        rw [hx, Function.update_self]
        intro heq
        have hsite : i = o.site := Phase.checked.inj heq
        rw [← hsite] at hpending
        have hfenced := h.fenced i hprimary hpending
        rw [hopen] at hfenced
        exact Bool.noConfusion hfenced
      · rw [Function.update_of_ne hx]
        exact hnone x
    case committed =>
      intro x k epoch seq hx
      have hxw : x ≠ w := by
        rintro rfl
        exact absurd ((Function.update_self ..).symm.trans hx) nofun
      exact h.committed x k epoch seq ((Function.update_of_ne hxw ..).symm.trans hx)
    case acked => exact h.acked
    case losesNothing => exact h.losesNothing
  · exact h

theorem advances_append (log : LogState n) (i : Fin n) (change : Change) (now : Int) :
    Advances log { log with
      journal := Function.update log.journal i ((log.journal i).append change now) } := by
  intro k
  refine .inr ⟨rfl, rfl, ?_⟩
  intro _
  by_cases hk : k = i
  · subst hk
    show _ ≤ (Function.update log.journal k _ k).maxSeq
    rw [Function.update_self, SyncJournal.maxSeq_append]
    exact le_trans (log.journal k).maxSeq_le_sequence (Nat.le_succ _)
  · show _ ≤ (Function.update log.journal i _ k).maxSeq
    rw [Function.update_of_ne hk]

theorem Guarded.commit (h : Guarded s) (w : ι) (change : Change) (now : Int) :
    Guarded (s.commit w change now) := by
  rw [WriteState.commit]
  split
  · rename_i i hw
    have hadv := advances_append s.log i change now
    constructor
    case fenced => exact h.fenced
    case closed =>
      intro o ho
      refine ⟨(h.closed o ho).1, ?_⟩
      intro he
      rcases (h.closed o ho).2 he with ⟨hp, hpending, hbase, hnone⟩
      -- the request that commits is not at this site
      have hsite : o.site ≠ i := by
        rintro rfl
        exact hnone w hw
      refine ⟨hp, hpending, ?_, ?_⟩
      · show (Function.update s.log.journal i _ o.site).maxSeq ≤ o.base
        rw [Function.update_of_ne hsite]
        exact hbase
      · intro x
        show Function.update s.writer w _ x ≠ _
        by_cases hx : x = w
        · rw [hx, Function.update_self]
          exact nofun
        · rw [Function.update_of_ne hx]
          exact hnone x
    case committed =>
      intro x k epoch seq hx
      by_cases hxw : x = w
      · subst hxw
        have heq := (Function.update_self ..).symm.trans hx
        rcases Phase.committed.inj heq with ⟨rfl, rfl, rfl⟩
        refine ⟨le_rfl, ?_⟩
        intro _ _
        show _ ≤ (Function.update s.log.journal i _ i).maxSeq
        rw [Function.update_self, SyncJournal.maxSeq_append]
      · have hold := h.committed x k epoch seq ((Function.update_of_ne hxw ..).symm.trans hx)
        exact hold.advances hadv
    case acked =>
      intro a ha
      exact (h.acked a ha).advances hadv
    case losesNothing => exact h.losesNothing
  · exact h

theorem Guarded.ack (h : Guarded s) (w : ι) (hsame : SameEpoch s.log (s.writer w)) :
    Guarded (s.ack w) := by
  rw [WriteState.ack]
  split
  · rename_i i epoch seq hw
    rw [hw] at hsame
    have hepoch : (s.log.pub i).epoch = epoch := hsame
    have hrow := h.committed w i epoch seq hw
    have hnew : ∀ x, Function.update s.writer w .idle x = s.writer x ∨
        Function.update s.writer w .idle x = .idle := by
      intro x
      by_cases hx : x = w
      · rw [hx]
        exact .inr (Function.update_self ..)
      · exact .inl (Function.update_of_ne hx ..)
    constructor
    case fenced => exact h.fenced
    case closed =>
      intro o ho
      refine ⟨(h.closed o ho).1, ?_⟩
      intro he
      rcases (h.closed o ho).2 he with ⟨hp, hpending, hbase, hnone⟩
      refine ⟨hp, hpending, hbase, ?_⟩
      intro x
      show Function.update s.writer w .idle x ≠ _
      rcases hnew x with heq | heq
      · rw [heq]
        exact hnone x
      · rw [heq]
        exact nofun
    case committed =>
      intro x k e q hx
      have hx' : Function.update s.writer w .idle x = .committed k e q := hx
      rcases hnew x with heq | heq
      · exact h.committed x k e q (heq.symm.trans hx')
      · exact absurd (heq.symm.trans hx') nofun
    case acked =>
      intro a ha
      rcases List.mem_cons.mp ha with rfl | hold
      · show Recorded s.log i (s.log.pub i).epoch seq
        rw [hepoch]
        exact hrow
      · exact h.acked a hold
    case losesNothing =>
      intro o ho a ha hsite he
      rcases List.mem_cons.mp ha with rfl | hold
      · -- the site has handed over: its journal, with this row, ends before the base
        have hsite' : i = o.site := hsite
        have he' : (s.log.pub i).epoch = o.epoch := he
        rw [hsite'] at he' hrow hepoch
        rcases (h.closed o ho).2 he' with ⟨hp, -, hbase, -⟩
        exact le_trans (hrow.2 hepoch hp) hbase
      · exact h.losesNothing o ho a hold hsite he
  · exact h

theorem Guarded.step (h : Guarded s)
    {e : WriteEvent n ι} (hok : Orderly cfg s e) : Guarded (writeStep cfg cjson s e) := by
  cases e with
  | check w i => exact h.check w i
  | commit w change now => exact h.commit w change now
  | ack w => exact h.ack w hok
  | tick t => exact h.tick hok
  | poll i limit applied now => exact h.poll i limit applied now

end Guarded

theorem guarded_start (ι : Type*) (cfg : Config n) (journal : SyncJournal) :
    Guarded (writeStart ι cfg journal) where
  fenced := fun _ _ hpending => absurd hpending Bool.false_ne_true
  closed := fun _ ho => absurd ho List.not_mem_nil
  committed := fun _ _ _ _ hw => absurd hw nofun
  acked := fun _ ha => absurd ha List.not_mem_nil
  losesNothing := fun _ ho => absurd ho List.not_mem_nil

/-- The first site is silent and the second takes over; then the first is back and
follows. -/
def takenOver : List (WriteEvent 3 Unit) :=
  [.tick ⟨1, 1000, pos_1000, true, 0, probes [(2, 0, 0)]⟩,
    .tick ⟨2, 1000, pos_1000, true, 0, probes [(1, 2, 0)]⟩,
    .tick ⟨2, 4000, pos_4000, true, 0, probes [(1, 2, 0)]⟩,
    .tick ⟨1, 4000, pos_4000, true, 0, probes [(2, 4, 0)]⟩,
    .tick ⟨0, 5000, pos_5000, true, 0, probes [(1, 5, 0)]⟩]

/-- The second site sees that the first one has its log, which ends at `jm`, and hands over;
the first one accepts. -/
def handedBack (jm : ℤ) : List (WriteEvent 3 Unit) :=
  [.tick ⟨1, 6000, pos_6000, true, 0, probes [(0, 2, jm), (2, 4, 0)]⟩,
    .tick ⟨0, 6000, pos_6000, true, 0, probes [(1, 7, jm)]⟩]

end FlyBoard.Engine

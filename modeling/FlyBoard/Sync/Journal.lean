import FlyBoard.Db.User
import FlyBoard.Lib.Run
import Mathlib.Logic.Function.Basic

/-!
# The change journal (`src/db/db_sync.c`, `src/engine/flywire.c`)

Every mutation on the primary ends with an append to `sync_journal`: a full
snapshot of the row, re-read by `db_sync_journal_row`, or a delete. A replica
applies the journal in the order of its sequence numbers (`flywire_apply_row`).

Commit, re-read and append are three statements outside any transaction, so they
are three steps here, and the steps of any number of writers interleave freely.
-/

namespace FlyBoard.Sync

open Bytes

/-- The entities of `k_entities` whose payload is a plain row. -/
inductive Entity where
  | post | board | boardDelegation | file | series | tag | vote | voteAnon | comment | boardTree
  | user | email | guestbook
deriving DecidableEq

/-- A journaled row: `db_sync_journal_row` takes no id below 1. -/
structure Key where
  entity : Entity
  id : Int
  pos : 0 < id
deriving DecidableEq

abbrev Row := List (Bytes × Json)

abbrev Rows := Key → Option Row

/-- An INSERT or UPDATE of one row. An UPDATE of a missing row does nothing; no
such statement removes a row. -/
structure RowChange where
  apply : Option Row → Option Row
  keeps : ∀ r, (apply (some r)).isSome

/-- `op` and `payload` of a journal row. -/
inductive Op where
  | upsert (payload : Row)
  | delete
deriving DecidableEq

/-- A row of `sync_journal`; its `seq` is its place in the journal. -/
structure JournalRow where
  key : Key
  op : Op
deriving DecidableEq

/-! ## Writers on the primary -/

/-- Where a writer stands in its mutation. -/
inductive Phase where
  | idle
  /-- The INSERT or UPDATE is committed, the row not yet re-read. -/
  | committed (k : Key)
  /-- The row is re-read, the journal row not yet appended. -/
  | snapshot (k : Key) (r : Row)
  /-- The DELETE is committed, the journal row not yet appended. -/
  | deleted (k : Key)
deriving DecidableEq

structure State (ω : Type*) where
  rows : Rows
  journal : List JournalRow
  phase : ω → Phase

inductive Action (ω : Type*) where
  | write (w : ω) (k : Key) (f : RowChange)
  | delete (w : ω) (k : Key)
  | read (w : ω)
  | append (w : ω)

variable {ω : Type*} {j : JournalRow} {k : Key} {s : State ω} {w : ω} {base : Rows}

/-- One statement. A DELETE that hits no row is not journaled, and neither is a
row that is gone when it is re-read. -/
def step [DecidableEq ω] (s : State ω) : Action ω → State ω
  | .write w k f =>
    match s.phase w with
    | .idle =>
      { s with rows := Function.update s.rows k (f.apply (s.rows k)),
               phase := Function.update s.phase w (.committed k) }
    | _ => s
  | .delete w k =>
    match s.phase w, s.rows k with
    | .idle, some _ =>
      { s with rows := Function.update s.rows k none,
               phase := Function.update s.phase w (.deleted k) }
    | _, _ => s
  | .read w =>
    match s.phase w with
    | .committed k =>
      match s.rows k with
      | some r => { s with phase := Function.update s.phase w (.snapshot k r) }
      | none => { s with phase := Function.update s.phase w .idle }
    | _ => s
  | .append w =>
    match s.phase w with
    | .snapshot k r =>
      { s with journal := s.journal ++ [⟨k, .upsert r⟩],
               phase := Function.update s.phase w .idle }
    | .deleted k =>
      { s with journal := s.journal ++ [⟨k, .delete⟩],
               phase := Function.update s.phase w .idle }
    | _ => s

def start (base : Rows) : State ω := ⟨base, [], fun _ => .idle⟩

def Finished (s : State ω) : Prop := ∀ w, s.phase w = .idle

/-! ## The replica -/

/-- What a replica brings along: its own administrator, and whether a row can be
written next to the rows it has (the UNIQUE constraints of its tables). -/
structure Replica where
  adminUsername : Bytes
  siteAdminUid : Int
  uniqueOk : Rows → Key → Row → Bool

/-- `cJSON_GetObjectItem` on a payload, as a string. -/
def column (row : Row) (name : Bytes) : Bytes :=
  match row.find? fun c => c.1 == name with
  | some (_, .str s) => s
  | _ => []

/-- The upserts of user rows that `flywire_apply_row` leaves out, to keep the
replica's own administrator. -/
def Replica.skips (rep : Replica) (j : JournalRow) : Bool :=
  match j.op with
  | .delete => false
  | .upsert row =>
    let uname := column row (bytes "username")
    j.key.entity == .user &&
      ((!uname.isEmpty && uname == rep.adminUsername) || j.key.id == rep.siteAdminUid)

/-- `flywire_apply_row`: an upsert replaces all columns of the row, and a
statement that fails is logged and passed over. -/
def Replica.applyRow (rep : Replica) (rows : Rows) (j : JournalRow) : Rows :=
  match j.op with
  | .delete => Function.update rows j.key none
  | .upsert row =>
    if rep.skips j then rows
    else if rep.uniqueOk rows j.key row then Function.update rows j.key (some row)
    else rows

/-- A replica seeded with `base` that has applied a journal. -/
def Replica.replay (rep : Replica) (base : Rows) (journal : List JournalRow) : Rows :=
  journal.foldl rep.applyRow base

/-! ## What the journal says about a row -/

/-- The last journal row of `k`. -/
def lastOp (journal : List JournalRow) (k : Key) : Option Op :=
  ((journal.filter fun j => j.key = k).getLast?).map (·.op)

/-- What `k` is after a journal row with this operation. -/
def Op.rowAfter : Op → Option Row
  | .upsert r => some r
  | .delete => none

/-- The last journal row of `k` carries the committed state of `k`: its columns,
or a delete when it is gone. A row without a journal row is as it was. -/
def LastRowCurrent (base : Rows) (s : State ω) (k : Key) : Prop :=
  s.rows k = match lastOp s.journal k with
    | some op => op.rowAfter
    | none => base k

instance (base : Rows) (s : State ω) (k : Key) : Decidable (LastRowCurrent base s k) :=
  inferInstanceAs (Decidable (_ = _))

def pending (s : State ω) (w : ω) : Option JournalRow :=
  match s.phase w with
  | .snapshot k r => some ⟨k, .upsert r⟩
  | .deleted k => some ⟨k, .delete⟩
  | _ => none

/-- `w` has yet to append, and will append `k` as it is now. -/
def WillJournal (s : State ω) (k : Key) (w : ω) : Prop :=
  match s.rows k with
  | some r => s.phase w = .committed k ∨ s.phase w = .snapshot k r
  | none => s.phase w = .deleted k

/-- No append is the last word on a row that has changed under it: what is
appended is the row as it is at that moment, or another writer has the present
state of the row still to append. -/
def AppendOk (s : State ω) : Action ω → Prop
  | .append w => ∀ j, pending s w = some j →
      s.rows j.key = j.op.rowAfter ∨ ∃ w', w' ≠ w ∧ WillJournal s j.key w'
  | _ => True

def ReplicaAccepts (rep : Replica) (base : Rows) (s : State ω) : Action ω → Prop
  | .append w => ∀ k r, s.phase w = .snapshot k r →
      rep.uniqueOk (rep.replay base s.journal) k r = true
  | _ => True

/-- The statement commits a change of `k`. -/
def CommitsTo (k : Key) : Action ω → Prop
  | .write _ k' _ => k' = k
  | .delete _ k' => k' = k
  | _ => False

theorem lastOp_append (journal : List JournalRow) (j : JournalRow) (k : Key) :
    lastOp (journal ++ [j]) k = if j.key = k then some j.op else lastOp journal k := by
  by_cases h : j.key = k
  · simp [lastOp, h]
  · simp [lastOp, h]

theorem Replica.applyRow_of_ne (rep : Replica) (hk : j.key ≠ k)
    (rows : Rows) : rep.applyRow rows j k = rows k := by
  have hkeep : ∀ x, Function.update rows j.key x k = rows k :=
    fun x => Function.update_of_ne (Ne.symm hk) x rows
  cases hop : j.op with
  | delete => simp [Replica.applyRow, hop, hkeep]
  | upsert r =>
    by_cases hskip : rep.skips j = true
    · simp [Replica.applyRow, hop, hskip]
    · by_cases hunique : rep.uniqueOk rows j.key r = true
      · simp [Replica.applyRow, hop, hskip, hunique, hkeep]
      · simp [Replica.applyRow, hop, hskip, hunique]

theorem Replica.applyRow_self (rep : Replica) {rows : Rows} (hskip : rep.skips j = false)
    (hunique : ∀ r, j.op = .upsert r → rep.uniqueOk rows j.key r = true) :
    rep.applyRow rows j j.key = j.op.rowAfter := by
  cases hop : j.op with
  | delete => simp [Replica.applyRow, hop, Op.rowAfter]
  | upsert r => simp [Replica.applyRow, hop, hskip, hunique r hop, Op.rowAfter]

/-- The invariant: a row that the journal does not carry has a writer that will
still journal it. -/
def Carried (base : Rows) (s : State ω) : Prop :=
  ∀ k, LastRowCurrent base s k ∨ ∃ w, WillJournal s k w

def Phase.key? : Phase → Option Key
  | .idle => none
  | .committed k => some k
  | .snapshot k _ => some k
  | .deleted k => some k

theorem WillJournal.phase_key (h : WillJournal s k w) :
    (s.phase w).key? = some k := by
  unfold WillJournal at h
  split at h
  next r _ =>
    rcases h with hp | hp
    · rw [hp, Phase.key?]
    · rw [hp, Phase.key?]
  next => rw [h, Phase.key?]

theorem WillJournal.key_eq {k k' : Key} {p : Phase}
    (h : WillJournal s k w) (hp : s.phase w = p) (hk : p.key? = some k' := by rfl) : k' = k := by
  have hkey := h.phase_key
  rw [hp, hk] at hkey
  exact Option.some.inj hkey

theorem WillJournal.phase_ne_idle (h : WillJournal s k w) :
    s.phase w ≠ .idle := by
  intro hidle
  have hkey := h.phase_key
  rw [hidle] at hkey
  cases hkey

theorem willJournal_committed_iff {k k' : Key} (hp : s.phase w = .committed k') :
    WillJournal s k w ↔ k' = k ∧ (s.rows k).isSome = true := by
  unfold WillJournal
  cases s.rows k with
  | some r => simp [hp]
  | none => simp [hp]

/-- Whether a writer will journal a row depends on that row and on its phase. -/
theorem WillJournal.transfer {s t : State ω} (h : WillJournal s k w)
    (hrows : t.rows k = s.rows k) (hphase : t.phase w = s.phase w) : WillJournal t k w := by
  unfold WillJournal at h ⊢
  rw [hrows, hphase]
  exact h

theorem willJournal_of_pending (h : pending s w = some j) (hcur : s.rows j.key = j.op.rowAfter) :
    WillJournal s j.key w := by
  unfold pending at h
  split at h
  next k r hp =>
    cases h
    simp only [Op.rowAfter] at hcur
    simp [WillJournal, hcur, hp]
  next k hp =>
    cases h
    simp only [Op.rowAfter] at hcur
    simp [WillJournal, hcur, hp]
  next => cases h

theorem phase_key_of_pending (h : pending s w = some j) :
    (s.phase w).key? = some j.key := by
  unfold pending at h
  split at h
  next k r hp =>
    cases h
    rw [hp, Phase.key?]
  next k hp =>
    cases h
    rw [hp, Phase.key?]
  next => cases h

theorem phase_of_pending_upsert {r : Row}
    (h : pending s w = some j) (hr : j.op = .upsert r) : s.phase w = .snapshot j.key r := by
  unfold pending at h
  split at h
  next k r' hp =>
    cases h
    cases hr
    exact hp
  next =>
    cases h
    cases hr
  next => cases h

/-- A step that touches neither the row, nor the journal, nor what the writer of
`k` will do, keeps the invariant at `k`. -/
theorem Carried.frame {s t : State ω}
    (h : LastRowCurrent base s k ∨ ∃ w, WillJournal s k w) (hrows : t.rows k = s.rows k)
    (hjournal : lastOp t.journal k = lastOp s.journal k)
    (hwriters : ∀ w, WillJournal s k w → ∃ w', WillJournal t k w') :
    LastRowCurrent base t k ∨ ∃ w, WillJournal t k w := by
  rcases h with hcur | ⟨w, hw⟩
  · left
    rw [LastRowCurrent, hrows, hjournal]
    exact hcur
  · right
    exact hwriters w hw

/-- The journal has the last word wrong, and no writer will put it right. -/
def Lost (base : Rows) (s : State ω) (k : Key) : Prop :=
  ¬ LastRowCurrent base s k ∧ ∀ w, ¬ WillJournal s k w

/-- A step that touches neither the row nor its last journal row, and makes no other
writer's business of it, keeps a row lost. -/
theorem Lost.frame {s t : State ω} (h : Lost base s k)
    (hrows : t.rows k = s.rows k) (hjournal : lastOp t.journal k = lastOp s.journal k)
    (hwriters : ∀ w, WillJournal t k w → t.phase w = s.phase w ∨ WillJournal s k w) :
    Lost base t k := by
  rcases h with ⟨hcur, hnone⟩
  constructor
  · rw [LastRowCurrent, hrows, hjournal]
    exact hcur
  · intro w hw
    rcases hwriters w hw with hphase | hold
    · exact hnone w (hw.transfer hrows.symm hphase.symm)
    · exact hnone w hold

/-! ## The steps -/

section Steps

variable [DecidableEq ω]

theorem step_append {j : JournalRow} (h : pending s w = some j) :
    step s (.append w) = { s with journal := s.journal ++ [j],
                                  phase := Function.update s.phase w .idle } := by
  unfold pending at h
  split at h
  next k r hp =>
    cases h
    simp [step, hp]
  next k hp =>
    cases h
    simp [step, hp]
  next => cases h

theorem step_cases (s : State ω) (a : Action ω) :
    step s a = s ∨
    (∃ w k f, a = .write w k f ∧ s.phase w = .idle ∧
      step s a = { s with rows := Function.update s.rows k (f.apply (s.rows k)),
                          phase := Function.update s.phase w (.committed k) }) ∨
    (∃ w k r, a = .delete w k ∧ s.phase w = .idle ∧ s.rows k = some r ∧
      step s a = { s with rows := Function.update s.rows k none,
                          phase := Function.update s.phase w (.deleted k) }) ∨
    (∃ w k r, a = .read w ∧ s.phase w = .committed k ∧ s.rows k = some r ∧
      step s a = { s with phase := Function.update s.phase w (.snapshot k r) }) ∨
    (∃ w k, a = .read w ∧ s.phase w = .committed k ∧ s.rows k = none ∧
      step s a = { s with phase := Function.update s.phase w .idle }) ∨
    (∃ w j, a = .append w ∧ pending s w = some j ∧
      step s a = { s with journal := s.journal ++ [j],
                          phase := Function.update s.phase w .idle }) := by
  cases a with
  | write w k f =>
    cases hp : s.phase w with
    | idle => exact .inr (.inl ⟨w, k, f, rfl, hp, by simp [step, hp]⟩)
    | committed k' => exact .inl (by simp [step, hp])
    | snapshot k' r => exact .inl (by simp [step, hp])
    | deleted k' => exact .inl (by simp [step, hp])
  | delete w k =>
    cases hp : s.phase w with
    | idle =>
      cases hr : s.rows k with
      | none => exact .inl (by simp [step, hp, hr])
      | some r => exact .inr (.inr (.inl ⟨w, k, r, rfl, hp, hr, by simp [step, hp, hr]⟩))
    | committed k' => exact .inl (by simp [step, hp])
    | snapshot k' r => exact .inl (by simp [step, hp])
    | deleted k' => exact .inl (by simp [step, hp])
  | read w =>
    cases hp : s.phase w with
    | committed k =>
      cases hr : s.rows k with
      | none =>
        exact .inr (.inr (.inr (.inr (.inl ⟨w, k, rfl, hp, hr, by simp [step, hp, hr]⟩))))
      | some r =>
        exact .inr (.inr (.inr (.inl ⟨w, k, r, rfl, hp, hr, by simp [step, hp, hr]⟩)))
    | idle => exact .inl (by simp [step, hp])
    | snapshot k' r => exact .inl (by simp [step, hp])
    | deleted k' => exact .inl (by simp [step, hp])
  | append w =>
    cases hj : pending s w with
    | some j => exact .inr (.inr (.inr (.inr (.inr ⟨w, j, rfl, hj, step_append hj⟩))))
    | none =>
      left
      unfold pending at hj
      cases hp : s.phase w with
      | idle => simp [step, hp]
      | committed k' => simp [step, hp]
      | snapshot k' r => simp [hp] at hj
      | deleted k' => simp [hp] at hj

/-- Nobody counts on a writer that was idle, so what it starts to do is of no account where
it leaves the row. -/
theorem Carried.idle_writer
    (h : LastRowCurrent base s k ∨ ∃ w, WillJournal s k w) (hp : s.phase w = .idle)
    {rows : Rows} (hrows : rows k = s.rows k) (p : Phase) :
    LastRowCurrent base { s with rows := rows, phase := Function.update s.phase w p } k ∨
      ∃ w', WillJournal { s with rows := rows, phase := Function.update s.phase w p } k w' := by
  refine Carried.frame h ?_ ?_ ?_
  · exact hrows
  · rfl
  intro w' hw'
  have hother : w' ≠ w := by
    rintro rfl
    exact hw'.phase_ne_idle hp
  exact ⟨w', hw'.transfer hrows (Function.update_of_ne hother ..)⟩

/-- The invariant is kept by every statement that meets `AppendOk`. -/
theorem carried_step (s : State ω) (a : Action ω) (h : Carried base s)
    (hok : AppendOk s a) : Carried base (step s a) := by
  intro k
  rcases step_cases s a with hs | ⟨w, k', f, rfl, hp, hs⟩ | ⟨w, k', r, rfl, hp, hr, hs⟩ |
    ⟨w, k', r, rfl, hp, hr, hs⟩ | ⟨w, k', rfl, hp, hr, hs⟩ | ⟨w, j, rfl, hj, hs⟩
  · rw [hs]
    exact h k
  · -- a write: the writer itself will journal the row, unless nothing was there to update
    rw [hs]
    by_cases hk : k = k'
    · subst hk
      cases hf : f.apply (s.rows k) with
      | some r =>
        right
        exact ⟨w, by simp [WillJournal]⟩
      | none =>
        have hnone : s.rows k = none := by
          cases hrow : s.rows k with
          | none => rfl
          | some r =>
            have hkeep := f.keeps r
            rw [← hrow, hf] at hkeep
            simp at hkeep
        exact Carried.idle_writer (h k) hp (by simp [hnone]) _
    · exact Carried.idle_writer (h k) hp (Function.update_of_ne hk ..) _
  · -- a delete: the writer will journal it
    rw [hs]
    by_cases hk : k = k'
    · subst hk
      right
      exact ⟨w, by simp [WillJournal]⟩
    · exact Carried.idle_writer (h k) hp (Function.update_of_ne hk ..) _
  · -- a re-read that finds the row
    rw [hs]
    apply Carried.frame (h k)
    · rfl
    · rfl
    · intro w' hw'
      by_cases hw : w' = w
      · subst hw
        rcases ((willJournal_committed_iff hp).mp hw').1 with rfl
        exact ⟨w', by simp [WillJournal, hr]⟩
      · exact ⟨w', hw'.transfer rfl (by simp [hw])⟩
  · -- a re-read that does not: the writer would not have journaled the row
    rw [hs]
    apply Carried.frame (h k)
    · rfl
    · rfl
    · intro w' hw'
      have hw : w' ≠ w := by
        rintro rfl
        rcases (willJournal_committed_iff hp).mp hw' with ⟨rfl, hthere⟩
        simp [hr] at hthere
      exact ⟨w', hw'.transfer rfl (by simp [hw])⟩
  · -- an append: this is where the condition is needed
    rw [hs]
    by_cases hk : j.key = k
    · subst hk
      rcases hok j hj with hfresh | ⟨w', hne, hw'⟩
      · left
        simp only [LastRowCurrent, lastOp_append, if_true]
        exact hfresh
      · right
        exact ⟨w', hw'.transfer rfl (by simp [hne])⟩
    · apply Carried.frame (h k)
      · rfl
      · simp [lastOp_append, hk]
      · intro w' hw'
        have hw : w' ≠ w := by
          rintro rfl
          exact hk (hw'.key_eq rfl (phase_key_of_pending hj))
        exact ⟨w', hw'.transfer rfl (by simp [hw])⟩

theorem lost_of_not_appendOk (base : Rows) (h : ¬ AppendOk s (.append w)) :
    ∃ j, pending s w = some j ∧ Lost base (step s (.append w)) j.key := by
  simp only [AppendOk, not_forall, not_or, not_exists, not_and] at h
  rcases h with ⟨j, hj, hstale, hnone⟩
  refine ⟨j, hj, ?_⟩
  rw [step_append hj]
  constructor
  · simpa only [LastRowCurrent, lastOp_append, if_true] using hstale
  · intro w' hw'
    by_cases hw : w' = w
    · subst hw
      exact hw'.phase_ne_idle (by simp)
    · exact hnone w' hw (hw'.transfer rfl (by simp [hw]))

theorem lost_step {a : Action ω} (h : Lost base s k)
    (ha : ¬ CommitsTo k a) : Lost base (step s a) k := by
  -- a writer other than the one that steps keeps its phase, whatever the step is
  have hother : ∀ {w w' : ω} {x : Phase}, w' ≠ w → Function.update s.phase w x w' = s.phase w' :=
    fun hne => Function.update_of_ne hne _ _
  rcases step_cases s a with hs | ⟨w, k', f, rfl, hp, hs⟩ | ⟨w, k', r, rfl, hp, hr, hs⟩ |
    ⟨w, k', r, rfl, hp, hr, hs⟩ | ⟨w, k', rfl, hp, hr, hs⟩ | ⟨w, j, rfl, hj, hs⟩
  · rw [hs]
    exact h
  · -- a write to another row
    have hk : k ≠ k' := fun heq => ha heq.symm
    rw [hs]
    refine h.frame (Function.update_of_ne hk _ _) rfl fun w' hw' => .inl (hother ?_)
    rintro rfl
    exact hk (hw'.key_eq (Function.update_self ..)).symm
  · -- a delete of another row
    have hk : k ≠ k' := fun heq => ha heq.symm
    rw [hs]
    refine h.frame (Function.update_of_ne hk _ _) rfl fun w' hw' => .inl (hother ?_)
    rintro rfl
    exact hk (hw'.key_eq (Function.update_self ..)).symm
  · -- a re-read: a writer that now has the row would have journaled it before
    rw [hs]
    refine h.frame rfl rfl fun w' hw' => ?_
    by_cases hw : w' = w
    · subst hw
      rcases hw'.key_eq (Function.update_self ..) with rfl
      exact .inr ((willJournal_committed_iff hp).mpr ⟨rfl, by simp [hr]⟩)
    · exact .inl (hother hw)
  · -- a re-read in vain
    rw [hs]
    refine h.frame rfl rfl fun w' hw' => .inl (hother ?_)
    rintro rfl
    exact hw'.phase_ne_idle (Function.update_self ..)
  · -- an append; one that carries the row as it is was a writer of it
    have hidle : ∀ w', WillJournal (step s (.append w)) k w' → w' ≠ w := by
      rintro w' hw' rfl
      rw [hs] at hw'
      exact hw'.phase_ne_idle (Function.update_self ..)
    by_cases hk : j.key = k
    · subst hk
      constructor
      · intro hnow
        rw [hs] at hnow
        simp only [LastRowCurrent, lastOp_append, if_true] at hnow
        exact h.2 w (willJournal_of_pending hj hnow)
      · intro w' hw'
        have hne := hidle w' hw'
        rw [hs] at hw'
        exact h.2 w' (hw'.transfer rfl (hother hne).symm)
    · rw [hs] at hidle ⊢
      refine h.frame rfl ?_ fun w' hw' => .inl (hother (hidle w' hw'))
      rw [lastOp_append, if_neg hk]

theorem lost_run {as : List (Action ω)}
    (h : Lost base s k) (has : ∀ a ∈ as, ¬ CommitsTo k a) : Lost base (Run.run step s as) k := by
  induction as generalizing s with
  | nil => exact h
  | cons a as ih =>
    rw [Run.run_cons]
    apply ih
    · exact lost_step h (has a (List.mem_cons_self ..))
    · intro b hb
      exact has b (List.mem_cons_of_mem _ hb)

/-- The replica has, of every row it does not leave out, what the journal says. -/
def Replayed (rep : Replica) (base : Rows) (s : State ω) : Prop :=
  ∀ k, (∀ j ∈ s.journal, j.key = k → rep.skips j = false) →
    rep.replay base s.journal k = match lastOp s.journal k with
      | some op => op.rowAfter
      | none => base k

theorem journal_step (s : State ω) (a : Action ω) :
    (step s a).journal = s.journal ∨
    ∃ w j, a = .append w ∧ pending s w = some j ∧ (step s a).journal = s.journal ++ [j] := by
  rcases step_cases s a with hs | ⟨w, k, f, rfl, -, hs⟩ | ⟨w, k, r, rfl, -, -, hs⟩ |
    ⟨w, k, r, rfl, -, -, hs⟩ | ⟨w, k, rfl, -, -, hs⟩ | ⟨w, j, rfl, hj, hs⟩
  · exact .inl (by rw [hs])
  · exact .inl (by rw [hs])
  · exact .inl (by rw [hs])
  · exact .inl (by rw [hs])
  · exact .inl (by rw [hs])
  · exact .inr ⟨w, j, rfl, hj, by rw [hs]⟩

theorem replayed_step {rep : Replica} (s : State ω) (a : Action ω)
    (h : Replayed rep base s) (hok : ReplicaAccepts rep base s a) :
    Replayed rep base (step s a) := by
  rcases journal_step s a with hsame | ⟨w, j, rfl, hj, happ⟩
  · unfold Replayed
    rw [hsame]
    exact h
  · intro k hskip
    rw [happ] at hskip ⊢
    have hold := h k fun j' hj' => hskip j' (List.mem_append_left _ hj')
    have hnew : rep.replay base (s.journal ++ [j]) = rep.applyRow (rep.replay base s.journal) j := by
      simp [Replica.replay]
    rw [hnew, lastOp_append]
    by_cases hk : j.key = k
    · subst hk
      rw [if_pos rfl]
      refine rep.applyRow_self (hskip j (by simp) rfl) ?_
      intro r hr
      exact hok j.key r (phase_of_pending_upsert hj hr)
    · rw [if_neg hk, ← hold]
      exact rep.applyRow_of_ne hk _

end Steps

/-! ## Journal order and commit order -/

/-- Once every writer has finished, the last journal row of every row carries its
committed state. -/
def JournalFollowsCommits (base : Rows) (s : State ω) : Prop :=
  Finished s → ∀ k, LastRowCurrent base s k

def voteKey : Key := ⟨.vote, 1, Int.one_pos⟩

/-- An INSERT ... ON CONFLICT DO UPDATE that leaves these columns. -/
def setRow (r : Row) : RowChange := ⟨fun _ => some r, fun _ => rfl⟩

def voteRow (up : Bool) : Row := [(bytes "id", .num 1), (bytes "vote_type", .num (if up then 1 else -1))]

/-- Writer 0 votes for and writer 1 against; writer 0 has re-read the row before
writer 1 commits, and appends after it. -/
def overtakenRun : List (Action (Fin 2)) :=
  [.write 0 voteKey (setRow (voteRow true)), .read 0,
   .write 1 voteKey (setRow (voteRow false)), .read 1, .append 1, .append 0]

def orderlyRun : List (Action (Fin 2)) :=
  [.write 0 voteKey (setRow (voteRow true)), .write 1 voteKey (setRow (voteRow false)),
   .read 0, .append 0, .read 1, .append 1]

end FlyBoard.Sync

import FlyBoard.Lib.Bytes
import FlyBoard.Lib.Run
import Mathlib.Logic.Function.Basic

/-!
# The finalize record (`src/handlers/tasfa/cache.c`)

What is known of the finalize run of one upload: each worker process has its slot in
`g_finalize_slots`, and all of them share one file under `data/tasfa/finalize`. The
processes interleave; `finalize_cache_mark_started` looks at the file before it takes
the lock of its process.

A sweep of the directory removes files whose record has expired, which nothing reads.
-/

namespace FlyBoard.Tasfa.Finalize

open Bytes

structure Slot where
  uploadToken : Bytes
  statusCode : ℤ
  body : Bytes
  active : Bool
  done : Bool
  expires : ℕ
deriving DecidableEq

structure Record where
  uploadToken : Bytes
  statusCode : ℤ
  body : Bytes
  active : Bool
  expires : ℕ
deriving DecidableEq

/-- What a request learns: the status code, the body, and whether the run goes on. -/
structure Status where
  statusCode : ℤ
  body : Bytes
  active : Bool
deriving DecidableEq

/-- The clock, the slot of the upload in each process, and its file. -/
structure Store where
  clock : ℕ
  slots : ℕ → Option Slot
  disk : Option Record

/-- How long a record lives, in seconds. -/
def lifetime : ℕ := 3600

def processing : Bytes := bytes "\x7b\"ok\":false,\"processing\":true\x7d"

namespace Store

def setSlot (s : Store) (p : ℕ) (slot : Option Slot) : Store :=
  { s with slots := Function.update s.slots p slot }

/-- `finalize_disk_write`, where it succeeds -/
def diskWrite (s : Store) (uploadToken : Bytes) (statusCode : ℤ) (body : Bytes) (active : Bool) :
    Store :=
  { s with disk := some ⟨uploadToken, statusCode, body, active, s.clock + lifetime⟩ }

/-- `finalize_disk_get` -/
def diskGet (s : Store) (uploadToken : Bytes) : Option Status := do
  let r ← s.disk
  if s.clock ≤ r.expires ∧ uploadToken = r.uploadToken then
    return ⟨r.statusCode, r.body, r.active⟩
  else none

/-- The slot of a process that `finalize_cache_sweep_locked` leaves. -/
def live (s : Store) (p : ℕ) : Option Slot :=
  (s.slots p).filter fun slot => !(0 < slot.expires && slot.expires < s.clock)

/-- `finalize_cache_sweep_locked` -/
def sweep (s : Store) (p : ℕ) : Store := s.setSlot p (s.live p)

/-- What `finalize_cache_get` finds: the slot of the process if the token is its, else
the file. -/
def lookup (s : Store) (p : ℕ) (uploadToken : Bytes) : Option Status :=
  match s.live p with
  | some slot =>
    if uploadToken = slot.uploadToken then
      some ⟨slot.statusCode, slot.body, slot.active && !slot.done⟩
    else s.diskGet uploadToken
  | none => s.diskGet uploadToken

/-- `finalize_cache_get` -/
def get (s : Store) (p : ℕ) (uploadToken : Bytes) : Option Status × Store :=
  (s.lookup p uploadToken, s.sweep p)

/-- The critical section of `finalize_cache_mark_started`: `room` says that a slot is
free, `written` that the file can be written. -/
def claim (s : Store) (p : ℕ) (uploadToken : Bytes) (room written : Bool) : Bool × Store :=
  let s := s.sweep p
  match s.slots p with
  | some _ => (false, s)
  | none =>
    if room && written then
      let slot := ⟨uploadToken, 202, processing, true, false, s.clock + lifetime⟩
      (true, (s.setSlot p (some slot)).diskWrite uploadToken 202 processing true)
    else (false, s)

/-- `finalize_cache_mark_started` -/
def markStarted (s : Store) (p : ℕ) (uploadToken : Bytes) (room written : Bool) : Bool × Store :=
  match s.diskGet uploadToken with
  | some _ => (false, s)
  | none => s.claim p uploadToken room written

/-- `finalize_cache_mark_done` -/
def markDone (s : Store) (p : ℕ) (statusCode : ℤ) (body : Bytes) (written : Bool) : Store :=
  match s.slots p with
  | none => s
  | some slot =>
    let statusCode := if 0 < statusCode then statusCode else 500
    let slot := { slot with
      statusCode, body, active := false, done := true, expires := s.clock + lifetime }
    let s := s.setSlot p (some slot)
    if written then s.diskWrite slot.uploadToken statusCode body false else s

/-- `finalize_cache_update_status` -/
def updateStatus (s : Store) (p : ℕ) (body : Bytes) (written : Bool) : Store :=
  match s.slots p with
  | none => s
  | some slot =>
    let s := s.setSlot p (some { slot with body })
    if written then s.diskWrite slot.uploadToken 202 body true else s

end Store

/-! ## Many processes -/

/-- The store, the requests (by process) that found no file and are about to take the
lock, the runs (by process) whose outcome is still to come, how many runs began and
ended, and whether a failure was written over a 200. -/
structure System where
  store : Store
  pending : List ℕ
  running : List ℕ
  starts : ℕ
  finished : ℕ
  overwritten : Bool

inductive Action
  /-- A request looks for the record. -/
  | get (p : ℕ)
  /-- A request in `finalize_cache_mark_started` looks for the file. -/
  | check (p : ℕ)
  /-- It takes the lock; `true` schedules the worker. -/
  | enter (i : ℕ) (room written : Bool)
  | progress (i : ℕ) (body : Bytes) (written : Bool)
  /-- A worker, or the handler that could not schedule it, records the outcome. -/
  | finish (i : ℕ) (statusCode : ℤ) (body : Bytes) (written : Bool)
  | tick (seconds : ℕ)

def succeeded (s : Store) : Bool := s.disk.any fun r => r.statusCode == 200

def step (token : Bytes) (s : System) : Action → System
  | .get p => { s with store := (s.store.get p token).2 }
  | .check p =>
    match s.store.diskGet token with
    | some _ => s
    | none => { s with pending := s.pending ++ [p] }
  | .enter i room written =>
    match s.pending[i]? with
    | none => s
    | some p =>
      let r := s.store.claim p token room written
      { s with
        store := r.2
        pending := s.pending.eraseIdx i
        running := if r.1 then s.running ++ [p] else s.running
        starts := if r.1 then s.starts + 1 else s.starts }
  | .progress i body written =>
    match s.running[i]? with
    | none => s
    | some p => { s with store := s.store.updateStatus p body written }
  | .finish i statusCode body written =>
    match s.running[i]? with
    | none => s
    | some p =>
      let store := s.store.markDone p statusCode body written
      { s with
        store
        running := s.running.eraseIdx i
        finished := s.finished + 1
        overwritten := s.overwritten || succeeded s.store && !succeeded store }
  | .tick seconds => { s with store := { s.store with clock := s.store.clock + seconds } }

def start : System := ⟨⟨0, fun _ => none, none⟩, [], [], 0, 0, false⟩

/-- `finalize_cache_mark_started` returned true at most once, and no failure replaced a
200 in the file. -/
structure StartedOnce (s : System) : Prop where
  starts_le : s.starts ≤ 1
  kept : s.overwritten = false

def InLifetime (s : System) : Action → Prop
  | .tick seconds => (∀ r, s.store.disk = some r → s.store.clock + seconds ≤ r.expires) ∧
      ∀ p slot, s.store.slots p = some slot → s.store.clock + seconds ≤ slot.expires
  | _ => True

/-- A process that can take a slot for the upload, and has none yet, takes the lock
before any process has written the file. -/
def Alone (s : System) : Action → Prop
  | .enter i room written => ∀ p, s.pending[i]? = some p → room = true → written = true →
      s.store.slots p = none → s.store.disk = none
  | _ => True

/-! ### What the runs keep -/

structure Inv (s : System) : Prop where
  disk_live : ∀ r, s.store.disk = some r → s.store.clock ≤ r.expires
  slot_live : ∀ p slot, s.store.slots p = some slot → s.store.clock ≤ slot.expires
  started_iff : s.store.disk = none ↔ s.starts = 0
  counted : s.running.length + s.finished ≤ s.starts
  finished_pos : succeeded s.store = true → 0 < s.finished

theorem inv_start : Inv start where
  disk_live _ h := nomatch h
  slot_live _ _ h := nomatch h
  started_iff := iff_of_true rfl rfl
  counted := Nat.le_refl 0
  finished_pos h := nomatch h

section

variable {s : System} {token : Bytes} {p : ℕ} {st st' : Store}

theorem Store.setSlot_slots (st : Store) (p : ℕ) (slot : Option Slot) (q : ℕ) :
    (st.setSlot p slot).slots q = if q = p then slot else st.slots q :=
  Function.update_apply st.slots p slot q

theorem Store.sweep_of_live {st : Store}
    (h : ∀ slot, st.slots p = some slot → st.clock ≤ slot.expires) : st.sweep p = st := by
  have hlive : st.live p = st.slots p := by
    cases hp : st.slots p with
    | none => simp [Store.live, hp]
    | some slot => simp [Store.live, hp, h slot hp]
  simp [Store.sweep, Store.setSlot, hlive]

def startedSlot (st : Store) (token : Bytes) : Slot :=
  ⟨token, 202, processing, true, false, st.clock + lifetime⟩

theorem claim_eq {st : Store} (h : ∀ slot, st.slots p = some slot → st.clock ≤ slot.expires)
    (token : Bytes) (room written : Bool) :
    st.claim p token room written =
      if room = true ∧ written = true ∧ st.slots p = none then
        (true, (st.setSlot p (some (startedSlot st token))).diskWrite token 202 processing true)
      else (false, st) := by
  unfold Store.claim
  rw [Store.sweep_of_live h]
  cases hp : st.slots p with
  | some slot => simp [hp]
  | none => cases room <;> cases written <;> simp [hp, startedSlot]

/-- What the clock, the slots and the file of a store can become without a step of time:
each record is one that was there, or lives its full time. -/
structure Writes (st st' : Store) : Prop where
  clock : st'.clock = st.clock
  disk : st'.disk = st.disk ∨ ∃ r, st'.disk = some r ∧ r.expires = st.clock + lifetime
  slots : ∀ p slot, st'.slots p = some slot →
    slot.expires = st.clock + lifetime ∨ ∃ old, st.slots p = some old ∧ slot.expires = old.expires

theorem writes_refl (st : Store) : Writes st st :=
  ⟨rfl, .inl rfl, fun _ slot h => .inr ⟨slot, h, rfl⟩⟩

theorem Writes.setSlot (h : Writes st st') (p : ℕ) (new : Slot)
    (hnew : new.expires = st.clock + lifetime ∨
      ∃ old, st.slots p = some old ∧ new.expires = old.expires) :
    Writes st (st'.setSlot p (some new)) := by
  refine ⟨h.clock, h.disk, ?_⟩
  intro q slot hq
  rw [Store.setSlot_slots] at hq
  split at hq
  · next hqp =>
    rw [hqp, ← Option.some.inj hq]
    exact hnew
  · exact h.slots q slot hq

theorem Writes.diskWrite (h : Writes st st') (token : Bytes) (statusCode : ℤ)
    (body : Bytes) (active : Bool) : Writes st (st'.diskWrite token statusCode body active) := by
  refine ⟨h.clock, .inr ⟨_, rfl, ?_⟩, h.slots⟩
  rw [← h.clock]

theorem markDone_writes (st : Store) (p : ℕ) (statusCode : ℤ) (body : Bytes) (written : Bool) :
    Writes st (st.markDone p statusCode body written) := by
  unfold Store.markDone
  cases hp : st.slots p with
  | none => exact writes_refl st
  | some slot =>
    cases written with
    | false => exact (writes_refl st).setSlot p _ (.inl rfl)
    | true => exact ((writes_refl st).setSlot p _ (.inl rfl)).diskWrite _ _ _ _

theorem updateStatus_writes (st : Store) (p : ℕ) (body : Bytes) (written : Bool) :
    Writes st (st.updateStatus p body written) := by
  unfold Store.updateStatus
  cases hp : st.slots p with
  | none => exact writes_refl st
  | some slot =>
    have hset : Writes st (st.setSlot p (some { slot with body })) :=
      (writes_refl st).setSlot p _ (.inr ⟨slot, hp, rfl⟩)
    cases written with
    | false => exact hset
    | true => exact hset.diskWrite _ _ _ _

theorem updateStatus_succeeded (st : Store) (p : ℕ) (body : Bytes) (written : Bool)
    (h : succeeded (st.updateStatus p body written) = true) : succeeded st = true := by
  unfold Store.updateStatus at h
  cases hp : st.slots p with
  | none => rwa [hp] at h
  | some slot =>
    rw [hp] at h
    cases written with
    | false => exact h
    | true => exact absurd h (by simp [succeeded, Store.diskWrite])

theorem Writes.disk_live (h : Writes st st')
    (hlive : ∀ r, st.disk = some r → st.clock ≤ r.expires) :
    ∀ r, st'.disk = some r → st'.clock ≤ r.expires := by
  intro r hr
  rw [h.clock]
  rcases h.disk with heq | ⟨r', hr', hexp⟩
  · exact hlive r (heq ▸ hr)
  · rw [hr, Option.some.injEq] at hr'
    rw [hr', hexp]
    exact Nat.le_add_right _ _

theorem Writes.slot_live (h : Writes st st')
    (hlive : ∀ p slot, st.slots p = some slot → st.clock ≤ slot.expires) :
    ∀ p slot, st'.slots p = some slot → st'.clock ≤ slot.expires := by
  intro p slot hp
  rw [h.clock]
  rcases h.slots p slot hp with hexp | ⟨old, hold, hexp⟩
  · rw [hexp]
    exact Nat.le_add_right _ _
  · rw [hexp]
    exact hlive p old hold

theorem Writes.disk_ne_none (h : Writes st st') (hne : st.disk ≠ none) :
    st'.disk ≠ none := by
  rcases h.disk with heq | ⟨r, hr, -⟩
  · rw [heq]
    exact hne
  · rw [hr]
    exact Option.some_ne_none r

theorem Inv.disk_of_running (h : Inv s) {i p : ℕ} (hi : s.running[i]? = some p) :
    s.store.disk ≠ none ∧ s.starts ≠ 0 := by
  have hlen : i < s.running.length := (List.getElem?_eq_some_iff.1 hi).1
  have hcount := h.counted
  have hne : s.starts ≠ 0 := by omega
  exact ⟨fun hnone => hne (h.started_iff.1 hnone), hne⟩

theorem Inv.step (h : Inv s) (a : Action) (hdom : InLifetime s a) :
    Inv (Finalize.step token s a) := by
  have hsweep : ∀ p, s.store.sweep p = s.store :=
    fun p => Store.sweep_of_live fun slot hp => h.slot_live p slot hp
  cases a with
  | get p =>
    simp only [Finalize.step, Store.get, hsweep]
    exact h
  | check p =>
    simp only [Finalize.step]
    split
    · exact h
    · exact ⟨h.disk_live, h.slot_live, h.started_iff, h.counted, h.finished_pos⟩
  | enter i room written =>
    simp only [Finalize.step]
    cases hi : s.pending[i]? with
    | none => exact h
    | some p =>
      simp only [claim_eq fun slot hp => h.slot_live p slot hp]
      split
      · -- the run that begins has its slot and its file
        have hset : Writes s.store (s.store.setSlot p (some (startedSlot s.store token))) :=
          (writes_refl s.store).setSlot p _ (.inl rfl)
        have hw := hset.diskWrite token 202 processing true
        have hcount := h.counted
        refine ⟨hw.disk_live h.disk_live, hw.slot_live h.slot_live, ?_, ?_, ?_⟩
        · exact iff_of_false (Option.some_ne_none _) (Nat.succ_ne_zero _)
        · simp only [if_true, List.length_append, List.length_singleton]
          omega
        · exact fun hs => absurd hs (by simp [succeeded, Store.diskWrite])
      · exact ⟨h.disk_live, h.slot_live, h.started_iff, h.counted, h.finished_pos⟩
  | progress i body written =>
    simp only [Finalize.step]
    cases hi : s.running[i]? with
    | none => exact h
    | some p =>
      have hw := updateStatus_writes s.store p body written
      rcases h.disk_of_running hi with ⟨hdisk, hstarts⟩
      refine ⟨hw.disk_live h.disk_live, hw.slot_live h.slot_live, ?_, h.counted, ?_⟩
      · exact iff_of_false (hw.disk_ne_none hdisk) hstarts
      · exact fun hs => h.finished_pos (updateStatus_succeeded _ _ _ _ hs)
  | finish i statusCode body written =>
    simp only [Finalize.step]
    cases hi : s.running[i]? with
    | none => exact h
    | some p =>
      have hw := markDone_writes s.store p statusCode body written
      rcases h.disk_of_running hi with ⟨hdisk, hstarts⟩
      have hlen : i < s.running.length := (List.getElem?_eq_some_iff.1 hi).1
      have hcount := h.counted
      refine ⟨hw.disk_live h.disk_live, hw.slot_live h.slot_live, ?_, ?_, ?_⟩
      · exact iff_of_false (hw.disk_ne_none hdisk) hstarts
      · simp only [List.length_eraseIdx_of_lt hlen]
        omega
      · exact fun _ => Nat.succ_pos _
  | tick seconds => exact ⟨hdom.1, hdom.2, h.started_iff, h.counted, h.finished_pos⟩

/-- A step keeps the single run exactly when the process that enters is alone. -/
theorem Inv.step_startedOnce_iff (h : Inv s) (hs : StartedOnce s) (a : Action) :
    StartedOnce (Finalize.step token s a) ↔ Alone s a := by
  cases a with
  | get p => exact iff_of_true ⟨hs.starts_le, hs.kept⟩ trivial
  | check p =>
    refine iff_of_true ?_ trivial
    simp only [Finalize.step]
    split
    · exact hs
    · exact ⟨hs.starts_le, hs.kept⟩
  | enter i room written =>
    simp only [Finalize.step, Alone]
    cases hi : s.pending[i]? with
    | none => exact iff_of_true hs fun p hp => nomatch hp
    | some p =>
      simp only [claim_eq fun slot hp => h.slot_live p slot hp, Option.some.injEq, forall_eq']
      by_cases hcan : room = true ∧ written = true ∧ s.store.slots p = none
      · rw [if_pos hcan]
        have hle := hs.starts_le
        constructor
        · intro honce _ _ _
          have hle' : s.starts + 1 ≤ 1 := honce.starts_le
          exact h.started_iff.2 (by omega)
        · intro halone
          have hzero := h.started_iff.1 (halone hcan.1 hcan.2.1 hcan.2.2)
          refine ⟨?_, hs.kept⟩
          simp [hzero]
      · rw [if_neg hcan]
        refine iff_of_true ⟨hs.starts_le, hs.kept⟩ ?_
        exact fun hroom hwritten hnone => absurd ⟨hroom, hwritten, hnone⟩ hcan
  | progress i body written =>
    refine iff_of_true ?_ trivial
    simp only [Finalize.step]
    split
    · exact hs
    · exact ⟨hs.starts_le, hs.kept⟩
  | finish i statusCode body written =>
    refine iff_of_true ?_ trivial
    simp only [Finalize.step]
    cases hi : s.running[i]? with
    | none => exact hs
    | some p =>
      -- the only run has recorded nothing yet, so there is no 200 to lose
      have hlen : i < s.running.length := (List.getElem?_eq_some_iff.1 hi).1
      have hcount := h.counted
      have hle := hs.starts_le
      have hno : succeeded s.store = false := by
        cases hsucc : succeeded s.store with
        | false => rfl
        | true =>
          have hpos := h.finished_pos hsucc
          omega
      refine ⟨hle, ?_⟩
      simp only [hs.kept, hno, Bool.false_and, Bool.or_self]
  | tick seconds => exact iff_of_true ⟨hs.starts_le, hs.kept⟩ trivial

end

/-- In every run within the lifetime of the records, of any number of processes, the
upload is started once at most and its success is kept, in all states reached, exactly
when every process that starts it is alone. -/
theorem started_once_iff (token : Bytes) {as : List Action}
    (hlife : Run.AllSteps (step token) InLifetime start as) :
    Run.AllSteps (step token) Alone start as ↔
      ∀ t, Run.Reaches (step token) start as t → StartedOnce t :=
  hlife.iff_forall_reaches (fun _ a h hdom => h.step a hdom)
    (fun _ a h _ hs => h.step_startedOnce_iff hs a) inv_start ⟨Nat.zero_le 1, rfl⟩

/-- One process starts the upload; a second one sees the file. -/
def oneStart : List Action := [.check 0, .enter 0 true true, .check 1, .finish 0 200 [] true]

theorem oneStart_started_once : StartedOnce (Run.run (step (bytes "t")) start oneStart) := by
  have hlife : Run.AllSteps (step (bytes "t")) InLifetime start oneStart := by
    simp [oneStart, Run.AllSteps, InLifetime]
  refine (started_once_iff (bytes "t") hlife).1 ?_ _ (Run.reaches_run start oneStart)
  refine ⟨trivial, ?_, trivial, trivial, trivial⟩
  intro p _ _ _ _
  rfl

/-- Two processes look for the file before either writes it. -/
def twoStarts : List Action :=
  [.check 0, .check 1, .enter 0 true true, .enter 0 true true, .finish 0 200 [] true,
    .finish 0 409 [] true]

theorem upload_finalized_twice :
    (Run.run (step (bytes "t")) start twoStarts).starts = 2 ∧
      (Run.run (step (bytes "t")) start twoStarts).overwritten = true ∧
      ¬∀ as, Run.AllSteps (step (bytes "t")) InLifetime start as →
        ∀ t, Run.Reaches (step (bytes "t")) start as t → StartedOnce t := by
  have htwice : (Run.run (step (bytes "t")) start twoStarts).starts = 2 := by decide +kernel
  refine ⟨htwice, by decide +kernel, ?_⟩
  intro hall
  have hlife : Run.AllSteps (step (bytes "t")) InLifetime start twoStarts := by
    simp [twoStarts, Run.AllSteps, InLifetime]
  have hle := (hall twoStarts hlife _ (Run.reaches_run start twoStarts)).starts_le
  omega

end FlyBoard.Tasfa.Finalize

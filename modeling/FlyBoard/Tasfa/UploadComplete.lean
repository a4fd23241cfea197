import FlyBoard.Tasfa.FinalizeCache

/-!
# Completing an upload (`src/handlers/tasfa/upload.c`)

`handler_file_upload_complete` answers from the finalize record while there is one, and
schedules a finalize run otherwise. The run may ask for chunks again: then the client
sends them and completes once more.
-/

namespace FlyBoard.Tasfa.Complete

open Bytes Finalize

/-- What completion reads of the session: its token and its received bitmap. -/
structure UploadSession where
  uploadToken : Bytes
  receivedBitmap : List Bool
deriving DecidableEq

/-- The finalize record, the session, the processes of the runs that are scheduled, and
whether the last outcome recorded was a failure that no run has followed. -/
structure System where
  store : Store
  session : Option UploadSession
  running : List ℕ
  failed : Bool

inductive Reply
  | answer (statusCode : ℤ) (body : Bytes)
  /-- 409 with the status of the session. -/
  | missing
  /-- 202: a run was scheduled. -/
  | started
deriving DecidableEq

/-- `session_error_json`, as text -/
def sessionErrorJson (error : String) : Bytes :=
  bytes ("\x7b\"ok\":false,\"error\":\"" ++ error ++ "\"\x7d")

def gone : Reply := .answer 404 (sessionErrorJson "upload session not found")

/-- What a request meets: a free slot, a writable file, memory for the job, a pool that
takes it, and a writable file for the outcome if the pool does not. -/
structure Env where
  room : Bool
  written : Bool
  allocated : Bool
  scheduled : Bool
  recorded : Bool

def answerStatus (r : Status) : Reply := .answer (if r.active then 202 else r.statusCode) r.body

namespace System

/-- `finalize_cache_mark_done` -/
def markDone (s : System) (p : ℕ) (statusCode : ℤ) (body : Bytes) (written : Bool) : System :=
  { s with
    store := s.store.markDone p statusCode body written
    failed := if (s.store.slots p).isSome then decide (statusCode ≠ 200) else s.failed }

/-- The end of `handler_file_upload_complete`, for a run that was marked as started. -/
def schedule (s : System) (p : ℕ) (env : Env) : Reply × System :=
  if !env.allocated then
    (.answer 500 (sessionErrorJson "finalize queue failed"),
      s.markDone p 500 (sessionErrorJson "finalize queue failed") env.recorded)
  else if !env.scheduled then
    (.answer 503 (sessionErrorJson "finalize executor unavailable"),
      s.markDone p 503 (sessionErrorJson "finalize executor unavailable") env.recorded)
  else (.started, { s with running := s.running ++ [p], failed := false })

/-- `handler_file_upload_complete` in process `p` -/
def handlerFileUploadComplete (s : System) (p : ℕ) (uploadToken : Bytes) (env : Env) :
    Reply × System :=
  let r := s.store.get p uploadToken
  let s := { s with store := r.2 }
  match r.1 with
  | some status => (answerStatus status, s)
  | none =>
    match s.session with
    | none => (gone, s)
    | some session =>
      if uploadToken ≠ session.uploadToken then
        (.answer 403 (sessionErrorJson "upload completion rejected"), s)
      else if !session.receivedBitmap.all id then (.missing, s)
      else
        let m := s.store.markStarted p uploadToken env.room env.written
        let s := { s with store := m.2 }
        if m.1 then s.schedule p env
        else
          let r := s.store.get p uploadToken
          let s := { s with store := r.2 }
          match r.1 with
          | some status => (answerStatus status, s)
          | none => (.answer 503 (sessionErrorJson "finalize queue full"), s)

/-- `handler_file_upload`, for a chunk that it stores -/
def receive (s : System) (chunkIndex : ℕ) : System :=
  { s with session := s.session.map fun u =>
      { u with receivedBitmap := u.receivedBitmap.set chunkIndex true } }

end System

inductive Action
  | chunk (chunkIndex : ℕ)
  | complete (p : ℕ) (uploadToken : Bytes) (env : Env)
  | progress (i : ℕ) (body : Bytes) (written : Bool)
  /-- A worker ends; `left` is the bitmap that it leaves, if it leaves the session. -/
  | finish (i : ℕ) (statusCode : ℤ) (body : Bytes) (written : Bool) (left : Option (List Bool))
  | tick (seconds : ℕ)

def step (s : System) : Action → System
  | .chunk chunkIndex => s.receive chunkIndex
  | .complete p uploadToken env => (s.handlerFileUploadComplete p uploadToken env).2
  | .progress i body written =>
    match s.running[i]? with
    | none => s
    | some p => { s with store := s.store.updateStatus p body written }
  | .finish i statusCode body written left =>
    match s.running[i]? with
    | none => s
    | some p =>
      { s.markDone p statusCode body written with
        running := s.running.eraseIdx i
        session := s.session.bind fun u => left.map fun bitmap => { u with receivedBitmap := bitmap } }
  | .tick seconds => { s with store := { s.store with clock := s.store.clock + seconds } }

def start (uploadToken : Bytes) (chunkCount : ℕ) : System :=
  ⟨⟨0, fun _ => none, none⟩, some ⟨uploadToken, List.replicate chunkCount false⟩, [], false⟩

/-! ## Retrying a failed run -/

/-- After a failure, completing starts a new run or says that the session is gone. -/
def Retries (s : System) : Action → Prop
  | .complete p uploadToken env => s.failed = true →
      (s.handlerFileUploadComplete p uploadToken env).1 = .started ∨
        (s.handlerFileUploadComplete p uploadToken env).1 = gone
  | _ => True

/-- After a failure, the client completes when neither its process nor the file has a
record that has not expired (unless that record says that the session is gone), and then
the session is gone or a run can be started. -/
def Expired (s : System) : Action → Prop
  | .complete p uploadToken env => s.failed = true →
      match s.store.lookup p uploadToken with
      | some status => answerStatus status = gone
      | none => ∀ session, s.session = some session →
          uploadToken = session.uploadToken ∧ session.receivedBitmap.all id = true ∧
            env.room = true ∧ env.written = true ∧ env.allocated = true ∧ env.scheduled = true
  | _ => True

/-! ## The records' tokens -/

/-- Every record carries this token. -/
structure Tokens (token : Bytes) (st : Store) : Prop where
  slots : ∀ p slot, st.slots p = some slot → slot.uploadToken = token
  disk : ∀ r, st.disk = some r → r.uploadToken = token

section

variable {token : Bytes} {st : Store}

theorem Tokens.setSlot (h : Tokens token st) (p : ℕ) {slot : Option Finalize.Slot}
    (hslot : ∀ x, slot = some x → x.uploadToken = token) : Tokens token (st.setSlot p slot) := by
  refine ⟨?_, h.disk⟩
  intro q x hq
  rw [Store.setSlot_slots] at hq
  split at hq
  · exact hslot x hq
  · exact h.slots q x hq

theorem Tokens.setSlot_some (h : Tokens token st) (p : ℕ) {new : Finalize.Slot}
    (hnew : new.uploadToken = token) : Tokens token (st.setSlot p (some new)) := by
  apply h.setSlot
  rintro x ⟨⟩
  exact hnew

theorem Tokens.diskWrite (h : Tokens token st) (statusCode : ℤ) (body : Bytes) (active : Bool) :
    Tokens token (st.diskWrite token statusCode body active) := by
  refine ⟨h.slots, ?_⟩
  intro r hr
  rw [← Option.some.inj hr]

theorem Tokens.sweep (h : Tokens token st) (p : ℕ) : Tokens token (st.sweep p) := by
  apply h.setSlot
  intro slot hslot
  exact h.slots p slot (Option.filter_eq_some_iff.1 hslot).1

theorem Tokens.claim (h : Tokens token st) (p : ℕ) (room written : Bool) :
    Tokens token (st.claim p token room written).2 := by
  have hsweep := h.sweep p
  unfold Store.claim
  simp only
  split
  · exact hsweep
  · split
    · exact (hsweep.setSlot_some p rfl).diskWrite 202 processing true
    · exact hsweep

theorem Tokens.markStarted (h : Tokens token st) (p : ℕ) (room written : Bool) :
    Tokens token (st.markStarted p token room written).2 := by
  unfold Store.markStarted
  split
  · exact h
  · exact h.claim p room written

theorem Tokens.markDone (h : Tokens token st) (p : ℕ) (statusCode : ℤ) (body : Bytes)
    (written : Bool) : Tokens token (st.markDone p statusCode body written) := by
  unfold Store.markDone
  split
  · exact h
  · next slot hp =>
    have htoken := h.slots p slot hp
    simp only
    split
    · rw [htoken]
      exact (h.setSlot_some p rfl).diskWrite _ _ _
    · exact h.setSlot_some p htoken

theorem Tokens.updateStatus (h : Tokens token st) (p : ℕ) (body : Bytes) (written : Bool) :
    Tokens token (st.updateStatus p body written) := by
  unfold Store.updateStatus
  split
  · exact h
  · next slot hp =>
    have htoken := h.slots p slot hp
    simp only
    split
    · rw [htoken]
      exact (h.setSlot_some p rfl).diskWrite _ _ _
    · exact h.setSlot_some p htoken

/-! ## The answer to a completion -/

theorem live_sweep (st : Store) (p : ℕ) : (st.sweep p).live p = st.live p := by
  simp [Store.live, Store.sweep, Store.setSlot, Option.filter_filter]

theorem sweep_sweep (st : Store) (p : ℕ) : (st.sweep p).sweep p = st.sweep p := by
  conv_lhs => rw [Store.sweep, live_sweep]
  simp [Store.sweep, Store.setSlot]

theorem lookup_sweep (st : Store) (p : ℕ) (uploadToken : Bytes) :
    (st.sweep p).lookup p uploadToken = st.lookup p uploadToken := by
  rw [Store.lookup, Store.lookup, live_sweep]
  rfl

theorem markStarted_of_lookup (h : Tokens token st) {p : ℕ} (hnone : st.lookup p token = none)
    (room written : Bool) :
    ((st.sweep p).markStarted p token room written).1 = (room && written) ∧
      ((room && written) = false →
        ((st.sweep p).markStarted p token room written).2 = st.sweep p) := by
  have hlive : st.live p = none := by
    cases hl : st.live p with
    | none => rfl
    | some slot =>
      have htoken := h.slots p slot (Option.filter_eq_some_iff.1 hl).1
      simp [Store.lookup, hl, htoken] at hnone
  have hfile : st.diskGet token = none := by simpa [Store.lookup, hlive] using hnone
  have hdisk : (st.sweep p).diskGet token = none := hfile
  have hslot : (st.sweep p).slots p = none := by
    simp [Store.sweep, Store.setSlot, hlive]
  simp only [Store.markStarted, hdisk, Store.claim, sweep_sweep, hslot]
  cases room && written <;> simp

/-- The records and the session carry the token of the upload. -/
structure Inv (token : Bytes) (s : System) : Prop where
  tokens : Tokens token s.store
  session : ∀ session, s.session = some session → session.uploadToken = token

variable {s : System}

/-- The answer of the handler, where its second look at the record has nothing to find. -/
theorem handlerFileUploadComplete_reply (h : Inv token s) (p : ℕ) (uploadToken : Bytes)
    (env : Env) :
    (s.handlerFileUploadComplete p uploadToken env).1 =
      match s.store.lookup p uploadToken with
      | some status => answerStatus status
      | none =>
        match s.session with
        | none => gone
        | some session =>
          if uploadToken ≠ session.uploadToken then
            .answer 403 (sessionErrorJson "upload completion rejected")
          else if !session.receivedBitmap.all id then .missing
          else if !(env.room && env.written) then
            .answer 503 (sessionErrorJson "finalize queue full")
          else if !env.allocated then .answer 500 (sessionErrorJson "finalize queue failed")
          else if !env.scheduled then
            .answer 503 (sessionErrorJson "finalize executor unavailable")
          else .started := by
  unfold System.handlerFileUploadComplete
  simp only [Store.get]
  cases hlook : s.store.lookup p uploadToken with
  | some status => rfl
  | none =>
    cases hsession : s.session with
    | none => rfl
    | some session =>
      simp only
      by_cases htoken : uploadToken ≠ session.uploadToken
      · simp only [if_pos htoken]
      · simp only [if_neg htoken]
        by_cases hall : (!session.receivedBitmap.all id) = true
        · simp only [if_pos hall]
        · simp only [if_neg hall]
          have heq : uploadToken = token := (not_not.1 htoken).trans (h.session session hsession)
          subst heq
          -- the lookup has found nothing for the session's own token, so a run may start
          rcases markStarted_of_lookup h.tokens hlook env.room env.written with ⟨hm, hfalse⟩
          cases hcan : (env.room && env.written) with
          | true =>
            rw [hcan] at hm
            simp only [hm, if_true, System.schedule]
            cases env.allocated <;> cases env.scheduled <;> rfl
          | false =>
            rw [hcan] at hm
            simp only [hm, hfalse hcan, lookup_sweep, hlook]
            rfl

/-- Completing after a failure is answered as it should be exactly when the failure's
record has expired. -/
theorem retries_iff (h : Inv token s) (a : Action) : Expired s a ↔ Retries s a := by
  cases a with
  | complete p uploadToken env =>
    refine imp_congr_right fun _ => ?_
    rw [handlerFileUploadComplete_reply h]
    cases hlook : s.store.lookup p uploadToken with
    | some status => simp [answerStatus]
    | none =>
      cases hsession : s.session with
      | none => simp
      | some session =>
        by_cases htoken : uploadToken = session.uploadToken
        · simp only [Option.some.injEq, forall_eq']
          generalize session.receivedBitmap.all id = received
          cases received <;> cases env.room <;> cases env.written <;> cases env.allocated <;>
            cases env.scheduled <;> simp [htoken, gone, sessionErrorJson]
        · simp [htoken, gone]
  | chunk chunkIndex => exact Iff.rfl
  | progress i body written => exact Iff.rfl
  | finish i statusCode body written left => exact Iff.rfl
  | tick seconds => exact Iff.rfl

theorem Inv.markDone (h : Inv token s) (p : ℕ) (statusCode : ℤ) (body : Bytes) (written : Bool) :
    Inv token (s.markDone p statusCode body written) :=
  ⟨h.tokens.markDone p statusCode body written, h.session⟩

theorem Inv.handlerFileUploadComplete (h : Inv token s) (p : ℕ) (uploadToken : Bytes) (env : Env) :
    Inv token (s.handlerFileUploadComplete p uploadToken env).2 := by
  have hsweep : ∀ st, Tokens token st → Tokens token (st.get p uploadToken).2 :=
    fun st hst => hst.sweep p
  unfold System.handlerFileUploadComplete
  simp only
  split
  · exact ⟨hsweep _ h.tokens, h.session⟩
  · split
    · next hsession => exact ⟨hsweep _ h.tokens, h.session⟩
    · next session hsession =>
      split
      · exact ⟨hsweep _ h.tokens, h.session⟩
      · next htoken =>
        split
        · exact ⟨hsweep _ h.tokens, h.session⟩
        · have heq : uploadToken = token := (not_not.1 htoken).trans (h.session session hsession)
          subst heq
          have hstart := (hsweep _ h.tokens).markStarted p env.room env.written
          split
          · have hinv : Inv uploadToken { s with
                store := ((s.store.get p uploadToken).2.markStarted p uploadToken env.room
                  env.written).2 } := ⟨hstart, h.session⟩
            unfold System.schedule
            split
            · exact hinv.markDone _ _ _ _
            · split
              · exact hinv.markDone _ _ _ _
              · exact ⟨hinv.tokens, hinv.session⟩
          · split <;> exact ⟨hsweep _ hstart, h.session⟩

theorem Inv.step (h : Inv token s) (a : Action) : Inv token (Complete.step s a) := by
  cases a with
  | chunk chunkIndex =>
    -- only the bitmap of the session changes
    refine ⟨h.tokens, ?_⟩
    intro session hsession
    rcases Option.map_eq_some_iff.1 hsession with ⟨u, hu, rfl⟩
    exact h.session u hu
  | complete p uploadToken env => exact h.handlerFileUploadComplete p uploadToken env
  | progress i body written =>
    simp only [Complete.step]
    split
    · exact h
    · exact ⟨h.tokens.updateStatus _ _ _, h.session⟩
  | finish i statusCode body written left =>
    simp only [Complete.step]
    split
    · exact h
    · refine ⟨h.tokens.markDone _ _ _ _, ?_⟩
      intro session hsession
      rcases Option.bind_eq_some_iff.1 hsession with ⟨u, hu, hleft⟩
      rcases Option.map_eq_some_iff.1 hleft with ⟨bitmap, -, rfl⟩
      exact h.session u hu
  | tick seconds => exact ⟨⟨h.tokens.slots, h.tokens.disk⟩, h.session⟩

/-- In every run on one upload, every completion after a recorded failure starts a new
run or finds the session gone exactly when it comes after the record has expired. -/
theorem failed_finalize_retries_iff (uploadToken : Bytes) (chunkCount : ℕ) (as : List Action) :
    Run.AllSteps step Expired (start uploadToken chunkCount) as ↔
      Run.AllSteps step Retries (start uploadToken chunkCount) as := by
  have hstart : Inv uploadToken (start uploadToken chunkCount) := by
    refine ⟨⟨fun _ _ h => (nomatch h), fun _ h => (nomatch h)⟩, ?_⟩
    intro session hsession
    rw [← Option.some.inj hsession]
  have hinv : ∀ s a, Inv uploadToken s → Inv uploadToken (step s a) := fun _ a h => h.step a
  have heq : ∀ s a, Inv uploadToken s → (Expired s a ↔ Retries s a) := fun _ a h => retries_iff h a
  exact Run.allSteps_congr hinv heq hstart as

end

/-! ## A retry that is answered with the old failure -/

def ready : Env := ⟨true, true, true, true, true⟩

/-- A chunk is found damaged, asked for again and sent again. -/
def resent : List Action :=
  [.chunk 0, .complete 0 (bytes "t") ready,
    .finish 0 409 (bytes "needs_retry") true (some [false]), .chunk 0]

theorem resent_upload_fails_again :
    ((Run.run step (start (bytes "t") 1) resent).handlerFileUploadComplete 0 (bytes "t") ready).1 =
        .answer 409 (bytes "needs_retry") ∧
      ¬∀ token n as, Run.AllSteps step Retries (start token n) as := by
  have hanswer : ((Run.run step (start (bytes "t") 1) resent).handlerFileUploadComplete 0
      (bytes "t") ready).1 = .answer 409 (bytes "needs_retry") := by decide +kernel
  refine ⟨hanswer, ?_⟩
  intro hall
  have hsteps := (hall (bytes "t") 1 (resent ++ [.complete 0 (bytes "t") ready])).right
  have hfailed : (Run.run step (start (bytes "t") 1) resent).failed = true := by decide +kernel
  have hreply := hsteps.1 hfailed
  rw [hanswer] at hreply
  exact absurd hreply (by decide +kernel)

end FlyBoard.Tasfa.Complete

import FlyBoard.Lib.Run
import FlyBoard.Lib.Transactions
import Mathlib.Data.Rat.Defs
import Mathlib.Data.List.Nodup

/-!
# Session documents (`src/handlers/tasfa/session.c`, `src/handlers/tasfa/upload.c`)

An upload session keeps what it negotiates in `meta.json` and `state.json`. The chunk
handler and the renegotiate handler load the documents, change them and save them; the
first takes no lock and the second a shared one, so their steps interleave. The received
bitmap, which a load takes from `state.bin`, is left out.
-/

namespace FlyBoard.Tasfa

/-- An entry of `rtt_samples`. -/
structure RttSample where
  chunkIndex : ℤ
  rttMs : ℚ
deriving DecidableEq

/-- `TASFA_RTT_MAX_SAMPLES` -/
def rttMaxSamples : ℕ := 8

/-- `append_rtt_sample`: the oldest samples go. -/
def appendRttSample (samples : List RttSample) (chunkIndex : ℤ) (rttMs : ℚ) : List RttSample :=
  if rttMs < 0 then samples
  else
    let samples := samples ++ [⟨chunkIndex, rttMs⟩]
    samples.drop (samples.length - rttMaxSamples)

namespace SessionMeta

/-- What the handlers read and change of `meta.json`. -/
structure Meta where
  htpRetryTargets : Option (List ℤ)
  rttSamples : List RttSample
  linkRttMs : ℚ
  currentParallelChunks : ℤ
  maxParallelChunks : ℤ
  dispatchPacingMs : ℤ
deriving DecidableEq

/-- `state.json` -/
structure ParallelState where
  currentParallelChunks : ℤ
  maxParallelChunks : ℤ
deriving DecidableEq

structure Files where
  metaJson : Meta
  stateJson : Option ParallelState
deriving DecidableEq

/-- `load_upload_session`: the window is the one of `state.json`. -/
def loadUploadSession (f : Files) : Meta :=
  match f.stateJson with
  | none => f.metaJson
  | some st =>
    { f.metaJson with
      currentParallelChunks := st.currentParallelChunks
      maxParallelChunks := st.maxParallelChunks }

/-- `save_upload_session` -/
def saveUploadSession (f : Files) (root : Meta) : Files := { f with metaJson := root }

/-- `save_upload_session_state` -/
def saveUploadSessionState (f : Files) (root : Meta) : Files :=
  { f with stateJson := some ⟨root.currentParallelChunks, root.maxParallelChunks⟩ }

/-- What a renegotiation asks for, and the configured limit. -/
structure Renegotiation where
  mobile : Bool
  score : ℤ
  suggested : ℤ
  linkRttMs : ℚ
  configuredMax : ℤ
deriving DecidableEq

/-- `choose_upload_window`: the initial and the largest window, and the pacing. -/
def chooseUploadWindow (mobile : Bool) (score configuredMax : ℤ) : ℤ × ℤ × ℤ :=
  let (initialValue, maxValue, pace) : ℤ × ℤ × ℤ :=
    if 45 ≤ score then (32, 48, 0)
    else if 25 ≤ score then (24, 32, 0)
    else if 10 ≤ score then (16, 24, 1)
    else (10, 16, 3)
  let initialValue := max initialValue (if mobile then 4 else 8)
  let maxValue := min maxValue configuredMax
  (min initialValue maxValue, maxValue, pace)

/-- `clamp_int` -/
def clampInt (value minValue maxValue : ℤ) : ℤ :=
  if value < minValue then minValue
  else if maxValue < value then maxValue
  else value

/-- The document that `handler_file_upload_renegotiate` saves. -/
def renegotiate (r : Renegotiation) (root : Meta) : Meta :=
  let (initialParallel, maxParallel, pacingMs) := chooseUploadWindow r.mobile r.score r.configuredMax
  let currentParallel := root.currentParallelChunks
  let currentMax := root.maxParallelChunks
  let maxParallel :=
    if currentMax < r.configuredMax ∧ maxParallel < currentMax then currentMax else maxParallel
  let maxParallel := if r.configuredMax < maxParallel then r.configuredMax else maxParallel
  let initialParallel :=
    if 0 < r.suggested then clampInt r.suggested 1 maxParallel else initialParallel
  let least := (currentParallel * 9).tdiv 10
  let initialParallel := if initialParallel < least then least else initialParallel
  let initialParallel := if maxParallel < initialParallel then maxParallel else initialParallel
  { root with
    linkRttMs := r.linkRttMs
    currentParallelChunks := initialParallel
    maxParallelChunks := maxParallel
    dispatchPacingMs := pacingMs }

def eraseLast (targets : List ℤ) (chunkIndex : ℤ) : List ℤ :=
  (targets.reverse.erase chunkIndex).reverse

/-- A read-modify-write of the session. -/
inductive Update
  | retryDone (chunkIndex : ℤ)
  | rttSample (chunkIndex : ℤ) (rttMs : ℚ)
  | renegotiate (r : Renegotiation)
deriving DecidableEq

def writes : Update → Files → List (Files → Files)
  | .retryDone chunkIndex, f =>
    let root := loadUploadSession f
    match root.htpRetryTargets with
    | none => [id]  -- nothing is saved
    | some targets =>
      [(saveUploadSession · { root with htpRetryTargets := some (eraseLast targets chunkIndex) })]
  | .rttSample chunkIndex rttMs, f =>
    let root := loadUploadSession f
    [(saveUploadSession · { root with
      rttSamples := appendRttSample root.rttSamples chunkIndex rttMs })]
  | .renegotiate r, f =>
    let root := renegotiate r (loadUploadSession f)
    [(saveUploadSession · root), (saveUploadSessionState · root)]

/-- A request: a chunk, with whether it was there already and whether storing it
succeeds, or a renegotiation. -/
inductive Request
  | chunk (chunkIndex : ℤ) (received stored : Bool) (rttMs : Option ℚ)
  | renegotiate (r : Renegotiation)

/-- The chunk is in `htp_retry_targets`. -/
def isRetryTarget (f : Files) (chunkIndex : ℤ) : Bool :=
  match (loadUploadSession f).htpRetryTargets with
  | none => false
  | some targets => targets.contains chunkIndex

def updates (f : Files) : Request → List Update
  | .chunk chunkIndex received stored rttMs =>
    -- a chunk that is there and was not asked for again is acknowledged at once
    if received && !isRetryTarget f chunkIndex then []
    else if !stored then []
    else
      (if received then [.retryDone chunkIndex] else []) ++
        match rttMs with
        | none => []
        | some rtt => if 0 < rtt then [.rttSample chunkIndex rtt] else []
  | .renegotiate r => [.renegotiate r]

/-- A request under way: all its updates, and those it has not begun. -/
structure Client where
  all : List Update
  todo : List Update

structure System where
  db : Transactions.State Files Update
  clients : ℕ → Option Client

inductive Action
  | arrive (i : ℕ) (r : Request)
  /-- The request loads the session for its next update. -/
  | load (i : ℕ)
  /-- It saves `meta.json`, or after that `state.json`. -/
  | save (i : ℕ)

def step (s : System) : Action → System
  | .arrive i r =>
    match s.clients i with
    | some _ => s
    | none =>
      let us := updates s.db.store r
      { s with clients := Function.update s.clients i (some ⟨us, us⟩) }
  | .load i =>
    match s.clients i, s.db.opened i with
    | some ⟨all, u :: todo⟩, none =>
      ⟨Transactions.load writes s.db i u, Function.update s.clients i (some ⟨all, todo⟩)⟩
    | _, _ => s
  | .save i => { s with db := Transactions.write s.db i }

def start (f : Files) : System := ⟨Transactions.start f, fun _ => none⟩

/-! ## No update is lost -/

/-- A save comes from a request that has seen all saves before it. -/
def Undisturbed (s : System) : Action → Prop
  | .save i => Transactions.Undisturbed s.db i
  | _ => True

def Done (s : System) : Prop :=
  Transactions.Quiet s.db ∧ ∀ i c, s.clients i = some c → c.todo = []

def applyAll (f : Files) (us : List Update) : Files := us.foldl (Transactions.apply writes) f

/-- The files are what the updates of all requests give in some order that keeps the
order of each request; and a chunk that was asked for again once, and came, is not asked
for any more. -/
structure Reflects (f : Files) (s : System) : Prop where
  ordered : ∃ order : List (ℕ × Update), s.db.store = applyAll f (order.map Prod.snd) ∧
    ∀ i, (order.filter (·.1 = i)).map Prod.snd = ((s.clients i).map Client.all).getD []
  acknowledged : ∀ i c chunkIndex, s.clients i = some c → .retryDone chunkIndex ∈ c.all →
    ∀ targets, f.metaJson.htpRetryTargets = some targets → targets.Nodup →
      ∀ targets', s.db.store.metaJson.htpRetryTargets = some targets' → chunkIndex ∉ targets'

/-! ### What an update does to the retry targets -/

theorem loadUploadSession_targets (f : Files) :
    (loadUploadSession f).htpRetryTargets = f.metaJson.htpRetryTargets := by
  unfold loadUploadSession
  split <;> rfl

theorem apply_targets (f : Files) (u : Update) :
    (Transactions.apply writes f u).metaJson.htpRetryTargets =
      match u with
      | .retryDone chunkIndex => f.metaJson.htpRetryTargets.map (eraseLast · chunkIndex)
      | _ => f.metaJson.htpRetryTargets := by
  have hload := loadUploadSession_targets f
  cases u with
  | retryDone chunkIndex =>
    simp only [Transactions.apply, writes, hload]
    cases htargets : f.metaJson.htpRetryTargets with
    | none => simpa using htargets
    | some targets => rfl
  | rttSample chunkIndex rttMs => exact hload
  | renegotiate r => exact hload

theorem mem_eraseLast {targets : List ℤ} {a c : ℤ} (h : a ∈ eraseLast targets c) : a ∈ targets :=
  List.mem_reverse.1 (List.mem_of_mem_erase (List.mem_reverse.1 h))

theorem nodup_eraseLast {targets : List ℤ} (h : targets.Nodup) (c : ℤ) :
    (eraseLast targets c).Nodup :=
  List.nodup_reverse.2 ((List.nodup_reverse.2 h).erase c)

theorem not_mem_eraseLast {targets : List ℤ} (h : targets.Nodup) (c : ℤ) :
    c ∉ eraseLast targets c := by
  intro hc
  exact (List.nodup_reverse.2 h).not_mem_erase (List.mem_reverse.1 hc)

theorem applyAll_targets {us : List Update} {f : Files} {targets targets' : List ℤ}
    (h : f.metaJson.htpRetryTargets = some targets)
    (h' : (applyAll f us).metaJson.htpRetryTargets = some targets') :
    (∀ a ∈ targets', a ∈ targets) ∧
      (targets.Nodup → ∀ c, .retryDone c ∈ us → c ∉ targets') := by
  -- the targets of the first step are those that the induction goes on with
  induction us generalizing f targets with
  | nil =>
    have heq : targets = targets' := Option.some.inj (h.symm.trans h')
    subst heq
    exact ⟨fun _ ha => ha, fun _ _ hc => absurd hc List.not_mem_nil⟩
  | cons u us ih =>
    have hu := apply_targets f u
    have hkeep : ∀ next, (Transactions.apply writes f u).metaJson.htpRetryTargets = some next →
        (∀ a ∈ next, a ∈ targets) → (targets.Nodup → next.Nodup) →
        (targets.Nodup → ∀ c, u = .retryDone c → c ∉ next) →
        (∀ a ∈ targets', a ∈ targets) ∧
          (targets.Nodup → ∀ c, .retryDone c ∈ u :: us → c ∉ targets') := by
      intro next hnext hsub hnodup hgone
      rcases ih hnext h' with ⟨hmem, hdone⟩
      refine ⟨fun a ha => hsub a (hmem a ha), ?_⟩
      intro hn c hc
      rcases List.mem_cons.1 hc with heq | hc
      · exact fun ha => hgone hn c heq.symm (hmem c ha)
      · exact hdone (hnodup hn) c hc
    cases u with
    | retryDone c =>
      rw [h] at hu
      refine hkeep _ hu (fun _ ha => mem_eraseLast ha) (fun hn => nodup_eraseLast hn c) ?_
      intro hn c' heq
      rw [← Update.retryDone.inj heq]
      exact not_mem_eraseLast hn c
    | rttSample c rttMs =>
      exact hkeep _ (hu.trans h) (fun _ ha => ha) id (fun _ _ heq => nomatch heq)
    | renegotiate r =>
      exact hkeep _ (hu.trans h) (fun _ ha => ha) id (fun _ _ heq => nomatch heq)

/-! ### Runs -/

/-- The updates that a request has begun and those it has not are all its updates. -/
def Booked (s : System) : Prop :=
  ∀ i, Transactions.history s.db i ++ ((s.clients i).map Client.todo).getD [] =
    ((s.clients i).map Client.all).getD []

theorem Booked.step {s : System} (h : Booked s) (a : Action) : Booked (SessionMeta.step s a) := by
  cases a with
  | arrive i r =>
    simp only [SessionMeta.step]
    cases hi : s.clients i with
    | some c => exact h
    | none =>
      intro j
      by_cases hji : j = i
      · -- who has not come has begun nothing
        subst hji
        have hj := h j
        simp only [hi, Option.map_none, Option.getD_none, List.append_nil] at hj
        simp [hj]
      · simpa [Function.update_of_ne hji] using h j
  | load i =>
    simp only [SessionMeta.step]
    split
    · next all u todo hi hopen =>
      intro j
      rw [Transactions.history_load hopen]
      by_cases hji : j = i
      · subst hji
        have hj := h j
        simp only [hi, Option.map_some, Option.getD_some] at hj
        simp [← hj]
      · simpa [Function.update_of_ne hji, hji] using h j
    · exact h
  | save i =>
    intro j
    simpa only [SessionMeta.step, Transactions.history_write] using h j

theorem inv_step {f : Files} {s : System} (h : Transactions.Inv writes f s.db) (a : Action)
    (hu : Undisturbed s a) : Transactions.Inv writes f (step s a).db := by
  cases a with
  | arrive i r =>
    simp only [step]
    split <;> exact h
  | load i =>
    simp only [step]
    split
    · exact h.load _ _
    · exact h
  | save i => exact h.write hu

def asking : Files := ⟨⟨some [3], [], 5, 16, 48, 0⟩, none⟩

def resend : List Action := [.arrive 0 (.chunk 3 true true none), .load 0, .save 0]

/-- While chunk 3 comes again, another chunk adds its RTT sample. -/
def overlapping : List Action :=
  [.arrive 0 (.chunk 3 true true none), .arrive 1 (.chunk 5 false true (some 7)), .load 1, .load 0,
    .save 0, .save 1]

end SessionMeta

end FlyBoard.Tasfa

import FlyBoard.Tasfa.SessionCache
import FlyBoard.Tasfa.SessionMeta

/-!
# Download sessions (`src/handlers/tasfa/download.c`, `src/handlers/tasfa/session.c`)

A download session is a JSON file. Loads go through the session cache; saves and
cleanups reach the file only.
-/

namespace FlyBoard.Tasfa.Download

open Bytes SessionCache

/-- What the chunk and complete handlers read of a session's `meta.json`. -/
structure DownloadSession where
  sessionToken : Bytes
  expiresAt : ℤ
  chunkCount : ℤ
  chunkSize : ℤ
  fileId : ℤ
  receivedChunks : ℤ
  rttSamples : List RttSample
deriving DecidableEq

/-- `TASFA_DOWNLOAD_RESPONSE_BYTES_MAX` -/
def responseBytesMax : ℤ := 128 * 1024 * 1024

/-- The chunks that one response covers: 1 to 64, as many as fit into the response
limit, and none after the last. -/
def chunkSpan (chunkSize chunkCount chunkIndex span : ℤ) : ℤ :=
  let span := if span < 1 then 1 else span
  let span := if 64 < span then 64 else span
  let maxSpanByBytes := if 0 < chunkSize then responseBytesMax / chunkSize else 1
  let maxSpanByBytes := if maxSpanByBytes < 1 then 1 else maxSpanByBytes
  let span := if maxSpanByBytes < span then maxSpanByBytes else span
  if chunkCount < chunkIndex + span then chunkCount - chunkIndex else span

/-- A chunk request, and what the handler finds of the client and of the stored file. -/
structure ChunkRequest where
  sessionToken : Bytes
  chunkIndex : ℤ
  span : ℤ
  chunkRttMs : Option ℚ
  connected : Bool
  sizeOk : Bool

/-- What a handler does to the session that it has loaded. -/
inductive Write
  | nothing
  | cleanup
  | save (doc : DownloadSession)
deriving DecidableEq

/-- `handler_file_download_chunk`, after the load. -/
def chunkWrite (now : ℕ) (doc : DownloadSession) (req : ChunkRequest) : Write :=
  if !req.connected then .cleanup
  else if req.sessionToken ≠ doc.sessionToken then .nothing
  else if 0 < doc.expiresAt ∧ doc.expiresAt < now then .cleanup
  else if req.chunkIndex < 0 ∨ doc.chunkCount ≤ req.chunkIndex then .nothing
  else if !req.sizeOk then .nothing
  else
    let span := chunkSpan doc.chunkSize doc.chunkCount req.chunkIndex req.span
    .save { doc with
      receivedChunks := min (doc.receivedChunks + span) doc.chunkCount
      rttSamples := match req.chunkRttMs with
        | some rtt => if 0 < rtt then appendRttSample doc.rttSamples req.chunkIndex rtt
          else doc.rttSamples
        | none => doc.rttSamples }

/-- The cache, the session's file, the file's download counter, and how often the
session's file was created. -/
structure State where
  clock : ℕ
  cache : SessionCache.State DownloadSession
  disk : Option DownloadSession
  downloads : ℕ
  created : ℕ

inductive Action
  | save (doc : DownloadSession)
  | load
  | cleanup
  | chunk (req : ChunkRequest)
  | complete (sessionToken : Bytes)
  | tick (seconds : ℕ)

namespace State

/-- `load_download_session_cached` -/
def load (id : Bytes) (s : State) : Option DownloadSession × State :=
  let r := s.cache.loadDownloadSessionCached id s.disk s.clock s.clock
  (r.1, { s with cache := r.2 })

/-- `save_download_session` -/
def save (s : State) (doc : DownloadSession) : State :=
  { s with disk := some doc, created := if s.disk.isSome then s.created else s.created + 1 }

/-- `cleanup_download_session` -/
def cleanup (s : State) : State := { s with disk := none }

/-- `db_file_increment_download` -/
def incrementDownload (s : State) : State := { s with downloads := s.downloads + 1 }

def write (s : State) : Write → State
  | .nothing => s
  | .cleanup => s.cleanup
  | .save doc => s.save doc

end State

/-- `handler_file_download_chunk` -/
def handlerFileDownloadChunk (id : Bytes) (s : State) (req : ChunkRequest) : State :=
  match s.load id with
  | (none, s) => s
  | (some doc, s) => s.write (chunkWrite s.clock doc req)

/-- `handler_file_download_complete` -/
def handlerFileDownloadComplete (id : Bytes) (s : State) (sessionToken : Bytes) : State :=
  match s.load id with
  | (none, s) => s
  | (some doc, s) =>
    if sessionToken ≠ doc.sessionToken then s
    else
      let s := if 0 < doc.fileId then s.incrementDownload else s
      s.cleanup

def step (id : Bytes) (s : State) : Action → State
  | .save doc => s.save doc
  | .load => (s.load id).2
  | .cleanup => s.cleanup
  | .chunk req => handlerFileDownloadChunk id s req
  | .complete sessionToken => handlerFileDownloadComplete id s sessionToken
  | .tick seconds => { s with clock := s.clock + seconds }

def start : State := ⟨0, SessionCache.start, none, 0, 0⟩

/-! ## Reading what was saved -/

def cached (id : Bytes) (s : State) : Option DownloadSession :=
  (s.cache.lookup .jsonStr id s.clock).1.map Slot.data

/-- A load returns what the last save wrote, and nothing after a cleanup. -/
def Current (id : Bytes) (s : State) : Prop := (s.load id).1 = s.disk

/-- Loads are current, and every session created counts as one download at most: none
while it is there. -/
structure Good (id : Bytes) (s : State) : Prop where
  current : Current id s
  once : s.downloads + s.disk.isSome.toNat ≤ s.created

/-- The step changes or removes no session that the cache has. -/
def Fresh (id : Bytes) (s : State) : Action → Prop
  | .load | .tick _ => True
  | .save doc => ∀ old, cached id s = some old → old = doc
  | .cleanup => cached id s = none
  | .chunk req => Stores s.cache .jsonStr id → ∀ doc, s.disk = some doc →
      chunkWrite s.clock doc req = .nothing ∨ chunkWrite s.clock doc req = .save doc
  | .complete sessionToken => Stores s.cache .jsonStr id → ∀ doc, s.disk = some doc →
      sessionToken ≠ doc.sessionToken

section

variable {id : Bytes} {s : State} {doc : DownloadSession}

theorem load_answer : (s.load id).1 = (cached id s).or s.disk :=
  loadCached_answer .jsonStr downloadTtl s.cache id s.disk s.clock s.clock

theorem current_iff : Current id s ↔ ∀ doc, cached id s = some doc → s.disk = some doc := by
  unfold Current
  rw [load_answer]
  cases cached id s with
  | none => simp
  | some old => simp [eq_comm]

theorem current_save_iff (doc : DownloadSession) :
    Current id (s.save doc) ↔ ∀ old, cached id s = some old → old = doc := by
  rw [current_iff]
  constructor
  · intro h old hold
    exact (Option.some.inj (h old hold)).symm
  · intro h old hold
    rw [h old hold]
    rfl

theorem current_cleanup_iff : Current id s.cleanup ↔ cached id s = none := by
  rw [current_iff, Option.eq_none_iff_forall_ne_some]
  refine forall_congr' fun old => ?_
  simp [State.cleanup, cached]

theorem cached_load (hfit : KeysFit s.cache) (hc : Current id s) :
    (Stores s.cache .jsonStr id → cached id (s.load id).2 = s.disk) ∧
      (¬Stores s.cache .jsonStr id → cached id (s.load id).2 = none) := by
  constructor
  · intro hstores
    rw [← hc]
    exact hfit.lookup_loadCached hstores downloadTtl s.disk s.clock
  · intro hstores
    have hf := hfit.found_loadCached hstores downloadTtl s.disk s.clock s.clock
    have hl := lookup_of_not_found hf s.clock
    exact congrArg (fun r => r.1.map Slot.data) hl

theorem forall_cached_load (hfit : KeysFit s.cache) (hc : Current id s)
    (hdisk : s.disk = some doc) (p : DownloadSession → Prop) :
    (∀ old, cached id (s.load id).2 = some old → p old) ↔
      (Stores s.cache .jsonStr id → p doc) := by
  rcases cached_load hfit hc with ⟨hyes, hno⟩
  by_cases hstores : Stores s.cache .jsonStr id
  · rw [hyes hstores, hdisk]
    simp [hstores]
  · rw [hno hstores]
    simp [hstores]

theorem cached_load_eq_none (hfit : KeysFit s.cache) (hc : Current id s)
    (hdisk : s.disk = some doc) :
    cached id (s.load id).2 = none ↔ ¬Stores s.cache .jsonStr id := by
  rw [Option.eq_none_iff_forall_ne_some]
  exact forall_cached_load hfit hc hdisk fun _ => False

theorem current_load (hfit : KeysFit s.cache) (hc : Current id s) : Current id (s.load id).2 := by
  rcases cached_load hfit hc with ⟨hyes, hno⟩
  rw [current_iff]
  intro doc hdoc
  by_cases hstores : Stores s.cache .jsonStr id
  · rw [← hdoc, hyes hstores]
    rfl
  · rw [hno hstores] at hdoc
    exact nomatch hdoc

theorem cached_tick {seconds : ℕ}
    (h : cached id { s with clock := s.clock + seconds } = some doc) : cached id s = some doc := by
  cases hf : s.cache.found .jsonStr id with
  | none => simp [cached, lookup_of_not_found hf] at h
  | some r =>
    rcases r with ⟨i, e⟩
    by_cases hexp : s.clock + seconds ≤ e.expires
    · have hbefore : s.clock ≤ e.expires := Nat.le_of_add_right_le hexp
      simpa [cached, lookup_of_found hf hexp, lookup_of_found hf hbefore] using h
    · simp [cached, SessionCache.State.lookup, hf, hexp] at h

theorem handlerFileDownloadChunk_eq (hc : Current id s) (req : ChunkRequest) :
    handlerFileDownloadChunk id s req =
      match s.disk with
      | none => (s.load id).2
      | some doc => (s.load id).2.write (chunkWrite s.clock doc req) := by
  unfold handlerFileDownloadChunk
  rw [← hc]
  rcases h : s.load id with ⟨_ | doc, s'⟩
  · rfl
  · have hclock : s'.clock = s.clock := by
      rw [← (congrArg (fun r => r.2.clock) h : (s.load id).2.clock = s'.clock)]
      rfl
    simp only [hclock]

theorem handlerFileDownloadComplete_eq (hc : Current id s) (sessionToken : Bytes) :
    handlerFileDownloadComplete id s sessionToken =
      match s.disk with
      | none => (s.load id).2
      | some doc =>
        if sessionToken ≠ doc.sessionToken then (s.load id).2
        else
          (if 0 < doc.fileId then (s.load id).2.incrementDownload else (s.load id).2).cleanup := by
  unfold handlerFileDownloadComplete
  rw [← hc]
  rcases h : s.load id with ⟨_ | doc, s'⟩ <;> rfl

/-- A step from a state with current loads leads to one exactly when it is fresh. -/
theorem step_current_iff (hfit : KeysFit s.cache) (hc : Current id s) (a : Action) :
    Current id (step id s a) ↔ Fresh id s a := by
  have hload := current_load hfit hc
  cases a with
  | save doc => exact current_save_iff doc
  | load => exact iff_of_true hload trivial
  | cleanup => exact current_cleanup_iff
  | tick seconds =>
    refine iff_of_true (current_iff.2 ?_) trivial
    intro doc hdoc
    exact current_iff.1 hc doc (cached_tick hdoc)
  | chunk req =>
    simp only [step, Fresh, handlerFileDownloadChunk_eq hc]
    cases hdisk : s.disk with
    | none => exact iff_of_true hload fun _ _ h => nomatch h
    | some doc =>
      simp only [Option.some.injEq, forall_eq']
      cases hw : chunkWrite s.clock doc req with
      | nothing => exact iff_of_true hload fun _ => .inl rfl
      | cleanup =>
        simp only [State.write, current_cleanup_iff, reduceCtorEq, or_self]
        exact cached_load_eq_none hfit hc hdisk
      | save doc' =>
        simp only [State.write, current_save_iff, reduceCtorEq, false_or, Write.save.injEq]
        rw [eq_comm]
        exact forall_cached_load hfit hc hdisk (· = doc')
  | complete sessionToken =>
    simp only [step, Fresh, handlerFileDownloadComplete_eq hc]
    cases hdisk : s.disk with
    | none => exact iff_of_true hload fun _ _ h => nomatch h
    | some doc =>
      simp only [Option.some.injEq, forall_eq']
      by_cases htoken : sessionToken ≠ doc.sessionToken
      · simp only [if_pos htoken]
        exact iff_of_true hload fun _ => htoken
      · -- counting the download does not touch the cache
        have hcached : cached id
            (if 0 < doc.fileId then (s.load id).2.incrementDownload else (s.load id).2) =
              cached id (s.load id).2 := by
          split <;> rfl
        rw [if_neg htoken, current_cleanup_iff, hcached]
        simp only [htoken, imp_false]
        exact cached_load_eq_none hfit hc hdisk

/-- Under current loads a session that was cleaned up is not counted again. -/
theorem step_once (hc : Current id s) (h : s.downloads + s.disk.isSome.toNat ≤ s.created)
    (a : Action) :
    (step id s a).downloads + (step id s a).disk.isSome.toNat ≤ (step id s a).created := by
  have hclean : s.downloads + 0 ≤ s.created := by omega
  have hsave : ∀ doc, (s.save doc).downloads + (s.save doc).disk.isSome.toNat ≤
      (s.save doc).created := by
    intro doc
    cases hdisk : s.disk <;> simp_all [State.save]
  cases a with
  | save doc => exact hsave doc
  | load => exact h
  | cleanup => exact hclean
  | tick seconds => exact h
  | chunk req =>
    simp only [step, handlerFileDownloadChunk_eq hc]
    cases hdisk : s.disk with
    | none => exact h
    | some doc =>
      simp only
      cases hw : chunkWrite s.clock doc req with
      | nothing => exact h
      | cleanup => exact hclean
      | save doc' => exact hsave doc'
  | complete sessionToken =>
    simp only [step, handlerFileDownloadComplete_eq hc]
    cases hdisk : s.disk with
    | none => exact h
    | some doc =>
      simp only
      rw [hdisk] at h
      split_ifs
      · exact hdisk ▸ h
      · exact h
      · exact hclean

theorem KeysFit.step (hfit : KeysFit s.cache) (a : Action) :
    KeysFit (Download.step id s a).cache := by
  have hload : KeysFit (s.load id).2.cache := hfit.loadCached _ _ _ _ _ _
  cases a with
  | save doc => exact hfit
  | load => exact hload
  | cleanup => exact hfit
  | tick seconds => exact hfit
  | chunk req =>
    simp only [Download.step, handlerFileDownloadChunk]
    rcases h : s.load id with ⟨_ | doc, s'⟩ <;> rw [h] at hload
    · exact hload
    · simp only
      cases hw : chunkWrite s'.clock doc req <;> exact hload
  | complete sessionToken =>
    simp only [Download.step, handlerFileDownloadComplete]
    rcases h : s.load id with ⟨_ | doc, s'⟩ <;> rw [h] at hload
    · exact hload
    · simp only
      split_ifs <;> exact hload

/-- In every run on one session, every load is current and the session is counted once
at most, in all states reached, exactly when every step is fresh. -/
theorem download_reads_current_iff (id : Bytes) (as : List Action) :
    Run.AllSteps (step id) (Fresh id) start as ↔
      ∀ t, Run.Reaches (step id) start as t → Good id t := by
  have hinv : ∀ s a, KeysFit s.cache → KeysFit (step id s a).cache := fun _ a hs => KeysFit.step hs a
  have hgood : ∀ s a, KeysFit s.cache → Good id s → (Good id (step id s a) ↔ Fresh id s a) := by
    intro s a hs hg
    rw [← step_current_iff hs hg.current a]
    constructor
    · exact fun h => h.current
    · exact fun h => ⟨h, step_once hg.current hg.once a⟩
  have hfit : KeysFit start.cache := fun _ _ h => nomatch h
  have hempty : start.cache.found .jsonStr id = none := by
    cases hf : start.cache.found .jsonStr id with
    | none => rfl
    | some r =>
      rcases r with ⟨i, e⟩
      exact nomatch (State.found_eq_some_iff.1 hf).2.1
  have hcurrent : Current id start := by
    rw [current_iff, cached, lookup_of_not_found hempty]
    exact fun _ h => nomatch h
  exact Run.allSteps_iff_forall_reaches hinv hgood hfit ⟨hcurrent, Nat.le_refl 0⟩ as

end

/-! ## A session that is completed twice -/

def session : DownloadSession := ⟨bytes "token", 0, 3, 8388608, 7, 0, []⟩

def twoCompletes : List Action :=
  [.save session, .complete session.sessionToken, .complete session.sessionToken]

theorem completed_session_is_counted_twice :
    (Run.run (step (bytes "d1")) start twoCompletes).downloads = 2 ∧
      ¬∀ as t, Run.Reaches (step (bytes "d1")) start as t → Good (bytes "d1") t := by
  have htwice : (Run.run (step (bytes "d1")) start twoCompletes).downloads = 2 ∧
      (Run.run (step (bytes "d1")) start twoCompletes).created = 1 := by decide +kernel
  refine ⟨htwice.1, ?_⟩
  intro hall
  have honce := (hall twoCompletes _ (Run.reaches_run start twoCompletes)).once
  omega

end FlyBoard.Tasfa.Download

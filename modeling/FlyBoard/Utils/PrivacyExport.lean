import FlyBoard.Lib.Run
import Mathlib.Data.Int.Notation
import Mathlib.Data.List.Perm.Basic

/-!
# Exports of an account that is removed (`src/utils/privacy.c`, `src/handlers/auth.c`)

An export has a job file, an archive under a temporary name while it is built, and the
archive under its own. A thread for each export builds the archive and publishes it; the
removal of the account revokes its exports, commits `db_user_ghost`, and revokes them
again. The two know of each other through the files and the profile alone, which is gone
from the commit on.

Every file operation and every query is a step, and the steps of all threads interleave.
What a thread asks for may fail at any of them, and each step reads the clock anew. An
unlink does not fail, nor do the calls of the removal besides `db_user_ghost`; a listing of
the directory is one step.
-/

namespace FlyBoard.PrivacyExport

open Run

/-! ## Files -/

inductive JobState where
  | queued | ready | failed
deriving DecidableEq

structure Job where
  state : JobState
  expires : ℕ
deriving DecidableEq

/-- `.job`, `.tar.zst` and `.tar.zst.tmp` -/
inductive File where
  | job | archive | temp
deriving DecidableEq

structure Files where
  job : Option Job
  archive : Bool
  temp : Bool
deriving DecidableEq

def Files.unlink (fs : Files) : File → Files
  | .job => { fs with job := none }
  | .archive => { fs with archive := false }
  | .temp => { fs with temp := false }

/-- `export_ttl` -/
def exportTtl (configured : Option ℤ) : ℕ :=
  let value := configured.getD 900
  if value < 60 then 60 else if 3600 < value then 3600 else value.toNat

/-- What `job_read` finds. What `job_write` has written has an owner, a state and a time. -/
inductive Reading where
  | missing
  /-- the job file and the archive are unlinked next -/
  | expired
  | found (job : Job)
deriving DecidableEq

/-- `job_read` -/
def jobRead (job : Option Job) (now : ℕ) : Reading :=
  match job with
  | none => .missing
  | some j => if j.expires ≤ now then .expired else .found j

/-- The unlinks of a `job_read` that finds an expired job. -/
def expiry : List File := [.job, .archive]

/-- `job_remove` -/
def jobRemove : List File := [.job, .archive, .temp]

/-! ## The threads -/

/-- What the thread of an export does next. -/
inductive Worker where
  /-- `pthread_create` -/
  | starting
  /-- the databases are opened -/
  | opening
  /-- `query_profile` in `privacy_export_build` -/
  | building
  /-- the temporary archive is created -/
  | creating
  /-- it is written -/
  | writing
  /-- `query_profile` -/
  | checking
  /-- `rename` -/
  | publishing
  /-- `job_write` of a ready job -/
  | announcing
  /-- `query_profile` -/
  | rechecking
  /-- `job_read`, after anything has failed -/
  | failing
  /-- `job_write` of a failed job -/
  | marking
  | unlinking (files : List File) (next : Worker)
  | finished
deriving DecidableEq

structure Export where
  owner : ℤ
  files : Files
  worker : Worker
deriving DecidableEq

def Worker.cleaning : Worker := unlinking [.temp, .archive] finished

section

variable (configured : Option ℤ)

/-- `job_write` -/
def Files.write (fs : Files) (state : JobState) (now : ℕ) : Files :=
  { fs with job := some ⟨state, now + exportTtl configured⟩ }

/-- A step of `export_worker`, or the end of `privacy_export_start`. `visible` says that
the profile is there, `ok` that what the step calls succeeds. -/
def Export.work (e : Export) (visible : Bool) (now : ℕ) (ok : Bool) : Export :=
  match e.worker with
  | .starting =>
    if ok then { e with worker := .opening }
    else { e with files := e.files.write configured .failed now, worker := .finished }
  | .opening => { e with worker := if ok then .building else .failing }
  | .building =>
    { e with worker := if ok && visible then .creating else .unlinking [.temp] .failing }
  | .creating =>
    if ok then { e with files := { e.files with temp := true }, worker := .writing }
    else { e with worker := .unlinking [.temp] .failing }
  | .writing => { e with worker := if ok then .checking else .unlinking [.temp] .failing }
  | .checking => { e with worker := if ok && visible then .publishing else .failing }
  | .publishing =>
    if ok && e.files.temp then
      { e with files := { e.files with archive := true, temp := false }, worker := .announcing }
    else { e with worker := .failing }
  | .announcing =>
    if ok then { e with files := e.files.write configured .ready now, worker := .rechecking }
    else { e with worker := .failing }
  | .rechecking =>
    { e with worker := if ok && visible then .finished else .unlinking jobRemove .failing }
  | .failing =>
    match jobRead e.files.job now with
    | .missing => { e with worker := .cleaning }
    | .expired => { e with worker := .unlinking expiry .cleaning }
    | .found _ => { e with worker := .marking }
  | .marking =>
    if ok then { e with files := e.files.write configured .failed now, worker := .cleaning }
    else { e with worker := .cleaning }
  | .unlinking [] next => { e with worker := next }
  | .unlinking (f :: fs) next =>
    { e with files := e.files.unlink f, worker := .unlinking fs next }
  | .finished => e

end

/-- The two calls of `privacy_export_revoke_user`; `db_user_ghost` comes between, and has
succeeded or not. -/
inductive Round where
  | first
  | second (ghosted : Bool)
deriving DecidableEq

inductive Remover where
  | idle
  /-- the directory is listed -/
  | listing (round : Round)
  /-- `job_read` of these jobs, one after the other -/
  | reading (round : Round) (ids : List ℕ)
  | unlinking (round : Round) (id : ℕ) (files : List File) (ids : List ℕ)
  /-- `db_user_ghost` -/
  | committing
  | removed
deriving DecidableEq

/-- What follows a call of `privacy_export_revoke_user`. -/
def Round.next : Round → Remover
  | .first => .committing
  | .second ghosted => if ghosted then .removed else .idle

/-- The exports under their ids, in the order in which they were started. -/
structure State where
  exports : List Export
  ghosted : Bool
  remover : Remover
deriving DecidableEq

def start : State := ⟨[], false, .idle⟩

def State.jobFiles (s : State) : List ℕ :=
  (List.range s.exports.length).filter fun i => (s.exports[i]?.bind (·.files.job)).isSome

/-- A step of one of the parties; `now` is the time that it reads, `ok` whether what it
calls succeeds, `order` the order in which the directory is read. -/
inductive Action where
  | exportStart (owner : ℤ) (now : ℕ) (ok : Bool)
  | work (id : ℕ) (now : ℕ) (ok : Bool)
  | remove (order : List ℕ) (now : ℕ) (ok : Bool)

section

variable (configured : Option ℤ) (uid : ℤ)

/-- `query_profile` finds the row of the owner. -/
def State.visible (s : State) (owner : ℤ) : Bool := !(owner = uid && s.ghosted)

/-- `privacy_export_start` as far as its first job file. -/
def State.exportStart (s : State) (owner : ℤ) (now : ℕ) (ok : Bool) : State :=
  if 0 < owner ∧ ok then
    let files : Files := ⟨none, false, false⟩
    { s with exports := s.exports ++ [⟨owner, files.write configured .queued now, .starting⟩] }
  else s

def State.work (s : State) (id now : ℕ) (ok : Bool) : State :=
  { s with exports := s.exports.modify id fun e =>
      e.work configured (s.visible uid e.owner) now ok }

def State.remove (s : State) (order : List ℕ) (now : ℕ) (ok : Bool) : State :=
  match s.remover with
  | .idle => { s with remover := .listing .first }
  | .listing round =>
    if order.Perm s.jobFiles then { s with remover := .reading round order } else s
  | .reading round [] => { s with remover := round.next }
  | .reading round (id :: ids) =>
    match s.exports[id]? with
    | none => { s with remover := .reading round ids }
    | some e =>
      match jobRead e.files.job now with
      | .missing => { s with remover := .reading round ids }
      | .expired => { s with remover := .unlinking round id expiry ids }
      | .found _ =>
        if e.owner = uid then { s with remover := .unlinking round id jobRemove ids }
        else { s with remover := .reading round ids }
  | .unlinking round _ [] ids => { s with remover := .reading round ids }
  | .unlinking round id (f :: fs) ids =>
    { s with
      exports := s.exports.modify id fun e => { e with files := e.files.unlink f }
      remover := .unlinking round id fs ids }
  | .committing => { s with ghosted := s.ghosted || ok, remover := .listing (.second ok) }
  | .removed => s

def step (s : State) : Action → State
  | .exportStart owner now ok => s.exportStart configured owner now ok
  | .work id now ok => s.work configured uid id now ok
  | .remove order now ok => s.remove uid order now ok

/-- `privacy_export_download_path`; `fits` says that the path fits into the buffer. -/
def State.downloadPath (s : State) (id now : ℕ) (fits : Bool) : Bool :=
  match s.exports[id]? with
  | none => false
  | some e =>
    match jobRead e.files.job now with
    | .found job => decide (e.owner = uid ∧ job.state = .ready) && e.files.archive && fits
    | _ => false

end

/-! ## What keeps an archive from being forgotten -/

/-- The thread has created the temporary archive and not renamed it. -/
def Worker.writes : Worker → Bool
  | .writing | .checking | .publishing => true
  | _ => false

def Worker.unlinks (f : File) : Worker → Bool
  | .failing | .marking => f ≠ .job
  | .unlinking files next => f ∈ files || next.unlinks f
  | _ => false

/-- The second call, after `db_user_ghost` has succeeded. -/
def Round.last : Round → Bool
  | .second ghosted => ghosted
  | .first => false

def Remover.late : Remover → Bool
  | .listing round | .reading round _ | .unlinking round _ _ _ => round.last
  | .removed => true
  | _ => false

/-- A job file of this id will be read before the removal succeeds. -/
def Remover.ahead (id : ℕ) : Remover → Prop
  | .reading round ids | .unlinking round _ _ ids => round.last = true → id ∈ ids
  | .removed => False
  | _ => True

def Remover.unlinks (id : ℕ) : Remover → Prop
  | .unlinking _ id' files _ => id' = id ∧ .archive ∈ files
  | _ => False

def JobFirst : List File → Prop
  | .job :: files => .archive ∈ files ∧ JobFirst files
  | _ :: files => JobFirst files
  | [] => True

def Remover.orderly : Remover → Prop
  | .unlinking _ _ files _ => JobFirst files
  | _ => True

def Covered (r : Remover) (id : ℕ) (job : Option Job) : Prop :=
  job.isSome ∧ r.ahead id ∨ r.unlinks id

/-- Someone will unlink what is there of an export of the account. -/
structure Kept (ghosted : Bool) (r : Remover) (id : ℕ) (e : Export) : Prop where
  temp : e.files.temp = true → e.worker.writes = true ∨ e.worker.unlinks .temp = true
  archive : e.files.archive = true →
    e.worker = .announcing ∨ e.worker.unlinks .archive = true ∨
      e.worker = .rechecking ∧ ghosted = true ∨
      (e.worker = .rechecking ∨ e.worker = .finished) ∧ Covered r id e.files.job

structure Inv (uid : ℤ) (s : State) : Prop where
  late : s.remover.late = true → s.ghosted = true
  orderly : s.remover.orderly
  kept : ∀ id e, s.exports[id]? = some e → e.owner = uid → Kept s.ghosted s.remover id e

section

variable {configured : Option ℤ} {uid : ℤ} {ghosted : Bool} {r : Remover} {id : ℕ} {e : Export}
  {s : State} {ghosted' : Bool} {r' : Remover} {i : ℕ} {f : File} {fs : List File}

theorem inv_start (uid : ℤ) : Inv uid start where
  late h := nomatch h
  orderly := trivial
  kept _ _ h _ := nomatch h

theorem ahead_of_not_late (h : r.late = false) (id : ℕ) : r.ahead id := by
  cases r with
  | reading round ids => exact fun hlast => absurd (hlast.symm.trans h) Bool.true_eq_false.mp
  | unlinking round id' files ids =>
    exact fun hlast => absurd (hlast.symm.trans h) Bool.true_eq_false.mp
  | removed => exact nomatch h
  | _ => trivial

def Worker.early : Worker → Bool
  | .starting | .opening | .building | .creating => true
  | _ => false

theorem Kept.empty (h : Kept ghosted r id e) (he : e.worker.early = true) :
    e.files.temp = false ∧ e.files.archive = false := by
  constructor
  · by_contra htemp
    have hnext := h.temp (Bool.not_eq_false _ ▸ htemp)
    cases hw : e.worker <;> simp_all [Worker.early, Worker.writes, Worker.unlinks]
  · by_contra harchive
    have hnext := h.archive (Bool.not_eq_false _ ▸ harchive)
    cases hw : e.worker <;> simp_all [Worker.early, Worker.unlinks]

theorem kept_of_empty (htemp : e.files.temp = false) (harchive : e.files.archive = false) :
    Kept ghosted r id e where
  temp h := absurd h (Bool.eq_false_iff.mp htemp)
  archive h := absurd h (Bool.eq_false_iff.mp harchive)

theorem kept_of_unlinks (htemp : e.worker.unlinks .temp = true)
    (harchive : e.worker.unlinks .archive = true) : Kept ghosted r id e where
  temp _ := .inr htemp
  archive _ := .inr (.inl harchive)

theorem Kept.unpublished (h : Kept ghosted r id e) (hw : e.worker.writes = true) :
    e.files.archive = false := by
  by_contra harchive
  have hnext := h.archive (Bool.not_eq_false _ ▸ harchive)
  cases hworker : e.worker <;> simp_all [Worker.writes, Worker.unlinks]

theorem Kept.renamed (h : Kept ghosted r id e)
    (hw : e.worker = .announcing ∨ e.worker = .rechecking ∨ e.worker = .finished) :
    e.files.temp = false := by
  by_contra htemp
  have hnext := h.temp (Bool.not_eq_false _ ▸ htemp)
  rcases hw with hw | hw | hw <;> simp [hw, Worker.writes, Worker.unlinks] at hnext

theorem Kept.work (h : Kept ghosted r id e) (hlate : r.late = true → ghosted = true) (now : ℕ)
    (ok : Bool) : Kept ghosted r id (e.work configured (!ghosted) now ok) := by
  unfold Export.work
  cases hw : e.worker with
  | starting =>
    rcases h.empty (by rw [hw]; rfl) with ⟨htemp, harchive⟩
    dsimp only
    split
    · exact kept_of_empty htemp harchive
    · exact kept_of_empty htemp harchive
  | opening =>
    rcases h.empty (by rw [hw]; rfl) with ⟨htemp, harchive⟩
    exact kept_of_empty htemp harchive
  | building =>
    rcases h.empty (by rw [hw]; rfl) with ⟨htemp, harchive⟩
    exact kept_of_empty htemp harchive
  | creating =>
    rcases h.empty (by rw [hw]; rfl) with ⟨htemp, harchive⟩
    dsimp only
    split
    · exact ⟨fun _ => .inl rfl, fun hnow => absurd hnow (Bool.eq_false_iff.mp harchive)⟩
    · exact kept_of_empty htemp harchive
  | writing =>
    have harchive := h.unpublished (by rw [hw]; rfl)
    refine ⟨fun _ => ?_, fun hnow => absurd hnow (Bool.eq_false_iff.mp harchive)⟩
    cases ok with
    | true => exact .inl rfl
    | false => exact .inr rfl
  | checking =>
    have harchive := h.unpublished (by rw [hw]; rfl)
    refine ⟨fun _ => ?_, fun hnow => absurd hnow (Bool.eq_false_iff.mp harchive)⟩
    dsimp only
    split
    · exact .inl rfl
    · exact .inr rfl
  | publishing =>
    dsimp only
    split
    · exact ⟨fun hnow => (nomatch hnow), fun _ => .inl rfl⟩
    · exact kept_of_unlinks rfl rfl
  | announcing =>
    have htemp := h.renamed (.inl hw)
    dsimp only
    split
    · refine ⟨fun hnow => absurd hnow (Bool.eq_false_iff.mp htemp), fun _ => ?_⟩
      -- the job is written before the commit, or the next query finds the account gone
      cases hr : r.late with
      | true => exact .inr (.inr (.inl ⟨rfl, hlate hr⟩))
      | false => exact .inr (.inr (.inr ⟨.inl rfl, .inl ⟨rfl, ahead_of_not_late hr id⟩⟩))
    · exact kept_of_unlinks rfl rfl
  | rechecking =>
    have htemp := h.renamed (.inr (.inl hw))
    refine ⟨fun hnow => absurd hnow (Bool.eq_false_iff.mp htemp), fun harchive => ?_⟩
    dsimp only
    split
    · next hok =>
      rcases h.archive harchive with hnext | hnext | ⟨-, hgone⟩ | ⟨-, hcovered⟩
      · rw [hw] at hnext
        exact nomatch hnext
      · rw [hw] at hnext
        exact nomatch hnext
      · rw [hgone, Bool.not_true, Bool.and_false] at hok
        exact nomatch hok
      · exact .inr (.inr (.inr ⟨.inr rfl, hcovered⟩))
    · exact .inr (.inl rfl)
  | failing =>
    dsimp only
    split
    · exact kept_of_unlinks rfl rfl
    · exact kept_of_unlinks rfl rfl
    · exact kept_of_unlinks rfl rfl
  | marking =>
    dsimp only
    split
    · exact kept_of_unlinks rfl rfl
    · exact kept_of_unlinks rfl rfl
  | unlinking files next =>
    have htemp : e.files.temp = true → (Worker.unlinking files next).unlinks .temp = true := by
      intro hnow
      have hnext := h.temp hnow
      rw [hw] at hnext
      exact hnext.resolve_left Bool.false_ne_true
    have harchive : e.files.archive = true →
        (Worker.unlinking files next).unlinks .archive = true := by
      intro hnow
      have hnext := h.archive hnow
      simpa [hw] using hnext
    cases files with
    | nil => exact ⟨fun hnow => .inr (htemp hnow), fun hnow => .inr (.inl (harchive hnow))⟩
    | cons f fs =>
      cases f with
      | job =>
        refine ⟨fun hnow => .inr ?_, fun hnow => .inr (.inl ?_)⟩
        · simpa [Worker.unlinks] using htemp hnow
        · simpa [Worker.unlinks] using harchive hnow
      | archive =>
        refine ⟨fun hnow => .inr ?_, fun hnow => nomatch hnow⟩
        simpa [Worker.unlinks] using htemp hnow
      | temp =>
        refine ⟨fun hnow => (nomatch hnow), fun hnow => .inr (.inl ?_)⟩
        simpa [Worker.unlinks] using harchive hnow
  | finished => exact h

/-- A step of the removal that touches no file: the archives that were covered still are. -/
theorem Kept.mono (h : Kept ghosted r id e) (hghosted : ghosted = true → ghosted' = true)
    (hcovered : Covered r id e.files.job → Covered r' id e.files.job) :
    Kept ghosted' r' id e where
  temp := h.temp
  archive harchive := by
    rcases h.archive harchive with hnext | hnext | ⟨hw, hgone⟩ | ⟨hw, hcover⟩
    · exact .inl hnext
    · exact .inr (.inl hnext)
    · exact .inr (.inr (.inl ⟨hw, hghosted hgone⟩))
    · exact .inr (.inr (.inr ⟨hw, hcovered hcover⟩))

theorem mem_jobFiles :
    i ∈ s.jobFiles ↔ ∃ e, s.exports[i]? = some e ∧ e.files.job.isSome := by
  unfold State.jobFiles
  rw [List.mem_filter, List.mem_range]
  constructor
  · rintro ⟨hi, hjob⟩
    rw [List.getElem?_eq_getElem hi] at hjob ⊢
    exact ⟨_, rfl, hjob⟩
  · rintro ⟨e, he, hjob⟩
    refine ⟨(List.getElem?_eq_some_iff.mp he).1, ?_⟩
    rw [he]
    exact hjob

theorem Inv.exportStart (h : Inv uid s) (owner : ℤ) (now : ℕ) (ok : Bool) :
    Inv uid (s.exportStart configured owner now ok) := by
  unfold State.exportStart
  split
  · refine ⟨h.late, h.orderly, ?_⟩
    intro id e he howner
    dsimp only at he
    rw [List.getElem?_append] at he
    split at he
    · exact h.kept id e he howner
    · rw [List.getElem?_singleton] at he
      split at he
      · rw [← Option.some.inj he]
        exact kept_of_empty rfl rfl
      · exact nomatch he
  · exact h

theorem owner_work (visible : Bool) (now : ℕ) (ok : Bool) :
    (e.work configured visible now ok).owner = e.owner := by
  unfold Export.work
  split <;> first | rfl | (split <;> rfl)

theorem Inv.work (h : Inv uid s) (id now : ℕ) (ok : Bool) :
    Inv uid (s.work configured uid id now ok) := by
  refine ⟨h.late, h.orderly, ?_⟩
  intro id' e he howner
  unfold State.work at he
  dsimp only at he
  rw [List.getElem?_modify] at he
  rcases Option.map_eq_some_iff.mp he with ⟨e₀, he₀, rfl⟩
  split at howner
  · next hid =>
    rw [owner_work] at howner
    have hvisible : s.visible uid e₀.owner = !s.ghosted := by simp [State.visible, howner]
    rw [if_pos hid, hvisible]
    exact (h.kept id' e₀ he₀ howner).work h.late now ok
  · next hid =>
    rw [if_neg hid]
    exact h.kept id' e₀ he₀ howner

theorem Inv.move (h : Inv uid s) (hr : s.remover = r)
    (hlate : r'.late = true → ghosted' = true) (horderly : r'.orderly)
    (hghosted : s.ghosted = true → ghosted' = true)
    (hcovered : ∀ id e, s.exports[id]? = some e → e.owner = uid →
      Covered r id e.files.job → Covered r' id e.files.job) :
    Inv uid { s with ghosted := ghosted', remover := r' } where
  late := hlate
  orderly := horderly
  kept id e he howner :=
    (h.kept id e he howner).mono hghosted (hr ▸ hcovered id e he howner)

theorem job_of_missing {job : Option Job} {now : ℕ} (h : jobRead job now = .missing) :
    job = none := by
  cases job with
  | none => rfl
  | some j =>
    have hread : (if j.expires ≤ now then Reading.expired else .found j) = .missing := h
    split at hread
    · exact nomatch hread
    · exact nomatch hread

theorem JobFirst.tail (h : JobFirst (f :: fs)) : JobFirst fs := by
  cases f with
  | job => exact h.2
  | archive => exact h
  | temp => exact h

theorem Covered.next {round : Round} {ids : List ℕ} {job : Option Job}
    (h : Covered (.reading round (i :: ids)) id job) (hnone : id = i → job = none) :
    Covered (.reading round ids) id job := by
  rcases h with ⟨hjob, hahead⟩ | hnext
  · refine .inl ⟨hjob, fun hlast => ?_⟩
    rcases List.mem_cons.mp (hahead hlast) with hid | hmem
    · rw [hnone hid] at hjob
      exact nomatch hjob
    · exact hmem
  · exact nomatch hnext

theorem Covered.unlink {round : Round} {ids : List ℕ} {files : List File}
    {job : Option Job} (h : Covered (.reading round (i :: ids)) id job)
    (harchive : .archive ∈ files) : Covered (.unlinking round i files ids) id job := by
  rcases h with ⟨hjob, hahead⟩ | hnext
  · by_cases hid : id = i
    · exact .inr ⟨hid.symm, harchive⟩
    · exact .inl ⟨hjob, fun hlast => List.mem_of_ne_of_mem hid (hahead hlast)⟩
  · exact nomatch hnext

theorem Kept.unlink {round : Round} {ids : List ℕ}
    (h : Kept ghosted (.unlinking round i (f :: fs) ids) id e) (hfirst : JobFirst (f :: fs)) :
    Kept ghosted (.unlinking round i fs ids) id
      (if i = id then { e with files := e.files.unlink f } else e) := by
  by_cases hid : i = id
  · rw [if_pos hid]
    cases f with
    | job =>
      have harchive : File.archive ∈ fs := hfirst.1
      refine ⟨h.temp, fun hnow => ?_⟩
      rcases h.archive hnow with hnext | hnext | hnext | ⟨hw, -⟩
      · exact .inl hnext
      · exact .inr (.inl hnext)
      · exact .inr (.inr (.inl hnext))
      · exact .inr (.inr (.inr ⟨hw, .inr ⟨hid, harchive⟩⟩))
    | archive => exact ⟨h.temp, fun hnow => nomatch hnow⟩
    | temp =>
      have hkept : Kept ghosted (.unlinking round i fs ids) id e := by
        refine h.mono (fun hnow => hnow) ?_
        rintro (hjob | ⟨-, hmem⟩)
        · exact .inl hjob
        · exact .inr ⟨hid, List.mem_of_ne_of_mem (by decide) hmem⟩
      exact ⟨fun hnow => (nomatch hnow), hkept.archive⟩
  · rw [if_neg hid]
    refine h.mono (fun hnow => hnow) ?_
    rintro (hjob | ⟨heq, -⟩)
    · exact .inl hjob
    · exact absurd heq hid

theorem Inv.remove (h : Inv uid s) (order : List ℕ) (now : ℕ) (ok : Bool) :
    Inv uid (s.remove uid order now ok) := by
  have hlate := h.late
  have horderly := h.orderly
  unfold State.remove
  cases hr : s.remover with
  | idle =>
    refine h.move hr (fun hlate => nomatch hlate) trivial id ?_
    intro id e he howner hcovered
    exact .inl ⟨hcovered.elim And.left (fun hnext => nomatch hnext), trivial⟩
  | listing round =>
    rw [hr] at hlate
    dsimp only
    split
    · next hperm =>
      refine h.move hr hlate trivial id ?_
      intro id e he howner hcovered
      have hjob := hcovered.elim And.left (fun hnext => nomatch hnext)
      exact .inl ⟨hjob, fun _ => hperm.mem_iff.mpr (mem_jobFiles.mpr ⟨e, he, hjob⟩)⟩
    · exact h
  | reading round ids =>
    rw [hr] at hlate
    cases ids with
    | nil =>
      have hcovered : ∀ id (e : Export), Covered (.reading round []) id e.files.job →
          e.files.job.isSome ∧ round.last = false := by
        intro id e hcovered
        rcases hcovered with ⟨hjob, hahead⟩ | hnext
        · exact ⟨hjob, Bool.eq_false_iff.mpr fun hlast => nomatch hahead hlast⟩
        · exact nomatch hnext
      cases round with
      | first =>
        refine h.move hr (fun hlate => nomatch hlate) trivial id ?_
        exact fun id e _ _ hc => .inl ⟨(hcovered id e hc).1, trivial⟩
      | second ghosted =>
        cases ghosted with
        | true =>
          refine h.move hr hlate trivial id ?_
          exact fun id e _ _ hc => nomatch (hcovered id e hc).2
        | false =>
          refine h.move hr (fun hlate => nomatch hlate) trivial id ?_
          exact fun id e _ _ hc => .inl ⟨(hcovered id e hc).1, trivial⟩
    | cons i ids =>
      dsimp only
      split
      · next hnone =>
        refine h.move hr hlate trivial id ?_
        intro id e he howner hcovered
        refine hcovered.next ?_
        rintro rfl
        exact nomatch hnone.symm.trans he
      · next e₀ he₀ =>
        have hunlink : ∀ files, JobFirst files → File.archive ∈ files →
            Inv uid { s with remover := .unlinking round i files ids } := by
          intro files hfiles harchive
          refine h.move hr hlate hfiles id ?_
          intro id e he howner hcovered
          exact hcovered.unlink harchive
        have hnext : (e₀.owner = uid → e₀.files.job = none) →
            Inv uid { s with remover := .reading round ids } := by
          intro hnone
          refine h.move hr hlate trivial id ?_
          intro id e he howner hcovered
          refine hcovered.next ?_
          rintro rfl
          have heq : e₀ = e := Option.some.inj (he₀.symm.trans he)
          subst heq
          exact hnone howner
        split
        · next hread => exact hnext fun _ => job_of_missing hread
        · exact hunlink expiry (by simp [expiry, JobFirst]) (by decide)
        · split
          · exact hunlink jobRemove (by simp [jobRemove, JobFirst]) (by decide)
          · next howner => exact hnext fun heq => absurd heq howner
  | unlinking round i files ids =>
    rw [hr] at hlate horderly
    cases files with
    | nil =>
      refine h.move hr hlate trivial id ?_
      intro id e he howner hcovered
      rcases hcovered with hjob | ⟨-, hnone⟩
      · exact .inl hjob
      · exact nomatch hnone
    | cons f fs =>
      refine ⟨hlate, horderly.tail, ?_⟩
      intro id e he howner
      dsimp only at he
      rw [List.getElem?_modify] at he
      rcases Option.map_eq_some_iff.mp he with ⟨e₀, he₀, rfl⟩
      have hkept := h.kept id e₀ he₀ (by
        split at howner
        · exact howner
        · exact howner)
      rw [hr] at hkept
      exact hkept.unlink horderly
  | committing =>
    refine h.move hr (fun hok => ?_) trivial (fun hnow => ?_) ?_
    · have hok' : ok = true := hok
      rw [hok', Bool.or_true]
    · rw [hnow, Bool.true_or]
    · intro id e he howner hcovered
      exact .inl ⟨hcovered.elim And.left (fun hnext => nomatch hnext), trivial⟩
  | removed => exact h

theorem inv_step (h : Inv uid s) (a : Action) : Inv uid (step configured uid s a) := by
  cases a with
  | exportStart owner now ok => exact h.exportStart owner now ok
  | work id now ok => exact h.work id now ok
  | remove order now ok => exact h.remove order now ok

/-- Once the account is removed and its exports have ended, nothing of them is left. -/
theorem no_export_left {actions : List Action} (hrun : Reaches (step configured uid) start actions s)
    (hremoved : s.remover = .removed)
    (hended : ∀ e ∈ s.exports, e.owner = uid → e.worker = .finished) :
    (∀ e ∈ s.exports, e.owner = uid → e.files.archive = false ∧ e.files.temp = false) ∧
      ∀ id now fits, s.downloadPath uid id now fits = false := by
  have hinv : Inv uid s := by
    rcases hrun with ⟨pre, post, -, rfl⟩
    have hstep : ∀ s a, Inv uid s → Inv uid (step configured uid s a) := fun _ a h => inv_step h a
    exact run_invariant (step configured uid) hstep (inv_start uid) pre
  have hgone : ∀ (id : ℕ) (e : Export), s.exports[id]? = some e → e.owner = uid →
      e.files.archive = false ∧ e.files.temp = false := by
    intro id e he howner
    have hkept := hinv.kept id e he howner
    have hended := hended e (List.mem_of_getElem? he) howner
    refine ⟨?_, hkept.renamed (.inr (.inr hended))⟩
    by_contra harchive
    rcases hkept.archive (Bool.not_eq_false _ ▸ harchive) with hw | hw | ⟨hw, -⟩ | ⟨-, hcovered⟩
    · exact nomatch hended.symm.trans hw
    · rw [hended] at hw
      exact nomatch hw
    · exact nomatch hended.symm.trans hw
    · rw [hremoved] at hcovered
      rcases hcovered with ⟨-, hahead⟩ | hnext
      · exact hahead
      · exact hnext
  constructor
  · intro e he howner
    rcases List.mem_iff_getElem?.mp he with ⟨id, hid⟩
    exact hgone id e hid howner
  · intro id now fits
    unfold State.downloadPath
    split
    · rfl
    · next e he =>
      split
      · next job _ =>
        by_cases howner : e.owner = uid
        · rw [(hgone id e he howner).1, Bool.and_false, Bool.false_and]
        · simp [howner]
      · rfl

end

/-! ## A job file that is written between two unlinks -/

def workTimes (n : ℕ) : List Action := List.replicate n (.work 0 0 true)

def removeTimes (n : ℕ) : List Action := List.replicate n (.remove [0] 0 true)

/-- The archive has its name; the removal begins and unlinks the queued job; then the
ready job is written and the thread ends; then the removal goes on. -/
def readyWhileRevoked : List Action :=
  .exportStart 2 0 true :: workTimes 7 ++ removeTimes 4 ++ workTimes 2 ++ removeTimes 12

theorem ready_while_revoked_left :
    ((run (step none 2) start (readyWhileRevoked.take 14)).exports.map
        fun e => (e.files.job.map Job.state, e.files.archive, e.worker)) =
      [(some .ready, true, .finished)] ∧
    (run (step none 2) start readyWhileRevoked).remover = .removed ∧
    (∀ e ∈ (run (step none 2) start readyWhileRevoked).exports, e.owner = 2 →
      e.files.archive = false ∧ e.files.temp = false) ∧
    ∀ id now fits,
      (run (step none 2) start readyWhileRevoked).downloadPath 2 id now fits = false := by
  have hremoved : (run (step none 2) start readyWhileRevoked).remover = .removed := by
    decide +kernel
  have hended : ∀ e ∈ (run (step none 2) start readyWhileRevoked).exports, e.owner = 2 →
      e.worker = .finished := by
    decide +kernel
  have hleft := no_export_left (reaches_run start readyWhileRevoked) hremoved hended
  exact ⟨by decide +kernel, hremoved, hleft⟩

end FlyBoard.PrivacyExport

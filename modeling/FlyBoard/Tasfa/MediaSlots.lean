import FlyBoard.Lib.Run
import Mathlib.Data.List.Basic

/-!
# The media slots (`src/handlers/tasfa/common.c`, `src/handlers/tasfa/upload.c`)

`g_media_concurrency` counts the slots that bound the number of ffmpeg processes.
A finalize run takes one when it converts a GIF or runs phase 2 itself; phase 2
takes its own when it runs as a job or after an asynchronous finalize.

Any number of finalize and phase-2 runs interleave; a step of one of them goes
from one exit or slot operation to the next.
-/

namespace FlyBoard.Tasfa.MediaSlots

/-- `TASFA_MAX_MEDIA_CONCURRENCY` -/
def maxMediaConcurrency : Nat := 8

/-- Where a run of `tasfa_finalize_session_process` or `tasfa_media_phase2` is. -/
inductive Pc
  | acquire
  | convert
  | rename
  | renamed
  | checksum
  | checked
  | insert
  | inserted
  | stored
  | phase2Acquire
  | phase2
  | done
deriving DecidableEq, Repr

/-- A run: `is_gif_upload`, `async_finalize`, `media_acquired`, `gif_converted`, and
whether it has acquired a slot that it has not released. -/
structure Job where
  pc : Pc
  gif : Bool
  async : Bool
  mediaAcquired : Bool
  gifConverted : Bool
  holds : Bool
deriving DecidableEq, Repr

structure State where
  mediaConcurrency : Nat
  jobs : List Job

inductive Action
  /-- A finalize run begins. -/
  | finalize (gif async : Bool)
  /-- The run with this index goes on; `ok` is the outcome of what it does there. -/
  | step (i : Nat) (ok : Bool)
deriving DecidableEq, Repr

/-- `tasfa_media_concurrency_release` -/
def release (c : Nat) : Nat := if 0 < c then c - 1 else c

/-- The exits that release without looking at `media_acquired`. -/
def errorExit (c : Nat) (j : Job) : Nat × Job × List Job :=
  (release c, { j with pc := .done, holds := false }, [])

/-- `client_disconnect` -/
def disconnect (c : Nat) (j : Job) : Nat × Job × List Job :=
  (if j.mediaAcquired then release c else c,
    { j with pc := .done, holds := j.holds && !j.mediaAcquired }, [])

def phase2Job (j : Job) : Job :=
  ⟨.phase2Acquire, j.gif, j.async, false, j.gifConverted, false⟩

/-- The next step of a run: the counter, the run, and the job it schedules. -/
def jobStep (c : Nat) (j : Job) (ok : Bool) : Nat × Job × List Job :=
  match j.pc with
  | .acquire =>
    if j.gif || !j.async then
      if c < maxMediaConcurrency then
        (c + 1, { j with pc := .convert, mediaAcquired := true, holds := true }, [])
      -- no slot is free: it waits on, or finds the client gone
      else if ok then (c, j, [])
      else disconnect c j
    else (c, { j with pc := .convert }, [])
  | .convert => (c, { j with pc := .rename, gifConverted := j.gif && ok }, [])
  | .rename => if j.gifConverted || ok then (c, { j with pc := .renamed }, []) else errorExit c j
  | .renamed => if ok then (c, { j with pc := .checksum }, []) else disconnect c j
  | .checksum => if ok then (c, { j with pc := .checked }, []) else errorExit c j
  | .checked => if ok then (c, { j with pc := .insert }, []) else disconnect c j
  | .insert => if ok then (c, { j with pc := .inserted }, []) else errorExit c j
  | .inserted => if ok then (c, { j with pc := .stored }, []) else disconnect c j
  | .stored =>
    if j.async then
      let c := if j.mediaAcquired then release c else c
      let j := { j with mediaAcquired := false, holds := j.holds && !j.mediaAcquired }
      -- a phase 2 that cannot be scheduled runs here
      if ok then (c, { j with pc := .done }, [phase2Job j])
      else (c, { j with pc := .phase2Acquire }, [])
    else (c, { j with pc := .phase2 }, [])
  | .phase2Acquire =>
    if c < maxMediaConcurrency then (c + 1, { j with pc := .phase2, holds := true }, [])
    else (c, j, [])
  | .phase2 => (release c, { j with pc := .done, mediaAcquired := false, holds := false }, [])
  | .done => (c, j, [])

def step (s : State) : Action → State
  | .finalize gif async =>
    { s with jobs := s.jobs ++ [⟨.acquire, gif, async, false, false, false⟩] }
  | .step i ok =>
    match s.jobs[i]? with
    | none => s
    | some j =>
      let r := jobStep s.mediaConcurrency j ok
      ⟨r.1, s.jobs.set i r.2.1 ++ r.2.2⟩

def start : State := ⟨0, []⟩

def Job.inFfmpeg (j : Job) : Bool := (j.pc == .convert && j.gif) || j.pc == .phase2

/-- The counter is the number of runs that hold a slot, and at most
`TASFA_MAX_MEDIA_CONCURRENCY` ffmpeg sections overlap. -/
def Conserved (s : State) : Prop :=
  s.mediaConcurrency = s.jobs.countP Job.holds ∧
    s.jobs.countP Job.inFfmpeg ≤ maxMediaConcurrency

instance (s : State) : Decidable (Conserved s) := inferInstanceAs (Decidable (_ ∧ _))

/-- An asynchronous run that is no GIF fails to rename, to hash or to insert the file
while a slot is taken. -/
def ReleasesUnheld (c : Nat) (j : Job) (ok : Bool) : Prop :=
  j.async = true ∧ j.gif = false ∧ ok = false ∧
    (j.pc = .rename ∨ j.pc = .checksum ∨ j.pc = .insert) ∧ 0 < c

def Sound (s : State) : Action → Prop
  | .finalize _ _ => True
  | .step i ok => ∀ j ∈ s.jobs[i]?, ¬ReleasesUnheld s.mediaConcurrency j ok

/-! ## What a run holds -/

def Job.Ok (j : Job) : Prop :=
  (j.gifConverted = true → j.gif = true) ∧
  match j.pc with
  | .acquire => j.holds = false ∧ j.mediaAcquired = false
  | .phase2Acquire | .done => j.holds = false
  | .phase2 => j.holds = true
  | _ => j.holds = (j.gif || !j.async) ∧ j.mediaAcquired = j.holds

variable {j : Job}

theorem Job.Ok.holds_of_inFfmpeg (h : j.Ok) (hf : j.inFfmpeg = true) :
    j.holds = true := by
  rcases j with ⟨pc, gif, async, acquired, converted, holds⟩
  cases pc <;> simp_all [Job.Ok, Job.inFfmpeg]

theorem release_le (c : Nat) : release c ≤ c := by
  unfold release
  split <;> omega

variable {c : Nat}

theorem release_add_one (h : 0 < c) : release c + 1 = c := by
  rw [release, if_pos h]
  omega

theorem release_eq_self_iff (c : Nat) : release c = c ↔ ¬0 < c := by
  unfold release
  split <;> omega

theorem disconnect_le (c : Nat) (j : Job) : (disconnect c j).1 ≤ c := by
  simp only [disconnect]
  split
  · exact release_le c
  · exact Nat.le_refl c

theorem jobStep_le (j : Job) (ok : Bool) (hc : c ≤ maxMediaConcurrency) :
    (jobStep c j ok).1 ≤ maxMediaConcurrency := by
  have hr := release_le c
  have hd := disconnect_le c j
  rcases j with ⟨pc, gif, async, acquired, converted, holds⟩
  cases pc <;> simp only [jobStep, errorExit] <;> (try split_ifs) <;> omega

theorem Job.Ok.jobStep (hj : j.Ok) (c : Nat) (ok : Bool) :
    (MediaSlots.jobStep c j ok).2.1.Ok := by
  rcases j with ⟨pc, gif, async, acquired, converted, holds⟩
  cases pc <;> cases gif <;> cases async <;>
    simp only [MediaSlots.jobStep, errorExit, disconnect] <;>
    (try split_ifs) <;> simp_all [Job.Ok]

theorem Job.Ok.scheduled (hj : j.Ok) (c : Nat) (ok : Bool) :
    ∀ x ∈ (MediaSlots.jobStep c j ok).2.2, x.Ok ∧ x.holds = false := by
  intro x hx
  rcases j with ⟨pc, gif, async, acquired, converted, holds⟩
  cases pc <;> simp only [MediaSlots.jobStep, errorExit, disconnect] at hx <;>
    (try split_ifs at hx) <;> simp_all [Job.Ok, phase2Job]

/-- The counter moves with what the run holds, unless the step releases a slot that
the run does not hold. -/
theorem Job.Ok.balance_iff (hj : j.Ok) (ok : Bool) (hpos : j.holds = true → 0 < c) :
    (MediaSlots.jobStep c j ok).1 + j.holds.toNat =
        c + (MediaSlots.jobStep c j ok).2.1.holds.toNat ↔
      ¬ReleasesUnheld c j ok := by
  have hself := release_eq_self_iff c
  have hone := @release_add_one c
  rcases j with ⟨pc, gif, async, acquired, converted, holds⟩
  cases pc <;> cases ok <;> cases gif <;> cases async <;>
    simp_all [Job.Ok, MediaSlots.jobStep, errorExit, disconnect, ReleasesUnheld] <;>
    (try split_ifs) <;> simp_all

/-! ## The whole state -/

/-- What every run keeps, whatever is released. -/
structure Inv (s : State) : Prop where
  le_max : s.mediaConcurrency ≤ maxMediaConcurrency
  jobs_ok : ∀ j ∈ s.jobs, j.Ok

theorem inv_start : Inv start :=
  ⟨Nat.zero_le _, fun _ hj => absurd hj List.not_mem_nil⟩

variable {s : State}

theorem Inv.step (h : Inv s) (a : Action) : Inv (MediaSlots.step s a) := by
  cases a with
  | finalize gif async =>
    refine ⟨h.le_max, ?_⟩
    intro j hj
    rcases List.mem_append.1 hj with hj | hj
    · exact h.jobs_ok j hj
    · rw [List.mem_singleton.1 hj]
      exact ⟨fun hc => absurd hc Bool.false_ne_true, rfl, rfl⟩
  | step i ok =>
    cases hi : s.jobs[i]? with
    | none => simpa only [MediaSlots.step, hi] using h
    | some j =>
      have hj : j.Ok := h.jobs_ok j (List.mem_of_getElem? hi)
      simp only [MediaSlots.step, hi]
      constructor
      · exact jobStep_le j ok h.le_max
      · intro x hx
        rcases List.mem_append.1 hx with hx | hx
        · rcases List.mem_or_eq_of_mem_set hx with hx | rfl
          · exact h.jobs_ok x hx
          · exact hj.jobStep s.mediaConcurrency ok
        · exact (hj.scheduled s.mediaConcurrency ok x hx).1

/-- Whoever runs ffmpeg holds a slot, so the bound follows from the count. -/
theorem Inv.conserved_iff (h : Inv s) :
    Conserved s ↔ s.mediaConcurrency = s.jobs.countP Job.holds := by
  constructor
  · intro hc
    exact hc.1
  · intro hc
    refine ⟨hc, ?_⟩
    calc s.jobs.countP Job.inFfmpeg
        ≤ s.jobs.countP Job.holds :=
          List.countP_mono_left fun j hj hf => (h.jobs_ok j hj).holds_of_inFfmpeg hf
      _ = s.mediaConcurrency := hc.symm
      _ ≤ maxMediaConcurrency := h.le_max

theorem countP_set_add {l : List Job} {i : Nat} (hi : l[i]? = some j) (j' : Job) (p : Job → Bool) :
    (l.set i j').countP p + (p j).toNat = l.countP p + (p j').toNat := by
  induction l generalizing i with
  | nil => simp at hi
  | cons x l ih =>
    cases i with
    | zero =>
      obtain rfl : x = j := by simpa using hi
      cases hx : p x <;> cases hj : p j' <;> simp [hx, hj]
    | succ i =>
      have hl := ih (i := i) (by simpa using hi)
      simp only [List.set_cons_succ, List.countP_cons]
      omega

/-- A step from a conserved state is conserved exactly when it releases no slot
that its run does not hold. -/
theorem Inv.step_conserved_iff (h : Inv s) (hc : Conserved s) (a : Action) :
    Conserved (MediaSlots.step s a) ↔ Sound s a := by
  have hcount := h.conserved_iff.1 hc
  rw [(h.step a).conserved_iff]
  cases a with
  | finalize gif async => simp [MediaSlots.step, Sound, hcount]
  | step i ok =>
    cases hi : s.jobs[i]? with
    | none => simp [MediaSlots.step, Sound, hi, hcount]
    | some j =>
      have hj : j.Ok := h.jobs_ok j (List.mem_of_getElem? hi)
      have hpos : j.holds = true → 0 < s.mediaConcurrency := by
        intro hh
        rw [hcount]
        exact List.countP_pos_iff.2 ⟨j, List.mem_of_getElem? hi, hh⟩
      -- jobs that the step schedules hold no slot yet
      have hnew : (jobStep s.mediaConcurrency j ok).2.2.countP Job.holds = 0 := by
        apply List.countP_eq_zero.2
        intro x hx hh
        rw [(hj.scheduled s.mediaConcurrency ok x hx).2] at hh
        exact Bool.false_ne_true hh
      have hset := countP_set_add hi (jobStep s.mediaConcurrency j ok).2.1 Job.holds
      have hbal := hj.balance_iff ok hpos
      simp only [MediaSlots.step, Sound, hi, List.countP_append, hnew, Option.mem_def,
        Option.some.injEq, forall_eq']
      rw [← hbal]
      omega

/-- In every run, of any number of finalize and phase-2 jobs, the slots are conserved
in all states reached exactly when no step releases a slot that its run does not hold. -/
theorem slots_conserved_iff (as : List Action) :
    Run.AllSteps step Sound start as ↔ ∀ t, Run.Reaches step start as t → Conserved t := by
  have hinv : ∀ s a, Inv s → Inv (step s a) := fun _ a hs => hs.step a
  have hgood : ∀ s a, Inv s → Conserved s → (Conserved (step s a) ↔ Sound s a) :=
    fun _ a hs hc => hs.step_conserved_iff hc a
  exact Run.allSteps_iff_forall_reaches hinv hgood inv_start ⟨rfl, Nat.zero_le _⟩ as

/-- Eight GIFs are being converted and a ninth waits; an upload that holds no slot
fails to rename its file. -/
def nineGifs : List Action :=
  List.replicate 9 (.finalize true false) ++ [.finalize false true] ++
    (List.range 8).map (.step · true) ++
    [.step 9 true, .step 9 true, .step 9 false, .step 8 true]

theorem nine_gifs_convert :
    (Run.run step start nineGifs).jobs.countP Job.inFfmpeg = 9 ∧
      ¬∀ as t, Run.Reaches step start as t → Conserved t := by
  have hnine : (Run.run step start nineGifs).jobs.countP Job.inFfmpeg = 9 := by decide +kernel
  refine ⟨hnine, ?_⟩
  intro hall
  have hle := (hall nineGifs _ (Run.reaches_run start nineGifs)).2
  rw [hnine] at hle
  exact absurd hle (by decide)

end FlyBoard.Tasfa.MediaSlots

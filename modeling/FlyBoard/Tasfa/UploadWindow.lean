import FlyBoard.Tasfa.SessionMeta

/-!
# The upload window of a session (`src/handlers/tasfa/upload.c`, `src/handlers/tasfa/common.c`)

`handler_file_upload_init` chooses a window for the link, and each
`handler_file_upload_renegotiate` chooses again, one call after the other. The window stays
within the configured limit. A renegotiation may drop the window by more than a tenth, and
only when the stored maximum is the configured limit.
-/

namespace FlyBoard.Tasfa.UploadWindow

open SessionMeta

/-- `tasfa_upload_parallel_limit` -/
def tasfaUploadParallelLimit (maxUploadParallelChunks : ℤ) : ℤ :=
  let limit := maxUploadParallelChunks
  let limit := if limit < 1 then 1 else limit
  if 48 < limit then 48 else limit

/-- The document that `handler_file_upload_init` saves. -/
def initDocument (mobile : Bool) (score : ℤ) (linkRttMs : ℚ) (configuredMax : ℤ) : Meta :=
  let (initialParallel, maxParallel, pacingMs) := chooseUploadWindow mobile score configuredMax
  ⟨none, [], linkRttMs, initialParallel, maxParallel, pacingMs⟩

/-- The calls on one session. The renegotiate handler goes on when a file is not saved. -/
inductive Call
  | init (mobile : Bool) (score : ℤ) (linkRttMs : ℚ)
  | renegotiate (mobile : Bool) (score suggested : ℤ) (linkRttMs : ℚ) (metaSaved stateSaved : Bool)

def Call.answer (limit : ℤ) (session : Option Files) : Call → Option Meta
  | .init mobile score linkRttMs => some (initDocument mobile score linkRttMs limit)
  | .renegotiate mobile score suggested linkRttMs _ _ =>
    session.map fun f =>
      SessionMeta.renegotiate ⟨mobile, score, suggested, linkRttMs, limit⟩ (loadUploadSession f)

def step (limit : ℤ) (session : Option Files) (c : Call) : Option Files :=
  match c, session, c.answer limit session with
  | .init _ _ _, _, some root =>
    some (saveUploadSessionState (saveUploadSession ⟨root, none⟩ root) root)
  | .renegotiate _ _ _ _ metaSaved stateSaved, some f, some root =>
    let f := if metaSaved then saveUploadSession f root else f
    some (if stateSaved then saveUploadSessionState f root else f)
  | _, session, _ => session

structure InLimit (limit : ℤ) (root : Meta) : Prop where
  pos : 1 ≤ root.currentParallelChunks
  le_max : root.currentParallelChunks ≤ root.maxParallelChunks
  max_le : root.maxParallelChunks ≤ limit

/-- A renegotiation leaves nine tenths of the window, in its answer and in the files. -/
def Keeps (limit : ℤ) (session : Option Files) : Call → Prop
  | .init _ _ _ => True
  | .renegotiate mobile score suggested linkRttMs metaSaved stateSaved =>
    ∀ f ∈ session,
      let c := Call.renegotiate mobile score suggested linkRttMs metaSaved stateSaved
      let least := 9 * (loadUploadSession f).currentParallelChunks / 10
      (∀ root ∈ c.answer limit session, least ≤ root.currentParallelChunks) ∧
        ∀ f' ∈ step limit session c, least ≤ (loadUploadSession f').currentParallelChunks

/-- The largest window for a score, before the configured limit. -/
def scoreMax (score : ℤ) : ℤ :=
  if 45 ≤ score then 48 else if 25 ≤ score then 32 else if 10 ≤ score then 24 else 16

/-- The stored maximum is below the limit, or the maximum for the new score takes nine tenths of
the window. -/
def Spared (limit : ℤ) (session : Option Files) : Call → Prop
  | .init _ _ _ => True
  | .renegotiate _ score _ _ _ _ =>
    ∀ f ∈ session,
      (loadUploadSession f).maxParallelChunks < limit ∨
        9 * (loadUploadSession f).currentParallelChunks / 10 ≤ scoreMax score

/-! ## One call -/

section Step

variable {limit : ℤ}

theorem tasfaUploadParallelLimit_pos (m : ℤ) : 1 ≤ tasfaUploadParallelLimit m := by
  unfold tasfaUploadParallelLimit
  dsimp only
  split_ifs <;> omega

theorem chooseUploadWindow_spec (mobile : Bool) (score : ℤ) (h : 1 ≤ limit) :
    1 ≤ (chooseUploadWindow mobile score limit).1 ∧
      (chooseUploadWindow mobile score limit).1 ≤ (chooseUploadWindow mobile score limit).2.1 ∧
      (chooseUploadWindow mobile score limit).2.1 = min (scoreMax score) limit := by
  unfold chooseUploadWindow scoreMax
  split_ifs <;> dsimp only <;> omega

theorem clampInt_mem {v hi : ℤ} (h : 1 ≤ hi) : 1 ≤ clampInt v 1 hi ∧ clampInt v 1 hi ≤ hi := by
  unfold clampInt
  split_ifs <;> omega

theorem renegotiate_spec (r : Renegotiation) {root : Meta} (h : InLimit r.configuredMax root) :
    InLimit r.configuredMax (SessionMeta.renegotiate r root) ∧
      (9 * root.currentParallelChunks / 10 ≤
          (SessionMeta.renegotiate r root).currentParallelChunks ↔
        root.maxParallelChunks < r.configuredMax ∨
          9 * root.currentParallelChunks / 10 ≤ scoreMax r.score) := by
  rcases h with ⟨hpos, hle, hmax⟩
  have hlimit : 1 ≤ r.configuredMax := by omega
  have hwindow := chooseUploadWindow_spec r.mobile r.score hlimit
  have hleast : (root.currentParallelChunks * 9).tdiv 10 = 9 * root.currentParallelChunks / 10 := by
    rw [Int.tdiv_eq_ediv_of_nonneg (by omega), Int.mul_comm]
  unfold SessionMeta.renegotiate
  generalize chooseUploadWindow r.mobile r.score r.configuredMax = window at hwindow ⊢
  rcases window with ⟨initial, most, pace⟩
  rcases hwindow with ⟨h1, h2, h3⟩
  dsimp only at h1 h2 h3 ⊢
  rw [hleast]
  have hdrop : 9 * root.currentParallelChunks / 10 ≤ root.currentParallelChunks := by omega
  generalize 9 * root.currentParallelChunks / 10 = least at hdrop ⊢
  -- the maximum that is stored
  generalize hm : (if root.maxParallelChunks < r.configuredMax ∧ most < root.maxParallelChunks
    then root.maxParallelChunks else most) = m
  have hm1 : 1 ≤ m ∧ ¬ r.configuredMax < m := by split_ifs at hm <;> omega
  rw [if_neg hm1.2]
  -- the window that is asked for
  have hclamp := clampInt_mem (v := r.suggested) hm1.1
  generalize hasked : (if 0 < r.suggested then clampInt r.suggested 1 m else initial) = asked
  have hasked1 : 1 ≤ asked := by split_ifs at hasked <;> omega
  -- what is left of it
  generalize hw : (if m < (if asked < least then least else asked) then m
    else (if asked < least then least else asked)) = window
  have hw1 : 1 ≤ window ∧ window ≤ m ∧ (least ≤ window ↔ least ≤ m) := by
    split_ifs at hw <;> omega
  refine ⟨⟨hw1.1, hw1.2.1, Int.not_lt.mp hm1.2⟩, hw1.2.2.trans ?_⟩
  split_ifs at hm <;> omega

/-- The window comes from `state.json`: a session has the saved one or the one before. -/
theorem load_saved {f : Files} (h : f.stateJson.isSome = true) (root : Meta)
    (metaSaved stateSaved : Bool) :
    let f₁ := if metaSaved then saveUploadSession f root else f
    let f₂ := if stateSaved then saveUploadSessionState f₁ root else f₁
    f₂.stateJson.isSome = true ∧ ∃ w ∈ [root, loadUploadSession f],
      (loadUploadSession f₂).currentParallelChunks = w.currentParallelChunks ∧
        (loadUploadSession f₂).maxParallelChunks = w.maxParallelChunks := by
  rcases f with ⟨metaJson, _ | st⟩
  · exact nomatch h
  · cases stateSaved with
    | true => exact ⟨rfl, root, List.mem_cons_self, rfl, rfl⟩
    | false =>
      refine ⟨?_, _, List.mem_cons_of_mem _ List.mem_cons_self, ?_⟩
      · cases metaSaved <;> rfl
      · cases metaSaved <;> exact ⟨rfl, rfl⟩

def Inv (limit : ℤ) (session : Option Files) : Prop :=
  ∀ f ∈ session, f.stateJson.isSome = true ∧ InLimit limit (loadUploadSession f)

theorem inv_step (hlimit : 1 ≤ limit) {session : Option Files} (h : Inv limit session)
    (c : Call) : Inv limit (step limit session c) := by
  cases c with
  | init mobile score linkRttMs =>
    rintro f ⟨⟩
    have hwindow := chooseUploadWindow_spec mobile score hlimit
    exact ⟨rfl, hwindow.1, hwindow.2.1, hwindow.2.2.trans_le (Int.min_le_right _ _)⟩
  | renegotiate mobile score suggested linkRttMs metaSaved stateSaved =>
    cases session with
    | none => exact h
    | some f =>
      rintro _ ⟨⟩
      rcases h f rfl with ⟨hstate, hlim⟩
      have hspec := renegotiate_spec ⟨mobile, score, suggested, linkRttMs, limit⟩ hlim
      rcases load_saved hstate (SessionMeta.renegotiate ⟨mobile, score, suggested, linkRttMs, limit⟩
        (loadUploadSession f)) metaSaved stateSaved with ⟨hstate', w, hw, hcur, hmax⟩
      have hwlim : InLimit limit w := by
        rcases List.mem_pair.mp hw with rfl | rfl
        · exact hspec.1
        · exact hlim
      exact ⟨hstate', hcur ▸ hwlim.pos, hcur ▸ hmax ▸ hwlim.le_max, hmax ▸ hwlim.max_le⟩

theorem keeps_iff_spared {session : Option Files} (h : Inv limit session) (c : Call) :
    Keeps limit session c ↔ Spared limit session c := by
  cases c with
  | init => exact Iff.rfl
  | renegotiate mobile score suggested linkRttMs metaSaved stateSaved =>
    cases session with
    | none => exact ⟨fun _ f hf => (nomatch hf), fun _ f hf => (nomatch hf)⟩
    | some f =>
      rcases h f rfl with ⟨hstate, hlim⟩
      have hspec := renegotiate_spec ⟨mobile, score, suggested, linkRttMs, limit⟩ hlim
      constructor
      · rintro hkeeps _ ⟨⟩
        exact hspec.2.mp ((hkeeps f rfl).1 _ rfl)
      · rintro hspared _ ⟨⟩
        have hkept := hspec.2.mpr (hspared f rfl)
        refine ⟨fun root hroot => Option.some.inj hroot ▸ hkept, fun f' hf' => ?_⟩
        rcases load_saved hstate (SessionMeta.renegotiate
          ⟨mobile, score, suggested, linkRttMs, limit⟩ (loadUploadSession f)) metaSaved stateSaved
          with ⟨-, w, hw, hcur, -⟩
        rw [← Option.some.inj hf', hcur]
        rcases List.mem_pair.mp hw with rfl | rfl
        · exact hkept
        · have hpos := hlim.pos
          omega

end Step

/-! ## Runs -/

/-- In every run the window stays within the configured limit, and no renegotiation drops it below
nine tenths exactly when each is spared the cut by the maximum for its score. -/
theorem window_of_run (maxUploadParallelChunks : ℤ) (calls : List Call) :
    let limit := tasfaUploadParallelLimit maxUploadParallelChunks
    (∀ t, Run.Reaches (step limit) none calls t →
        ∀ f ∈ t, InLimit limit (loadUploadSession f)) ∧
      (Run.AllSteps (step limit) (Keeps limit) none calls ↔
        Run.AllSteps (step limit) (Spared limit) none calls) := by
  intro limit
  have hlimit : 1 ≤ limit := tasfaUploadParallelLimit_pos maxUploadParallelChunks
  have hnone : Inv limit none := fun f hf => nomatch hf
  have hstep : ∀ s a, Inv limit s → Inv limit (step limit s a) :=
    fun _ a hs => inv_step hlimit hs a
  constructor
  · rintro t ⟨pre, _, -, rfl⟩ f hf
    exact (Run.run_invariant (step limit) hstep hnone pre f hf).2
  · exact Run.allSteps_congr hstep (fun _ a hs => keeps_iff_spared hs a) hnone calls

def fading : List Call := [.init false 50 20, .renegotiate false 0 0 900 true true]

/-- With a limit of 48 the window falls from 32 to 16. -/
theorem fading_not_kept :
    ((Run.run (step 48) none fading).map fun f => (loadUploadSession f).currentParallelChunks) =
        some 16 ∧
      ¬ Run.AllSteps (step (tasfaUploadParallelLimit 48)) (Keeps (tasfaUploadParallelLimit 48)) none
        fading := by
  refine ⟨by decide, fun hall => ?_⟩
  have hkept := (hall.2.1 _ rfl).1 _ rfl
  exact absurd hkept (by decide)

end FlyBoard.Tasfa.UploadWindow

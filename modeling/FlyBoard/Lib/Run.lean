import Mathlib.Data.List.Basic

/-!
# Runs of a deterministic step function

A system is a step function `step : σ → α → σ` on states and inputs; a run is a
list of inputs. `AllSteps ok` says that every step of the run meets a condition
on the state before it and on its input, and `Reaches` that a state is passed on
the way. The two rules below turn a step lemma into a statement about every
state of every run.
-/

namespace FlyBoard.Run

variable {σ : Type*} {α : Type*} (step : σ → α → σ) {inv : σ → Prop} {as : List α} {s : σ}

def run (s : σ) (as : List α) : σ := as.foldl step s

@[simp] theorem run_nil (s : σ) : run step s [] = s := rfl

@[simp] theorem run_cons (s : σ) (a : α) (as : List α) :
    run step s (a :: as) = run step (step s a) as := rfl

theorem run_append (s : σ) (as bs : List α) :
    run step s (as ++ bs) = run step (run step s as) bs := by
  simp [run]

/-- What holds at the start and is preserved by every step holds after every run. -/
theorem run_invariant (hstep : ∀ s a, inv s → inv (step s a))
    (h0 : inv s) (as : List α) : inv (run step s as) := by
  induction as generalizing s with
  | nil => exact h0
  | cons a as ih => exact ih (hstep s a h0)

theorem run_invariant_of_forall {ok : α → Prop}
    (hstep : ∀ s a, inv s → ok a → inv (step s a)) (h0 : inv s)
    (h : ∀ a ∈ as, ok a) : inv (run step s as) := by
  induction as generalizing s with
  | nil => exact h0
  | cons a as ih =>
    have hfirst := hstep s a h0 (h a List.mem_cons_self)
    exact ih hfirst fun b hb => h b (List.mem_cons_of_mem _ hb)

/-- Every step of the run meets `ok`, in the state before it. -/
def AllSteps (ok : σ → α → Prop) : σ → List α → Prop
  | _, [] => True
  | s, a :: as => ok s a ∧ AllSteps ok (step s a) as

instance AllSteps.decidable (ok : σ → α → Prop) [∀ s a, Decidable (ok s a)] :
    ∀ s as, Decidable (AllSteps step ok s as)
  | _, [] => instDecidableTrue
  | s, a :: as =>
    have := AllSteps.decidable ok (step s a) as
    inferInstanceAs (Decidable (_ ∧ _))

/-- The run passes through `t` (its first and last states included). -/
def Reaches (s : σ) (as : List α) (t : σ) : Prop :=
  ∃ pre post, as = pre ++ post ∧ t = run step s pre

variable {step} {ok : σ → α → Prop} {ok' : σ → α → Prop}

theorem reaches_run (s : σ) (as : List α) : Reaches step s as (run step s as) :=
  ⟨as, [], (List.append_nil as).symm, rfl⟩

theorem AllSteps.left {as bs : List α} (h : AllSteps step ok s (as ++ bs)) :
    AllSteps step ok s as := by
  induction as generalizing s with
  | nil => trivial
  | cons a as ih => exact ⟨h.1, ih h.2⟩

theorem AllSteps.right {as bs : List α} (h : AllSteps step ok s (as ++ bs)) :
    AllSteps step ok (run step s as) bs := by
  induction as generalizing s with
  | nil => exact h
  | cons a as ih => exact ih h.2

theorem AllSteps.append {as bs : List α} (h : AllSteps step ok s as)
    (h' : AllSteps step ok (run step s as) bs) : AllSteps step ok s (as ++ bs) := by
  induction as generalizing s with
  | nil => exact h'
  | cons a as ih => exact ⟨h.1, ih h.2 h'⟩

/-- The invariant rule: what holds at the start and is preserved by every step
that meets `ok` holds after every run of such steps. -/
theorem AllSteps.invariant (hstep : ∀ s a, inv s → ok s a → inv (step s a))
    (h : AllSteps step ok s as) (h0 : inv s) : inv (run step s as) := by
  induction as generalizing s with
  | nil => exact h0
  | cons a as ih => exact ih h.2 (hstep s a h0 h.1)

/-- Under an invariant that such steps keep, a condition on the steps gives another one. -/
theorem AllSteps.imp (hstep : ∀ s a, inv s → ok s a → inv (step s a))
    (himp : ∀ s a, inv s → ok s a → ok' s a)
    (h : AllSteps step ok s as) (h0 : inv s) : AllSteps step ok' s as := by
  induction as generalizing s with
  | nil => trivial
  | cons a as ih => exact ⟨himp s a h0 h.1, ih h.2 (hstep s a h0 h.1)⟩

/-- Two systems that agree on every step that meets `ok` have the same runs of such steps. -/
theorem AllSteps.run_congr {step' : σ → α → σ} (heq : ∀ s a, ok s a → step s a = step' s a)
    (h : AllSteps step ok s as) : run step s as = run step' s as := by
  induction as generalizing s with
  | nil => rfl
  | cons a as ih =>
    rw [run_cons, run_cons, ← heq s a h.1]
    exact ih h.2

theorem AllSteps.invariant_reaches (hstep : ∀ s a, inv s → ok s a → inv (step s a)) {s t : σ}
    (h : AllSteps step ok s as) (h0 : inv s) (ht : Reaches step s as t) : inv t := by
  obtain ⟨pre, post, rfl, rfl⟩ := ht
  exact h.left.invariant hstep h0

theorem reaches_cons {s t : σ} {a : α} :
    Reaches step s (a :: as) t ↔ t = s ∨ Reaches step (step s a) as t := by
  constructor
  · rintro ⟨pre, post, heq, rfl⟩
    cases pre with
    | nil => exact .inl rfl
    | cons b pre =>
      rw [List.cons_append, List.cons.injEq] at heq
      rcases heq with ⟨rfl, rfl⟩
      exact .inr ⟨pre, post, rfl, rfl⟩
  · rintro (rfl | ⟨pre, post, rfl, rfl⟩)
    · exact ⟨[], a :: as, rfl, rfl⟩
    · exact ⟨a :: pre, post, rfl, rfl⟩

theorem allSteps_of_forall (h : ∀ s a, ok s a) (s : σ) (as : List α) : AllSteps step ok s as := by
  induction as generalizing s with
  | nil => trivial
  | cons a as ih => exact ⟨h s a, ih (step s a)⟩

theorem allSteps_of_forall_mem {ok : α → Prop} (h : ∀ a ∈ as, ok a) (s : σ) :
    AllSteps step (fun _ a => ok a) s as := by
  induction as generalizing s with
  | nil => trivial
  | cons a as ih =>
    exact ⟨h a List.mem_cons_self, ih (fun b hb => h b (List.mem_cons_of_mem _ hb)) (step s a)⟩

/-- Two conditions that agree in every state of the runs agree on the runs. -/
theorem allSteps_congr
    (hinv : ∀ s a, inv s → inv (step s a)) (heq : ∀ s a, inv s → (ok s a ↔ ok' s a))
    (h0 : inv s) (as : List α) : AllSteps step ok s as ↔ AllSteps step ok' s as := by
  induction as generalizing s with
  | nil => exact Iff.rfl
  | cons a as ih => exact and_congr (heq s a h0) (ih (hinv s a h0))

theorem allSteps_comap {τ : Type*} {f : τ → σ} {step' : τ → α → τ}
    (hf : ∀ t a, f (step' t a) = step (f t) a) (t : τ) (as : List α) :
    AllSteps step' (fun t a => ok (f t) a) t as ↔ AllSteps step ok (f t) as := by
  induction as generalizing t with
  | nil => exact Iff.rfl
  | cons a as ih =>
    have hrest := ih (step' t a)
    rw [hf] at hrest
    exact and_congr Iff.rfl hrest

theorem allSteps_and :
    AllSteps step (fun s a => ok s a ∧ ok' s a) s as ↔
      AllSteps step ok s as ∧ AllSteps step ok' s as := by
  induction as generalizing s with
  | nil => exact ⟨fun _ => ⟨trivial, trivial⟩, fun _ => trivial⟩
  | cons a as ih =>
    constructor
    · rintro ⟨⟨hok, hok'⟩, hrest⟩
      have hboth := ih.mp hrest
      exact ⟨⟨hok, hboth.1⟩, hok', hboth.2⟩
    · rintro ⟨⟨hok, hrest⟩, hok', hrest'⟩
      exact ⟨⟨hok, hok'⟩, ih.mpr ⟨hrest, hrest'⟩⟩

/-- Two conditions that agree in every state of the runs of a domain agree on its runs. -/
theorem AllSteps.congr {dom ok' : σ → α → Prop} (hinv : ∀ s a, inv s → dom s a → inv (step s a))
    (heq : ∀ s a, inv s → dom s a → (ok s a ↔ ok' s a)) (h0 : inv s)
    (hdom : AllSteps step dom s as) : AllSteps step ok s as ↔ AllSteps step ok' s as := by
  induction as generalizing s with
  | nil => exact Iff.rfl
  | cons a as ih =>
    exact and_congr (heq s a h0 hdom.1) (ih (hinv s a h0 hdom.1) hdom.2)

/-- When `ok` is exactly what a step needs to keep `good`, the runs that never
leave `good` are those whose steps all meet `ok`; here for the runs of a domain `dom`. -/
theorem AllSteps.iff_forall_reaches {dom : σ → α → Prop} {inv good : σ → Prop}
    (hinv : ∀ s a, inv s → dom s a → inv (step s a))
    (hgood : ∀ s a, inv s → dom s a → good s → (good (step s a) ↔ ok s a)) (h0 : inv s)
    (hs : good s) (hdom : AllSteps step dom s as) :
    AllSteps step ok s as ↔ ∀ t, Reaches step s as t → good t := by
  induction as generalizing s with
  | nil =>
    refine ⟨?_, fun _ => trivial⟩
    rintro - t ⟨pre, post, heq, rfl⟩
    rcases List.append_eq_nil_iff.mp heq.symm with ⟨rfl, -⟩
    exact hs
  | cons a as ih =>
    rcases hdom with ⟨hfirst, hrest⟩
    have hinv' := hinv s a h0 hfirst
    have hgood' := hgood s a h0 hfirst hs
    constructor
    · rintro ⟨hok, hall⟩ t ht
      rcases reaches_cons.mp ht with rfl | hlater
      · exact hs
      · exact (ih hinv' (hgood'.mpr hok) hrest).mp hall t hlater
    · intro hall
      have hnext : good (step s a) := hall _ (reaches_cons.mpr (.inr ⟨[], as, rfl, rfl⟩))
      refine ⟨hgood'.mp hnext, (ih hinv' hnext hrest).mpr ?_⟩
      intro t ht
      exact hall t (reaches_cons.mpr (.inr ht))

theorem allSteps_iff_forall_reaches {inv good : σ → Prop} (hinv : ∀ s a, inv s → inv (step s a))
    (hgood : ∀ s a, inv s → good s → (good (step s a) ↔ ok s a)) (h0 : inv s)
    (hs : good s) (as : List α) :
    AllSteps step ok s as ↔ ∀ t, Reaches step s as t → good t := by
  have hdom : AllSteps step (fun _ _ => True) s as := allSteps_of_forall (fun _ _ => trivial) s as
  exact hdom.iff_forall_reaches (fun s a h _ => hinv s a h) (fun s a h _ => hgood s a h) h0 hs

/-- The same where the step needs no invariant besides `good`. -/
theorem allSteps_iff_forall_good {good : σ → Prop}
    (hgood : ∀ s a, good s → (good (step s a) ↔ ok s a)) (hs : good s) (as : List α) :
    AllSteps step ok s as ↔ ∀ t, Reaches step s as t → good t := by
  have hinv : ∀ s a, True → (fun _ => True) (step s a) := fun _ _ h => h
  exact allSteps_iff_forall_reaches hinv (fun s a _ => hgood s a) trivial hs as

/-- When steps that meet `ok` keep a `strong` invariant and a step out of it that ends
in a `good` state has met `ok`, the runs that never leave `good` are those whose steps
all meet `ok`. -/
theorem allSteps_iff_forall_reaches_of_strong {strong good : σ → Prop}
    (hkeep : ∀ s a, strong s → ok s a → strong (step s a)) (hgood : ∀ s, strong s → good s)
    (hneed : ∀ s a, strong s → good (step s a) → ok s a) (h0 : strong s)
    (as : List α) : AllSteps step ok s as ↔ ∀ t, Reaches step s as t → good t := by
  constructor
  · intro hall t ht
    exact hgood t (hall.invariant_reaches hkeep h0 ht)
  · induction as generalizing s with
    | nil => exact fun _ => trivial
    | cons a as ih =>
      intro hall
      have hnext : good (step s a) := hall _ (reaches_cons.mpr (.inr ⟨[], as, rfl, rfl⟩))
      have hok := hneed s a h0 hnext
      refine ⟨hok, ih (hkeep s a h0 hok) ?_⟩
      intro t ht
      exact hall t (reaches_cons.mpr (.inr ht))

end FlyBoard.Run

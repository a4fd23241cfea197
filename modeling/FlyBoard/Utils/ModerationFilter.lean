import FlyBoard.Lib.Run
import FlyBoard.Utils.AhoModeration

/-!
# The moderation filter (`src/utils/moderation_filter.c`)

The policy is shared with a generation number, which wraps. A check takes a snapshot,
loads the automaton of its generation unless that one is loaded, and searches with
whatever automaton the process then has; in between the locks are free, so that any
number of checks and publications interleave.

The automaton is a parameter here: how it is built from the rules, and whether it finds
one of them in a text.
-/

namespace FlyBoard.ModerationFilter

open FlyBoard.Run

inductive Action
  | pending
  | reject
deriving DecidableEq, Repr

/-- `moderation_filter_policy_t` -/
structure Policy where
  enabled : Bool
  action : Action
  caseFold : Bool
  matchLimit : ℕ
  rules : Bytes
deriving DecidableEq, Repr

/-- Where a call of `moderation_filter_check` is. -/
inductive Pc
  | reload
  | search
  | done (result : Option Action)
deriving DecidableEq, Repr

structure Check where
  content : Bytes
  policy : Policy
  generation : BitVec 32
  pc : Pc
deriving DecidableEq, Repr

section

variable {A : Type} (build : Bytes → Bool → Option A) (found : A → Bytes → ℕ → Bool)

/-- The shared policy, the automaton of the process and the checks so far. -/
structure State (A : Type) where
  shared : Policy
  generation : BitVec 32
  matcher : Option A
  loadedGeneration : BitVec 32
  haveGeneration : Bool
  checks : List Check

inductive Step
  | publish (policy : Policy)
  /-- A check of this content begins with its snapshot. -/
  | snapshot (content : Bytes)
  /-- The check with this index goes on. -/
  | go (i : ℕ)
deriving DecidableEq, Repr

def publish (s : State A) (policy : Policy) : State A :=
  { s with shared := policy, generation := s.generation + 1 }

def snapshot (s : State A) (content : Bytes) : Check :=
  ⟨content, s.shared, s.generation, if s.shared.enabled then .reload else .done none⟩

def reloadIfNeeded (s : State A) (policy : Policy) (generation : BitVec 32) : State A :=
  if !s.haveGeneration || s.loadedGeneration != generation then
    { s with
      matcher := build policy.rules policy.caseFold
      loadedGeneration := generation
      haveGeneration := true }
  else s

/-- What a search with this automaton comes to under a policy. -/
def verdict (matcher : Option A) (policy : Policy) (content : Bytes) : Option Action :=
  match matcher with
  | some a => if found a content policy.matchLimit then some policy.action else none
  | none => none

def step (s : State A) : Step → State A
  | .publish policy => publish s policy
  | .snapshot content => { s with checks := s.checks ++ [snapshot s content] }
  | .go i =>
    match s.checks[i]? with
    | none => s
    | some c =>
      match c.pc with
      | .reload =>
        let s' := reloadIfNeeded build s c.policy c.generation
        { s' with checks := s.checks.set i { c with pc := .search } }
      | .search =>
        let c' := { c with pc := .done (verdict found s.matcher c.policy c.content) }
        { s with checks := s.checks.set i c' }
      | .done _ => s

/-- The state after `moderation_filter_init` has published its policy. -/
def start (policy : Policy) (generation : BitVec 32) : State A :=
  ⟨policy, generation, none, 0, false, []⟩

def judge (policy : Policy) (content : Bytes) : Option Action :=
  if policy.enabled then verdict found (build policy.rules policy.caseFold) policy content else none

def JudgedBySnapshot (s : State A) : Prop :=
  ∀ c ∈ s.checks, ∀ result, c.pc = .done result → result = judge build found c.policy c.content

def Check.Running (c : Check) : Prop := c.pc = .reload ∨ c.pc = .search

instance (c : Check) : Decidable c.Running := inferInstanceAs (Decidable (_ ∨ _))

def InUse (s : State A) (generation : BitVec 32) : Prop :=
  (s.haveGeneration = true ∧ s.loadedGeneration = generation) ∨
    ∃ c ∈ s.checks, c.Running ∧ c.generation = generation

instance (s : State A) (generation : BitVec 32) : Decidable (InUse s generation) :=
  inferInstanceAs (Decidable (_ ∨ _))

/-- No number in use is given to a new policy, and no check loads another generation while
one is between its reload and its search. -/
def Apart (s : State A) : Step → Prop
  | .publish _ => ¬ InUse s (s.generation + 1)
  | .snapshot _ => True
  | .go i => ∀ c ∈ s.checks[i]?, c.pc = .reload →
      (s.haveGeneration = true ∧ s.loadedGeneration = c.generation) ∨
        ∀ c' ∈ s.checks, c'.pc ≠ .search

instance : ∀ (s : State A) (a : Step), Decidable (Apart s a)
  | _, .publish _ => inferInstanceAs (Decidable (¬ _))
  | _, .snapshot _ => instDecidableTrue
  | s, .go i => inferInstanceAs (Decidable (∀ c ∈ s.checks[i]?, _ → _))

/-! ## The invariant -/

/-- A check that is not over has the policy that its generation stands for, in the shared
memory, in the other checks and in the loaded automaton; and a check before its search
finds its own automaton. -/
structure Inv (s : State A) : Prop where
  current : ∀ c ∈ s.checks, c.Running → c.generation = s.generation → c.policy = s.shared
  agree : ∀ c ∈ s.checks, ∀ c' ∈ s.checks, c.Running → c'.Running →
    c.generation = c'.generation → c.policy = c'.policy
  loaded : ∀ c ∈ s.checks, c.Running → s.haveGeneration = true →
    s.loadedGeneration = c.generation → s.matcher = build c.policy.rules c.policy.caseFold
  latest : s.haveGeneration = true → s.loadedGeneration = s.generation →
    s.matcher = build s.shared.rules s.shared.caseFold
  ready : ∀ c ∈ s.checks, c.pc = .search →
    s.haveGeneration = true ∧ s.loadedGeneration = c.generation
  enabled : ∀ c ∈ s.checks, c.Running → c.policy.enabled = true
  judged : JudgedBySnapshot build found s

variable {build found} {s : State A}

theorem inv_start (policy : Policy) (generation : BitVec 32) :
    Inv build found (start policy generation) where
  current _ h := absurd h List.not_mem_nil
  agree _ h := absurd h List.not_mem_nil
  loaded _ h := absurd h List.not_mem_nil
  latest h := nomatch h
  ready _ h := absurd h List.not_mem_nil
  enabled _ h := absurd h List.not_mem_nil
  judged _ h := absurd h List.not_mem_nil

theorem inv_publish (hinv : Inv build found s) (policy : Policy)
    (h : ¬ InUse s (s.generation + 1)) : Inv build found (publish s policy) where
  current c hc hpc hgen := absurd (.inr ⟨c, hc, hpc, hgen⟩) h
  agree := hinv.agree
  loaded := hinv.loaded
  latest hhave hgen := absurd (.inl ⟨hhave, hgen⟩) h
  ready := hinv.ready
  enabled := hinv.enabled
  judged := hinv.judged

theorem inv_snapshot (hinv : Inv build found s) (content : Bytes) :
    Inv build found { s with checks := s.checks ++ [snapshot s content] } := by
  have hmem : ∀ c ∈ s.checks ++ [snapshot s content], c ∈ s.checks ∨ c = snapshot s content := by
    intro c hc
    rcases List.mem_append.1 hc with hc | hc
    · exact .inl hc
    · exact .inr (List.mem_singleton.1 hc)
  have hpc : (snapshot s content).pc ≠ .search := by
    unfold snapshot
    dsimp only
    split <;> exact (nomatch ·)
  constructor
  · intro c hc hpc' hgen
    rcases hmem c hc with hc | rfl
    · exact hinv.current c hc hpc' hgen
    · rfl
  · intro c hc c' hc' hpc' hpc'' hgen
    rcases hmem c hc with hc | rfl
    · rcases hmem c' hc' with hc' | rfl
      · exact hinv.agree c hc c' hc' hpc' hpc'' hgen
      · exact hinv.current c hc hpc' hgen
    · rcases hmem c' hc' with hc' | rfl
      · exact (hinv.current c' hc' hpc'' hgen.symm).symm
      · rfl
  · intro c hc hpc' hhave hgen
    rcases hmem c hc with hc | rfl
    · exact hinv.loaded c hc hpc' hhave hgen
    · exact hinv.latest hhave hgen
  · exact hinv.latest
  · intro c hc hsearch
    rcases hmem c hc with hc | rfl
    · exact hinv.ready c hc hsearch
    · exact absurd hsearch hpc
  · intro c hc hpc'
    rcases hmem c hc with hc | rfl
    · exact hinv.enabled c hc hpc'
    · rcases hpc' with hreload | hsearch
      · unfold snapshot at hreload ⊢
        dsimp only at hreload ⊢
        split at hreload
        · next henabled => exact henabled
        · exact nomatch hreload
      · exact absurd hsearch hpc
  · intro c hc result hdone
    rcases hmem c hc with hc | rfl
    · exact hinv.judged c hc result hdone
    · -- a check that is over with its snapshot is one of a disabled policy
      unfold snapshot at hdone ⊢
      dsimp only at hdone ⊢
      unfold judge
      split at hdone
      · exact nomatch hdone
      · next hdisabled =>
        rw [if_neg hdisabled]
        exact (Pc.done.inj hdone).symm

theorem inv_loaded {i : ℕ} {c : Check} (hinv : Inv build found s) (hc : c ∈ s.checks)
    (hpc : c.pc = .reload) (hgen : s.haveGeneration = true ∧ s.loadedGeneration = c.generation) :
    Inv build found { s with checks := s.checks.set i { c with pc := .search } } := by
  have hmem : ∀ x ∈ s.checks.set i { c with pc := .search },
      x ∈ s.checks ∨ x = { c with pc := .search } := fun x hx => List.mem_or_eq_of_mem_set hx
  have hrun : c.Running := .inl hpc
  constructor
  · intro x hx hxrun
    rcases hmem x hx with hx | rfl
    · exact hinv.current x hx hxrun
    · exact hinv.current c hc hrun
  · intro x hx y hy hxrun hyrun
    rcases hmem x hx with hx | rfl
    · rcases hmem y hy with hy | rfl
      · exact hinv.agree x hx y hy hxrun hyrun
      · exact hinv.agree x hx c hc hxrun hrun
    · rcases hmem y hy with hy | rfl
      · exact hinv.agree c hc y hy hrun hyrun
      · exact fun _ => rfl
  · intro x hx hxrun
    rcases hmem x hx with hx | rfl
    · exact hinv.loaded x hx hxrun
    · exact hinv.loaded c hc hrun
  · exact hinv.latest
  · intro x hx hsearch
    rcases hmem x hx with hx | rfl
    · exact hinv.ready x hx hsearch
    · exact hgen
  · intro x hx hxrun
    rcases hmem x hx with hx | rfl
    · exact hinv.enabled x hx hxrun
    · exact hinv.enabled c hc hrun
  · intro x hx result hdone
    rcases hmem x hx with hx | rfl
    · exact hinv.judged x hx result hdone
    · exact nomatch hdone

theorem inv_load {c : Check} (hinv : Inv build found s) (hc : c ∈ s.checks) (hpc : c.pc = .reload)
    (hno : ∀ x ∈ s.checks, x.pc ≠ .search) :
    Inv build found { s with
      matcher := build c.policy.rules c.policy.caseFold
      loadedGeneration := c.generation
      haveGeneration := true } where
  current := hinv.current
  agree := hinv.agree
  loaded x hx hxrun _ hgen := by
    rw [hinv.agree c hc x hx (.inl hpc) hxrun hgen]
  latest _ hgen := by
    rw [hinv.current c hc (.inl hpc) hgen]
  ready x hx hsearch := absurd hsearch (hno x hx)
  enabled := hinv.enabled
  judged := hinv.judged

theorem inv_search {i : ℕ} {c : Check} (hinv : Inv build found s) (hc : c ∈ s.checks)
    (hpc : c.pc = .search) :
    Inv build found { s with
      checks := s.checks.set i { c with
        pc := .done (verdict found s.matcher c.policy c.content) } } := by
  have hmem : ∀ x ∈ s.checks.set i { c with
      pc := .done (verdict found s.matcher c.policy c.content) }, x.Running → x ∈ s.checks := by
    intro x hx hxrun
    rcases List.mem_or_eq_of_mem_set hx with hx | rfl
    · exact hx
    · rcases hxrun with h | h
      · exact nomatch h
      · exact nomatch h
  constructor
  · exact fun x hx hxrun => hinv.current x (hmem x hx hxrun) hxrun
  · exact fun x hx y hy hxrun hyrun =>
      hinv.agree x (hmem x hx hxrun) y (hmem y hy hyrun) hxrun hyrun
  · exact fun x hx hxrun => hinv.loaded x (hmem x hx hxrun) hxrun
  · exact hinv.latest
  · exact fun x hx hsearch => hinv.ready x (hmem x hx (.inr hsearch)) hsearch
  · exact fun x hx hxrun => hinv.enabled x (hmem x hx hxrun) hxrun
  · intro x hx result hdone
    rcases List.mem_or_eq_of_mem_set hx with hx | rfl
    · exact hinv.judged x hx result hdone
    · -- the automaton is that of the snapshot
      rcases hinv.ready c hc hpc with ⟨hhave, hgen⟩
      rw [← Pc.done.inj hdone, judge, if_pos (hinv.enabled c hc (.inr hpc)),
        hinv.loaded c hc (.inr hpc) hhave hgen]

theorem inv_step (s : State A) (a : Step) (hinv : Inv build found s) (h : Apart s a) :
    Inv build found (step build found s a) := by
  cases a with
  | publish policy => exact inv_publish hinv policy h
  | snapshot content => exact inv_snapshot hinv content
  | go i =>
    simp only [step]
    split
    · exact hinv
    · next c hi =>
      have hc : c ∈ s.checks := List.mem_of_getElem? hi
      split
      · next hpc =>
        unfold reloadIfNeeded
        split
        · next hload =>
          rcases h c hi hpc with ⟨hhave, hgen⟩ | hno
          · simp [hhave, hgen] at hload
          · exact inv_loaded (inv_load hinv hc hpc hno) hc hpc ⟨rfl, rfl⟩
        · next hload =>
          exact inv_loaded hinv hc hpc (by simpa using hload)
      · next hpc => exact inv_search hinv hc hpc
      · exact hinv

/-! ## Every run -/

/-- As long as no check loads another generation while one is between its reload and its
search, and no generation in use is given out again, every check is judged by the rules of
its own snapshot. -/
theorem judged_by_snapshot (policy : Policy) (generation : BitVec 32) (as : List Step)
    (h : AllSteps (step build found) Apart (start policy generation) as) :
    ∀ s, Reaches (step build found) (start policy generation) as s →
      JudgedBySnapshot build found s := by
  intro s hs
  exact (h.invariant_reaches (fun s a hinv ha => inv_step s a hinv ha)
    (inv_start policy generation) hs).judged

end

/-! ## Two policies -/

/-- `aho_moderation_search` finds something. -/
def ahoFound (a : AhoModeration.Automaton) (content : Bytes) (matchLimit : ℕ) : Bool :=
  0 < (AhoModeration.search a content matchLimit).1

def rejects (word : String) : Policy := ⟨true, .reject, false, 64, bytes word⟩

def oneByOne : List Step :=
  [.snapshot (bytes "spam"), .go 0, .go 0, .publish (rejects "ham"), .snapshot (bytes "spam"),
    .go 1, .go 1]

theorem judged_by_snapshot_one_by_one :
    JudgedBySnapshot AhoModeration.build ahoFound
      (run (step AhoModeration.build ahoFound) (start (rejects "spam") 1) oneByOne) :=
  judged_by_snapshot (rejects "spam") 1 oneByOne (by decide +kernel) _ (reaches_run _ _)

/-- The second check loads the new automaton between the reload and the search of the
first. -/
def interleaved : List Step :=
  [.snapshot (bytes "spam"), .publish (rejects "ham"), .snapshot (bytes "spam"), .go 0, .go 1,
    .go 0]

/-- The first check lets pass what the policy that it read rejects. -/
theorem judged_by_newer_policy :
    ¬ JudgedBySnapshot AhoModeration.build ahoFound
      (run (step AhoModeration.build ahoFound) (start (rejects "spam") 1) interleaved) := by
  intro h
  have hfirst := h ⟨bytes "spam", rejects "spam", 1, .done none⟩ (by decide +kernel) none rfl
  revert hfirst
  decide +kernel

end FlyBoard.ModerationFilter

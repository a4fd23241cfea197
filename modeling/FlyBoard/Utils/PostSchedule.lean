import FlyBoard.Lib.Run
import Mathlib.Data.Fintype.Basic
import Mathlib.Logic.Function.Basic

/-!
# The next due post (`src/utils/post_schedule.c`)

`next_due` is shared by all processes and says when the next scheduled post is due, `0` for
none. A save commits a post and lowers `next_due` to its time; `run_due` puts the answer of a
database query there once the time has come. Each load, exchange and query is one step, and
the steps of all processes interleave. A save that finds `next_due` low enough leaves it as it
is, and the exchange of a query made before cannot tell.
-/

namespace FlyBoard.PostSchedule

open FlyBoard.Run

variable {P : Type*} {ι : Type*}

/-- Where a process is: `noting` to `noteExchange` in `post_schedule_note`, the rest in
`run_due`. A step that has loaded something keeps it. -/
inductive Pc
  | idle
  | noting (due : ℕ)
  | noteLoad (due : ℕ)
  | noteExchange (due cur : ℕ)
  | dueLoad
  | dueTime (due : ℕ)
  | takeBusy
  | heldLoad
  | heldTime (due : ℕ)
  | query (due : ℕ)
  | exchange (due next : ℕ)
  | bump
  | release
deriving DecidableEq

/-- The clock in seconds since 1970, the published posts with their times, the shared
`shared_schedule_t` and the processes. -/
structure State (P ι : Type*) where
  now : ℕ
  posts : List (ι × ℕ)
  nextDue : ℕ
  generation : ℕ
  busy : Bool
  pc : P → Pc

/-- `save` commits a post and goes on to `post_schedule_note`. `advance` is the next step of a
process; `good` is false when a weak exchange fails for no reason or the query cannot be read. -/
inductive Input (P ι : Type*)
  | tick
  | save (p : P) (id : ι) (publishAt : ℕ)
  | remove (id : ι)
  | runDue (p : P)
  | advance (p : P) (good : Bool)

/-- `db_post_next_scheduled` -/
def dbPostNextScheduled (now : ℕ) (posts : List (ι × ℕ)) : ℕ :=
  (((posts.map Prod.snd).filter (now < ·)).min?).getD 0

/-- `post_schedule_init`, before the processes are there. -/
def init (P : Type*) (now : ℕ) (posts : List (ι × ℕ)) : State P ι where
  now := now
  posts := posts
  nextDue := dbPostNextScheduled now posts
  generation := 0
  busy := false
  pc := fun _ => .idle

section Step

variable [DecidableEq P]

def State.goto (s : State P ι) (p : P) (pc : Pc) : State P ι :=
  { s with pc := Function.update s.pc p pc }

/-- The head of the loop in `post_schedule_note`, with `cur` just read. -/
def noteLoop (due cur : ℕ) : Pc :=
  if cur = 0 ∨ due < cur then .noteExchange due cur else .idle

/-- The next step of `post_schedule_note` or `run_due`. -/
def advance (s : State P ι) (p : P) (good : Bool) : State P ι :=
  match s.pc p with
  | .idle => s
  | .noting due => s.goto p (if due ≤ s.now then .idle else .noteLoad due)
  | .noteLoad due => s.goto p (noteLoop due s.nextDue)
  | .noteExchange due cur =>
    if s.nextDue = cur ∧ good = true then { s with nextDue := due }.goto p .idle
    else s.goto p (noteLoop due s.nextDue)
  | .dueLoad => s.goto p (.dueTime s.nextDue)
  | .dueTime due => s.goto p (if due = 0 ∨ s.now < due then .idle else .takeBusy)
  | .takeBusy => if s.busy then s.goto p .idle else { s with busy := true }.goto p .heldLoad
  | .heldLoad => s.goto p (.heldTime s.nextDue)
  | .heldTime due => s.goto p (if due ≠ 0 ∧ due ≤ s.now then .query due else .release)
  | .query due =>
    s.goto p (.exchange due (if good then dbPostNextScheduled s.now s.posts else 0))
  | .exchange due next =>
    { s with nextDue := if s.nextDue = due then next else s.nextDue }.goto p .bump
  | .bump => { s with generation := s.generation + 1 }.goto p .release
  | .release => { s with busy := false }.goto p .idle

variable [DecidableEq ι]

/-- A process that is busy starts nothing new. -/
def step (s : State P ι) : Input P ι → State P ι
  | .tick => { s with now := s.now + 1 }
  | .save p id publishAt =>
    if s.pc p = .idle then
      { s with posts := (id, publishAt) :: s.posts.filter (·.1 ≠ id) }.goto p (.noting publishAt)
    else s
  | .remove id => { s with posts := s.posts.filter (·.1 ≠ id) }
  | .runDue p => if s.pc p = .idle then s.goto p .dueLoad else s
  | .advance p good => advance s p good

end Step

/-- `next_due` is in time for a post that is due at `t`. -/
def Covers (nextDue t : ℕ) : Prop := nextDue ≠ 0 ∧ nextDue ≤ t

instance (nextDue t : ℕ) : Decidable (Covers nextDue t) := inferInstanceAs (Decidable (_ ∧ _))

/-- With no step in progress `next_due` is in time for every post in the future. -/
def State.Remembers (s : State P ι) : Prop :=
  (∀ p, s.pc p = .idle) → ∀ x ∈ s.posts, s.now < x.2 → Covers s.nextDue x.2

/-- An exchange for `next_due` as it is now would leave it in time for `t`. -/
def Pc.Allows (nextDue t : ℕ) : Pc → Prop
  | .exchange due next => due = nextDue → Covers next t
  | _ => True

instance (nextDue t : ℕ) : ∀ pc : Pc, Decidable (pc.Allows nextDue t)
  | .exchange due next => inferInstanceAs (Decidable (due = nextDue → Covers next t))
  | .idle | .noting _ | .noteLoad _ | .noteExchange _ _ | .dueLoad | .dueTime _ | .takeBusy
  | .heldLoad | .heldTime _ | .query _ | .bump | .release => instDecidableTrue

/-- A note does not end on a `next_due` that a pending exchange is to replace by a later one or
by none, and the query is read when there is a post in the future. -/
def State.HeardAt (s : State P ι) (good : Bool) : Pc → Prop
  | .noteLoad due | .noteExchange due _ =>
    Covers s.nextDue due → ∀ q, (s.pc q).Allows s.nextDue due
  | .query _ => good = true ∨ ∀ x ∈ s.posts, x.2 ≤ s.now
  | _ => True

def Heard (s : State P ι) : Input P ι → Prop
  | .advance p good => s.HeardAt good (s.pc p)
  | _ => True

section Decide

variable [Fintype P] (s : State P ι)

instance : Decidable s.Remembers := inferInstanceAs (Decidable ((∀ p, s.pc p = .idle) → _))

instance (good : Bool) : ∀ pc, Decidable (s.HeardAt good pc)
  | .noteLoad due | .noteExchange due _ =>
    inferInstanceAs (Decidable (Covers s.nextDue due → ∀ q, (s.pc q).Allows s.nextDue due))
  | .query _ => inferInstanceAs (Decidable (good = true ∨ ∀ x ∈ s.posts, x.2 ≤ s.now))
  | .idle | .noting _ | .dueLoad | .dueTime _ | .takeBusy | .heldLoad | .heldTime _
  | .exchange _ _ | .bump | .release => instDecidableTrue

instance : ∀ a, Decidable (Heard s a)
  | .advance p good => inferInstanceAs (Decidable (s.HeardAt good (s.pc p)))
  | .tick | .save _ _ _ | .remove _ | .runDue _ => instDecidableTrue

end Decide

/-! ## The invariant -/

/-- The process still has to note a post that is due at `t`. -/
def Pc.Notes (t : ℕ) : Pc → Prop
  | .noting due | .noteLoad due | .noteExchange due _ => due = t
  | _ => False

/-- The process has taken `busy`. -/
def Pc.Holds : Pc → Prop
  | .heldLoad | .heldTime _ | .query _ | .exchange _ _ | .bump | .release => True
  | _ => False

/-- Every post in the future is still to be noted, or `nextDue` is in time for it. -/
def State.Accounted (s : State P ι) (nextDue : ℕ) : Prop :=
  ∀ x ∈ s.posts, s.now < x.2 → (∃ p, (s.pc p).Notes x.2) ∨ Covers nextDue x.2

/-- What a process may rely on. While it holds `busy`, `next_due` only goes down. -/
def State.Fine (s : State P ι) : Pc → Prop
  | .noteLoad due => due ≠ 0
  | .noteExchange due cur => due ≠ 0 ∧ (cur = 0 ∨ due < cur)
  | .heldTime due => due ≠ 0 → Covers s.nextDue due
  | .query due => due ≠ 0 ∧ Covers s.nextDue due
  | .exchange due next => Covers s.nextDue due ∧ (s.nextDue = due → s.Accounted next)
  | _ => True

structure State.Inv (s : State P ι) : Prop where
  accounted : s.Accounted s.nextDue
  fine : ∀ p, s.Fine (s.pc p)
  locked : ∀ p, (s.pc p).Holds → s.busy = true
  alone : ∀ p q, (s.pc p).Holds → (s.pc q).Holds → p = q

theorem State.Inv.remembers {s : State P ι} (h : s.Inv) : s.Remembers := by
  intro hidle x hx hfuture
  rcases h.accounted x hx hfuture with ⟨p, hp⟩ | hcovers
  · rw [hidle p] at hp
    exact hp.elim
  · exact hcovers

theorem covers_dbPostNextScheduled {now : ℕ} {posts : List (ι × ℕ)} {x : ι × ℕ} (hx : x ∈ posts)
    (hfuture : now < x.2) : Covers (dbPostNextScheduled now posts) x.2 := by
  have hmem : x.2 ∈ (posts.map Prod.snd).filter (now < ·) :=
    List.mem_filter.mpr ⟨List.mem_map_of_mem hx, decide_eq_true hfuture⟩
  unfold dbPostNextScheduled
  rcases hmin : ((posts.map Prod.snd).filter (now < ·)).min? with _ | t
  · rw [List.min?_eq_none_iff.mp hmin] at hmem
    exact nomatch hmem
  · have ht := List.min?_eq_some_iff.mp hmin
    have hpos : now < t := of_decide_eq_true (List.mem_filter.mp ht.1).2
    exact ⟨Nat.ne_of_gt (Nat.zero_lt_of_lt hpos), ht.2 _ hmem⟩

theorem init_inv (now : ℕ) (posts : List (ι × ℕ)) : (init P now posts).Inv where
  accounted := fun _ hx hfuture => .inr (covers_dbPostNextScheduled hx hfuture)
  fine := fun _ => trivial
  locked := fun _ h => h.elim
  alone := fun _ _ h => h.elim

/-! ## One step -/

section Preservation

variable [DecidableEq P] {s : State P ι} {p : P} {pc : Pc} {t : State P ι} {due : ℕ}

@[simp] theorem goto_nextDue (pc : Pc) : (s.goto p pc).nextDue = s.nextDue := rfl

theorem goto_pc (pc : Pc) (q : P) :
    (s.goto p pc).pc q = if q = p then pc else s.pc q :=
  Function.update_apply ..

/-- Without a note that the process ends, the posts stay accounted for. -/
theorem State.Accounted.goto {d : ℕ} (h : s.Accounted d)
    (hnotes : ∀ t, (s.pc p).Notes t → pc.Notes t ∨ Covers d t ∨ t ≤ s.now) :
    (s.goto p pc).Accounted d := by
  intro x hx hfuture
  rcases h x hx hfuture with ⟨q, hq⟩ | hcovers
  · by_cases hqp : q = p
    · rw [hqp] at hq
      rcases hnotes _ hq with hpc | hcovers | hpast
      · exact .inl ⟨p, by rwa [goto_pc, if_pos rfl]⟩
      · exact .inr hcovers
      · exact absurd hfuture (Nat.not_lt_of_le hpast)
    · exact .inl ⟨q, by rwa [goto_pc, if_neg hqp]⟩
  · exact .inr hcovers

omit [DecidableEq P] in
theorem State.Fine.mono (h : s.Fine pc) (hdue : t.nextDue = s.nextDue)
    (hacc : ∀ due next, pc = .exchange due next → due = s.nextDue → s.Accounted next →
      t.Accounted next) : t.Fine pc := by
  cases pc with
  | heldTime due =>
    unfold State.Fine
    rwa [hdue]
  | query due =>
    unfold State.Fine
    rwa [hdue]
  | exchange due next =>
    unfold State.Fine
    rw [hdue]
    exact ⟨h.1, fun heq => hacc due next rfl heq.symm (h.2 heq)⟩
  | _ => exact h

/-- A step of one process that leaves `next_due` and the lock. -/
theorem State.Inv.goto (h : s.Inv) (hfine : (s.goto p pc).Fine pc)
    (hholds : pc.Holds → (s.pc p).Holds) (hnotes : ∀ t, (s.pc p).Notes t → pc.Notes t ∨ t ≤ s.now ∨
      (Covers s.nextDue t ∧ ∀ q, (s.pc q).Allows s.nextDue t)) : (s.goto p pc).Inv := by
  have hheld : ∀ q, ((s.goto p pc).pc q).Holds → (s.pc q).Holds := by
    intro q hq
    rw [goto_pc] at hq
    split_ifs at hq with hqp
    · exact hqp ▸ hholds hq
    · exact hq
  refine ⟨?_, ?_, fun q hq => h.locked q (hheld q hq), ?_⟩
  · refine h.accounted.goto fun t ht => ?_
    rcases hnotes t ht with hpc | hpast | hcovers
    · exact .inl hpc
    · exact .inr (.inr hpast)
    · exact .inr (.inl hcovers.1)
  · intro q
    rw [goto_pc]
    split_ifs with hqp
    · exact hfine
    · refine (h.fine q).mono rfl fun due next hq hdue hacc => hacc.goto fun t ht => ?_
      rcases hnotes t ht with hpc | hpast | hcovers
      · exact .inl hpc
      · exact .inr (.inr hpast)
      · have hallows := hcovers.2 q
        rw [hq] at hallows
        exact .inr (.inl (hallows hdue))
  · intro q r hq hr
    exact h.alone q r (hheld q hq) (hheld r hr)

omit [DecidableEq P] in
/-- A save lowers `next_due` under every exchange that is pending. -/
theorem State.Inv.lower (h : s.Inv) (hpos : due ≠ 0)
    (hlow : s.nextDue = 0 ∨ due < s.nextDue) : { s with nextDue := due }.Inv := by
  have hbelow : ∀ t, Covers s.nextDue t → Covers due t ∧ due ≠ t := by
    rintro t ⟨hne, hle⟩
    have hlt : due < t := by omega
    exact ⟨⟨hpos, Nat.le_of_lt hlt⟩, Nat.ne_of_lt hlt⟩
  refine ⟨?_, ?_, h.locked, h.alone⟩
  · intro x hx hfuture
    exact (h.accounted x hx hfuture).imp_right fun hcovers => (hbelow _ hcovers).1
  · intro q
    have hq := h.fine q
    change State.Fine _ (s.pc q)
    cases hpc : s.pc q with
    | heldTime d =>
      rw [hpc] at hq
      exact fun hd => (hbelow d (hq hd)).1
    | query d =>
      rw [hpc] at hq
      exact ⟨hq.1, (hbelow d hq.2).1⟩
    | exchange d next =>
      rw [hpc] at hq
      exact ⟨(hbelow d hq.1).1, fun heq => absurd heq (hbelow d hq.1).2⟩
    | _ =>
      rw [hpc] at hq
      exact hq

omit [DecidableEq P] in
/-- The clock goes on, and posts come with a note that is under way or go. -/
theorem State.Inv.of_posts (h : s.Inv) (hdue : t.nextDue = s.nextDue)
    (hbusy : t.busy = s.busy) (hpc : t.pc = s.pc) (hposts : ∀ x ∈ t.posts, t.now < x.2 →
      (x ∈ s.posts ∧ s.now < x.2) ∨ ∃ p, (s.pc p).Notes x.2) : t.Inv := by
  have hacc : ∀ d, s.Accounted d → t.Accounted d := by
    intro d hd x hx hfuture
    rw [hpc]
    rcases hposts x hx hfuture with ⟨hold, hlater⟩ | hnew
    · exact hd x hold hlater
    · exact .inl hnew
  refine ⟨?_, ?_, ?_, ?_⟩
  · rw [hdue]
    exact hacc _ h.accounted
  · intro q
    rw [hpc]
    exact (h.fine q).mono hdue fun _ next _ _ hd => hacc next hd
  · rw [hpc, hbusy]
    exact h.locked
  · rw [hpc]
    exact h.alone

/-- `busy` is taken by one process at a time. -/
theorem State.Inv.take (h : s.Inv) (hpc : s.pc p = .takeBusy) (hfree : s.busy = false) :
    ({ s with busy := true }.goto p .heldLoad).Inv := by
  have hnone : ∀ q, ¬(s.pc q).Holds := fun q hq => nomatch hfree.symm.trans (h.locked q hq)
  have hself : ∀ q, (({ s with busy := true }.goto p .heldLoad).pc q).Holds → q = p := by
    intro q hq
    rw [goto_pc] at hq
    split_ifs at hq with hqp
    · exact hqp
    · exact absurd hq (hnone q)
  refine ⟨?_, ?_, fun _ _ => rfl, fun q r hq hr => (hself q hq).trans (hself r hr).symm⟩
  · refine State.Accounted.goto h.accounted fun t ht => ?_
    have hno : ¬(s.pc p).Notes t := by
      rw [hpc]
      exact id
    exact absurd ht hno
  · intro q
    rw [goto_pc]
    split_ifs
    · trivial
    · refine (h.fine q).mono rfl fun due next hq _ _ => absurd trivial (?_ : ¬True)
      have hholds : (s.pc q).Holds := by
        rw [hq]
        trivial
      exact absurd hholds (hnone q)

/-- What the holder of `busy` changes on its own: the rest does not look at it. -/
theorem State.Inv.hold (h : s.Inv) (hholds : (s.pc p).Holds)
    (hnow : t.now = s.now) (hposts : t.posts = s.posts) (hpc : t.pc = s.pc)
    (hacc : s.Accounted t.nextDue) (hfine : (t.goto p pc).Fine pc)
    (hlocked : pc.Holds → t.busy = true) : (t.goto p pc).Inv := by
  have hno : ∀ t, ¬(s.pc p).Notes t := by
    intro t ht
    cases hp : s.pc p <;> rw [hp] at ht hholds
    all_goals first | exact ht | exact hholds
  have hother : ∀ q, q ≠ p → ¬(s.pc q).Holds := fun q hqp hq => hqp (h.alone q p hq hholds)
  have hself : ∀ q, ((t.goto p pc).pc q).Holds → q = p ∧ pc.Holds := by
    intro q hq
    rw [goto_pc] at hq
    split_ifs at hq with hqp
    · exact ⟨hqp, hq⟩
    · rw [hpc] at hq
      exact absurd hq (hother q hqp)
  refine ⟨?_, ?_, fun q hq => hlocked (hself q hq).2,
    fun q r hq hr => (hself q hq).1.trans (hself r hr).1.symm⟩
  · refine State.Accounted.goto ?_ fun d hd => ?_
    · intro x hx hfuture
      rw [hpc]
      exact hacc x (hposts ▸ hx) (hnow ▸ hfuture)
    · rw [hpc] at hd
      exact absurd hd (hno d)
  · intro q
    rw [goto_pc]
    split_ifs with hqp
    · exact hfine
    · rw [hpc]
      have hq := h.fine q
      have hnot := hother q hqp
      -- only the holder looks at the shared state
      cases hp : s.pc q <;> rw [hp] at hq hnot
      all_goals first | exact hq | exact absurd trivial hnot

/-- The loop of a note goes on, or `next_due` is in time for its post. -/
theorem State.Inv.noteLoop (h : s.Inv) (hpos : due ≠ 0) (hpc : ∀ t, (s.pc p).Notes t → t = due)
    (hheard : Covers s.nextDue due → ∀ q, (s.pc q).Allows s.nextDue due) :
    (s.goto p (noteLoop due s.nextDue)).Inv := by
  unfold PostSchedule.noteLoop
  split_ifs with hlow
  · refine h.goto ⟨hpos, hlow⟩ False.elim fun t ht => .inl ?_
    exact (hpc t ht).symm
  · have hcovers : Covers s.nextDue due := by
      unfold Covers
      omega
    refine h.goto trivial False.elim fun t ht => ?_
    rw [hpc t ht]
    exact .inr (.inr ⟨hcovers, hheard hcovers⟩)

/-- The steps of `post_schedule_note`. -/
theorem advance_note (h : s.Inv) (hpc : (s.pc p).Notes due) (good : Bool)
    (hok : ∀ due', (s.pc p = .noteLoad due' ∨ ∃ cur, s.pc p = .noteExchange due' cur) →
      Covers s.nextDue due' → ∀ q, (s.pc q).Allows s.nextDue due') :
    (advance s p good).Inv := by
  have hfine := h.fine p
  unfold advance
  cases hp : s.pc p with
  | noting due' =>
    dsimp only
    have hnotes : ∀ t, (s.pc p).Notes t → t = due' := by
      intro t ht
      rw [hp] at ht
      exact ht.symm
    split_ifs with hpast
    · refine h.goto trivial False.elim fun t ht => .inr (.inl ?_)
      rwa [hnotes t ht]
    · refine h.goto (Nat.ne_of_gt (Nat.zero_lt_of_lt (Nat.lt_of_not_le hpast))) False.elim ?_
      exact fun t ht => .inl (hnotes t ht).symm
  | noteLoad due' =>
    rw [hp] at hfine
    refine h.noteLoop hfine ?_ (hok due' (.inl hp))
    intro t ht
    rw [hp] at ht
    exact ht.symm
  | noteExchange due' cur =>
    dsimp only
    rw [hp] at hfine
    rcases hfine with ⟨hpos, hcur⟩
    have hnotes : ∀ t, (s.pc p).Notes t → t = due' := by
      intro t ht
      rw [hp] at ht
      exact ht.symm
    split_ifs with hswap
    · rw [← hswap.1] at hcur
      have hlower := h.lower hpos hcur
      refine hlower.goto trivial False.elim fun t ht => .inr (.inr ?_)
      rw [hnotes t ht]
      refine ⟨⟨hpos, Nat.le_refl _⟩, fun q => ?_⟩
      -- an exchange that is pending is for an earlier `next_due`
      have hq := h.fine q
      change (s.pc q).Allows due' due'
      cases hpq : s.pc q with
      | exchange d next =>
        rw [hpq] at hq
        rintro rfl
        have hcovers := hq.1
        unfold Covers at hcovers
        omega
      | _ => trivial
    · exact h.noteLoop hpos hnotes (hok due' (.inr ⟨cur, hp⟩))
  | _ =>
    rw [hp] at hpc
    exact hpc.elim

/-- The steps of `run_due`. -/
theorem advance_runDue (h : s.Inv) (hpc : ∀ t, ¬(s.pc p).Notes t) (good : Bool)
    (hok : ∀ due, s.pc p = .query due → good = true ∨ ∀ x ∈ s.posts, x.2 ≤ s.now) :
    (advance s p good).Inv := by
  have hfine := h.fine p
  have hnotes : ∀ (pc : Pc) t, (s.pc p).Notes t → pc.Notes t ∨ t ≤ s.now ∨
      (Covers s.nextDue t ∧ ∀ q, (s.pc q).Allows s.nextDue t) :=
    fun _ t ht => absurd ht (hpc t)
  have hholds : ∀ pc, s.pc p = pc → pc.Holds → (s.pc p).Holds := fun _ hp h => hp ▸ h
  unfold advance
  cases hp : s.pc p with
  | idle => exact h
  | dueLoad => exact h.goto trivial False.elim (hnotes _)
  | dueTime due =>
    dsimp only
    split_ifs
    · exact h.goto trivial False.elim (hnotes _)
    · exact h.goto trivial False.elim (hnotes _)
  | takeBusy =>
    dsimp only
    split_ifs with hbusy
    · exact h.goto trivial False.elim (hnotes _)
    · exact h.take hp (Bool.eq_false_iff.mpr hbusy)
  | heldLoad =>
    refine h.goto ?_ (fun _ => hholds _ hp trivial) (hnotes _)
    exact fun hne => ⟨hne, Nat.le_refl _⟩
  | heldTime due =>
    rw [hp] at hfine
    dsimp only
    split_ifs with hdue
    · exact h.goto ⟨hdue.1, hfine hdue.1⟩ (fun _ => hholds _ hp trivial) (hnotes _)
    · exact h.goto trivial (fun _ => hholds _ hp trivial) (hnotes _)
  | query due =>
    rw [hp] at hfine
    refine h.goto ⟨hfine.2, fun _ => ?_⟩ (fun _ => hholds _ hp trivial) (hnotes _)
    intro x hx hfuture
    refine .inr ?_
    rcases hok due hp with hgood | hnone
    · rw [if_pos hgood]
      exact covers_dbPostNextScheduled hx hfuture
    · exact absurd hfuture (Nat.not_lt_of_le (hnone x hx))
  | exchange due next =>
    rw [hp] at hfine
    refine h.hold (hholds _ hp trivial) rfl rfl rfl ?_ trivial
      fun _ => h.locked p (hholds _ hp trivial)
    dsimp only
    split_ifs with hdue
    · exact hfine.2 hdue
    · exact h.accounted
  | bump =>
    exact h.hold (hholds _ hp trivial) rfl rfl rfl h.accounted trivial
      fun _ => h.locked p (hholds _ hp trivial)
  | release =>
    exact h.hold (hholds _ hp trivial) rfl rfl rfl h.accounted trivial False.elim
  | noting due =>
    rw [hp] at hpc
    exact absurd rfl (hpc due)
  | noteLoad due =>
    rw [hp] at hpc
    exact absurd rfl (hpc due)
  | noteExchange due cur =>
    rw [hp] at hpc
    exact absurd rfl (hpc due)

variable [DecidableEq ι]

theorem step_inv (h : s.Inv) (a : Input P ι) (hok : Heard s a) : (step s a).Inv := by
  cases a with
  | tick =>
    refine h.of_posts rfl rfl rfl fun x hx hfuture => .inl ⟨hx, ?_⟩
    exact Nat.lt_of_succ_lt hfuture
  | save p id publishAt =>
    unfold step
    dsimp only
    split_ifs with hidle
    · have hnote : (s.goto p (.noting publishAt)).Inv := by
        refine h.goto trivial False.elim fun t ht => ?_
        rw [hidle] at ht
        exact ht.elim
      refine hnote.of_posts rfl rfl rfl fun x hx hfuture => ?_
      rcases List.mem_cons.mp hx with rfl | hold
      · refine .inr ⟨p, ?_⟩
        rw [goto_pc, if_pos rfl]
        exact rfl
      · exact .inl ⟨(List.mem_filter.mp hold).1, hfuture⟩
    · exact h
  | remove id =>
    refine h.of_posts rfl rfl rfl fun x hx hfuture => ?_
    exact .inl ⟨(List.mem_filter.mp hx).1, hfuture⟩
  | runDue p =>
    unfold step
    dsimp only
    split_ifs with hidle
    · refine h.goto trivial False.elim fun t ht => ?_
      rw [hidle] at ht
      exact ht.elim
    · exact h
  | advance p good =>
    have hat : s.HeardAt good (s.pc p) := hok
    by_cases hnotes : ∃ due, (s.pc p).Notes due
    · obtain ⟨due, hdue⟩ := hnotes
      refine advance_note h hdue good fun due' hpc => ?_
      rcases hpc with hpc | ⟨cur, hpc⟩
      · rw [hpc] at hat
        exact hat
      · rw [hpc] at hat
        exact hat
    · refine advance_runDue h (fun t ht => hnotes ⟨t, ht⟩) good fun due hpc => ?_
      rw [hpc] at hat
      exact hat

end Preservation

/-! ## Runs -/

section Runs

variable [DecidableEq P] [DecidableEq ι]

/-- In a run in which every note is heard no scheduled post is forgotten. -/
theorem remembers_of_run (now : ℕ) (posts : List (ι × ℕ)) (as : List (Input P ι))
    (h : AllSteps step Heard (init P now posts) as) (s : State P ι)
    (hs : Reaches step (init P now posts) as s) : s.Remembers :=
  (h.invariant_reaches (fun _ a hinv hok => step_inv hinv a hok) (init_inv now posts) hs).remembers

end Runs

/-- The first process gets as far as the query; one post is due. -/
def untilQuery : List (Input Bool ℕ) :=
  .tick :: .runDue false :: List.replicate 6 (.advance false true)

def saveLater : List (Input Bool ℕ) := .save true 2 20 :: List.replicate 3 (.advance true true)

/-- The exchange, and the end of `run_due`. -/
def fromExchange : List (Input Bool ℕ) := List.replicate 3 (.advance false true)

theorem remembers_saved_after :
    (run step (init Bool 10 [(1, 11)]) (untilQuery ++ fromExchange ++ saveLater)).Remembers ∧
      (run step (init Bool 10 [(1, 11)]) (untilQuery ++ fromExchange ++ saveLater)).nextDue = 20 :=
  ⟨remembers_of_run 10 [(1, 11)] (untilQuery ++ fromExchange ++ saveLater) (by decide) _
    (reaches_run _ _), by decide⟩

/-- The save comes between the query and the exchange, and is forgotten. -/
theorem forgotten_saved_between :
    ¬∀ as s, Reaches step (init Bool 10 [(1, 11)]) as s → s.Remembers := by
  intro h
  have hforgotten : ¬(run step (init Bool 10 [(1, 11)])
      (untilQuery ++ saveLater ++ fromExchange)).Remembers := by decide
  exact hforgotten (h _ _ (reaches_run _ _))

end FlyBoard.PostSchedule

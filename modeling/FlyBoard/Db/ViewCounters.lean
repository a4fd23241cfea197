import FlyBoard.Lib.Run
import FlyBoard.Lib.Totals
import Mathlib.Logic.Function.Basic

/-!
# Batched view counters (`src/db/post.c`)

A view adds to the delta of its post in a table that all workers share. A flush takes
the deltas out of the table under the lock, adds them to `view_count` in one transaction
on its own connection, and returns to the table what it takes for unapplied.

Any number of views and flushes interleave. A flush stops before each database call and
before it takes the lock again; what it does inside a transaction is seen by nobody
before the `COMMIT`, and the write lock that `BEGIN IMMEDIATE` takes keeps other writers
away until then.
-/

namespace FlyBoard.Db.ViewCounters

open FlyBoard.Run FlyBoard.Totals

/-- `VIEW_COUNTER_SLOTS` -/
def viewCounterSlots : Nat := 4096

/-- `view_counter_slot_t`; a slot with `post_id` 0 is empty. -/
structure Slot where
  postId : Int
  delta : Nat
deriving DecidableEq, Repr

abbrev Table := Fin viewCounterSlots → Slot

def probe (id : Int) : List (Fin viewCounterSlots) :=
  (List.range 32).map fun i =>
    ⟨(id.toNat % viewCounterSlots + i) % viewCounterSlots, Nat.mod_lt _ (by decide)⟩

/-- The loop of `view_counter_bump`; a view is dropped when the probe is exhausted. -/
def bumpLoop (t : Table) (id : Int) : List (Fin viewCounterSlots) → Table
  | [] => t
  | i :: rest =>
    if (t i).postId = id then Function.update t i ⟨(t i).postId, (t i).delta + 1⟩
    else if (t i).postId = 0 then Function.update t i ⟨id, 1⟩
    else bumpLoop t id rest

def viewCounterBump (t : Table) (id : Int) : Table :=
  if id ≤ 0 then t else bumpLoop t id (probe id)

/-- An entry of `pending` with its `pending_idx`. -/
structure Pending where
  slot : Fin viewCounterSlots
  postId : Int
  delta : Nat
deriving DecidableEq, Repr

def takeSlot (t : Table) (i : Fin viewCounterSlots) : Option Pending :=
  if (t i).postId ≠ 0 ∧ 0 < (t i).delta then some ⟨i, (t i).postId, (t i).delta⟩ else none

def taken (t : Table) : List Pending := (List.finRange viewCounterSlots).filterMap (takeSlot t)

def cleared (t : Table) : Table := fun i => if (takeSlot t i).isSome then ⟨(t i).postId, 0⟩ else t i

def putBackSlot (t : Table) (p : Pending) : Table :=
  Function.update t p.slot ⟨(t p.slot).postId, (t p.slot).delta + p.delta⟩

def putBack (t : Table) (ps : List Pending) : Table := ps.foldl putBackSlot t

/-- The `view_count` of the posts that have a row. -/
abbrev Stored := Int → Option Nat

/-- `UPDATE posts SET view_count = view_count + ? WHERE id=?` -/
def addViews (stored : Stored) (id : Int) (delta : Nat) : Stored :=
  Function.update stored id ((stored id).map (· + delta))

/-- The updates of a batch, one after the other. -/
def addAll (stored : Stored) (ps : List Pending) : Stored :=
  ps.foldl (fun stored p => addViews stored p.postId p.delta) stored

/-- Where a run of `db_view_counters_flush` is: `txn` tells whether its `BEGIN IMMEDIATE`
took, `applied` is the source's counter. -/
inductive Pc
  | openMain
  | beginImmediate
  | prepare (txn : Bool)
  | update (txn : Bool) (applied : Nat)
  | restore (applied : Nat)
  | done
deriving DecidableEq, Repr

structure Flush where
  pending : List Pending
  pc : Pc
deriving DecidableEq, Repr

/-- The next step of a flush: the table, the stored counts and the flush. `ok` is the
outcome of the database call it makes. -/
def flushStep (t : Table) (stored : Stored) (f : Flush) (ok : Bool) : Table × Stored × Flush :=
  match f.pc with
  | .openMain => (t, stored, { f with pc := if ok then .beginImmediate else .restore 0 })
  -- the result of `BEGIN IMMEDIATE` is not looked at: without it every update commits by itself
  | .beginImmediate => (t, stored, { f with pc := .prepare ok })
  | .prepare txn => (t, stored, { f with pc := if ok then .update txn 0 else .restore 0 })
  | .update txn applied =>
    match f.pending[applied]? with
    | some p =>
      if ok then
        (t, if txn then stored else addViews stored p.postId p.delta,
          { f with pc := .update txn (applied + 1) })
      else (t, stored, { f with pc := .restore applied })
    | none =>
      -- `COMMIT` fails outside a transaction
      if ok && txn then (t, addAll stored f.pending, { f with pc := .done })
      else (t, stored, { f with pc := .restore applied })
  | .restore applied => (putBack t (f.pending.drop applied), stored, { f with pc := .done })
  | .done => (t, stored, f)

/-- The shared table (`g_view_counters`), the posts, the flushes under way, and for each
post the number of calls of `db_post_increment_view` that returned true. -/
structure State where
  table : Option Table
  stored : Stored
  flushes : List Flush
  views : Int → Nat

inductive Action
  /-- `db_post_increment_view`; `ok` is the outcome of its own update, which it makes when
  there is no table. -/
  | increment (id : Int) (ok : Bool)
  /-- A flush begins. -/
  | flush
  /-- The flush with this index goes on. -/
  | go (i : Nat) (ok : Bool)
deriving DecidableEq, Repr

def countView (views : Int → Nat) (id : Int) : Int → Nat := Function.update views id (views id + 1)

def step (s : State) : Action → State
  | .increment id ok =>
    match s.table with
    | some t => { s with table := some (viewCounterBump t id), views := countView s.views id }
    | none =>
      if ok then { s with stored := addViews s.stored id 1, views := countView s.views id } else s
  | .flush =>
    match s.table with
    | none => s
    | some t =>
      if (taken t).isEmpty then s
      else { s with table := some (cleared t), flushes := s.flushes ++ [⟨taken t, .openMain⟩] }
  | .go i ok =>
    match s.table, s.flushes[i]? with
    | some t, some f =>
      let r := flushStep t s.stored f ok
      { s with table := some r.1, stored := r.2.1, flushes := s.flushes.set i r.2.2 }
    | _, _ => s

/-- The state after `db_view_counters_init`, which may find no shared memory. -/
def start (shared : Bool) (stored : Stored) : State :=
  ⟨if shared then some fun _ => ⟨0, 0⟩ else none, stored, [], fun _ => 0⟩

/-! ## Where the views of a post are -/

def Slot.deltaOf (id : Int) (x : Slot) : Nat := if x.postId = id then x.delta else 0

def Pending.deltaOf (id : Int) (p : Pending) : Nat := if p.postId = id then p.delta else 0

def State.pendingDelta (s : State) (id : Int) : Nat :=
  match s.table with
  | some t => slotTotal (Slot.deltaOf id) t
  | none => 0

/-- What a flush has taken out of the table and neither stored nor put back. -/
def Flush.inFlight (id : Int) (f : Flush) : Nat :=
  match f.pc with
  | .update false applied => total (Pending.deltaOf id) (f.pending.drop applied)
  | .restore applied => total (Pending.deltaOf id) (f.pending.drop applied)
  | .done => 0
  | _ => total (Pending.deltaOf id) f.pending

def State.inFlight (s : State) (id : Int) : Nat := total (Flush.inFlight id) s.flushes

def Accounted (stored : Stored) (s : State) : Prop :=
  ∀ id, 0 < id →
    (s.stored id).map (· + (s.pendingDelta id + s.inFlight id)) =
      (stored id).map (· + s.views id)

def Conserved (stored : Stored) (s : State) : Prop :=
  ∀ id, 0 < id → (s.stored id).map (· + s.pendingDelta id) = (stored id).map (· + s.views id)

def Idle (s : State) : Prop := ∀ f ∈ s.flushes, f.pc = .done

instance (s : State) : Decidable (Idle s) := inferInstanceAs (Decidable (∀ f ∈ _, _))

def Finds (t : Table) (id : Int) : Prop := ∃ i ∈ probe id, (t i).postId = id ∨ (t i).postId = 0

instance (t : Table) (id : Int) : Decidable (Finds t id) := List.decidableBEx _ _

def ProbeFinds (s : State) : Action → Prop
  | .increment id _ => ∀ t ∈ s.table, 0 < id → Finds t id
  | _ => True

instance : ∀ s a, Decidable (ProbeFinds s a)
  | _, .increment _ _ => inferInstanceAs (Decidable (∀ t ∈ _, _ → Finds t _))
  | _, .flush => instDecidableTrue
  | _, .go _ _ => instDecidableTrue

/-- An `UPDATE` or the `COMMIT` fails in a transaction that has updated a post before. -/
def RollsBack (s : State) (f : Flush) (ok : Bool) : Prop :=
  ∃ applied, f.pc = .update true applied ∧ ok = false ∧
    ∃ p ∈ f.pending.take applied, (s.stored p.postId).isSome

def Keeps (s : State) : Action → Prop
  | .go i ok => ∀ f, s.flushes[i]? = some f → ¬ RollsBack s f ok
  | _ => True

/-! ## The table -/

variable {t t' : Table} {id : Int} {s : State} {a : Action} {p : Pending} {ps : List Pending}

/-- A slot that has a post keeps it, and no slot gets a negative id. -/
def KeepsPosts (t t' : Table) : Prop :=
  (∀ i, (t i).postId ≠ 0 → (t' i).postId = (t i).postId) ∧
    ((∀ i, 0 ≤ (t i).postId) → ∀ i, 0 ≤ (t' i).postId)

theorem KeepsPosts.of_eq (h : ∀ i, (t' i).postId = (t i).postId) : KeepsPosts t t' :=
  ⟨fun i _ => h i, fun hn i => (h i).symm ▸ hn i⟩

theorem keepsPosts_bumpLoop (hid : 0 < id) (path : List (Fin viewCounterSlots)) :
    KeepsPosts t (bumpLoop t id path) := by
  induction path with
  | nil => exact .of_eq fun _ => rfl
  | cons i path ih =>
    unfold bumpLoop
    split
    · refine .of_eq fun j => ?_
      rcases eq_or_ne j i with rfl | hj
      · rw [Function.update_self]
      · rw [Function.update_of_ne hj]
    · split
      · next hempty =>
        constructor
        · intro j hj
          have hji : j ≠ i := fun h => hj (h ▸ hempty)
          rw [Function.update_of_ne hji]
        · intro hn j
          rcases eq_or_ne j i with rfl | hj
          · rw [Function.update_self]
            exact hid.le
          · rw [Function.update_of_ne hj]
            exact hn j
      · exact ih

theorem keepsPosts_viewCounterBump : KeepsPosts t (viewCounterBump t id) := by
  unfold viewCounterBump
  split
  · exact .of_eq fun _ => rfl
  · next hid => exact keepsPosts_bumpLoop (by omega) _

theorem cleared_postId (i : Fin viewCounterSlots) : (cleared t i).postId = (t i).postId := by
  unfold cleared
  split <;> rfl

theorem putBackSlot_postId (p : Pending) (i : Fin viewCounterSlots) :
    (putBackSlot t p i).postId = (t i).postId := by
  unfold putBackSlot
  rcases eq_or_ne i p.slot with rfl | hi
  · rw [Function.update_self]
  · rw [Function.update_of_ne hi]

theorem putBack_postId (ps : List Pending) (i : Fin viewCounterSlots) :
    (putBack t ps i).postId = (t i).postId := by
  induction ps generalizing t with
  | nil => rfl
  | cons p ps ih => exact ih.trans (putBackSlot_postId p i)

/-- A view that finds a slot adds one to the delta of its post and of no other. -/
theorem total_bumpLoop {id' : Int} (hid' : 0 < id')
    {path : List (Fin viewCounterSlots)}
    (h : ∃ i ∈ path, (t i).postId = id ∨ (t i).postId = 0) :
    slotTotal (Slot.deltaOf id') (bumpLoop t id path) =
      slotTotal (Slot.deltaOf id') t + if id = id' then 1 else 0 := by
  induction path with
  | nil => exact absurd h (by simp)
  | cons i path ih =>
    unfold bumpLoop
    split
    · next hi =>
      have hset := slotTotal_update (Slot.deltaOf id') t i ⟨(t i).postId, (t i).delta + 1⟩
      have hnew : Slot.deltaOf id' ⟨(t i).postId, (t i).delta + 1⟩ =
          Slot.deltaOf id' (t i) + if id = id' then 1 else 0 := by
        unfold Slot.deltaOf
        rw [hi]
        split <;> rfl
      omega
    · split
      · next hempty =>
        have hset := slotTotal_update (Slot.deltaOf id') t i ⟨id, 1⟩
        have hold : Slot.deltaOf id' (t i) = 0 := if_neg (by omega)
        have hnew : Slot.deltaOf id' ⟨id, 1⟩ = if id = id' then 1 else 0 := rfl
        omega
      · next hi hempty =>
        refine ih ?_
        rcases h with ⟨j, hj, hpost⟩
        rcases List.mem_cons.1 hj with rfl | hj
        · exact absurd hpost (by simp [hi, hempty])
        · exact ⟨j, hj, hpost⟩

theorem total_cleared (t : Table) (id : Int) :
    slotTotal (Slot.deltaOf id) (cleared t) + total (Pending.deltaOf id) (taken t) =
      slotTotal (Slot.deltaOf id) t := by
  rw [slotTotal_fin, slotTotal_fin, taken]
  refine total_filterMap_add _ (fun i => ?_) _
  unfold cleared takeSlot
  by_cases htake : (t i).postId ≠ 0 ∧ 0 < (t i).delta
  · simp [htake, Slot.deltaOf, Pending.deltaOf]
  · simp [htake]

theorem total_putBackSlot (h : (t p.slot).postId = p.postId) (id : Int) :
    slotTotal (Slot.deltaOf id) (putBackSlot t p) =
      slotTotal (Slot.deltaOf id) t + p.deltaOf id := by
  have hset := slotTotal_update (Slot.deltaOf id) t p.slot
    ⟨(t p.slot).postId, (t p.slot).delta + p.delta⟩
  have hnew : Slot.deltaOf id ⟨(t p.slot).postId, (t p.slot).delta + p.delta⟩ =
      Slot.deltaOf id (t p.slot) + p.deltaOf id := by
    unfold Slot.deltaOf Pending.deltaOf
    rw [h]
    split <;> rfl
  unfold putBackSlot
  omega

theorem total_putBack (h : ∀ p ∈ ps, (t p.slot).postId = p.postId) (id : Int) :
    slotTotal (Slot.deltaOf id) (putBack t ps) =
      slotTotal (Slot.deltaOf id) t + total (Pending.deltaOf id) ps := by
  induction ps generalizing t with
  | nil => exact (Nat.add_zero _).symm
  | cons p ps ih =>
    rw [List.forall_mem_cons] at h
    have hrest : ∀ q ∈ ps, (putBackSlot t p q.slot).postId = q.postId := by
      intro q hq
      rw [putBackSlot_postId]
      exact h.2 q hq
    have hput : putBack t (p :: ps) = putBack (putBackSlot t p) ps := rfl
    rw [hput, ih hrest, total_putBackSlot h.1, total_cons, Nat.add_assoc]

/-! ## The stored counts -/

theorem addViews_apply (stored : Stored) (id' : Int) (delta : Nat) (id : Int) :
    addViews stored id' delta id = (stored id).map (· + if id' = id then delta else 0) := by
  unfold addViews
  rcases eq_or_ne id id' with rfl | hne
  · rw [Function.update_self, if_pos rfl]
  · rw [Function.update_of_ne hne, if_neg hne.symm]
    exact Option.map_id'.symm

theorem addAll_apply (stored : Stored) (ps : List Pending) (id : Int) :
    addAll stored ps id = (stored id).map (· + total (Pending.deltaOf id) ps) := by
  induction ps generalizing stored with
  | nil => exact Option.map_id'.symm
  | cons p ps ih =>
    have hcons : addAll stored (p :: ps) = addAll (addViews stored p.postId p.delta) ps := rfl
    rw [hcons, ih, addViews_apply, Option.map_map]
    refine congrArg (Option.map · _) (funext fun v => ?_)
    rw [total_cons]
    exact Nat.add_assoc ..

/-! ## One step -/

/-- What a flush holds came from the slots of its posts, which they still have. -/
structure Inv (s : State) : Prop where
  nonneg : ∀ t, s.table = some t → ∀ i, 0 ≤ (t i).postId
  positive : ∀ f ∈ s.flushes, ∀ p ∈ f.pending, 0 < p.postId ∧ 0 < p.delta
  owned : ∀ t, s.table = some t → ∀ f ∈ s.flushes, ∀ p ∈ f.pending, (t p.slot).postId = p.postId
  shared : s.flushes ≠ [] → s.table.isSome

theorem inv_start (shared : Bool) (stored : Stored) : Inv (start shared stored) where
  nonneg t ht i := by
    cases shared with
    | false => exact nomatch ht
    | true =>
      cases ht
      exact le_refl 0
  positive _ hf := absurd hf List.not_mem_nil
  owned _ _ _ hf := absurd hf List.not_mem_nil
  shared h := absurd rfl h

theorem Inv.keep {s' : State} (hinv : Inv s) (ht : s.table = some t) (ht' : s'.table = some t')
    (hkeep : KeepsPosts t t')
    (hf : ∀ f ∈ s'.flushes, ∃ g ∈ s.flushes, f.pending = g.pending) : Inv s' where
  nonneg u hu := by
    rw [ht', Option.some.injEq] at hu
    rw [← hu]
    exact hkeep.2 (hinv.nonneg t ht)
  positive f hmem p hp := by
    rcases hf f hmem with ⟨g, hg, heq⟩
    exact hinv.positive g hg p (heq ▸ hp)
  owned u hu f hmem p hp := by
    rcases hf f hmem with ⟨g, hg, heq⟩
    rw [ht', Option.some.injEq] at hu
    have hown := hinv.owned t ht g hg p (heq ▸ hp)
    have hpos := (hinv.positive g hg p (heq ▸ hp)).1
    rw [← hu, hkeep.1 p.slot (by omega), hown]
  shared _ := ht' ▸ rfl

theorem takeSlot_eq_some {i : Fin viewCounterSlots} (h : takeSlot t i = some p) :
    p.slot = i ∧ p.postId = (t i).postId ∧ p.postId ≠ 0 ∧ 0 < p.delta := by
  unfold takeSlot at h
  split at h
  · next htake =>
    rw [← Option.some.inj h]
    exact ⟨rfl, rfl, htake.1, htake.2⟩
  · exact nomatch h

theorem mem_taken (hinv : Inv s) (ht : s.table = some t) (hp : p ∈ taken t) :
    0 < p.postId ∧ 0 < p.delta ∧ (cleared t p.slot).postId = p.postId := by
  rcases List.mem_filterMap.1 hp with ⟨i, -, hi⟩
  rcases takeSlot_eq_some hi with ⟨rfl, hpost, hne, hpos⟩
  have hnn := hinv.nonneg t ht p.slot
  exact ⟨by omega, hpos, (cleared_postId _).trans hpost.symm⟩

theorem Inv.flush (hinv : Inv s) (ht : s.table = some t)
    (hps : ∀ p ∈ ps, 0 < p.postId ∧ 0 < p.delta ∧ (cleared t p.slot).postId = p.postId) :
    Inv { s with table := some (cleared t), flushes := s.flushes ++ [⟨ps, .openMain⟩] } := by
  have hold : Inv { s with table := some (cleared t) } :=
    hinv.keep ht rfl (.of_eq cleared_postId) fun f hf => ⟨f, hf, rfl⟩
  constructor
  · exact hold.nonneg
  · intro f hf
    rcases List.mem_append.1 hf with hf | hf
    · exact hold.positive f hf
    · rw [List.mem_singleton.1 hf]
      exact fun p hp => ⟨(hps p hp).1, (hps p hp).2.1⟩
  · intro u hu f hf
    rcases List.mem_append.1 hf with hf | hf
    · exact hold.owned u hu f hf
    · rw [List.mem_singleton.1 hf, ← Option.some.inj hu]
      exact fun p hp => (hps p hp).2.2
  · exact fun _ => rfl

theorem flushStep_pending (stored : Stored) (f : Flush) (ok : Bool) :
    (flushStep t stored f ok).2.2.pending = f.pending := by
  unfold flushStep
  split
  case h_4 =>
    split
    · split <;> rfl
    · split <;> rfl
  all_goals rfl

theorem flushStep_table (stored : Stored) (f : Flush) (ok : Bool) :
    (flushStep t stored f ok).1 = t ∨ ∃ ps, (flushStep t stored f ok).1 = putBack t ps := by
  unfold flushStep
  split
  case h_4 =>
    left
    split
    · split <;> rfl
    · split <;> rfl
  case h_5 applied _ => exact .inr ⟨f.pending.drop applied, rfl⟩
  all_goals exact .inl rfl

theorem flushStep_keeps (stored : Stored) (f : Flush) (ok : Bool) :
    KeepsPosts t (flushStep t stored f ok).1 := by
  rcases flushStep_table (t := t) stored f ok with h | ⟨ps, h⟩
  · rw [h]
    exact .of_eq fun _ => rfl
  · rw [h]
    exact .of_eq (putBack_postId ps)

theorem inv_step (s : State) (a : Action) (hinv : Inv s) : Inv (step s a) := by
  cases a with
  | increment id ok =>
    simp only [step]
    split
    · next t ht =>
      exact hinv.keep ht rfl keepsPosts_viewCounterBump fun f hf => ⟨f, hf, rfl⟩
    · split
      · exact ⟨hinv.nonneg, hinv.positive, hinv.owned, hinv.shared⟩
      · exact hinv
  | flush =>
    simp only [step]
    split
    · exact hinv
    · next t ht =>
      split
      · exact hinv
      · exact hinv.flush ht fun p hp => mem_taken hinv ht hp
  | go i ok =>
    simp only [step]
    split
    · next t f ht hi =>
      refine hinv.keep ht rfl (flushStep_keeps s.stored f ok) ?_
      intro g hg
      rcases List.mem_or_eq_of_mem_set hg with hg | rfl
      · exact ⟨g, hg, rfl⟩
      · exact ⟨f, List.mem_of_getElem? hi, flushStep_pending s.stored f ok⟩
    · exact hinv

/-- The views of a post that a failing step of a flush rolls back and does not put back. -/
def Flush.lost (id : Int) (f : Flush) (ok : Bool) : Nat :=
  match f.pc, ok with
  | .update true applied, false => total (Pending.deltaOf id) (f.pending.take applied)
  | _, _ => 0

def Flush.putsBack (id : Int) (f : Flush) : Nat :=
  match f.pc with
  | .restore applied => total (Pending.deltaOf id) (f.pending.drop applied)
  | _ => 0

theorem total_flushStep {f : Flush} (hown : ∀ p ∈ f.pending, (t p.slot).postId = p.postId)
    (stored : Stored) (ok : Bool) (id : Int) :
    slotTotal (Slot.deltaOf id) (flushStep t stored f ok).1 =
      slotTotal (Slot.deltaOf id) t + f.putsBack id := by
  rcases f with ⟨pending, pc⟩
  cases pc with
  | restore applied =>
    exact total_putBack (fun p hp => hown p (List.mem_of_mem_drop hp)) id
  | update txn applied =>
    have htable : (flushStep t stored ⟨pending, .update txn applied⟩ ok).1 = t := by
      simp only [flushStep]
      split <;> split <;> rfl
    rw [htable]
    exact (Nat.add_zero _).symm
  | openMain => exact (Nat.add_zero _).symm
  | beginImmediate => exact (Nat.add_zero _).symm
  | prepare txn => exact (Nat.add_zero _).symm
  | done => exact (Nat.add_zero _).symm

/-- A step of a flush stores, puts back or keeps what it holds, up to what it loses. -/
theorem flushStep_stored (t : Table) (stored : Stored) (f : Flush) (ok : Bool) (id : Int) :
    ((flushStep t stored f ok).2.1 id).map (· +
        (f.putsBack id + (flushStep t stored f ok).2.2.inFlight id + f.lost id ok)) =
      (stored id).map (· + f.inFlight id) := by
  rcases f with ⟨pending, pc⟩
  cases pc with
  | openMain => cases ok <;> simp [flushStep, Flush.putsBack, Flush.inFlight, Flush.lost]
  | beginImmediate => simp [flushStep, Flush.putsBack, Flush.inFlight, Flush.lost]
  | prepare txn =>
    cases ok <;> cases txn <;> simp [flushStep, Flush.putsBack, Flush.inFlight, Flush.lost]
  | update txn applied =>
    have hsplit := total_take_add_drop (Pending.deltaOf id) applied pending
    cases hp : pending[applied]? with
    | some p =>
      have hdrop : pending.drop applied = p :: pending.drop (applied + 1) := by
        rcases List.getElem?_eq_some_iff.1 hp with ⟨hlt, rfl⟩
        exact List.drop_eq_getElem_cons hlt
      cases ok with
      | true =>
        cases txn with
        | true => simp [flushStep, Flush.putsBack, Flush.inFlight, Flush.lost, hp]
        | false =>
          -- the update is stored by itself
          simp only [flushStep, hp, Flush.putsBack, Flush.inFlight, Flush.lost, hdrop, total_cons,
            addViews_apply, Option.map_map, if_true, Bool.false_eq_true, if_false]
          refine congrArg (Option.map · _) (funext fun v => ?_)
          simp only [Function.comp, Pending.deltaOf]
          omega
      | false =>
        cases txn with
        | true =>
          simp only [flushStep, hp, Flush.putsBack, Flush.inFlight, Flush.lost, Bool.false_eq_true,
            if_false]
          refine congrArg (Option.map · _) (funext fun v => ?_)
          omega
        | false => simp [flushStep, Flush.putsBack, Flush.inFlight, Flush.lost, hp]
    | none =>
      cases txn with
      | true =>
        cases ok with
        | true =>
          simp only [flushStep, hp, Flush.putsBack, Flush.inFlight, Flush.lost, addAll_apply,
            Option.map_map, Bool.and_self, if_true]
          refine congrArg (Option.map · _) (funext fun v => ?_)
          simp only [Function.comp]
          omega
        | false =>
          simp only [flushStep, hp, Flush.putsBack, Flush.inFlight, Flush.lost, Bool.false_and,
            Bool.false_eq_true, if_false]
          refine congrArg (Option.map · _) (funext fun v => ?_)
          omega
      | false => simp [flushStep, Flush.putsBack, Flush.inFlight, Flush.lost, hp]
  | restore applied => simp [flushStep, Flush.putsBack, Flush.inFlight, Flush.lost]
  | done => simp [flushStep, Flush.putsBack, Flush.inFlight, Flush.lost]

def lost (s : State) (id : Int) : Action → Nat
  | .go i ok => (s.flushes[i]?.map fun f => f.lost id ok).getD 0
  | _ => 0

/-- A step moves the views of a post from one place to another, up to a view that it
counts and those that it loses. -/
theorem step_accounts (hinv : Inv s) (hprobe : ProbeFinds s a) (hid : 0 < id) :
    ((step s a).stored id).map (· +
        ((step s a).pendingDelta id + (step s a).inFlight id + lost s id a + s.views id)) =
      (s.stored id).map (· + (s.pendingDelta id + s.inFlight id + (step s a).views id)) := by
  cases a with
  | increment id' ok =>
    have hcount : countView s.views id' id = s.views id + if id' = id then 1 else 0 := by
      unfold countView
      rcases eq_or_ne id id' with rfl | hne
      · rw [Function.update_self, if_pos rfl]
      · rw [Function.update_of_ne hne, if_neg hne.symm]
        rfl
    cases ht : s.table with
    | some t =>
      have hbump : slotTotal (Slot.deltaOf id) (viewCounterBump t id') =
          slotTotal (Slot.deltaOf id) t + if id' = id then 1 else 0 := by
        unfold viewCounterBump
        split
        · -- a post without a positive id is ignored, and is not this one
          rw [if_neg (by omega)]
          exact (Nat.add_zero _).symm
        · next hpos => exact total_bumpLoop hid (hprobe t ht (by omega))
      have hstep : step s (.increment id' ok) =
          { s with table := some (viewCounterBump t id'), views := countView s.views id' } := by
        simp only [step, ht]
      rw [hstep]
      simp only [State.pendingDelta, ht, hbump, State.inFlight, lost, hcount]
      refine congrArg (Option.map · _) (funext fun v => ?_)
      omega
    | none =>
      cases ok with
      | false => simp only [step, ht, lost, Bool.false_eq_true, if_false, Nat.add_zero]
      | true =>
        simp only [step, ht, lost, State.pendingDelta, State.inFlight, if_true, addViews_apply,
          Option.map_map, hcount]
        refine congrArg (Option.map · _) (funext fun v => ?_)
        simp only [Function.comp]
        omega
  | flush =>
    cases ht : s.table with
    | none => simp only [step, ht, lost, Nat.add_zero]
    | some t =>
      cases hempty : (taken t).isEmpty with
      | true => simp only [step, ht, hempty, if_true, lost, Nat.add_zero]
      | false =>
        have hclear := total_cleared t id
        have hstep : step s .flush = { s with
            table := some (cleared t), flushes := s.flushes ++ [⟨taken t, .openMain⟩] } := by
          simp only [step, ht, hempty, Bool.false_eq_true, if_false]
        rw [hstep]
        simp only [State.pendingDelta, ht, State.inFlight, total_append, total_cons, total_nil,
          Flush.inFlight, lost]
        refine congrArg (Option.map · _) (funext fun v => ?_)
        omega
  | go i ok =>
    cases hf : s.flushes[i]? with
    | none =>
      have hstep : step s (.go i ok) = s := by
        simp only [step, hf]
        cases s.table <;> rfl
      simp only [hstep, lost, hf, Option.map_none, Option.getD_none, Nat.add_zero]
    | some f =>
      have hmem : f ∈ s.flushes := List.mem_of_getElem? hf
      rcases Option.isSome_iff_exists.1 (hinv.shared (List.ne_nil_of_mem hmem)) with ⟨t, ht⟩
      have htable := total_flushStep (hinv.owned t ht f hmem) s.stored ok id
      have hstored := flushStep_stored t s.stored f ok id
      have hset := total_set (Flush.inFlight id) hf (flushStep t s.stored f ok).2.2
      have hstep : step s (.go i ok) = { s with
          table := some (flushStep t s.stored f ok).1
          stored := (flushStep t s.stored f ok).2.1
          flushes := s.flushes.set i (flushStep t s.stored f ok).2.2 } := by
        simp only [step, ht, hf]
      rw [hstep]
      simp only [State.pendingDelta, ht, State.inFlight, lost, hf, Option.map_some,
        Option.getD_some, htable]
      generalize (flushStep t s.stored f ok).2.1 id = after at hstored
      generalize s.stored id = before at hstored
      cases before with
      | none =>
        rw [Option.map_none, Option.map_eq_none_iff] at hstored
        rw [hstored, Option.map_none, Option.map_none]
      | some v =>
        rcases Option.map_eq_some_iff.1 hstored with ⟨v', rfl, heq⟩
        dsimp only at heq
        rw [Option.map_some, Option.map_some, Option.some.injEq]
        omega

theorem idle_inFlight (h : Idle s) (id : Int) : s.inFlight id = 0 := by
  refine (total_eq_zero_iff _).2 fun f hf => ?_
  rw [Flush.inFlight, h f hf]

/-- A step loses views of some post exactly when it rolls one back. -/
theorem lost_eq_zero_iff (hinv : Inv s) :
    (∀ id, 0 < id → (s.stored id).isSome → lost s id a = 0) ↔ Keeps s a := by
  cases a with
  | increment id ok => exact ⟨fun _ => trivial, fun _ _ _ _ => rfl⟩
  | flush => exact ⟨fun _ => trivial, fun _ _ _ _ => rfl⟩
  | go i ok =>
    cases hf : s.flushes[i]? with
    | none =>
      constructor
      · intro _ f hf'
        exact nomatch hf.symm.trans hf'
      · intro _ id _ _
        simp only [lost, hf, Option.map_none, Option.getD_none]
    | some f =>
      have hpos := hinv.positive f (List.mem_of_getElem? hf)
      constructor
      · rintro h g hg ⟨applied, hpc, rfl, p, hp, hrow⟩
        have hfg : f = g := Option.some.inj (hf.symm.trans hg)
        subst hfg
        have hp' := hpos p (List.mem_of_mem_take hp)
        have hzero := h p.postId hp'.1 hrow
        simp only [lost, hf, Option.map_some, Option.getD_some, Flush.lost, hpc] at hzero
        have hdelta := (total_eq_zero_iff _).1 hzero p hp
        rw [Pending.deltaOf, if_pos rfl] at hdelta
        omega
      · intro h id _ hrow
        simp only [lost, hf, Option.map_some, Option.getD_some, Flush.lost]
        split
        · next _ applied hpc =>
          refine (total_eq_zero_iff _).2 fun p hp => ?_
          have hne : p.postId ≠ id := by
            rintro rfl
            exact h f hf ⟨applied, hpc, rfl, p, hp, hrow⟩
          rw [Pending.deltaOf, if_neg hne]
        · rfl

/-- Where every view is accounted for, a step keeps it so exactly when it rolls no update
of a post back. -/
theorem accounted_step_iff {stored : Stored} (hinv : Inv s) (hprobe : ProbeFinds s a)
    (h : Accounted stored s) : Accounted stored (step s a) ↔ Keeps s a := by
  rw [← lost_eq_zero_iff hinv]
  refine forall_congr' fun id => forall_congr' fun hid => ?_
  have hstep := step_accounts hinv hprobe hid
  have hid' := h id hid
  generalize (step s a).stored id = after at hstep
  generalize s.stored id = before at hstep hid'
  cases hrow : stored id with
  | none =>
    rw [hrow, Option.map_none, Option.map_eq_none_iff] at hid'
    rw [hid', Option.map_none, Option.map_eq_none_iff] at hstep
    simp [hid', hstep]
  | some v₀ =>
    rw [hrow] at hid'
    rcases Option.map_eq_some_iff.1 hid' with ⟨v, rfl, heq⟩
    rcases Option.map_eq_some_iff.1 hstep with ⟨v', rfl, heq'⟩
    dsimp only at heq heq'
    simp only [Option.map_some, Option.some.injEq, Option.isSome_some, true_implies]
    constructor <;> omega

theorem accounted_start (shared : Bool) (stored : Stored) :
    Accounted stored (start shared stored) := by
  intro id hid
  have hpending : (start shared stored).pendingDelta id = 0 := by
    cases shared with
    | false => rfl
    | true => exact slotTotal_const (if_neg hid.ne)
  rw [hpending]
  rfl

/-! ## Every run -/

/-- In runs whose probes find a slot, no view is lost exactly as long as no flush rolls
back an update of a post; between flushes every view is then stored or pending. -/
theorem view_counts_conserved_iff (shared : Bool) (stored : Stored) (as : List Action)
    (hprobe : AllSteps step ProbeFinds (start shared stored) as) :
    (AllSteps step Keeps (start shared stored) as ↔
        ∀ s, Reaches step (start shared stored) as s → Accounted stored s) ∧
      (AllSteps step Keeps (start shared stored) as →
        ∀ s, Reaches step (start shared stored) as s → Idle s → Conserved stored s) := by
  have hiff : AllSteps step Keeps (start shared stored) as ↔
      ∀ s, Reaches step (start shared stored) as s → Accounted stored s :=
    hprobe.iff_forall_reaches (fun s a hinv _ => inv_step s a hinv)
      (fun _ _ hinv hp h => accounted_step_iff hinv hp h)
      (inv_start shared stored) (accounted_start shared stored)
  refine ⟨hiff, ?_⟩
  intro hkeeps s hs hidle id hid
  have hacc := hiff.mp hkeeps s hs id hid
  rwa [idle_inFlight hidle, Nat.add_zero] at hacc

def unviewed : Stored := fun id => if id = 1 then some 0 else none

/-- The post is viewed twice and the views are flushed; `ok` is the outcome of the `COMMIT`. -/
def viewedAndFlushed (ok : Bool) : List Action :=
  [.increment 1 true, .increment 1 true, .flush, .go 0 true, .go 0 true, .go 0 true, .go 0 true,
    .go 0 ok, .go 0 true]

theorem view_counts_conserved_committed :
    (AllSteps step Keeps (start true unviewed) (viewedAndFlushed true) ↔
        ∀ s, Reaches step (start true unviewed) (viewedAndFlushed true) s → Accounted unviewed s) ∧
      (AllSteps step Keeps (start true unviewed) (viewedAndFlushed true) →
        ∀ s, Reaches step (start true unviewed) (viewedAndFlushed true) s →
          Idle s → Conserved unviewed s) :=
  view_counts_conserved_iff true unviewed (viewedAndFlushed true) (by decide +kernel)

def firstSlot : Fin viewCounterSlots := ⟨1, by decide⟩

def noViews : Table := fun _ => ⟨0, 0⟩

def twoViews : Table := Function.update noViews firstSlot ⟨1, 2⟩

theorem bump_twice : viewCounterBump (viewCounterBump noViews 1) 1 = twoViews := by
  have hfirst : viewCounterBump noViews 1 = Function.update noViews firstSlot ⟨1, 1⟩ := rfl
  have hsecond : viewCounterBump (Function.update noViews firstSlot ⟨1, 1⟩) 1 =
      Function.update (Function.update noViews firstSlot ⟨1, 1⟩) firstSlot ⟨1, 2⟩ := rfl
  rw [hfirst, hsecond, Function.update_idem]
  rfl

theorem taken_twoViews : taken twoViews = [⟨firstSlot, 1, 2⟩] := by
  refine filterMap_single (List.nodup_finRange _) (List.mem_finRange firstSlot) rfl ?_
  intro i hi
  unfold takeSlot twoViews
  rw [Function.update_of_ne hi]
  rfl

/-- When the `COMMIT` fails, nothing is put back: both views are gone. -/
theorem failed_commit_loses_views :
    AllSteps step ProbeFinds (start true unviewed) (viewedAndFlushed false) ∧
      Idle (run step (start true unviewed) (viewedAndFlushed false)) ∧
      ¬ Conserved unviewed (run step (start true unviewed) (viewedAndFlushed false)) := by
  have hviewed : run step (start true unviewed) [.increment 1 true, .increment 1 true] =
      ⟨some (viewCounterBump (viewCounterBump noViews 1) 1), unviewed, [],
        countView (countView (fun _ => 0) 1) 1⟩ := rfl
  have hflush : run step (start true unviewed) [.increment 1 true, .increment 1 true, .flush] =
      ⟨some (cleared twoViews), unviewed, [⟨[⟨firstSlot, 1, 2⟩], .openMain⟩],
        countView (countView (fun _ => 0) 1) 1⟩ := by
    have happend := run_append step (start true unviewed)
      [.increment 1 true, .increment 1 true] [.flush]
    rw [hviewed, bump_twice] at happend
    refine happend.trans ?_
    simp only [run_cons, run_nil, step, taken_twoViews, List.isEmpty_cons, Bool.false_eq_true,
      if_false, List.nil_append]
  have hend : run step (start true unviewed) (viewedAndFlushed false) =
      ⟨some (cleared twoViews), unviewed, [⟨[⟨firstSlot, 1, 2⟩], .done⟩],
        countView (countView (fun _ => 0) 1) 1⟩ := by
    have happend := run_append step (start true unviewed)
      [.increment 1 true, .increment 1 true, .flush]
      [.go 0 true, .go 0 true, .go 0 true, .go 0 true, .go 0 false, .go 0 true]
    rw [hflush] at happend
    exact happend
  have hcleared : slotTotal (Slot.deltaOf 1) (cleared twoViews) = 0 := by
    have htotal := total_cleared twoViews 1
    have hset := slotTotal_update (Slot.deltaOf 1) noViews firstSlot ⟨1, 2⟩
    have hzero : slotTotal (Slot.deltaOf 1) noViews = 0 := slotTotal_const rfl
    have hnew : Slot.deltaOf 1 ⟨1, 2⟩ = 2 := rfl
    have hpend : total (Pending.deltaOf 1) [⟨firstSlot, 1, 2⟩] = 2 := rfl
    rw [taken_twoViews, hpend] at htotal
    rw [twoViews] at htotal ⊢
    omega
  rw [hend]
  refine ⟨by decide +kernel, by decide, ?_⟩
  intro h
  have hone := h 1 (by decide)
  simp only [State.pendingDelta, hcleared] at hone
  revert hone
  decide

end FlyBoard.Db.ViewCounters

import Mathlib.Data.Finset.Card
import Mathlib.Data.Finset.Dedup

/-!
# Bounded queues without duplicates

What is in the queue already is not queued again, and what comes when the queue is full is
dropped. `Fits` says that nothing of a batch is dropped: the queue and the batch together
have no more distinct elements than the queue has places.
-/

namespace FlyBoard.BoundedQueue

variable {α : Type*} {cap : ℕ}

/-- A queue of at most `cap` distinct elements. -/
structure Queue (cap : ℕ) (α : Type*) where
  items : List α
  nodup : items.Nodup
  length_le : items.length ≤ cap

namespace Queue

instance : Membership α (Queue cap α) := ⟨fun q a => a ∈ q.items⟩

variable {a : α} {q : Queue cap α}

theorem mem_def : a ∈ q ↔ a ∈ q.items := Iff.rfl

def empty : Queue cap α := ⟨[], List.nodup_nil, Nat.zero_le _⟩

def dequeue (q : Queue cap α) : Queue cap α where
  items := q.items.tail
  nodup := q.nodup.tail
  length_le := by
    have hle := q.length_le
    rw [List.length_tail]
    omega

theorem mem_of_mem_dequeue (h : a ∈ q.dequeue) : a ∈ q :=
  List.mem_of_mem_tail h

theorem mem_dequeue {a b : α} (hb : q.items.head? = some b) (ha : a ∈ q)
    (hne : a ≠ b) : a ∈ q.dequeue := by
  rw [mem_def] at ha
  show a ∈ q.items.tail
  cases hitems : q.items with
  | nil =>
    rw [hitems] at ha
    exact absurd ha List.not_mem_nil
  | cons c rest =>
    rw [hitems] at ha hb
    rcases List.mem_cons.mp ha with rfl | hrest
    · exact absurd (Option.some.inj hb) hne
    · exact hrest

variable [DecidableEq α] {b : α} {as : List α}

/-- `a` goes to the end, unless it is in the queue or the queue is full. -/
def enqueue (q : Queue cap α) (a : α) : Queue cap α :=
  if hmem : a ∈ q.items then q
  else if hlt : q.items.length < cap then
    { items := q.items ++ [a]
      nodup := by
        rw [List.nodup_append]
        refine ⟨q.nodup, List.nodup_singleton _, ?_⟩
        rintro x hx y hy rfl
        rw [List.mem_singleton] at hy
        exact hmem (hy ▸ hx)
      length_le := by
        rw [List.length_append, List.length_singleton]
        exact hlt }
  else q

def enqueueAll (q : Queue cap α) (as : List α) : Queue cap α := as.foldl enqueue q

def Fits (q : Queue cap α) (as : List α) : Prop := (q.items ++ as).toFinset.card ≤ cap

instance (q : Queue cap α) (as : List α) : Decidable (q.Fits as) := Nat.decLe _ _

theorem mem_enqueue {a b : α} (h : b ∈ q.enqueue a) : b ∈ q ∨ b = a := by
  rw [enqueue] at h
  split at h
  · exact .inl h
  · split at h
    · rcases List.mem_append.mp h with hold | hnew
      · exact .inl hold
      · exact .inr (List.mem_singleton.mp hnew)
    · exact .inl h

theorem mem_enqueue_of_mem {a b : α} (h : b ∈ q) : b ∈ q.enqueue a := by
  rw [enqueue]
  split
  · exact h
  · split
    · exact List.mem_append_left _ h
    · exact h

theorem mem_enqueueAll_of_mem (h : b ∈ q) (as : List α) :
    b ∈ q.enqueueAll as := by
  induction as generalizing q with
  | nil => exact h
  | cons a as ih => exact ih (mem_enqueue_of_mem h)

theorem Fits.mono {q q' : Queue cap α} {as as' : List α} (h : q.Fits as)
    (hsub : ∀ b, b ∈ q'.items ++ as' → b ∈ q.items ++ as) : q'.Fits as' := by
  refine le_trans (Finset.card_le_card ?_) h
  intro b hb
  rw [List.mem_toFinset] at hb ⊢
  exact hsub b hb

theorem fits_nil (q : Queue cap α) : q.Fits [] := by
  rw [Fits, List.append_nil]
  exact le_trans (List.toFinset_card_le q.items) q.length_le

theorem Fits.mem_enqueue (h : q.Fits (a :: as)) :
    a ∈ q.enqueue a := by
  rw [enqueue]
  split
  · rename_i hmem
    exact hmem
  · -- a new element counts, so the queue alone is shorter than `cap`
    rename_i hmem
    have hroom : q.items.length < cap := by
      have hcard : (insert a q.items.toFinset).card ≤ cap := by
        refine le_trans (Finset.card_le_card ?_) h
        intro b hb
        rw [Finset.mem_insert, List.mem_toFinset] at hb
        rw [List.mem_toFinset, List.mem_append, List.mem_cons]
        rcases hb with rfl | hold
        · exact .inr (.inl rfl)
        · exact .inl hold
      have hnew : a ∉ q.items.toFinset := fun hin => hmem (List.mem_toFinset.mp hin)
      rw [Finset.card_insert_of_notMem hnew, List.toFinset_card_of_nodup q.nodup] at hcard
      exact hcard
    rw [dif_pos hroom]
    exact List.mem_append_right _ (List.mem_singleton.mpr rfl)

/-- Queuing one element of a batch leaves room for the others. -/
theorem Fits.enqueue (h : q.Fits (a :: as)) :
    (q.enqueue a).Fits as := by
  apply h.mono
  intro b hb
  rw [List.mem_append] at hb ⊢
  rcases hb with hq | has
  · rcases Queue.mem_enqueue hq with hold | rfl
    · exact .inl hold
    · exact .inr List.mem_cons_self
  · exact .inr (List.mem_cons_of_mem a has)

theorem Fits.mem_enqueueAll (h : q.Fits as) :
    ∀ a ∈ as, a ∈ q.enqueueAll as := by
  induction as generalizing q with
  | nil => exact fun a ha => absurd ha List.not_mem_nil
  | cons a as ih =>
    intro b hb
    rcases List.mem_cons.mp hb with rfl | has
    · exact mem_enqueueAll_of_mem h.mem_enqueue as
    · exact ih h.enqueue b has

/-! ### The first in the queue -/

theorem head?_enqueue (h : q.items.head? = some b) (a : α) :
    (q.enqueue a).items.head? = some b := by
  rw [enqueue]
  split
  · exact h
  · split
    · rw [List.head?_append, h]
      rfl
    · exact h

theorem head?_enqueueAll_of_some (h : q.items.head? = some b)
    (as : List α) : (q.enqueueAll as).items.head? = some b := by
  induction as generalizing q with
  | nil => exact h
  | cons a as ih => exact ih (head?_enqueue h a)

/-- The first of the queue stays the first; of an empty queue it is the first that comes. -/
theorem head?_enqueueAll (hcap : 0 < cap) (q : Queue cap α) (as : List α) :
    (q.enqueueAll as).items.head? = (q.items ++ as).head? := by
  rw [List.head?_append]
  cases hq : q.items.head? with
  | some b => exact head?_enqueueAll_of_some hq as
  | none =>
    -- the first that comes finds room, and stays the first
    have hnil : q.items = [] := List.head?_eq_none_iff.mp hq
    cases as with
    | nil => exact hq
    | cons a as =>
      have hfirst : (q.enqueue a).items.head? = some a := by
        have hnot : a ∉ q.items := by rw [hnil]; exact List.not_mem_nil
        have hroom : q.items.length < cap := by rw [hnil]; exact hcap
        rw [enqueue, dif_neg hnot, dif_pos hroom]
        show (q.items ++ [a]).head? = some a
        rw [hnil]
        rfl
      exact head?_enqueueAll_of_some hfirst as

end Queue

end FlyBoard.BoundedQueue

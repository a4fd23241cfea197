import FlyBoard.Lib.Run
import Mathlib.Data.List.Sort

/-!
# Announcing posts (`src/db/post.c`)

Workers and the scheduler look for posts that are public and not announced yet, and claim each
of them with a conditional UPDATE before they announce it. A post is to be announced when it is
created, when an edit hides it again and when a reviewer approves it. Every statement is one
step, and those of all processes interleave.
-/

namespace FlyBoard.Announcements

open Run

inductive Status where
  | draft
  | pending
  | published
deriving DecidableEq

/-- The columns of a post that its announcement depends on. -/
structure Post where
  status : Status
  createdAt : ℕ
  announced : Bool

/-- The database, and what each process has still to claim. `claimed` are the claims that were
won, `raised` the times that a post was made one to announce, and `dropped` the posts that were
deleted as such. -/
structure State (P : Type*) where
  now : ℕ
  sequence : ℕ
  posts : ℕ → Option Post
  due : P → List ℕ
  claimed : List ℕ
  raised : List ℕ
  dropped : List ℕ

/-- `ok` says whether a statement comes through. -/
inductive Action (P : Type*) where
  | tick
  | create (status : Status) (createdAt : ℕ)
  | update (id : ℕ) (status : Option Status) (publishAt : Option ℕ)
  | reset (id : ℕ)
  | approve (id : ℕ)
  | delete (id : ℕ)
  | scan (p : P)
  | claim (p : P) (ok : Bool)
  | stop (p : P)

variable {P : Type*}

def start : State P := ⟨0, 0, fun _ => none, fun _ => [], [], [], []⟩

/-- `POST_PUBLIC_SQL` -/
def Post.isPublic (post : Post) (now : ℕ) : Bool :=
  post.status = .published && post.createdAt ≤ now

namespace State

def waits (s : State P) (id : ℕ) : Bool := (s.posts id).any (!·.announced)

/-- The first SELECT of `db_post_claim_unannounced`. -/
def unannounced (s : State P) : List ℕ :=
  ((List.range (s.sequence + 1)).filter fun id =>
    (s.posts id).any fun post => !post.announced && post.isPublic s.now).mergeSort
      fun a b => ((s.posts a).map (·.createdAt)).getD 0 ≤ ((s.posts b).map (·.createdAt)).getD 0

/-- A post is made one to announce. -/
def raise (s : State P) (id : ℕ) (post : Post) : State P :=
  { s with
    posts := Function.update s.posts id (some { post with announced := false })
    raised := if s.waits id then s.raised else s.raised ++ [id] }

/-- The UPDATE of `db_post_claim_unannounced`. -/
def claimPost (s : State P) (id : ℕ) : State P :=
  match s.posts id with
  | some post =>
    if post.announced then s
    else
      { s with
        posts := Function.update s.posts id (some { post with announced := true })
        claimed := s.claimed ++ [id] }
  | none => s

/-- `db_post_delete`, as far as it goes here. -/
def remove (s : State P) (id : ℕ) : State P :=
  { s with
    posts := Function.update s.posts id none
    dropped := if s.waits id then s.dropped ++ [id] else s.dropped }

/-- The first UPDATE of `db_post_update`. -/
def updatePost (s : State P) (id : ℕ) (status : Option Status) (publishAt : Option ℕ) : State P :=
  { s with
    posts := Function.update s.posts id ((s.posts id).map fun post =>
      ⟨status.getD post.status, publishAt.getD post.createdAt, post.announced⟩) }

end State

def step [DecidableEq P] (s : State P) : Action P → State P
  | .tick => { s with now := s.now + 1 }
  -- the INSERT of `db_post_create_with_auto_slug`
  | .create status createdAt =>
    { s with sequence := s.sequence + 1 }.raise (s.sequence + 1) ⟨status, createdAt, false⟩
  | .update id status publishAt => s.updatePost id status publishAt
  -- the second UPDATE of `db_post_update`
  | .reset id =>
    match s.posts id with
    | some post => if post.isPublic s.now then s else s.raise id post
    | none => s
  -- the UPDATE of `db_moderation_approve`
  | .approve id =>
    match s.posts id with
    | some post =>
      if post.status = .pending then s.raise id { post with status := .published } else s
    | none => s
  | .delete id => s.remove id
  | .scan p => { s with due := Function.update s.due p s.unannounced }
  | .claim p ok =>
    match s.due p with
    | [] => s
    | id :: rest =>
      let s := { s with due := Function.update s.due p rest }
      if ok then s.claimPost id else s
  | .stop p => { s with due := Function.update s.due p [] }

/-! ## Every post is announced once for each time it is to be -/

section Accounts

variable {s : State P} {post : Post}

/-- The announcements of a post, with the one that is to come and those that were given up. -/
def State.settled (s : State P) (id : ℕ) : ℕ :=
  s.claimed.count id + (if s.waits id then 1 else 0) + s.dropped.count id

def Accounted (s : State P) : Prop := ∀ id, s.settled id = s.raised.count id

theorem count_concat_of_ne {id n : ℕ} {l : List ℕ} (hn : id ≠ n) :
    (l ++ [n]).count id = l.count id := by
  simp [hn.symm]

/-- A post that is to be announced already is not counted again. -/
theorem Accounted.raise (h : Accounted s) (n : ℕ) (post : Post) : Accounted (s.raise n post) := by
  intro id
  have hid := h id
  unfold State.settled State.waits at hid
  unfold State.settled State.raise State.waits
  rcases eq_or_ne id n with rfl | hn
  · by_cases hbefore : (s.posts id).any (!·.announced) = true
    · simpa [hbefore] using hid
    · simp [hbefore] at hid ⊢
      omega
  · simp only [Function.update_of_ne hn, apply_ite (List.count id), count_concat_of_ne hn,
      ite_self]
    exact hid

theorem Accounted.claimPost (h : Accounted s) (n : ℕ) : Accounted (s.claimPost n) := by
  intro id
  have hid := h id
  rw [State.claimPost]
  split
  next post hpost =>
    split
    · exact hid
    next hnew =>
    unfold State.settled State.waits at hid ⊢
    rcases eq_or_ne id n with rfl | hn
    · simp [hpost, hnew] at hid ⊢
      omega
    · simpa [Function.update_of_ne hn, hn.symm] using hid
  · exact hid

theorem Accounted.remove (h : Accounted s) (n : ℕ) : Accounted (s.remove n) := by
  intro id
  have hid := h id
  unfold State.settled State.waits at hid
  unfold State.settled State.remove State.waits
  rcases eq_or_ne id n with rfl | hn
  · by_cases hbefore : (s.posts id).any (!·.announced) = true
    · simp [hbefore] at hid ⊢
      omega
    · simpa [hbefore] using hid
  · simp only [Function.update_of_ne hn, apply_ite (List.count id), count_concat_of_ne hn,
      ite_self]
    exact hid

theorem waits_updatePost (id : ℕ) (status : Option Status) (publishAt : Option ℕ) (n : ℕ) :
    (s.updatePost id status publishAt).waits n = s.waits n := by
  unfold State.waits State.updatePost
  rcases eq_or_ne n id with rfl | hn
  · cases s.posts n <;> simp
  · simp [Function.update_of_ne hn]

variable [DecidableEq P]

theorem accounted_step (h : Accounted s) (a : Action P) : Accounted (step s a) := by
  cases a with
  | tick => exact h
  | create status createdAt =>
    have hnext : Accounted { s with sequence := s.sequence + 1 } := h
    exact hnext.raise _ _
  | update id status publishAt =>
    intro n
    have hn := h n
    unfold State.settled at hn ⊢
    rw [step, waits_updatePost]
    exact hn
  | reset id =>
    rw [step]
    split
    · split
      · exact h
      · exact h.raise _ _
    · exact h
  | approve id =>
    rw [step]
    split
    · split
      · exact h.raise _ _
      · exact h
    · exact h
  | delete id => exact h.remove id
  | scan p => exact h
  | claim p ok =>
    rw [step]
    split
    · exact h
    next id rest hdue =>
    have hrest : Accounted { s with due := Function.update s.due p rest } := h
    dsimp only
    split
    · exact hrest.claimPost id
    · exact hrest
  | stop p => exact h

end Accounts

/-! ## A sweep leaves nothing behind -/

section Sweep

/-- What may happen during a sweep of `p`: its own statements come through, and no one makes
the post one to announce. -/
def Undisturbed (p : P) (id : ℕ) : Action P → Prop
  | .reset n | .approve n => n ≠ id
  | .scan q | .stop q => q ≠ p
  | .claim q ok => q = p → ok = true
  | _ => True

/-- The post has been announced, or its claim is still to come. -/
def Handled (p : P) (id : ℕ) (s : State P) : Prop :=
  id ≤ s.sequence ∧ (s.waits id = true → id ∈ s.due p)

variable {s : State P} {p : P} {id n : ℕ}

theorem waits_raise_of_ne (hn : n ≠ id) (post : Post) : (s.raise n post).waits id = s.waits id := by
  unfold State.waits State.raise
  simp only [Function.update_of_ne hn.symm]

theorem waits_remove (h : (s.remove n).waits id = true) : s.waits id = true := by
  unfold State.waits State.remove at *
  rcases eq_or_ne id n with rfl | hn
  · simp at h
  · simpa only [Function.update_of_ne hn] using h

theorem waits_claimPost (h : (s.claimPost n).waits id = true) : s.waits id = true ∧ id ≠ n := by
  have hself : id = n → (s.claimPost n).waits id = false := by
    rintro rfl
    cases hpost : s.posts id with
    | none => simp [State.claimPost, State.waits, hpost]
    | some post =>
      by_cases hnew : post.announced <;> simp [State.claimPost, State.waits, hpost, hnew]
  have hne : id ≠ n := fun heq => by simp [hself heq] at h
  refine ⟨?_, hne⟩
  unfold State.claimPost at h
  split at h
  · split at h
    · exact h
    · unfold State.waits at *
      simpa only [Function.update_of_ne hne] using h
  · exact h

theorem claimPost_frame (s : State P) (n : ℕ) :
    (s.claimPost n).sequence = s.sequence ∧ (s.claimPost n).due = s.due := by
  rw [State.claimPost]
  split
  · split <;> exact ⟨rfl, rfl⟩
  · exact ⟨rfl, rfl⟩

variable [DecidableEq P]

theorem handled_step {a : Action P} (h : Handled p id s) (ha : Undisturbed p id a) :
    Handled p id (step s a) := by
  obtain ⟨hid, hdue⟩ := h
  cases a with
  | tick => exact ⟨hid, hdue⟩
  | create status createdAt =>
    refine ⟨Nat.le_succ_of_le hid, fun hw => hdue ?_⟩
    rw [step, waits_raise_of_ne (by omega)] at hw
    exact hw
  | update n status publishAt =>
    refine ⟨hid, fun hw => hdue ?_⟩
    rwa [step, waits_updatePost] at hw
  | reset n =>
    rw [step]
    split
    · split
      · exact ⟨hid, hdue⟩
      · exact ⟨hid, fun hw => hdue (by rwa [waits_raise_of_ne ha] at hw)⟩
    · exact ⟨hid, hdue⟩
  | approve n =>
    rw [step]
    split
    · split
      · exact ⟨hid, fun hw => hdue (by rwa [waits_raise_of_ne ha] at hw)⟩
      · exact ⟨hid, hdue⟩
    · exact ⟨hid, hdue⟩
  | delete n => exact ⟨hid, fun hw => hdue (waits_remove hw)⟩
  | scan q =>
    refine ⟨hid, fun hw => ?_⟩
    simpa only [step, Function.update_of_ne (Ne.symm ha)] using hdue hw
  | stop q =>
    refine ⟨hid, fun hw => ?_⟩
    simpa only [step, Function.update_of_ne (Ne.symm ha)] using hdue hw
  | claim q ok =>
    rw [step]
    split
    · exact ⟨hid, hdue⟩
    next n rest hq =>
    dsimp only
    obtain ⟨hseq, hsame⟩ := claimPost_frame { s with due := Function.update s.due q rest } n
    rcases eq_or_ne q p with rfl | hqp
    · -- the claim of the post itself leaves it announced, any other claim leaves it in the list
      rw [if_pos (ha rfl)]
      refine ⟨hid.trans hseq.ge, fun hw => ?_⟩
      obtain ⟨hbefore, hne⟩ := waits_claimPost hw
      have hmem := hdue hbefore
      rw [hq] at hmem
      rw [hsame]
      simp only [Function.update_self]
      exact (List.mem_cons.mp hmem).resolve_left hne
    · split
      · refine ⟨hid.trans hseq.ge, fun hw => ?_⟩
        rw [hsame]
        simpa only [Function.update_of_ne hqp.symm] using hdue (waits_claimPost hw).1
      · refine ⟨hid, fun hw => ?_⟩
        simpa only [Function.update_of_ne hqp.symm] using hdue hw

end Sweep

end FlyBoard.Announcements

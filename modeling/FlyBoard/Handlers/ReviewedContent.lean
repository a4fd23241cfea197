import FlyBoard.Db.Review
import FlyBoard.Handlers.Submit

/-!
# What a reviewer has seen (`src/db/moderation.c`, `src/handlers/post.c`)

`db_moderation_external_create` returns the content of a pending item for the reviewer,
and a decision for its correlation id arrives later. Meanwhile the handlers of posts and
comments run: the author may edit a pending post, which stays pending
(`docs/trust-and-spam.md`). The text of a pending comment stands in the queue, out of
reach of any handler.
-/

namespace FlyBoard.ReviewedContent

open Db Moderation Review Run
open FlyBoard.Submit (noCasino)

/-! ## Tables -/

def Fresh (t : Tables) : Target → Prop
  | .post id => id < t.nextPost
  | .comment id => id < t.nextComment

structure WellFormed (t : Tables) : Prop where
  unique : UniqueTargets t
  fresh : ∀ i ∈ t.items, Fresh t i.target

def textWritten (t : Tables) : Submit.Request → Option (ℕ × Bytes)
  | .editPost _ r => (Submit.editedPost t r).map fun p => (p.id, r.content)
  | .autosave _ r =>
    if 0 < r.uid ∧ 0 < r.draftId then
      ((t.post r.draftId).filter fun p =>
        Submit.isAuthorOrAdmin p r.uid r.role && p.status == .draft).map fun p => (p.id, r.content)
    else none
  | _ => none

def requestTables (cfg : Settings) (t : Tables) (r : Submit.Request) : Tables :=
  (Submit.step cfg ⟨t, [], [], []⟩ r).tables

def overwrittenBy (written : Option (ℕ × Bytes)) (id : ℕ) (content : Bytes) : Bytes :=
  match written with
  | some (w, text) => if w = id then text else content
  | none => content

/-- What becomes of the items and of the contents of the posts that are there. -/
structure Effect (t t' : Tables) (written : Option (ℕ × Bytes)) : Prop where
  wellFormed : WellFormed t → WellFormed t'
  next : t.nextPost ≤ t'.nextPost
  items : ∀ x i, item t x = some i → ∃ i', item t' x = some i' ∧ i'.content = i.content
  posts : ∀ id p', id < t.nextPost → t'.post id = some p' →
    ∃ p, t.post id = some p ∧ p'.content = overwrittenBy written id p.content

section

variable {t t' t'' : Tables} {written : Option (ℕ × Bytes)} {i : Item} {id : ℕ} {p : Post}

theorem WellFormed.of_targets (h : WellFormed t)
    (htargets : t'.items.map (·.target) = t.items.map (·.target)) (hp : t.nextPost ≤ t'.nextPost)
    (hc : t.nextComment ≤ t'.nextComment) : WellFormed t' := by
  constructor
  · unfold UniqueTargets
    rw [htargets]
    exact h.unique
  · intro i hi
    have hmem : i.target ∈ t.items.map (·.target) := htargets ▸ List.mem_map_of_mem hi
    obtain ⟨j, hj, hji⟩ := List.mem_map.1 hmem
    have hfresh := h.fresh j hj
    rw [hji] at hfresh
    cases hx : i.target with
    | post id =>
      rw [hx] at hfresh
      exact Nat.lt_of_lt_of_le hfresh hp
    | comment id =>
      rw [hx] at hfresh
      exact Nat.lt_of_lt_of_le hfresh hc

theorem WellFormed.queue (h : WellFormed t) (hnew : ∀ j ∈ t.items, j.target ≠ i.target)
    (hfresh : Fresh t i.target) : WellFormed (t.queue i) := by
  constructor
  · unfold UniqueTargets Tables.queue
    rw [List.map_append, List.nodup_append]
    refine ⟨h.unique, List.nodup_singleton _, ?_⟩
    rintro x hx y hy rfl
    obtain ⟨j, hj, hji⟩ := List.mem_map.1 hx
    obtain rfl : x = i.target := by simpa using hy
    exact hnew j hj hji
  · intro j hj
    rcases List.mem_append.1 hj with hj | hj
    · exact h.fresh j hj
    · obtain rfl := List.mem_singleton.1 hj
      exact hfresh

theorem Effect.of_removed (hitems : t'.items = t.items) (hp : t'.nextPost = t.nextPost)
    (hc : t'.nextComment = t.nextComment)
    (hposts : ∀ id p, t'.post id = some p → t.post id = some p) : Effect t t' none := by
  constructor
  case wellFormed => exact fun h => h.of_targets (by rw [hitems]) (le_of_eq hp.symm) (le_of_eq hc.symm)
  case next => exact le_of_eq hp.symm
  case items =>
    intro x i hi
    exact ⟨i, by rw [item, hitems]; exact hi, rfl⟩
  case posts => exact fun id p _ hpost => ⟨p, hposts id p hpost, rfl⟩

theorem Effect.refl (t : Tables) : Effect t t none :=
  .of_removed rfl rfl rfl fun _ _ h => h

theorem Effect.trans (h : Effect t t' none) (h' : Effect t' t'' written) : Effect t t'' written := by
  constructor
  case wellFormed => exact fun hw => h'.wellFormed (h.wellFormed hw)
  case next => exact h.next.trans h'.next
  case items =>
    intro x i hi
    obtain ⟨j, hj, hji⟩ := h.items x i hi
    obtain ⟨k, hk, hkj⟩ := h'.items x j hj
    exact ⟨k, hk, hkj.trans hji⟩
  case posts =>
    intro id p hid hp
    obtain ⟨q, hq, hpq⟩ := h'.posts id p (Nat.lt_of_lt_of_le hid h.next) hp
    obtain ⟨r, hr, hqr⟩ := h.posts id q hid hq
    exact ⟨r, hr, by rw [hpq, hqr]; rfl⟩

theorem Effect.finishReview (t : Tables) (target : Target) (st : ItemStatus) :
    Effect t (t.finishReview target st) none := by
  constructor
  case wellFormed =>
    exact fun h => h.of_targets (Body.finishReview_targets t target st) (le_refl _) (le_refl _)
  case next => exact le_refl _
  case items =>
    intro x i hi
    refine ⟨_, (item_finishReview t target x st).trans (congrArg _ hi), ?_⟩
    dsimp only
    split <;> rfl
  case posts => exact fun id p _ hp => ⟨p, hp, rfl⟩

theorem Effect.setPost {p q : Post} (hp : t.post p.id = some p) (hq : q.id = p.id) :
    Effect t (t.setPost q) (some (p.id, q.content)) := by
  constructor
  case wellFormed => exact fun h => h.of_targets rfl (le_refl _) (le_refl _)
  case next => exact le_refl _
  case items => exact fun x i hi => ⟨i, hi, rfl⟩
  case posts =>
    intro id p' _ hp'
    rw [Tables.post_setPost] at hp'
    by_cases hid : id = q.id
    · rw [if_pos hid, hid, hq, hp, Option.map_some, Option.some.injEq] at hp'
      subst hp'
      exact ⟨p, by rw [hid, hq]; exact hp, by simp [overwrittenBy, hid, hq]⟩
    · rw [if_neg hid] at hp'
      have hne : p.id ≠ id := fun heq => hid (heq ▸ hq.symm)
      exact ⟨p', hp', by simp [overwrittenBy, hne]⟩

theorem Effect.unwritten (h : Effect t t' (some (id, p.content)))
    (hp : t.post id = some p) : Effect t t' none := by
  refine ⟨h.wellFormed, h.next, h.items, ?_⟩
  intro id' p' hid hp'
  obtain ⟨q, hq, hcontent⟩ := h.posts id' p' hid hp'
  refine ⟨q, hq, hcontent.trans ?_⟩
  by_cases heq : id = id'
  · subst heq
    obtain rfl : p = q := Option.some.inj (hp.symm.trans hq)
    simp [overwrittenBy]
  · simp [overwrittenBy, heq]

theorem Effect.setComment (t : Tables) (c : Comment) : Effect t (t.setComment c) none :=
  .of_removed rfl rfl rfl fun _ _ h => h

theorem Effect.deletePost (t : Tables) (id : ℕ) : Effect t (t.deletePost id) none := by
  refine .of_removed rfl rfl rfl ?_
  intro id' p hp
  rw [Tables.post_deletePost] at hp
  split at hp
  · cases hp
  · exact hp

/-! ### Requests -/

theorem post_insertPost (hid : id < t.nextPost) :
    (Submit.insertPost t p).post id = t.post id := by
  simp only [Tables.post, Submit.insertPost, List.find?_append]
  cases t.posts.find? fun q => q.id = id with
  | some q => rfl
  | none => simp [Nat.ne_of_gt hid]

theorem Effect.insertPost (t : Tables) (p : Post) : Effect t (Submit.insertPost t p) none := by
  constructor
  case wellFormed => exact fun h => h.of_targets rfl (Nat.le_succ _) (le_refl _)
  case next => exact Nat.le_succ _
  case items => exact fun x i hi => ⟨i, hi, rfl⟩
  case posts =>
    intro id q hid hq
    rw [post_insertPost hid] at hq
    exact ⟨q, hq, rfl⟩

theorem Effect.queue (h : Effect t t' none)
    (hwf : WellFormed t → WellFormed (t'.queue i)) : Effect t (t'.queue i) none := by
  refine ⟨hwf, h.next, ?_, h.posts⟩
  intro x j hj
  obtain ⟨k, hk, hkj⟩ := h.items x j hj
  refine ⟨k, ?_, hkj⟩
  simp only [item, Tables.queue, List.find?_append] at hk ⊢
  rw [hk]
  rfl

theorem effect_dropAutosave (t : Tables) (r : Submit.NewPost) :
    Effect t (Submit.dropAutosave t r) none := by
  unfold Submit.dropAutosave
  split
  · split
    · exact .deletePost t r.autosaveDraftId
    · exact .refl t
  · exact .refl t

theorem effect_newPost (cfg : Settings) (t : Tables) (now : ℕ) (r : Submit.NewPost) :
    Effect t (requestTables cfg t (.newPost now r)) none := by
  have hdrop := effect_dropAutosave t r
  unfold requestTables Submit.step Submit.newPost
  dsimp only
  split
  · exact .refl t
  · split
    · -- the new post goes into the queue
      refine Effect.queue (hdrop.trans (.insertPost _ _)) ?_
      intro h
      have hw := hdrop.wellFormed h
      refine WellFormed.queue ((Effect.insertPost _ _).wellFormed hw) ?_ (Nat.lt_succ_self _)
      intro j hj heq
      have hfresh := hw.fresh j hj
      rw [heq] at hfresh
      exact Nat.lt_irrefl _ hfresh
    · exact hdrop.trans (.insertPost _ _)
    · exact hdrop.trans (.insertPost _ _)

theorem effect_editPost (cfg : Settings) (t : Tables) (now : ℕ) (r : Submit.EditPost) :
    Effect t (requestTables cfg t (.editPost now r)) (textWritten t (.editPost now r)) := by
  unfold requestTables Submit.step Submit.editPost textWritten
  dsimp only
  cases hp : Submit.editedPost t r with
  | none => exact .refl t
  | some p =>
    have hpost : t.post r.id = some p := by
      unfold Submit.editedPost at hp
      split at hp
      · cases hp
      · exact (Option.filter_eq_some_iff.1 hp).1
    have hid := Tables.post_id hpost
    rw [← hid] at hpost
    exact .setPost hpost rfl

theorem effect_autosave (cfg : Settings) (t : Tables) (now : ℕ) (r : Submit.Autosave) :
    Effect t (requestTables cfg t (.autosave now r)) (textWritten t (.autosave now r)) := by
  unfold requestTables Submit.step Submit.autosave textWritten
  dsimp only
  by_cases huid : r.uid = 0
  · simp only [huid, if_true, Nat.lt_irrefl, false_and, if_false]
    exact .refl t
  · have hpos : 0 < r.uid := Nat.pos_of_ne_zero huid
    by_cases hdraft : 0 < r.draftId
    · simp only [huid, hdraft, hpos, if_true, if_false, and_self]
      cases hp : t.post r.draftId with
      | none => exact .refl t
      | some p =>
        have hid := Tables.post_id hp
        rw [← hid] at hp
        by_cases hok : (Submit.isAuthorOrAdmin p r.uid r.role && p.status == .draft) = true
        · have hrefused : (!Submit.isAuthorOrAdmin p r.uid r.role || p.status != .draft) = false := by
            simpa using hok
          simp only [hrefused, Option.filter_some, hok, if_true, Option.map_some, Bool.false_eq_true,
            if_false]
          exact .setPost hp rfl
        · have hrefused : (!Submit.isAuthorOrAdmin p r.uid r.role || p.status != .draft) = true := by
            rcases Bool.and_eq_false_iff.1 (Bool.eq_false_iff.2 hok) with h | h <;> simp [bne, h]
          simp only [hrefused, Option.filter_some, hok, if_true]
          exact .refl t
    · simp only [huid, hdraft, if_false, and_false]
      split
      · exact .refl t
      · exact .insertPost t _

theorem effect_newComment (cfg : Settings) (t : Tables) (now : ℕ) (r : Submit.NewComment) :
    Effect t (requestTables cfg t (.newComment now r)) none := by
  have hinsert : ∀ c, Effect t (Submit.insertComment t c) none := by
    intro c
    constructor
    case wellFormed => exact fun h => h.of_targets rfl (le_refl _) (Nat.le_succ _)
    case next => exact le_refl _
    case items => exact fun x i hi => ⟨i, hi, rfl⟩
    case posts => exact fun id p _ hp => ⟨p, hp, rfl⟩
  unfold requestTables Submit.step Submit.newComment
  dsimp only
  split
  · exact .refl t
  · split
    · exact .refl t
    · refine Effect.queue (hinsert _) ?_
      intro h
      refine WellFormed.queue ((hinsert _).wellFormed h) ?_ (Nat.lt_succ_self _)
      intro j hj heq
      have hfresh := h.fresh j hj
      rw [heq] at hfresh
      exact Nat.lt_irrefl _ hfresh
    · exact hinsert _

theorem effect_approve (cfg : Settings) (t : Tables) (target : Target) :
    Effect t (requestTables cfg t (.approve target)) none := by
  unfold requestTables Submit.step Submit.approve
  dsimp only
  split
  · exact .refl t
  · split
    · exact .refl t
    · next p hp =>
      split
      · exact .refl t
      · have hid := Tables.post_id hp
        rw [← hid] at hp
        have hset : Effect t (t.setPost { p with status := .published }) (some (p.id, p.content)) :=
          .setPost hp rfl
        exact (hset.unwritten hp).trans (.finishReview _ _ _)
  · split
    · exact .refl t
    · split
      · exact .refl t
      · exact (Effect.setComment t _).trans (.finishReview _ _ _)

theorem effect_reject (cfg : Settings) (t : Tables) (target : Target) :
    Effect t (requestTables cfg t (.reject target)) none := by
  unfold requestTables Submit.step Submit.reject
  dsimp only
  split
  · exact .refl t
  · exact (Effect.deletePost t _).trans (.finishReview _ _ _)
  · exact .finishReview t _ _

theorem effect_request (cfg : Settings) (t : Tables) (r : Submit.Request) :
    Effect t (requestTables cfg t r) (textWritten t r) := by
  cases r with
  | newPost now r => exact effect_newPost cfg t now r
  | editPost now r => exact effect_editPost cfg t now r
  | autosave now r => exact effect_autosave cfg t now r
  | newComment now r => exact effect_newComment cfg t now r
  | editComment r =>
    unfold requestTables Submit.step Submit.editComment
    dsimp only
    split
    · exact .refl t
    · exact .setComment t _
  | approve target => exact effect_approve cfg t target
  | reject target => exact effect_reject cfg t target

theorem effect_exec (o : Outcome) (t : Tables) (b : Body) : Effect t (b.exec o t).1 none := by
  unfold Body.exec
  split
  · cases b with
    | readItem v x =>
      dsimp only [Body.run]
      split <;> exact .refl t
    | publishPost id =>
      dsimp only [Body.run]
      split
      · next p hp =>
        split
        · have hid := Tables.post_id hp
          rw [← hid] at hp
          have hset : Effect t (t.setPost { p with status := .published })
              (some (p.id, p.content)) := .setPost hp rfl
          exact hset.unwritten hp
        · exact .refl t
      · exact .refl t
    | publishComment id content =>
      dsimp only [Body.run]
      split
      · split
        · exact .setComment t _
        · exact .refl t
      · exact .refl t
    | removePost id => exact .deletePost t id
    | finish v x =>
      dsimp only [Body.run]
      split
      · exact .finishReview t x v.status
      · exact .refl t
  · exact .refl t

end

/-! ## Histories -/

/-- What `db_moderation_external_create` has returned for a correlation id, and what the
last edit of the post has written since. -/
structure Reviewed where
  target : Target
  content : Bytes
  edited : Option Bytes
deriving DecidableEq

/-- What a decision may publish: the text of a comment as it was returned, a post as the
last edit has left it. -/
def Reviewed.published (v : Reviewed) : Bytes :=
  match v.target with
  | .post _ => v.edited.getD v.content
  | .comment _ => v.content

def Reviewed.write (written : Option (ℕ × Bytes)) (v : Reviewed) : Reviewed :=
  match written with
  | some (id, text) => if v.target = .post id then { v with edited := some text } else v
  | none => v

/-- The calls and tables, and what was returned for each correlation id; the source
keeps no such record. -/
structure State where
  review : Review.State
  fresh : ∀ i ∈ review.store.tables.items, Fresh review.store.tables i.target
  reviewed : Bytes → Option Reviewed

def State.tables (s : State) : Tables := s.review.store.tables

theorem State.wellFormed (s : State) : WellFormed s.tables := ⟨s.review.store.unique, s.fresh⟩

/-- A handler serves a request, a reviewer is asked, or a decision takes its next step. -/
inductive Action
  | request (r : Submit.Request)
  | create (target : Target) (correlationId : Bytes) (issuedAt expiresAt : ℤ)
      (inserted selected : Outcome)
  | review (e : Event)

theorem effect_step (s : Review.State) (e : Event) :
    Effect s.store.tables (Review.step s e).store.tables none := by
  cases e with
  | start c => exact .refl _
  | exec i o =>
    cases hi : s.threads[i]? with
    | none =>
      simp only [Review.step, hi]
      exact .refl _
    | some th =>
      rw [step_exec hi]
      rcases th.exec_cases o s.store with ⟨-, htables, -⟩ | ⟨caller, b, -, htables, -⟩
      · rw [htables]
        exact .refl _
      · rw [htables]
        exact effect_exec o _ b

theorem externalCreate_tables (s : Store) (target : Target) (correlationId : Bytes)
    (issuedAt expiresAt : ℤ) (inserted selected : Outcome) :
    (s.externalCreate target correlationId issuedAt expiresAt inserted selected).1.tables =
      s.tables := by
  unfold Store.externalCreate
  dsimp only
  split <;> rfl

def step (cfg : Settings) (s : State) : Action → State
  | .request r =>
    have h : WellFormed (requestTables cfg s.tables r) :=
      (effect_request cfg s.tables r).wellFormed s.wellFormed
    { review :=
        { s.review with
          store := { s.review.store with
            tables := requestTables cfg s.tables r
            unique := h.unique } }
      fresh := h.fresh
      reviewed := fun c => (s.reviewed c).map (·.write (textWritten s.tables r)) }
  | .create target correlationId issuedAt expiresAt inserted selected =>
    let r := s.review.store.externalCreate target correlationId issuedAt expiresAt inserted selected
    { review := { s.review with store := r.1 }
      fresh := by
        rw [externalCreate_tables]
        exact s.fresh
      reviewed :=
        match r.2 with
        | some (content, _) =>
          Function.update s.reviewed correlationId (some ⟨target, content, none⟩)
        | none => s.reviewed }
  | .review e =>
    { review := Review.step s.review e
      fresh := ((effect_step s.review e).wellFormed s.wellFormed).fresh
      reviewed := s.reviewed }

def publicContent (t : Tables) : Target → Option Bytes
  | .post id => ((t.post id).filter fun p => p.status = .published).map (·.content)
  | .comment id => ((t.comment id).filter fun c => !c.deleted).map (·.content)

/-! ## What decisions are about -/

def about : Thread → Option (External × Target)
  | .insertReceipt e x => some (e, x)
  | .body (some e) b => some (e, b.target)
  | _ => none

variable {o : Outcome} {s : Store} {th : Thread}

theorem about_exec {e : External} {x : Target} (h : about (th.exec o s).2 = some (e, x)) :
    about th = some (e, x) ∨ ∃ r, s.requests.find? e.correlationId = some r ∧ r.target = x := by
  cases th with
  | findReceipt e' =>
    simp only [Thread.exec] at h
    split at h <;> cases h
  | findRequest e' =>
    simp only [Thread.exec] at h
    split at h
    · cases h
    · next r hr =>
      split at h
      · cases h
      · simp only [about, Option.some.injEq, Prod.mk.injEq] at h
        rcases h with ⟨rfl, rfl⟩
        exact .inr ⟨r, (Option.filter_eq_some_iff.1 hr).1, rfl⟩
    · cases h
  | insertReceipt e' y =>
    simp only [Thread.exec] at h
    split at h
    · cases h
    · cases h
    · split at h
      · cases h
      · -- allow and reject go on with the target
        unfold External.decide at h
        split at h
        · exact .inl h
        · cases h
        · exact .inl h
  | body caller b =>
    simp only [Thread.exec] at h
    cases hr : (b.exec o s.tables).2 with
    | inl b' =>
      rw [hr] at h
      have htarget := exec_target s.unique hr
      cases caller with
      | none => cases h
      | some e' =>
        simp only [about, htarget] at h ⊢
        exact .inl h
    | inr ok =>
      rw [hr] at h
      cases caller <;> cases ok <;> cases h
  | dropReceipt e' =>
    simp only [Thread.exec] at h
    split at h <;> cases h
  | answered r => cases h

theorem requests_exec (o : Outcome) (s : Store) (th : Thread) :
    (th.exec o s).1.requests = s.requests := by
  cases th with
  | findReceipt e =>
    simp only [Thread.exec]
    split <;> rfl
  | findRequest e =>
    simp only [Thread.exec]
    split
    · rfl
    · split <;> rfl
    · rfl
  | insertReceipt e x =>
    simp only [Thread.exec]
    split
    · rfl
    · rfl
    · split <;> rfl
  | body caller b => rfl
  | dropReceipt e =>
    simp only [Thread.exec]
    split <;> rfl
  | answered r => rfl

/-- The reviewer is asked under a correlation id that is new, or nothing happens. -/
theorem externalCreate_cases (s : Store) (target : Target) (c : Bytes) (issuedAt expiresAt : ℤ)
    (inserted selected : Outcome) :
    s.externalCreate target c issuedAt expiresAt inserted selected = (s, none) ∨
    s.requests.find? c = none ∧
      (∀ k, (s.externalCreate target c issuedAt expiresAt inserted selected).1.requests.find? k =
        if k = c then some ⟨c, target, issuedAt, expiresAt⟩ else s.requests.find? k) ∧
      ((s.externalCreate target c issuedAt expiresAt inserted selected).2 = none ∨
        (s.externalCreate target c issuedAt expiresAt inserted selected).2 =
          reviewContent s.tables target) := by
  unfold Store.externalCreate
  dsimp only
  split
  · exact .inl rfl
  · next hok =>
    have hnone : s.requests.find? c = none := by
      cases hfind : s.requests.find? c with
      | none => rfl
      | some r => exact absurd (by simp [hfind]) hok
    have hfree : c ∉ s.requests.rows.map Request.correlationId := by
      intro hmem
      obtain ⟨r, hr, hkey⟩ := List.mem_map.1 hmem
      rw [Keyed.Table.find?_eq_some.2 ⟨hr, hkey⟩] at hnone
      cases hnone
    refine .inr ⟨hnone, ?_, ?_⟩
    · intro k
      have hinsert := Keyed.Table.find?_insertOrIgnore_of_free
        (a := (⟨c, target, issuedAt, expiresAt⟩ : Request)) hfree k
      exact hinsert
    · split
      · exact .inr rfl
      · exact .inl rfl

variable {id : ℕ} {r : Bytes × Bytes} {t : Tables}

theorem reviewContent_comment (hu : UniqueTargets t) (h : reviewContent t (.comment id) = some r) :
    ∃ i, item t (.comment id) = some i ∧ i.content = r.1 := by
  cases hi : t.pendingItem (.comment id) with
  | none => simp [reviewContent, hi] at h
  | some i =>
    obtain rfl : (i.content, i.reason) = r := by simpa [reviewContent, hi] using h
    exact ⟨i, (item_of_pendingItem hu hi).1, rfl⟩

theorem reviewContent_post (hw : WellFormed t) (h : reviewContent t (.post id) = some r) :
    id < t.nextPost ∧ ∀ p, t.post id = some p → p.content = r.1 := by
  cases hi : t.pendingItem (.post id) with
  | none => simp [reviewContent, hi] at h
  | some i =>
    have htarget : i.target = .post id ∧ i.status = .pending := by simpa using List.find?_some hi
    have hfresh := hw.fresh i (List.mem_of_find?_eq_some hi)
    rw [htarget.1] at hfresh
    refine ⟨hfresh, ?_⟩
    intro p hp
    obtain rfl : (p.content, i.reason) = r := by simpa [reviewContent, hi, hp] using h
    rfl

theorem publishComment_exec {caller : Option External} {content : Bytes}
    (h : (th.exec o s).2 = .body caller (.publishComment id content)) :
    ∃ i, item s.tables (.comment id) = some i ∧ i.content = content := by
  rcases th.exec_cases o s with ⟨-, -, hread⟩ | ⟨caller', b, -, -, hnew⟩
  · obtain ⟨v, x, heq⟩ := hread _ _ h
    cases heq
  · rw [h] at hnew
    rcases b.exec_cases s.unique o with hfail | ⟨v, x, i, -, hitem, -, hread⟩ |
      ⟨-, -, hgoes, -, -⟩ | ⟨id', -, hremove⟩ | ⟨v, x, -, -, hdone⟩
    · rw [hfail] at hnew
      exact absurd hnew.symm (returnTo_ne_body _ _ _ _)
    · -- the text is that of the item just read
      rw [hread] at hnew
      have hbody := (Thread.body.inj hnew).2
      cases v <;> cases x <;> cases hbody
      exact ⟨i, hitem, rfl⟩
    · rw [hgoes] at hnew
      cases hnew
    · rw [hremove] at hnew
      cases hnew
    · rw [hdone] at hnew
      exact absurd hnew.symm (returnTo_ne_body _ _ _ _)

/-! ## What was returned is what is kept -/

section

variable {cfg : Settings} {s : State} {x : Target}

/-- The content of the target of a review is what was returned for it, or for a post what
the last edit has written. -/
structure Kept (s : State) : Prop where
  calls : ∀ th ∈ s.review.threads, ∀ e x, about th = some (e, x) →
    ∃ r, s.review.store.requests.find? e.correlationId = some r ∧ r.target = x
  requested : ∀ c v, s.reviewed c = some v →
    ∃ r, s.review.store.requests.find? c = some r ∧ r.target = v.target
  texts : ∀ caller id content, .body caller (.publishComment id content) ∈ s.review.threads →
    ∃ i, item s.tables (.comment id) = some i ∧ i.content = content
  comments : ∀ c v id, s.reviewed c = some v → v.target = .comment id →
    ∃ i, item s.tables (.comment id) = some i ∧ i.content = v.content
  posts : ∀ c v id, s.reviewed c = some v → v.target = .post id →
    id < s.tables.nextPost ∧
      ∀ p, s.tables.post id = some p → p.content = v.edited.getD v.content

theorem write_target (written : Option (ℕ × Bytes)) (v : Reviewed) :
    (v.write written).target = v.target := by
  unfold Reviewed.write
  split
  · split <;> rfl
  · rfl

theorem write_content (written : Option (ℕ × Bytes)) (v : Reviewed) :
    (v.write written).content = v.content := by
  unfold Reviewed.write
  split
  · split <;> rfl
  · rfl

theorem write_current {written : Option (ℕ × Bytes)} {v : Reviewed} {id : ℕ}
    (h : v.target = .post id) :
    (v.write written).edited.getD (v.write written).content =
      overwrittenBy written id (v.edited.getD v.content) := by
  unfold Reviewed.write overwrittenBy
  cases written with
  | none => rfl
  | some w =>
    by_cases hid : w.1 = id
    · simp [h, hid]
    · simp [h, hid, Ne.symm hid]

theorem item_kept {t t' : Tables} {written : Option (ℕ × Bytes)} (h : Effect t t' written)
    {content : Bytes} (hi : ∃ i, item t x = some i ∧ i.content = content) :
    ∃ i, item t' x = some i ∧ i.content = content := by
  obtain ⟨i, hi, rfl⟩ := hi
  exact h.items x i hi

theorem Kept.request (h : Kept s) (r : Submit.Request) : Kept (step cfg s (.request r)) := by
  have heffect := effect_request cfg s.tables r
  constructor
  case calls => exact h.calls
  case requested =>
    intro c v hv
    obtain ⟨w, hw, rfl⟩ := Option.map_eq_some_iff.1 hv
    rw [write_target]
    exact h.requested c w hw
  case texts => exact fun caller id content hmem => item_kept heffect (h.texts caller id content hmem)
  case comments =>
    intro c v id hv hx
    obtain ⟨w, hw, rfl⟩ := Option.map_eq_some_iff.1 hv
    rw [write_target] at hx
    rw [write_content]
    exact item_kept heffect (h.comments c w id hw hx)
  case posts =>
    intro c v id hv hx
    obtain ⟨w, hw, rfl⟩ := Option.map_eq_some_iff.1 hv
    rw [write_target] at hx
    obtain ⟨hid, hcontent⟩ := h.posts c w id hw hx
    refine ⟨Nat.lt_of_lt_of_le hid heffect.next, ?_⟩
    intro p hp
    obtain ⟨q, hq, hpq⟩ := heffect.posts id p hid hp
    rw [hpq, hcontent q hq, write_current hx]

theorem Kept.review (h : Kept s) (e : Event) : Kept (step cfg s (.review e)) := by
  have heffect := effect_step s.review e
  have hrequests : (Review.step s.review e).store.requests = s.review.store.requests := by
    cases e with
    | start c => rfl
    | exec i o =>
      cases hi : s.review.threads[i]? with
      | none => simp [Review.step, hi]
      | some th => rw [step_exec hi, requests_exec]
  constructor
  case calls =>
    intro th hth e' x habout
    simp only [step, hrequests] at hth ⊢
    cases e with
    | start c =>
      rcases List.mem_append.1 hth with hold | hnew
      · exact h.calls th hold e' x habout
      · -- a call that begins has found no request yet
        obtain rfl := List.mem_singleton.1 hnew
        cases c <;> cases habout
    | exec i o =>
      cases hi : s.review.threads[i]? with
      | none =>
        simp only [Review.step, hi] at hth
        exact h.calls th hth e' x habout
      | some th' =>
        rw [step_exec hi] at hth
        rcases List.mem_or_eq_of_mem_set hth with hold | rfl
        · exact h.calls th hold e' x habout
        · rcases about_exec habout with hbefore | hfound
          · exact h.calls th' (List.mem_of_getElem? hi) e' x hbefore
          · exact hfound
  case requested =>
    intro c v hv
    simp only [step, hrequests]
    exact h.requested c v hv
  case texts =>
    intro caller id content hmem
    cases e with
    | start c =>
      rcases List.mem_append.1 hmem with hold | hnew
      · exact h.texts caller id content hold
      · cases c <;> simp [Call.start] at hnew
    | exec i o =>
      cases hi : s.review.threads[i]? with
      | none =>
        simp only [step, Review.step, hi] at hmem
        exact item_kept heffect (h.texts caller id content hmem)
      | some th =>
        simp only [step, step_exec hi] at hmem
        rcases List.mem_or_eq_of_mem_set hmem with hold | hnew
        · exact item_kept heffect (h.texts caller id content hold)
        · -- the text that the call has just read from the item
          exact item_kept heffect (publishComment_exec hnew.symm)
  case comments => exact fun c v id hv hx => item_kept heffect (h.comments c v id hv hx)
  case posts =>
    intro c v id hv hx
    obtain ⟨hid, hcontent⟩ := h.posts c v id hv hx
    refine ⟨Nat.lt_of_lt_of_le hid heffect.next, ?_⟩
    intro p hp
    obtain ⟨q, hq, hpq⟩ := heffect.posts id p hid hp
    exact hpq.trans (hcontent q hq)

theorem Kept.create (h : Kept s) (target : Target) (c : Bytes) (issuedAt expiresAt : ℤ)
    (inserted selected : Outcome) :
    Kept (step cfg s (.create target c issuedAt expiresAt inserted selected)) := by
  have htables := externalCreate_tables s.review.store target c issuedAt expiresAt inserted selected
  rcases externalCreate_cases s.review.store target c issuedAt expiresAt inserted selected with
    hsame | ⟨hnone, hfind, hreturn⟩
  · -- nothing is stored and nothing returned
    have hstep : step cfg s (.create target c issuedAt expiresAt inserted selected) = s := by
      simp only [step, hsame]
    rw [hstep]
    exact h
  · have hfound : ∀ {k : Bytes} {x : Target},
        (∃ r, s.review.store.requests.find? k = some r ∧ r.target = x) →
          ∃ r, (s.review.store.externalCreate target c issuedAt expiresAt inserted
            selected).1.requests.find? k = some r ∧ r.target = x := by
      rintro k x ⟨r, hr, hx⟩
      have hkc : k ≠ c := by
        rintro rfl
        rw [hnone] at hr
        cases hr
      exact ⟨r, by rw [hfind, if_neg hkc, hr], hx⟩
    -- the records are the old ones and the one of the new correlation id
    have hrecord : ∀ {k : Bytes} {v : Reviewed},
        (step cfg s (.create target c issuedAt expiresAt inserted selected)).reviewed k = some v →
          s.reviewed k = some v ∨ k = c ∧ ∃ r, reviewContent s.tables target = some r ∧
            v = ⟨target, r.1, none⟩ := by
      intro k v hv
      rcases hreturn with heq | heq
      · simp only [step, heq] at hv
        exact .inl hv
      · simp only [step, heq] at hv
        cases hr : reviewContent s.tables target with
        | none =>
          simp only [State.tables] at hr
          simp only [hr] at hv
          exact .inl hv
        | some r =>
          have hr' := hr
          simp only [State.tables] at hr'
          simp only [hr'] at hv
          by_cases hkc : k = c
          · rw [hkc, Function.update_self, Option.some.injEq] at hv
            exact .inr ⟨hkc, r, rfl, hv.symm⟩
          · rw [Function.update_of_ne hkc] at hv
            exact .inl hv
    constructor
    case calls => exact fun th hth e x habout => hfound (h.calls th hth e x habout)
    case requested =>
      intro k v hv
      rcases hrecord hv with hold | ⟨rfl, r, -, rfl⟩
      · exact hfound (h.requested k v hold)
      · exact ⟨_, by rw [step, hfind, if_pos rfl], rfl⟩
    case texts =>
      intro caller id content hmem
      simp only [State.tables, step, htables]
      exact h.texts caller id content hmem
    case comments =>
      intro k v id hv hx
      simp only [State.tables, step, htables]
      rcases hrecord hv with hold | ⟨rfl, r, hr, rfl⟩
      · exact h.comments k v id hold hx
      · obtain rfl : target = .comment id := hx
        exact reviewContent_comment s.wellFormed.unique hr
    case posts =>
      intro k v id hv hx
      simp only [State.tables, step, htables]
      rcases hrecord hv with hold | ⟨rfl, r, hr, rfl⟩
      · exact h.posts k v id hold hx
      · obtain rfl : target = .post id := hx
        exact reviewContent_post s.wellFormed hr

theorem kept_step (cfg : Settings) (s : State) (a : Action) (h : Kept s) : Kept (step cfg s a) := by
  cases a with
  | request r => exact h.request r
  | create target c issuedAt expiresAt inserted selected =>
    exact h.create target c issuedAt expiresAt inserted selected
  | review e => exact h.review e

/-! ## What an approval publishes -/

/-- A statement that makes a hidden target visible is the UPDATE of an approval: a post
keeps its content, a comment gets the text that the call has read. -/
theorem publishes_of_shown {t : Tables} (hu : UniqueTargets t) {o : Outcome} {b : Body}
    (hwaiting : display t x = some .waiting) (hshown : display (b.exec o t).1 x = some .shown) :
    b.target = x ∧ ((∃ id p, b = .publishPost id ∧ t.post id = some p ∧
        publicContent (b.exec o t).1 x = some p.content) ∨
      ∃ id content, b = .publishComment id content ∧
        publicContent (b.exec o t).1 x = some content) := by
  have hne : display (b.exec o t).1 x ≠ display t x := by
    rw [hwaiting, hshown]
    exact nofun
  have htarget : b.target = x := by
    by_contra hother
    rcases b.exec_cases hu o with heq | ⟨_, _, _, -, -, -, heq⟩ | ⟨-, -, -, hdisplay, -⟩ |
      ⟨id, rfl, heq⟩ | ⟨v, y, -, -, heq⟩
    · exact hne (by rw [heq])
    · exact hne (by rw [heq])
    · exact hne (by rw [hdisplay, if_neg (Ne.symm hother)])
    · exact hne (by rw [heq, display_deletePost]; exact if_neg (Ne.symm hother))
    · exact hne (by rw [heq]; rfl)
  refine ⟨htarget, ?_⟩
  subst htarget
  -- of the statements on this target, two can make it visible
  unfold Body.exec at hne ⊢
  split at hne
  · next ho =>
    simp only [ho, if_true]
    cases b with
    | publishPost id =>
      refine .inl ⟨id, ?_⟩
      cases hp : t.post id with
      | none => exact absurd (by simp [Body.run, hp]) hne
      | some p =>
        refine ⟨p, rfl, rfl, ?_⟩
        have hid := Tables.post_id hp
        subst hid
        by_cases hpending : p.status = .pending
        · simp [Body.run, hp, hpending, publicContent, Body.target, Tables.post_setPost]
        · exact absurd (by simp [Body.run, hp, hpending]) hne
    | publishComment id content =>
      refine .inr ⟨id, content, rfl, ?_⟩
      cases hc : t.comment id with
      | none => exact absurd (by simp [Body.run, hc]) hne
      | some c =>
        have hid := Tables.comment_id hc
        subst hid
        by_cases hdeleted : c.deleted = true
        · simp [Body.run, hc, hdeleted, publicContent, Body.target, Tables.comment_setComment]
        · exact absurd (by simp [Body.run, hc, hdeleted]) hne
    | readItem v x =>
      refine absurd ?_ hne
      dsimp only [Body.run]
      split <;> rfl
    | removePost id =>
      simp only [ho, if_true, Body.exec, Body.run, display_deletePost, Body.target] at hshown
      cases hshown
    | finish v x =>
      refine absurd ?_ hne
      dsimp only [Body.run]
      split <;> rfl
  · exact absurd rfl hne

end

/-- In every history of requests, reviews and decisions, statement by statement: when an
external decision makes a target visible for whose correlation id content was returned,
what becomes visible is that content for a comment, and for a post what the last edit
since has written, or that content if there was none. -/
theorem decision_publishes_reviewed (cfg : Settings) (s : State) (hidle : s.review.threads = [])
    (hnone : ∀ c, s.reviewed c = none) (as : List Action) (t : State)
    (ht : Reaches (step cfg) s as t) (i : ℕ) (o : Outcome) (e : External) (b : Body)
    (hi : t.review.threads[i]? = some (.body (some e) b)) (x : Target)
    (hwaiting : display t.tables x = some .waiting)
    (hshown : display (step cfg t (.review (.exec i o))).tables x = some .shown) (v : Reviewed)
    (hv : t.reviewed e.correlationId = some v) :
    v.target = x ∧
      publicContent (step cfg t (.review (.exec i o))).tables x = some v.published := by
  have hstart : Kept s := by
    constructor
    case calls => exact fun th hth => by simp [hidle] at hth
    case requested => exact fun c v hv => by simp [hnone] at hv
    case texts => exact fun caller id content hth => by simp [hidle] at hth
    case comments => exact fun c v id hv => by simp [hnone] at hv
    case posts => exact fun c v id hv => by simp [hnone] at hv
  obtain ⟨pre, post, -, rfl⟩ := ht
  have hkept : Kept (run (step cfg) s pre) := run_invariant _ (kept_step cfg) hstart pre
  generalize run (step cfg) s pre = t at *
  have htables : (step cfg t (.review (.exec i o))).tables = (b.exec o t.tables).1 := by
    simp only [step, State.tables, step_exec hi]
    rfl
  rw [htables] at hshown ⊢
  obtain ⟨htarget, hpublish⟩ := publishes_of_shown t.wellFormed.unique hwaiting hshown
  have hmem : .body (some e) b ∈ t.review.threads := List.mem_of_getElem? hi
  -- the request of the decision is the one whose content was returned
  have hvx : v.target = x := by
    obtain ⟨r, hr, hrx⟩ := hkept.calls _ hmem e b.target rfl
    obtain ⟨r', hr', hrv⟩ := hkept.requested e.correlationId v hv
    obtain rfl := Option.some.inj (hr.symm.trans hr')
    rw [← hrv, hrx, htarget]
  refine ⟨hvx, ?_⟩
  rcases hpublish with ⟨id, p, rfl, hp, hcontent⟩ | ⟨id, content, rfl, hcontent⟩
  · obtain rfl : .post id = x := htarget
    rw [hcontent, (hkept.posts e.correlationId v id hv hvx).2 p hp, Reviewed.published, hvx]
  · obtain rfl : .comment id = x := htarget
    obtain ⟨item, hitem, rfl⟩ := hkept.texts _ id content hmem
    obtain ⟨item', hitem', hcontent'⟩ := hkept.comments e.correlationId v id hv hvx
    obtain rfl := Option.some.inj (hitem.symm.trans hitem')
    rw [hcontent, hcontent', Reviewed.published, hvx]

/-! ## A site with a pending post and a pending comment -/

def pendingSite : State where
  review :=
    { store :=
        { tables :=
            { posts := [⟨7, 1, 5, bytes "title", bytes "harmless", .pending, 1000⟩]
              comments := [⟨3, .post 1, 5, [], 1000, true⟩]
              items :=
                [⟨.post 7, 5, [], bytes "approval_queue", .pending, 1000⟩,
                 ⟨.comment 3, 5, bytes "first", bytes "approval_queue", .pending, 1000⟩]
              userSince := fun _ => some 0
              nextPost := 8
              nextComment := 4 }
          requests := Keyed.Table.empty
          receipts := Keyed.Table.empty
          unique := by simp [UniqueTargets] }
      threads := [] }
  fresh := by simp [Fresh]
  reviewed := fun _ => none

def allowed : External := ⟨bytes "c0ffee", bytes "d1", .allow, 1010, [], 1011⟩

/-- The reviewer is asked about a target and allows it; `meanwhile` happens before the
decision arrives, of whose statements the first `n` run. -/
def reviewOf (x : Target) (meanwhile : List Action) (n : ℕ) : List Action :=
  .create x (bytes "c0ffee") 1000 1300 .done .done :: meanwhile ++
    .review (.start (.externalApply allowed)) :: List.replicate n (.review (.exec 0 .done))

theorem decision_publishes_reviewed_comment :
    publicContent
      (step noCasino (run (step noCasino) pendingSite (reviewOf (.comment 3) [] 4))
        (.review (.exec 0 .done))).tables (.comment 3) = some (bytes "first") :=
  (decision_publishes_reviewed noCasino pendingSite rfl (fun _ => rfl)
    (reviewOf (.comment 3) [] 4) _ (reaches_run _ _) 0 .done allowed
    (.publishComment 3 (bytes "first")) (by decide +kernel) (.comment 3) (by decide +kernel)
    (by decide +kernel) ⟨.comment 3, bytes "first", none⟩ (by decide +kernel)).2

/-- The author of the pending post writes something else. -/
def editMeanwhile : Action :=
  .request (.editPost 1005 ⟨5, .user, 7, bytes "title", bytes "casino", [], 1, false, none, false⟩)

/-- The decision on the content that was returned publishes the other one. -/
theorem edited_post_published :
    ((run (step noCasino) pendingSite (reviewOf (.post 7) [editMeanwhile] 6)).reviewed
        (bytes "c0ffee")).map (·.content) = some (bytes "harmless") ∧
      (run (step noCasino) pendingSite (reviewOf (.post 7) [editMeanwhile] 6)).review.threads =
        [.answered (.external .applied)] ∧
      publicContent (run (step noCasino) pendingSite (reviewOf (.post 7) [editMeanwhile] 6)).tables
        (.post 7) = some (bytes "casino") := by
  refine ⟨?_, ?_, ?_⟩ <;> decide +kernel

end FlyBoard.ReviewedContent

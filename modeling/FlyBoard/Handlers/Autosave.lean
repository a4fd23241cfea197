import FlyBoard.Handlers.Submit
import FlyBoard.Lib.Keyed

/-!
# Autosave beside the edit of a post (`src/handlers/api.c`, `src/handlers/post.c`)

An autosave loads the draft, looks at its status and then updates the row, refreshes the
slug and replaces the tags, each in a statement of its own. The edit loads the post, too,
but writes inside a savepoint, so that others see all of it or nothing; where the savepoint
cannot be set, its statements stand for themselves. Approval turns a pending post into a
published one. Each of these is a step here, and the steps of all requests interleave.
`Submit` has the same handlers as one step each.

Revisions, attachments, series and languages of an edit are in other tables.
-/

namespace FlyBoard.Autosave

open Bytes Db Run
open Submit (choosePublish formOk)

/-! ## Rows -/

/-- A row of `posts`. -/
structure PostRow where
  id : ℕ
  boardId : ℕ
  /-- 0 for an anonymous post. -/
  userId : ℕ
  title : Bytes
  content : Bytes
  summary : Bytes
  pqcSignature : Bytes
  slug : Bytes
  isNotice : Bool
  isSecret : Bool
  category : Bytes
  status : PostStatus
  createdAt : ℕ
deriving DecidableEq

/-- `is_author_or_admin` -/
def PostRow.isAuthorOrAdmin (p : PostRow) (uid : ℕ) (role : Moderation.Role) : Bool :=
  role == .admin || (0 < p.userId && p.userId == uid)

/-- `post_is_public` -/
def PostRow.isPublic (p : PostRow) (now : ℕ) : Bool := p.status ≠ .draft && p.createdAt ≤ now

/-- The arguments of `db_post_update`; an absent status or time is kept. -/
structure Update where
  boardId : ℕ
  title : Bytes
  content : Bytes
  summary : Bytes
  pqcSignature : Bytes
  isNotice : Bool
  isSecret : Bool
  category : Bytes
  status : Option PostStatus
  publishAt : Option ℕ

def Update.row (u : Update) (p : PostRow) : PostRow where
  id := p.id
  boardId := u.boardId
  userId := p.userId
  title := u.title
  content := u.content
  summary := u.summary
  pqcSignature := u.pqcSignature
  slug := p.slug
  isNotice := u.isNotice
  isSecret := u.isSecret
  category := u.category
  status := u.status.getD p.status
  createdAt := u.publishAt.getD p.createdAt

@[simp] theorem Update.id_row (u : Update) (p : PostRow) : (u.row p).id = p.id := rfl

/-! ## Slugs -/

/-- What `fb_generate_slug` makes of a title byte by byte; `last` is the byte before. -/
def slugBytes : Option UInt8 → Bytes → Bytes
  | _, [] => []
  | last, c :: rest =>
    if isDigit c || isLower (toLower c) then toLower c :: slugBytes (some (toLower c)) rest
    else if (c == 32 || c == 45 || c == 95) && last != some 45 then
      45 :: slugBytes (some 45) rest
    else slugBytes last rest

/-- `fb_generate_slug` -/
def generateSlug (title : Bytes) : Bytes :=
  let slug := slugBytes none title
  let slug := if slug.getLast? = some 45 then slug.dropLast else slug
  if slug = [] then bytes "post" else slug

/-- The number that `db_post_refresh_auto_slug` appends; none for 0. -/
def slugSuffix (n : ℕ) : Bytes := if n = 0 then [] else decimal n

/-- The first slug of this base that no row of `others` has. -/
def freeSlug (others : List PostRow) (base : Bytes) : Bytes :=
  let n := (List.range (others.length + 1)).find? fun n =>
    others.all fun p => p.slug ≠ base ++ slugSuffix n
  base ++ slugSuffix (n.getD 0)

/-! ## Tags -/

/-- `DB_TAG_MAX_PER_POST` and `DB_TAG_MAX_BYTES`. -/
def tagMaxPerPost : ℕ := 10
def tagMaxBytes : ℕ := 48

/-- The loop of `tag_normalize`: the bytes written so far, and whether a space is due. -/
def tagBytes : Bytes → Bytes → Bool → Bytes
  | [], out, _ => out
  | c :: rest, out, space =>
    if tagMaxBytes ≤ out.length + 1 then out
    else if c == 32 || c == 9 || c == 13 || c == 10 then tagBytes rest out (space || out ≠ [])
    else if c < 32 || (bytes "/?#%&<>\"'\\`").contains c then tagBytes rest out space
    else if space then
      if tagMaxBytes ≤ out.length + 2 then out
      else tagBytes rest (out ++ [32, toLower c]) false
    else tagBytes rest (out ++ [toLower c]) false

/-- The bytes of a character that begins with this byte. -/
def charLength (lead : UInt8) : ℕ :=
  if lead &&& 0xE0 = 0xC0 then 2 else if lead &&& 0xF0 = 0xE0 then 3
  else if lead &&& 0xF8 = 0xF0 then 4 else 1

/-- `out` without an incomplete character at its end. -/
def wholeChars (out : Bytes) : Bytes :=
  let tail := (out.reverse.takeWhile fun c => c &&& 0xC0 = 0x80).length
  match out.reverse.drop tail with
  | [] => out
  | lead :: rest => if tail + 1 < charLength lead then rest.reverse else out

/-- `tag_normalize` -/
def tagNormalize (s : Bytes) : Bytes :=
  wholeChars (tagBytes (s.dropWhile fun c => c == 35 || c == 32 || c == 9) [] false)

/-- The tags that `db_tag_set_for_post` links. -/
def tagsOf (csv : Bytes) : List Bytes :=
  let names := ((csv.splitOn 44).map tagNormalize).filter (· ≠ [])
  (names.foldl (fun seen name => if seen.contains name then seen else seen ++ [name]) []).take
    tagMaxPerPost

/-! ## The state -/

inductive Stmt where
  | update
  | slug
  | tags
deriving DecidableEq

structure Writer where
  postId : ℕ
  update : Update
  /-- The title that the slug is made of, where it is refreshed. -/
  slugTitle : Option Bytes
  /-- The list of tags, if the form has the field. -/
  tags : Option Bytes
  left : List Stmt

/-- The tables, and the requests under way. `sequence` is the largest id that AUTOINCREMENT
has given. -/
structure State where
  posts : Keyed.Table PostRow.id
  sequence : ℕ
  fresh : ∀ p ∈ posts.rows, p.id ≤ sequence
  tags : ℕ → List Bytes
  savers : ℕ → Option Writer
  editors : ℕ → Option Writer

namespace State

/-- UPDATE posts SET … WHERE id=?: `f` changes no id. -/
def updatePost (s : State) (id : ℕ) (f : PostRow → PostRow) (hf : ∀ p, (f p).id = p.id) :
    State where
  posts := s.posts.update (fun p => if p.id = id then f p else p) (by
    intro p
    split
    · exact hf p
    · rfl)
  sequence := s.sequence
  fresh := by
    intro p hp
    rcases List.mem_map.mp hp with ⟨q, hq, rfl⟩
    have hle := s.fresh q hq
    split
    · exact (hf q).symm ▸ hle
    · exact hle
  tags := s.tags
  savers := s.savers
  editors := s.editors

def insertPost (s : State) (p : PostRow) (hp : p.id = s.sequence + 1) : State where
  posts := s.posts.insertOrIgnore p
  sequence := s.sequence + 1
  fresh := by
    intro q hq
    rcases Keyed.Table.mem_insertOrIgnore.mp hq with hold | ⟨rfl, -⟩
    · exact Nat.le_succ_of_le (s.fresh q hold)
    · exact hp.le
  tags := s.tags
  savers := s.savers
  editors := s.editors

/-- `db_post_refresh_auto_slug` -/
def refreshAutoSlug (s : State) (id : ℕ) (base : Bytes) : State :=
  s.updatePost id
    (fun p => { p with slug := freeSlug (s.posts.rows.filter fun q => q.id ≠ id) base })
    fun _ => rfl

/-- `db_tag_set_for_post` -/
def setTags (s : State) (id : ℕ) (csv : Bytes) : State :=
  { s with tags := Function.update s.tags id (tagsOf csv) }

end State

def Writer.exec (w : Writer) (s : State) : Stmt → State
  | .update => s.updatePost w.postId w.update.row w.update.id_row
  | .slug =>
    match w.slugTitle with
    | some title => s.refreshAutoSlug w.postId (generateSlug title)
    | none => s
  | .tags =>
    match w.tags with
    | some csv => s.setTags w.postId csv
    | none => s

/-! ## The requests -/

/-- The form of `handler_api_autosave_post`. -/
structure SaveForm where
  uid : ℕ
  role : Moderation.Role
  draftId : ℕ
  boardId : ℕ
  title : Bytes
  content : Bytes
  summary : Bytes
  tags : Option Bytes

def SaveForm.effTitle (r : SaveForm) : Bytes :=
  if r.title = [] then bytes "Untitled" else r.title

/-- The form of `handler_post_edit_post`. -/
structure EditForm where
  uid : ℕ
  role : Moderation.Role
  id : ℕ
  title : Bytes
  content : Bytes
  summary : Bytes
  boardId : ℕ
  /-- `post_action` is `draft`. -/
  draft : Bool
  /-- `publish_at`, if it parses. -/
  publishAt : Option ℕ
  /-- `is_notice`, where the form has the field. -/
  isNotice : Option Bool
  tags : Option Bytes
  /-- A concurrent edit, or the board or notice rights, refuse the request. -/
  refused : Bool

def saveWriter (r : SaveForm) (p : PostRow) : Writer where
  postId := p.id
  update :=
    ⟨if r.boardId = 0 then p.boardId else r.boardId, r.effTitle, r.content, r.summary,
      p.pqcSignature, p.isNotice, p.isSecret, p.category, none, none⟩
  slugTitle := some r.effTitle
  tags := r.tags
  left := [.update, .slug, .tags]

def newDraft (r : SaveForm) (s : State) (now : ℕ) : PostRow where
  id := s.sequence + 1
  boardId := r.boardId
  userId := r.uid
  title := r.effTitle
  content := r.content
  summary := r.summary
  pqcSignature := []
  slug := freeSlug s.posts.rows (generateSlug r.effTitle)
  isNotice := false
  isSecret := false
  category := []
  status := .draft
  createdAt := now

/-- `handler_api_autosave_post` up to its first write, or with the new draft, which is
created in a transaction. -/
def autosave (i : ℕ) (now : ℕ) (r : SaveForm) (s : State) : State :=
  if r.uid = 0 ∨ (s.savers i).isSome then s
  else if 0 < r.draftId then
    match s.posts.find? r.draftId with
    | none => s
    | some p =>
      if p.isAuthorOrAdmin r.uid r.role ∧ p.status = .draft then
        { s with savers := Function.update s.savers i (some (saveWriter r p)) }
      else s
  else if r.boardId = 0 then s
  else
    let p := newDraft r s now
    { s.insertPost p rfl with
      savers := Function.update s.savers i (some { saveWriter r p with left := [.tags] }) }

/-- The next statement of an autosave. Where the UPDATE fails, the request ends. -/
def autosaveNext (i : ℕ) (ok : Bool) (s : State) : State :=
  match s.savers i with
  | none => s
  | some w =>
    match w.left with
    | [] => { s with savers := Function.update s.savers i none }
    | stmt :: rest =>
      if stmt = .update ∧ ok = false then { s with savers := Function.update s.savers i none }
      else
        { w.exec s stmt with
          savers := Function.update s.savers i (some { w with left := rest }) }

section Edit

-- `sign` is `fly_crypto_sign`, in base64
variable (sign : Bytes → Bytes)

def brokenSlug (slug : Bytes) : Bool :=
  slug = [] || startsWith slug (bytes "autosave") || startsWith slug (bytes "untitled")

def editWriter (r : EditForm) (p : PostRow) (now : ℕ) : Writer :=
  let wasPending := p.status = .pending
  let wasPublic := p.isPublic now && !wasPending
  let pub := if wasPending then (PostStatus.pending, none)
    else choosePublish r.uid r.draft r.publishAt now wasPublic
  { postId := p.id
    update :=
      ⟨r.boardId, r.title, r.content, r.summary, sign (r.title ++ [10] ++ r.content),
        r.isNotice.getD p.isNotice, p.isSecret, p.category, some pub.1, pub.2⟩
    slugTitle := if !wasPublic || brokenSlug p.slug then some r.title else none
    tags := r.tags
    left := [.update, .slug, .tags] }

/-- `handler_post_edit_post` up to its first write. -/
def edit (j : ℕ) (now : ℕ) (r : EditForm) (s : State) : State :=
  if r.uid = 0 ∨ r.refused ∨ formOk r.title r.content r.summary = false ∨
      (s.editors j).isSome then s
  else
    match s.posts.find? r.id with
    | none => s
    | some p =>
      if p.isAuthorOrAdmin r.uid r.role then
        { s with editors := Function.update s.editors j (some (editWriter sign r p now)) }
      else s

end Edit

def editNext (j : ℕ) (s : State) : State :=
  match s.editors j with
  | none => s
  | some w =>
    match w.left with
    | [] => { s with editors := Function.update s.editors j none }
    | stmt :: rest =>
      { w.exec s stmt with
        editors := Function.update s.editors j (some { w with left := rest }) }

def editSave (j : ℕ) (s : State) : State :=
  match s.editors j with
  | none => s
  | some w =>
    { w.left.foldl w.exec s with editors := Function.update s.editors j none }

/-- `db_moderation_approve` of a post; `item` says whether it has a pending item. -/
def approve (id : ℕ) (item : Bool) (s : State) : State :=
  if item then
    s.updatePost id
      (fun p => if p.status = .pending then { p with status := .published } else p) fun p => by
        split <;> rfl
  else s

inductive Action where
  | autosave (i : ℕ) (now : ℕ) (r : SaveForm)
  | autosaveNext (i : ℕ) (ok : Bool)
  | edit (j : ℕ) (now : ℕ) (r : EditForm)
  | editNext (j : ℕ)
  | editSave (j : ℕ)
  | approve (id : ℕ) (item : Bool)

def step (sign : Bytes → Bytes) (s : State) : Action → State
  | .autosave i now r => autosave i now r s
  | .autosaveNext i ok => autosaveNext i ok s
  | .edit j now r => edit sign j now r s
  | .editNext j => editNext j s
  | .editSave j => editSave j s
  | .approve id item => approve id item s

/-! ## What is asked of them -/

def Action.isAutosave : Action → Bool
  | .autosave .. | .autosaveNext .. => true
  | _ => false

def Spared (s s' : State) : Prop :=
  ∀ p ∈ s.posts.rows, p.status ≠ .draft → s'.tags p.id = s.tags p.id ∧
    ∃ p' ∈ s'.posts.rows, p'.id = p.id ∧ p'.title = p.title ∧ p'.content = p.content ∧
      p'.slug = p.slug

/-- A step of an autosave leaves every post alone that is not a draft at that moment. -/
def SparesPublished (sign : Bytes → Bytes) (s : State) (a : Action) : Prop :=
  a.isAutosave = true → Spared s (step sign s a)

def Unsaved (s : State) (postId : ℕ) : Prop :=
  ∀ i, ∀ w ∈ s.savers i, w.left ≠ [] → w.postId ≠ postId

/-- An edit takes a draft out of that status only while no autosave of it is under way. -/
def Apart (s : State) : Action → Prop
  | .editNext j | .editSave j =>
    ∀ w ∈ s.editors j, .update ∈ w.left → w.update.status ≠ some .draft →
      ∀ p ∈ s.posts.rows, p.id = w.postId → p.status = .draft → Unsaved s w.postId
  | _ => True

/-! ## What a statement leaves alone -/

variable {id : ℕ} {q : PostRow} {s : State}

theorem mem_updatePost {f : PostRow → PostRow} (hf : ∀ p, (f p).id = p.id)
    :
    q ∈ (s.updatePost id f hf).posts.rows ↔
      ∃ p ∈ s.posts.rows, (if p.id = id then f p else p) = q :=
  List.mem_map

theorem mem_refreshAutoSlug {base : Bytes} :
    q ∈ (s.refreshAutoSlug id base).posts.rows ↔
      ∃ p ∈ s.posts.rows, (if p.id = id then
        { p with slug := freeSlug (s.posts.rows.filter fun q => q.id ≠ id) base } else p) = q :=
  List.mem_map

theorem savers_exec (w : Writer) (s : State) (stmt : Stmt) :
    (w.exec s stmt).savers = s.savers := by
  cases stmt with
  | update => rfl
  | slug =>
    rw [Writer.exec]
    cases w.slugTitle <;> rfl
  | tags =>
    rw [Writer.exec]
    cases w.tags <;> rfl

variable {w : Writer}

theorem exec_other (stmt : Stmt) {p : PostRow} (hp : p ∈ s.posts.rows) (hid : p.id ≠ w.postId) :
    p ∈ (w.exec s stmt).posts.rows ∧ (w.exec s stmt).tags p.id = s.tags p.id := by
  cases stmt with
  | update => exact ⟨(mem_updatePost w.update.id_row).mpr ⟨p, hp, if_neg hid⟩, rfl⟩
  | slug =>
    rw [Writer.exec]
    cases w.slugTitle with
    | none => exact ⟨hp, rfl⟩
    | some title => exact ⟨mem_refreshAutoSlug.mpr ⟨p, hp, if_neg hid⟩, rfl⟩
  | tags =>
    rw [Writer.exec]
    cases w.tags with
    | none => exact ⟨hp, rfl⟩
    | some csv => exact ⟨hp, Function.update_of_ne hid _ _⟩

theorem exec_status {stmt : Stmt} (hq : q ∈ (w.exec s stmt).posts.rows) :
    ∃ p ∈ s.posts.rows, p.id = q.id ∧
      (q.status = p.status ∨
        p.id = w.postId ∧ stmt = .update ∧ w.update.status = some q.status) := by
  cases stmt with
  | update =>
    rcases (mem_updatePost w.update.id_row).mp hq with ⟨p, hp, rfl⟩
    refine ⟨p, hp, ?_⟩
    split
    · rename_i hid
      refine ⟨rfl, ?_⟩
      cases hstatus : w.update.status with
      | none => exact .inl (by rw [Update.row, hstatus, Option.getD_none])
      | some st => exact .inr ⟨hid, rfl, by rw [Update.row, hstatus, Option.getD_some]⟩
    · exact ⟨rfl, .inl rfl⟩
  | slug =>
    rw [Writer.exec] at hq
    cases htitle : w.slugTitle with
    | none =>
      rw [htitle] at hq
      exact ⟨q, hq, rfl, .inl rfl⟩
    | some title =>
      rw [htitle] at hq
      rcases mem_refreshAutoSlug.mp hq with ⟨p, hp, rfl⟩
      refine ⟨p, hp, ?_⟩
      split
      · exact ⟨rfl, .inl rfl⟩
      · exact ⟨rfl, .inl rfl⟩
  | tags =>
    rw [Writer.exec] at hq
    cases htags : w.tags with
    | none =>
      rw [htags] at hq
      exact ⟨q, hq, rfl, .inl rfl⟩
    | some csv =>
      rw [htags] at hq
      exact ⟨q, hq, rfl, .inl rfl⟩

theorem savers_foldl_exec (w : Writer) (stmts : List Stmt) (s : State) :
    (stmts.foldl w.exec s).savers = s.savers := by
  induction stmts generalizing s with
  | nil => rfl
  | cons stmt rest ih => rw [List.foldl_cons, ih, savers_exec]

theorem foldl_exec_status {stmts : List Stmt} (hq : q ∈ (stmts.foldl w.exec s).posts.rows) :
    ∃ p ∈ s.posts.rows, p.id = q.id ∧
      (q.status = p.status ∨
        p.id = w.postId ∧ .update ∈ stmts ∧ w.update.status = some q.status) := by
  induction stmts generalizing s with
  | nil => exact ⟨q, hq, rfl, .inl rfl⟩
  | cons stmt rest ih =>
    rcases ih hq with ⟨p, hp, hid, hstatus⟩
    rcases exec_status hp with ⟨p₀, hp₀, hid₀, hstatus₀⟩
    refine ⟨p₀, hp₀, hid₀.trans hid, ?_⟩
    rcases hstatus with heq | ⟨hpost, hin, hset⟩
    · rcases hstatus₀ with heq₀ | ⟨hpost, rfl, hset⟩
      · exact .inl (heq.trans heq₀)
      · exact .inr ⟨hpost, List.mem_cons_self, heq ▸ hset⟩
    · exact .inr ⟨hid₀.trans hpost, List.mem_cons_of_mem _ hin, hset⟩

/-! ## The invariant -/

/-- Every autosave under way keeps the status of its post, which is a draft. -/
def OnDrafts (s : State) : Prop :=
  ∀ i, ∀ w ∈ s.savers i, w.left ≠ [] →
    w.update.status = none ∧ ∀ p ∈ s.posts.rows, p.id = w.postId → p.status = .draft

/-- It is kept where each autosave was under way before, and a post that one is about is
no less a draft. -/
theorem OnDrafts.of_status {s s' : State} (h : OnDrafts s)
    (hsavers : ∀ i, ∀ w' ∈ s'.savers i, w'.left ≠ [] → ∃ w ∈ s.savers i, w.left ≠ [] ∧
      w.postId = w'.postId ∧ w.update = w'.update)
    (hstatus : ∀ q ∈ s'.posts.rows, ∃ p ∈ s.posts.rows, p.id = q.id ∧
      (p.status = .draft → q.status = .draft ∨ Unsaved s p.id)) : OnDrafts s' := by
  intro i w' hw' hleft'
  rcases hsavers i w' hw' hleft' with ⟨w, hw, hleft, hpost, hupdate⟩
  rcases h i w hw hleft with ⟨hnone, hdraft⟩
  refine ⟨hupdate ▸ hnone, ?_⟩
  intro q hq hqid
  rcases hstatus q hq with ⟨p, hp, hpid, himp⟩
  have hwp : p.id = w.postId := hpid.trans (hqid.trans hpost.symm)
  refine (himp (hdraft p hp hwp)).resolve_right fun hunsaved => ?_
  exact hunsaved i w hw hleft hwp.symm

variable {sign : Bytes → Bytes} {a : Action}

theorem onDrafts_autosave (h : OnDrafts s) (i now : ℕ) (r : SaveForm) :
    OnDrafts (autosave i now r s) := by
  rw [autosave]
  split
  · exact h
  · split
    · split
      · exact h
      · rename_i p hfind
        split
        · rename_i hok
          rcases Keyed.Table.find?_eq_some.mp hfind with ⟨hp, -⟩
          intro k w hw hleft
          simp only at hw
          by_cases hk : k = i
          · subst hk
            rw [Function.update_self, Option.mem_some] at hw
            subst hw
            refine ⟨rfl, fun q hq hid => ?_⟩
            rw [s.posts.eq_of_key_eq hq hp hid]
            exact hok.2
          · rw [Function.update_of_ne hk] at hw
            exact h k w hw hleft
        · exact h
    · split
      · exact h
      · intro k w hw hleft
        simp only at hw
        have hnew : ∀ q ∈ (s.insertPost (newDraft r s now) rfl).posts.rows,
            q ∈ s.posts.rows ∨ q = newDraft r s now := by
          intro q hq
          rcases Keyed.Table.mem_insertOrIgnore.mp hq with hold | ⟨heq, -⟩
          · exact .inl hold
          · exact .inr heq
        by_cases hk : k = i
        · subst hk
          rw [Function.update_self, Option.mem_some] at hw
          subst hw
          refine ⟨rfl, fun q hq hid => ?_⟩
          rcases hnew q hq with hold | rfl
          · -- no post had the new id
            have hle := s.fresh q hold
            have hid' : q.id = s.sequence + 1 := hid
            omega
          · rfl
        · rw [Function.update_of_ne hk] at hw
          rcases h k w hw hleft with ⟨hnone, hdraft⟩
          refine ⟨hnone, fun q hq hid => ?_⟩
          rcases hnew q hq with hold | rfl
          · exact hdraft q hold hid
          · rfl

theorem onDrafts_autosaveNext (h : OnDrafts s) (i : ℕ) (ok : Bool) :
    OnDrafts (autosaveNext i ok s) := by
  have hstop : OnDrafts { s with savers := Function.update s.savers i none } := by
    intro k w hw hleft
    simp only at hw
    by_cases hk : k = i
    · subst hk
      rw [Function.update_self] at hw
      exact nomatch hw
    · rw [Function.update_of_ne hk] at hw
      exact h k w hw hleft
  rw [autosaveNext]
  split
  · exact h
  · rename_i w hsaver
    split
    · exact hstop
    · rename_i stmt rest hcons
      have hleft : w.left ≠ [] := hcons ▸ List.cons_ne_nil _ _
      split
      · exact hstop
      · refine h.of_status ?_ ?_
        · intro k w' hw' hleft'
          simp only at hw'
          by_cases hk : k = i
          · subst hk
            rw [Function.update_self, Option.mem_some] at hw'
            subst hw'
            exact ⟨w, hsaver, hleft, rfl, rfl⟩
          · rw [Function.update_of_ne hk] at hw'
            exact ⟨w', hw', hleft', rfl, rfl⟩
        · intro q hq
          rcases exec_status hq with ⟨p, hp, hid, hsame | ⟨-, -, hset⟩⟩
          · exact ⟨p, hp, hid, fun hdraft => .inl (hsame.trans hdraft)⟩
          · -- the UPDATE of an autosave has no status
            rw [(h i w hsaver hleft).1] at hset
            exact nomatch hset

theorem onDrafts_edit (h : OnDrafts s) (j now : ℕ) (r : EditForm) :
    OnDrafts (edit sign j now r s) := by
  rw [edit]
  split
  · exact h
  · split
    · exact h
    · split
      · exact h
      · exact h

/-- An edit that is apart from the autosaves of its post leaves the others their drafts. -/
theorem onDrafts_write (h : OnDrafts s) (stmts : List Stmt)
    {editors : ℕ → Option Writer} (hsub : ∀ stmt ∈ stmts, stmt ∈ w.left)
    (hapart : .update ∈ w.left → w.update.status ≠ some .draft →
      ∀ p ∈ s.posts.rows, p.id = w.postId → p.status = .draft → Unsaved s w.postId) :
    OnDrafts { stmts.foldl w.exec s with editors := editors } := by
  refine h.of_status ?_ ?_
  · intro k w' hw' hleft'
    simp only [savers_foldl_exec] at hw'
    exact ⟨w', hw', hleft', rfl, rfl⟩
  · intro q hq
    rcases foldl_exec_status hq with ⟨p, hp, hid, hsame | ⟨hpost, hin, hset⟩⟩
    · exact ⟨p, hp, hid, fun hdraft => .inl (hsame.trans hdraft)⟩
    · refine ⟨p, hp, hid, fun hdraft => ?_⟩
      by_cases hq' : q.status = .draft
      · exact .inl hq'
      · refine .inr (hpost ▸ hapart (hsub _ hin) ?_ p hp hpost hdraft)
        exact fun heq => hq' (Option.some.inj (hset.symm.trans heq))

theorem onDrafts_editNext (h : OnDrafts s) (j : ℕ) (hapart : Apart s (.editNext j)) :
    OnDrafts (editNext j s) := by
  rw [editNext]
  split
  · exact h
  · rename_i w heditor
    split
    · exact h
    · rename_i stmt rest hcons
      refine onDrafts_write h [stmt] ?_ (hapart w heditor)
      intro stmt' hmem
      rw [List.mem_singleton.mp hmem, hcons]
      exact List.mem_cons_self

theorem onDrafts_editSave (h : OnDrafts s) (j : ℕ) (hapart : Apart s (.editSave j)) :
    OnDrafts (editSave j s) := by
  rw [editSave]
  split
  · exact h
  · rename_i w heditor
    exact onDrafts_write h w.left (fun _ hmem => hmem) (hapart w heditor)

theorem onDrafts_approve (h : OnDrafts s) (id : ℕ) (item : Bool) :
    OnDrafts (approve id item s) := by
  rw [approve]
  split
  · refine h.of_status (fun k w hw hleft => ⟨w, hw, hleft, rfl, rfl⟩) ?_
    intro q hq
    rcases List.mem_map.mp hq with ⟨p, hp, rfl⟩
    refine ⟨p, hp, ?_⟩
    dsimp only
    split
    · split
      · rename_i hpending
        refine ⟨rfl, fun hdraft => ?_⟩
        rw [hpending] at hdraft
        exact nomatch hdraft
      · exact ⟨rfl, .inl⟩
    · exact ⟨rfl, .inl⟩
  · exact h

theorem onDrafts_step (h : OnDrafts s) (hapart : Apart s a) :
    OnDrafts (step sign s a) := by
  cases a with
  | autosave i now r => exact onDrafts_autosave h i now r
  | autosaveNext i ok => exact onDrafts_autosaveNext h i ok
  | edit j now r => exact onDrafts_edit h j now r
  | editNext j => exact onDrafts_editNext h j hapart
  | editSave j => exact onDrafts_editSave h j hapart
  | approve id item => exact onDrafts_approve h id item

/-! ## Steps of an autosave -/

theorem Spared.refl (s : State) : Spared s s :=
  fun p hp _ => ⟨rfl, p, hp, rfl, rfl, rfl, rfl⟩

/-- A look at the draft writes nothing, and a new draft is a row of its own. -/
theorem spared_autosave (s : State) (i now : ℕ) (r : SaveForm) :
    Spared s (autosave i now r s) := by
  rw [autosave]
  split
  · exact .refl s
  · split
    · split
      · exact .refl s
      · split
        · exact .refl s
        · exact .refl s
    · split
      · exact .refl s
      · intro p hp _
        exact ⟨rfl, p, Keyed.Table.mem_insertOrIgnore.mpr (.inl hp), rfl, rfl, rfl, rfl⟩

theorem spared_autosaveNext (h : OnDrafts s) (i : ℕ) (ok : Bool) :
    Spared s (autosaveNext i ok s) := by
  rw [autosaveNext]
  split
  · exact .refl s
  · rename_i w hsaver
    split
    · exact .refl s
    · rename_i stmt rest hcons
      have hleft : w.left ≠ [] := hcons ▸ List.cons_ne_nil _ _
      split
      · exact .refl s
      · intro p hp hstatus
        have hid : p.id ≠ w.postId := by
          intro heq
          exact hstatus ((h i w hsaver hleft).2 p hp heq)
        rcases exec_other stmt hp hid with ⟨hkept, htags⟩
        exact ⟨htags, p, hkept, rfl, rfl, rfl, rfl⟩

theorem sparesPublished_step (h : OnDrafts s) :
    SparesPublished sign s a := by
  intro hauto
  cases a with
  | autosave i now r => exact spared_autosave s i now r
  | autosaveNext i ok => exact spared_autosaveNext h i ok
  | edit | editNext | editSave | approve => exact nomatch hauto

/-- In every run from a state without requests, in which no edit publishes a draft between
an autosave's look at its status and its last statement, no autosave touches a post that is
not a draft. -/
theorem autosave_spares_published (sign : Bytes → Bytes) {s : State} {as : List Action}
    (hidle : ∀ i, s.savers i = none) (h : AllSteps (step sign) Apart s as) :
    AllSteps (step sign) (SparesPublished sign) s as := by
  have h0 : OnDrafts s := by
    intro i w hw
    rw [hidle i] at hw
    exact nomatch hw
  refine h.imp ?_ ?_ h0
  · intro s a hinv hapart
    exact onDrafts_step hinv hapart
  · intro s a hinv _
    exact sparesPublished_step hinv

/-! ## An edit between two steps of an autosave -/

/-- A draft of user 1, and nothing under way. -/
def oneDraft : State where
  posts := ⟨[⟨1, 1, 1, [97], [98], [], [], [97], false, false, [], .draft, 0⟩], by decide⟩
  sequence := 1
  fresh := by decide
  tags := fun _ => []
  savers := fun _ => none
  editors := fun _ => none

def saveOne : SaveForm := ⟨1, .user, 1, 1, [99], [98], [], none⟩

def publishOne : EditForm := ⟨1, .user, 1, [97], [98], [], 1, false, none, none, none, false⟩

theorem autosave_then_publish :
    AllSteps (step fun _ => []) (SparesPublished fun _ => []) oneDraft
      [.autosave 0 1 saveOne, .autosaveNext 0 true, .autosaveNext 0 true, .autosaveNext 0 true,
        .autosaveNext 0 true, .edit 0 1 publishOne, .editSave 0] := by
  refine autosave_spares_published _ (fun _ => rfl) ?_
  refine ⟨trivial, trivial, trivial, trivial, trivial, trivial, ?_, trivial⟩
  intro w _ _ _ p _ _ _ i w' hw' hleft
  -- the autosave has ended
  cases i with
  | zero => exact nomatch hw'
  | succ k => exact nomatch hw'

/-- The edit publishes the draft after the autosave has looked at its status; the UPDATE of
the autosave then gives the published post another title. -/
theorem published_post_overwritten :
    ¬ AllSteps (step fun _ => []) (SparesPublished fun _ => []) oneDraft
      [.autosave 0 1 saveOne, .edit 0 1 publishOne, .editSave 0, .autosaveNext 0 true] := by
  intro h
  have hspared := h.2.2.2.1 rfl
  rcases hspared ⟨1, 1, 1, [97], [98], [], [], [97], false, false, [], .published, 1⟩
    (by decide) (by decide) with ⟨-, q, hq, -, htitle, -⟩
  revert q
  decide

end FlyBoard.Autosave

import FlyBoard.Db.I18n
import FlyBoard.Db.SeriesOrder
import FlyBoard.Db.Tags
import FlyBoard.Handlers.AutoSlug
import FlyBoard.Lib.Run

/-!
# The edit of a post (`handler_post_edit_post` in `src/handlers/post.c`)

Between a SAVEPOINT and its RELEASE the handler keeps the old text as a revision, updates the
row and lets helpers attach files, replace the tags and set the series, the language and the
translation. The helpers run whether or not `db_post_update` has succeeded, and either way
the savepoint is released. The journal, the search index and the page cache are left out.
-/

namespace FlyBoard.PostEdit

open Bytes
open Autosave (generateSlug)
open I18n (dbI18nSet i18nLangValid)
open SeriesDb (Posts Post Series)

/-! ## Tables -/

/-- The columns of `posts` besides `created_at` and those of the series. -/
structure Columns where
  boardId : Option ℤ
  /-- 0 for an anonymous post. -/
  userId : ℤ
  title : Bytes
  content : Bytes
  summary : Option Bytes
  pqcSignature : Option Bytes
  slug : Bytes
  isNotice : ℤ
  isSecret : ℤ
  category : Option Bytes
  status : Bytes
  announced : ℤ
  updatedAt : Bytes
deriving DecidableEq

/-- A row of `post_revisions`. -/
structure Revision where
  id : ℕ
  postId : ℤ
  title : Bytes
  content : Bytes
  summary : Bytes
  editorId : ℤ
  createdAt : Bytes
deriving DecidableEq

/-- The table `post_revisions`; `sequence` is the largest id that AUTOINCREMENT has given. -/
structure Revisions where
  rows : List Revision
  sequence : ℕ
  le_sequence : ∀ r ∈ rows, r.id ≤ sequence

/-- A row of `files`, with 0 and the empty text for NULL. -/
structure File where
  userId : ℤ
  postId : ℤ
  isInline : Bool
  deletePinHash : Bytes
deriving DecidableEq

abbrev Files := ℤ → Option File

/-- The tables. `db` has the series and their order among the posts, `columns` the rest of
each row of `posts`. -/
structure Site where
  db : SeriesDb.Primary
  columns : ℤ → Columns
  revisions : Revisions
  files : Files
  tags : Tags.Tables
  i18n : I18n.Primary

/-- `db_post_get_by_id` finds the post. -/
def Site.hasPost (s : Site) (id : ℤ) : Bool := (s.db.posts.find? id).isSome

/-! ## The form -/

/-- An object of `media_meta`. -/
structure MediaItem where
  fid : ℤ
  mode : Option Bytes
  deletePin : Option Bytes

/-- The request. `signature` is what `fly_crypto_sign` made of the text, `status` and
`publishAt` are what `choose_publish` made of the form, and `isNotice` is there where the
form has the field. -/
structure Edit where
  id : Int32
  uid : ℤ
  role : Moderation.Role
  boardId : ℤ
  title : Bytes
  content : Bytes
  summary : Option Bytes
  signature : Option Bytes
  isNotice : Option Bool
  status : Bytes
  publishAt : Option Bytes
  mediaMeta : List MediaItem
  tags : Option Bytes
  series : Option Bytes
  seriesPos : Option Bytes
  lang : Option Bytes
  translationOf : Option Bytes

/-- `edit_id` -/
def Edit.post (e : Edit) : ℤ := e.id.toInt

/-- `is_admin_role` -/
def Edit.admin (e : Edit) : Bool := e.role == .admin

def Edit.askedPos (e : Edit) : ℤ := (e.seriesPos.map atoi).getD 0

/-! ## The revision and the row -/

/-- `DB_REVISION_KEEP` -/
def revisionKeep : ℕ := 30

/-- `db_revision_save`: the INSERT, and the DELETE of all but the newest revisions. -/
def Revisions.save (rs : Revisions) (postId : ℤ) (title content summary : Bytes) (editorId : ℤ)
    (now : Bytes) : Revisions :=
  if postId ≤ 0 then rs
  else
    let rows := rs.rows ++ [⟨rs.sequence + 1, postId, title, content, summary, editorId, now⟩]
    { rows := rows.filter fun r => r.postId ≠ postId ∨
        rows.countP (fun q => q.postId = postId ∧ r.id < q.id) < revisionKeep
      sequence := rs.sequence + 1
      le_sequence := by
        intro r hr
        rcases List.mem_append.mp (List.mem_filter.mp hr).1 with hold | hnew
        · exact Nat.le_succ_of_le (rs.le_sequence r hold)
        · rw [List.mem_singleton.mp hnew] }

/-- The arguments of `db_post_update`; an absent time is kept. -/
structure Update where
  boardId : ℤ
  title : Bytes
  content : Bytes
  summary : Bytes
  pqcSignature : Bytes
  isNotice : ℤ
  isSecret : ℤ
  category : Bytes
  status : Bytes
  publishAt : Option Bytes

def Update.row (u : Update) (now : Bytes) (c : Columns) : Columns :=
  { c with
    boardId := if 0 < u.boardId then some u.boardId else none
    title := u.title
    content := u.content
    summary := some u.summary
    pqcSignature := some u.pqcSignature
    isNotice := u.isNotice
    isSecret := u.isSecret
    category := some u.category
    status := u.status
    updatedAt := now }

/-- `created_at` after the UPDATE. -/
def Update.stamp (u : Update) (p : Post) : Post :=
  { p with createdAt := u.publishAt.getD p.createdAt }

/-- The first UPDATE of `db_post_update`. -/
def Site.updatePost (s : Site) (id : ℤ) (u : Update) (now : Bytes) : Site :=
  { s with
    db := { s.db with
      posts := s.db.posts.update (fun q => if q.id = id then u.stamp q else q) (by
        intro q
        split <;> rfl) }
    columns := Function.update s.columns id (u.row now (s.columns id)) }

/-- `status='published' AND created_at<=CURRENT_TIMESTAMP` -/
def isPublished (c : Columns) (p : Post) (now : Bytes) : Bool :=
  c.status == bytes "published" && !(textKey now < textKey p.createdAt)

/-- The second UPDATE: a post that is hidden again is announced once more. -/
def Site.resetAnnounced (s : Site) (id : ℤ) (now : Bytes) : Site :=
  match s.db.posts.find? id with
  | none => s
  | some p =>
    let c := s.columns id
    if isPublished c p now then s
    else { s with columns := Function.update s.columns id { c with announced := 0 } }

/-- The statements of `db_post_update` whose failure makes it return false. -/
inductive Statement where
  | update
  | reset
deriving DecidableEq

/-- A failing statement; `undone` where SQLite rolls the transaction back by itself. -/
structure Fault where
  stmt : Statement
  undone : Bool

/-- What a failing statement leaves of the tables, `start` being what they were at the
savepoint. -/
def Fault.leave (f : Fault) (start s : Site) : Site := if f.undone then start else s

/-- `db_post_update` -/
def dbPostUpdate (fault : Option Fault) (start s : Site) (id : ℤ) (u : Update) (now : Bytes) :
    Site × Bool :=
  match fault with
  | none => ((s.updatePost id u now).resetAnnounced id now, true)
  | some f =>
    match f.stmt with
    | .update => (f.leave start s, false)
    | .reset => (f.leave start (s.updatePost id u now), false)

/-- The arguments that the handler passes, for the columns `old` of the row that it has
loaded. -/
def Edit.update (e : Edit) (old : Columns) : Update where
  boardId := e.boardId
  title := e.title
  content := e.content
  summary := e.summary.getD []
  pqcSignature := e.signature.getD []
  isNotice := if e.isNotice.getD (old.isNotice ≠ 0) then 1 else 0
  isSecret := old.isSecret
  category := old.category.getD []
  status := if old.status = bytes "pending" then bytes "pending" else e.status
  publishAt := if old.status = bytes "pending" then none else e.publishAt

def Site.slugs (s : Site) : List PostAddresses.PostRow :=
  s.db.posts.rows.map fun p => ⟨p.id, (s.columns p.id).slug⟩

/-- `db_post_refresh_auto_slug` with the slug of the new title, where the post was not public
or had a slug that says nothing. -/
def refreshSlug (e : Edit) (old : Columns) (loaded : Post) (now : Bytes) (s : Site) : Site :=
  let wasPublic := old.status ≠ bytes "draft" && !(textKey now < textKey loaded.createdAt) &&
    old.status ≠ bytes "pending"
  let brokenSlug := old.slug.isEmpty || startsWith old.slug (bytes "autosave") ||
    startsWith old.slug (bytes "untitled")
  if wasPublic && !brokenSlug then s
  else
    match AutoSlug.dbPostRefreshAutoSlug s.slugs (generateSlug e.title) e.post with
    | none => s
    | some (_, slug) =>
      { s with columns := Function.update s.columns e.post { s.columns e.post with slug := slug } }

/-! ## Files -/

/-- A file that the request names for the post. -/
structure Attachment where
  fid : ℤ
  pin : Bytes
  isInline : Bool

/-- The objects of `media_meta` that name a file. -/
def mediaAttachments (items : List MediaItem) : List Attachment :=
  (items.filter (0 < ·.fid)).map fun item =>
    ⟨item.fid, item.deletePin.getD [],
      item.mode.getD (bytes "attachment") == bytes "inline"⟩

/-- `num`, where it begins with a digit. -/
def fileNumber (kind : Bytes) : Option Bytes :=
  let num :=
    if startsWith kind (bytes "download/") then some (kind.drop 9)
    else if startsWith kind (bytes "preview/") then some (kind.drop 8)
    else none
  num.filter fun digits => digits.head?.any isDigit

/-- The files that a text refers to. The search for `/file/` goes on behind the bytes it has
read, `skip` of them. -/
def fileRefs : ℕ → Bytes → List ℤ
  | _, [] => []
  | skip + 1, _ :: rest => fileRefs skip rest
  | 0, c :: rest =>
    if startsWith (c :: rest) (bytes "/file/") then
      match fileNumber (rest.drop 5) with
      | none => fileRefs 5 rest
      | some num =>
        let fid := strtol num
        if 0 < fid ∧ fid ≤ 2147483647 then fid :: fileRefs (rest.length - num.length) rest
        else fileRefs (rest.length - num.length) rest
    else fileRefs 0 rest

def contentAttachments (content : Bytes) : List Attachment :=
  (fileRefs 0 content).map fun fid => ⟨fid, [], true⟩

section

-- `verify` is `auth_verify_password`
variable (verify : Bytes → Bytes → Bool)

def File.mayAttach (f : File) (e : Edit) (pin : Bytes) : Bool :=
  let pinOk := pin ≠ [] && f.deletePinHash ≠ [] && verify pin f.deletePinHash
  let ownerOk := (0 < e.uid && f.userId == e.uid) || e.role == .admin
  (f.postId == 0 || f.postId == e.post) && (ownerOk || pinOk)

/-- `db_file_attach_to_post`, where the file is there and may be attached. -/
def attach (e : Edit) (files : Files) (a : Attachment) : Files :=
  match files a.fid with
  | none => files
  | some f =>
    if f.mayAttach verify e a.pin then
      Function.update files a.fid (some { f with postId := e.post, isInline := a.isInline })
    else files

/-- `attach_media_meta_to_post` -/
def attachMediaMetaToPost (e : Edit) (files : Files) : Files :=
  (mediaAttachments e.mediaMeta).foldl (attach verify e) files

/-- `attach_content_files_to_post`; a file that is referred to has no PIN to offer. -/
def attachContentFilesToPost (e : Edit) (files : Files) : Files :=
  (contentAttachments e.content).foldl (attach verify e) files

end

/-! ## Series, language and translation -/

/-- `db_series_find`; the owner 0 stands for anyone. -/
def dbSeriesFind (series : Keyed.Table Series.id) (title : Bytes) (userId : ℤ) : ℤ :=
  let found := series.rows.filter fun x =>
    x.title == title && (userId ≤ 0 || x.userId == some userId)
  (found.map Series.id).min?.getD 0

/-- The title that a form names: the blanks around its first 200 bytes do not count. -/
def seriesTitle (series : Bytes) : Bytes :=
  trimRight (fun c => isBlank c || c == 13 || c == 10) (trimLeft isBlank (snprintfS 201 series))

/-- The writer's series of the title, an administrator's being anyone's; 0 for none. -/
def foundSeries (db : SeriesDb.Primary) (e : Edit) (title : Bytes) : ℤ :=
  dbSeriesFind db.series title (if e.admin then 0 else e.uid)

/-- The series that the post goes to: that one, or what `db_series_create` returns. -/
def titledId (db : SeriesDb.Primary) (e : Edit) (title : Bytes) : ℤ :=
  if 0 < foundSeries db e title then foundSeries db e title else db.sequence + 1

/-- The first part of `apply_series_and_lang`. -/
def applySeries (e : Edit) (now : Bytes) (db : SeriesDb.Primary) : SeriesDb.Primary :=
  match e.series with
  | none => db
  | some series =>
    if e.uid ≤ 0 then db
    else
      let title := seriesTitle series
      if title.isEmpty then SeriesDb.step db (.setSeries e.post 0 0)
      else
        let made :=
          if 0 < foundSeries db e title then db
          else SeriesDb.step db (.create title e.uid now)
        SeriesDb.step made (.setSeries e.post (titledId db e title) e.askedPos)

def Edit.langCall (e : Edit) : Option I18n.Call :=
  (e.lang.filter i18nLangValid).map fun lang => ⟨bytes "post", e.id, some lang, 0⟩

/-- The post that `translation_of` names may be one of the writer's own, for an administrator
any. -/
def Site.mayPair (s : Site) (e : Edit) (other : ℤ) : Bool :=
  s.hasPost other && (e.admin || (0 < e.uid && (s.columns other).userId == e.uid))

/-- The call for the translation; the group is left where the form names no post. -/
def Edit.translationCall (e : Edit) (s : Site) : Option I18n.Call :=
  e.translationOf.bind fun text =>
    let other := Int32.ofInt (atoi text)
    if text.isEmpty ∨ other ≤ 0 then some ⟨bytes "post", e.id, none, -1⟩
    else if other ≠ e.id ∧ s.mayPair e other.toInt then some ⟨bytes "post", e.id, none, other⟩
    else none

/-- `db_i18n_set`, where it is called. -/
def setI18n (c : Option I18n.Call) (i18n : I18n.Primary) : I18n.Primary :=
  c.elim i18n (dbI18nSet i18n)

/-- `apply_series_and_lang` -/
def applySeriesAndLang (e : Edit) (now : Bytes) (s : Site) : Site :=
  let s := { s with db := applySeries e now s.db }
  let s := { s with i18n := setI18n e.langCall s.i18n }
  { s with i18n := setI18n (e.translationCall s) s.i18n }

/-! ## The handler -/

section

variable (verify : Bytes → Bytes → Bool)

/-- `db_tag_set_for_post`, where the form has the field. -/
def setTags (e : Edit) (tags : Tags.Tables) : Tags.Tables :=
  match e.tags with
  | none => tags
  | some csv => (Tags.dbTagSetForPost true Tags.noFailure tags e.post (some csv)).1

/-- What follows `db_post_update` in either case. -/
def finish (e : Edit) (now : Bytes) (s : Site) : Site :=
  let s := { s with files := attachMediaMetaToPost verify e s.files }
  let s := { s with files := attachContentFilesToPost verify e s.files }
  let s := { s with tags := setTags e s.tags }
  applySeriesAndLang e now s

/-- `db_revision_save`, where the text is a new one. -/
def keepRevision (e : Edit) (now : Bytes) (s : Site) : Site :=
  let old := s.columns e.post
  if old.title = e.title ∧ old.content = e.content then s
  else
    { s with
      revisions :=
        s.revisions.save e.post old.title old.content (old.summary.getD []) e.uid now }

/-- `handler_post_edit_post` from the loaded post on, for a request that has passed its
checks: the tables, and what `db_post_update` has returned if it was called. -/
def handlerPostEditPost (fault : Option Fault) (e : Edit) (now : Bytes) (s : Site) :
    Site × Option Bool :=
  match s.db.posts.find? e.post with
  | none => (s, none)
  | some loaded =>
    let old := s.columns e.post
    let r := dbPostUpdate fault s (keepRevision e now s) e.post (e.update old) now
    let s := if r.2 then refreshSlug e old loaded now r.1 else r.1
    (finish verify e now s, some r.2)

end

/-! ## The history of a post -/

section History

open Run

variable {rs : Revisions}

/-- The arguments of a call of `db_revision_save`, with the time. -/
structure Saved where
  postId : ℤ
  title : Bytes
  content : Bytes
  summary : Bytes
  editorId : ℤ
  now : Bytes

def Saved.save (p : Saved) (rs : Revisions) : Revisions :=
  rs.save p.postId p.title p.content p.summary p.editorId p.now

def Revision.saved (r : Revision) : Saved :=
  ⟨r.postId, r.title, r.content, r.summary, r.editorId, r.createdAt⟩

theorem no_revision : ∀ r ∈ ([] : List Revision), r.id ≤ 0 := List.forall_mem_nil _

def Revisions.empty : Revisions := ⟨[], 0, no_revision⟩

def Revisions.history (rs : Revisions) (id : ℤ) : List Revision :=
  rs.rows.filter fun r => r.postId = id

/-- Of rows in the order of their ids, those with fewer than `k` newer ones are the last `k`. -/
theorem filter_newest {l : List Revision} (hl : l.Pairwise fun a b => a.id < b.id) (k : ℕ) :
    (l.filter fun r => l.countP (fun q => r.id < q.id) < k) = l.drop (l.length - k) := by
  induction l with
  | nil => simp
  | cons a l ih =>
    obtain ⟨ha, hl⟩ := List.pairwise_cons.mp hl
    have hself : (a :: l).countP (fun q => a.id < q.id) = l.length := by
      rw [List.countP_cons_of_neg (by simp)]
      exact List.countP_eq_length.mpr fun q hq => by simpa using ha q hq
    have hrest : (l.filter fun r => (a :: l).countP (fun q => r.id < q.id) < k) =
        l.drop (l.length - k) := by
      rw [← ih hl]
      refine List.filter_congr fun r hr => ?_
      have hle : ¬ r.id < a.id := Nat.not_lt.mpr (ha r hr).le
      rw [List.countP_cons_of_neg (by simpa using hle)]
    by_cases hk : l.length < k
    · rw [List.filter_cons_of_pos (by simpa [hself] using hk), hrest, List.length_cons,
        Nat.sub_eq_zero_of_le hk.le, Nat.sub_eq_zero_of_le hk, List.drop_zero, List.drop_zero]
    · rw [List.filter_cons_of_neg (by simpa [hself] using hk), hrest, List.length_cons,
        Nat.sub_add_comm (Nat.not_lt.mp hk), List.drop_succ_cons]

def Revisions.Sorted (rs : Revisions) : Prop := rs.rows.Pairwise fun a b => a.id < b.id

def Saved.row (p : Saved) (n : ℕ) : Revision :=
  ⟨n, p.postId, p.title, p.content, p.summary, p.editorId, p.now⟩

def Saved.inserted (p : Saved) (rs : Revisions) : List Revision :=
  rs.rows ++ [p.row (rs.sequence + 1)]

theorem rows_save (p : Saved) (rs : Revisions) (hp : 0 < p.postId) :
    (p.save rs).rows = (p.inserted rs).filter fun r => r.postId ≠ p.postId ∨
      (p.inserted rs).countP (fun q => q.postId = p.postId ∧ r.id < q.id) < revisionKeep := by
  rw [Saved.save, Revisions.save, if_neg (Int.not_le.mpr hp)]
  rfl

theorem save_refused (p : Saved) (rs : Revisions) (hp : ¬ 0 < p.postId) : p.save rs = rs := by
  rw [Saved.save, Revisions.save, if_pos (Int.not_lt.mp hp)]

theorem Revisions.Sorted.inserted (h : rs.Sorted) (p : Saved) :
    (p.inserted rs).Pairwise fun a b => a.id < b.id := by
  rw [Saved.inserted, List.pairwise_append]
  refine ⟨h, List.pairwise_singleton _ _, fun a ha b hb => ?_⟩
  have hle := rs.le_sequence a ha
  rw [List.mem_singleton.mp hb]
  exact Nat.lt_succ_of_le hle

theorem Revisions.Sorted.save (h : rs.Sorted) (p : Saved) : (p.save rs).Sorted := by
  by_cases hp : 0 < p.postId
  · rw [Revisions.Sorted, rows_save p rs hp]
    exact (h.inserted p).filter _
  · rwa [save_refused p rs hp]

/-- The history of the post is pruned, that of any other post is left alone. -/
theorem history_save (h : rs.Sorted) (p : Saved) (hp : 0 < p.postId) (id : ℤ) :
    (p.save rs).history id =
      if p.postId = id then
        (rs.history id ++ [p.row (rs.sequence + 1)]).drop
          ((rs.history id).length + 1 - revisionKeep)
      else rs.history id := by
  have hinserted : (p.inserted rs).filter (fun r => r.postId = id) =
      rs.history id ++ if p.postId = id then [p.row (rs.sequence + 1)] else [] := by
    rw [Saved.inserted, List.filter_append, Revisions.history]
    by_cases heq : p.postId = id <;> simp [Saved.row, heq]
  rw [Revisions.history, rows_save p rs hp, List.filter_comm]
  split
  next heq =>
    subst heq
    have hkept := filter_newest ((h.inserted p).filter fun r => r.postId = p.postId) revisionKeep
    rw [if_pos rfl] at hinserted
    rw [hinserted, List.length_append, List.length_singleton, ← hinserted] at hkept
    rw [← hinserted, ← hkept]
    refine List.filter_congr fun r hr => ?_
    have hpost : r.postId = p.postId := of_decide_eq_true (List.mem_filter.mp hr).2
    have hcount := List.countP_filter (p := fun q : Revision => decide (r.id < q.id))
      (q := fun q => q.postId = p.postId) (l := p.inserted rs)
    have hsame : (fun q : Revision => decide (q.postId = p.postId ∧ r.id < q.id)) =
        fun q => decide (r.id < q.id) && decide (q.postId = p.postId) := by
      funext q
      rw [Bool.decide_and, Bool.and_comm]
    rw [hcount, ← hsame]
    simp [hpost]
  next hne =>
    rw [hinserted, if_neg hne, List.append_nil]
    refine List.filter_eq_self.mpr fun r hr => ?_
    have hpost : r.postId = id := of_decide_eq_true (List.mem_filter.mp hr).2
    simp [hpost, Ne.symm hne]

/-- The last `k` of a list and a new element are those of the list and that element. -/
theorem drop_concat_last {α : Type*} (l : List α) (a : α) {k : ℕ} (hk : 0 < k) :
    (l.drop (l.length - k) ++ [a]).drop ((l.drop (l.length - k)).length + 1 - k) =
      (l ++ [a]).drop ((l ++ [a]).length - k) := by
  rw [List.length_drop, List.length_append, List.length_singleton,
    ← List.drop_append_of_le_length (Nat.sub_le ..), List.drop_drop]
  congr 1
  omega

/-- After any saves the history of a post is the last 30 of its own. -/
theorem history_run (ps : List Saved) (id : ℤ) :
    let own := ps.filter fun p => p.postId = id ∧ 0 < p.postId
    ((run (fun rs p => p.save rs) Revisions.empty ps).history id).map Revision.saved =
      own.drop (own.length - revisionKeep) := by
  induction ps using List.reverseRecOn with
  | nil => rfl
  | append_singleton ps p ih =>
    have hstep : ∀ rs p, Revisions.Sorted rs → (Saved.save p rs).Sorted := fun _ p h => h.save p
    have hempty : Revisions.empty.Sorted := List.Pairwise.nil
    have hsorted := run_invariant (fun rs p => Saved.save p rs) hstep hempty ps
    dsimp only at ih ⊢
    rw [run_append, run_cons, run_nil, List.filter_append, List.filter_singleton]
    by_cases hp : 0 < p.postId
    · rw [history_save hsorted p hp]
      by_cases heq : p.postId = id
      · have hlength := congrArg List.length ih
        rw [List.length_map] at hlength
        have hrow : (p.row ((run (fun rs p => Saved.save p rs) Revisions.empty ps).sequence +
          1)).saved = p := rfl
        rw [if_pos heq, List.map_drop, List.map_append, List.map_singleton, ih, hlength, hrow,
          drop_concat_last _ _ (by decide)]
        rw [decide_eq_true ⟨heq, hp⟩, cond_true]
      · simpa [heq] using ih
    · rw [save_refused p _ hp]
      simpa [hp] using ih

end History

end FlyBoard.PostEdit

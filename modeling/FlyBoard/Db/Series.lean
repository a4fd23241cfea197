import FlyBoard.Lib.Keyed
import FlyBoard.Lib.Run
import FlyBoard.Sync.Apply
import Mathlib.Data.List.Lex

/-!
# Series (`src/db/series.c`) and what the journal says of them

A post belongs to at most one series and has a position in it. Moving a post renumbers the
other posts of the series it leaves and of the one it joins, and deleting a series detaches
its posts; the journal gets a snapshot of the post that was moved, or the delete of the
series. This module asks when the journal of a sequence of calls tells a replica all of it.
-/

namespace FlyBoard.SeriesDb

open Bytes Keyed Apply

/-- A row of `posts`; `other` are the columns that no call here touches. -/
structure Post where
  id : Int
  id_pos : 0 < id
  seriesId : Option Int
  seriesPos : Int
  createdAt : Bytes
  other : Payload

/-- A row of `series`. -/
structure Series where
  id : Int
  id_pos : 0 < id
  title : Bytes
  description : Bytes
  userId : Option Int
  createdAt : Bytes

abbrev Posts := Table Post.id

/-! ## Journal rows -/

/-- An integer column that may be NULL, as `db_sqlite3_row_to_json` renders it. -/
def nullable : Option Int → Value
  | some n => .number n
  | none => .other

def Post.snapshot (p : Post) : Payload :=
  [(bytes "id", .number p.id), (bytes "series_id", nullable p.seriesId),
   (bytes "series_pos", .number p.seriesPos), (bytes "created_at", .string p.createdAt)] ++ p.other

def Series.snapshot (s : Series) : Payload :=
  [(bytes "id", .number s.id), (bytes "title", .string s.title),
   (bytes "description", .string s.description), (bytes "user_id", nullable s.userId),
   (bytes "created_at", .string s.createdAt)]

/-- `db_sync_journal_row` of a post. -/
def postRow (p : Post) : FeedRow where
  entity := bytes "post"
  entityId := p.id
  op := bytes "upsert"
  payload := p.snapshot
  keyed := by
    intro e v he hv
    cases he
    exact ⟨p.id, (Option.some.inj hv).symm⟩

/-- `db_sync_journal_row` of a series. -/
def seriesRow (s : Series) : FeedRow where
  entity := bytes "series"
  entityId := s.id
  op := bytes "upsert"
  payload := s.snapshot
  keyed := by
    intro e v he hv
    cases he
    exact ⟨s.id, (Option.some.inj hv).symm⟩

def seriesDelete (id : Int) : FeedRow where
  entity := bytes "series"
  entityId := id
  op := bytes "delete"
  payload := []
  keyed := by
    intro e v _ hv
    cases hv

/-! ## Positions -/

/-- `ORDER BY series_pos, created_at, id`. -/
def before (a b : Post) : Bool :=
  a.seriesPos < b.seriesPos || (a.seriesPos == b.seriesPos &&
    (textKey a.createdAt < textKey b.createdAt || (a.createdAt == b.createdAt && a.id < b.id)))

/-- `WHERE series_id = ?1 AND id <> ?2`. -/
def isMember (seriesId except : Int) (q : Post) : Bool :=
  q.seriesId == some seriesId && q.id != except

/-- `ROW_NUMBER()` of a post among the members. -/
def rank (posts : Posts) (seriesId except : Int) (q : Post) : Int :=
  1 + posts.rows.countP fun r => isMember seriesId except r && before r q

def count (posts : Posts) (seriesId except : Int) : Int :=
  posts.rows.countP (isMember seriesId except)

def setPositions (posts : Posts) (seriesId except : Int) (newPos : Post → Int) : Posts :=
  posts.update
    (fun q => if isMember seriesId except q then { q with seriesPos := newPos q } else q)
    (by intro q; split <;> rfl)

/-- `renumber`: the members stand at 1, 2, … in their present order. -/
def renumber (posts : Posts) (seriesId except : Int) : Posts :=
  setPositions posts seriesId except (rank posts seriesId except)

def place (posts : Posts) (postId : Int) (seriesId : Option Int) (pos : Int) : Posts :=
  posts.update
    (fun q => if q.id = postId then { q with seriesId := seriesId, seriesPos := pos } else q)
    (by intro q; split <;> rfl)

/-- The place a post is asked to take among `n` others: the end when none is named, or its
old place when it stays in its series. -/
def askedPlace (pos oldSeries oldPos seriesId n : Int) : Int :=
  let pos := if pos ≤ 0 then (if oldSeries = seriesId ∧ 0 < oldPos then oldPos else n + 1) else pos
  if n + 1 < pos then n + 1 else pos

/-- `db_post_set_series` on the table, for the row `p` of the post. -/
def moved (posts : Posts) (p : Post) (seriesId pos : Int) : Posts :=
  let oldSeries := p.seriesId.getD 0
  if seriesId ≤ 0 then
    -- out of every series
    let posts := place posts p.id none 0
    if 0 < oldSeries then renumber posts oldSeries 0 else posts
  else
    -- position 0 until the others have made room
    let posts := place posts p.id (some seriesId) 0
    let posts := if 0 < oldSeries ∧ oldSeries ≠ seriesId then renumber posts oldSeries 0 else posts
    let posts := renumber posts seriesId p.id
    let pos := askedPlace pos oldSeries p.seriesPos seriesId (count posts seriesId p.id)
    let posts := setPositions posts seriesId p.id fun q =>
      if pos ≤ q.seriesPos then q.seriesPos + 1 else q.seriesPos
    place posts p.id (some seriesId) pos

/-! ## Calls on the primary -/

/-- The two tables of the primary, the AUTOINCREMENT counter of `series`, and the journal
rows the calls have written. -/
structure Primary where
  posts : Posts
  series : Table Series.id
  sequence : Nat
  le_sequence : ∀ s ∈ series.rows, s.id ≤ sequence
  journal : List FeedRow

inductive Call where
  | create (title : Bytes) (userId : Int) (now : Bytes)
  | setSeries (postId seriesId pos : Int)
  | setOrder (seriesId : Int) (postIds : List Int)
  | update (id : Int) (title description : Bytes)
  | delete (id : Int)

/-- `db_sync_journal_row(db, "posts", "post", id)`. -/
def journalPost (posts : Posts) (postId : Int) : List FeedRow :=
  ((posts.find? postId).map postRow).toList

/-- The row that `db_series_create` inserts. -/
def newSeries (s : Primary) (title : Bytes) (userId : Int) (now : Bytes) : Series where
  id := s.sequence + 1
  id_pos := by omega
  title := title
  description := []
  userId := if 0 < userId then some userId else none
  createdAt := now

/-- The positions after the UPDATE of each of these posts, numbered from `i`. -/
def ordered (posts : Posts) (seriesId : Int) : Int → List Int → Posts
  | _, [] => posts
  | i, id :: rest =>
    ordered (posts.update
      (fun q => if q.id = id ∧ q.seriesId = some seriesId then { q with seriesPos := i } else q)
      (by intro q; split <;> rfl)) seriesId (i + 1) rest

def step (s : Primary) : Call → Primary
  | .create title userId now =>
    -- `db_series_create`
    if title.isEmpty then s
    else
      { s with
        series := s.series.insertOrIgnore (newSeries s title userId now)
        sequence := s.sequence + 1
        le_sequence := by
          intro x hx
          rcases Table.mem_insertOrIgnore.mp hx with hold | ⟨rfl, -⟩
          · have hle := s.le_sequence x hold
            push_cast
            omega
          · exact le_refl _
        journal := s.journal ++ [seriesRow (newSeries s title userId now)] }
  | .setSeries postId seriesId pos =>
    -- `db_post_set_series`
    match s.posts.find? postId with
    | none => s
    | some p =>
      let posts := moved s.posts p seriesId pos
      { s with posts := posts, journal := s.journal ++ journalPost posts postId }
  | .setOrder seriesId postIds =>
    -- `db_series_set_order`
    let posts := ordered s.posts seriesId 1 postIds
    { s with posts := posts, journal := s.journal ++ postIds.flatMap (journalPost posts) }
  | .update id title description =>
    -- `db_series_update`
    match s.series.find? id with
    | none => s
    | some old =>
      { s with
        series := s.series.update (fun x => if x.id = id then
            { x with title := title, description := description } else x)
          (by intro x; split <;> rfl)
        le_sequence := by
          intro x hx
          rcases List.mem_map.mp hx with ⟨y, hy, rfl⟩
          have hle := s.le_sequence y hy
          split <;> exact hle
        journal := s.journal ++
          [seriesRow { old with title := title, description := description }] }
  | .delete id =>
    -- `db_series_delete`
    { s with
      posts := s.posts.update (fun q => if q.seriesId = some id then
          { q with seriesId := none, seriesPos := 0 } else q)
        (by intro q; split <;> rfl)
      series := s.series.remove id
      le_sequence := fun x hx => s.le_sequence x (List.mem_of_mem_filter hx)
      journal := s.journal ++ [seriesDelete id] }

/-! ## What a move does to the other posts -/

section Moved

variable {posts : Posts} {p q : Post} {seriesId pos : Int} {f : Post → Post} {sid : Option Int}

theorem rank_update (hf : ∀ a, (f a).id = a.id) {sid except except' : Int}
    (h : ∀ r ∈ posts.rows, (isMember sid except (f r) && before (f r) q) =
      (isMember sid except' r && before r q)) :
    rank (posts.update f hf) sid except q = rank posts sid except' q := by
  have hcount : posts.rows.countP
      ((fun r => isMember sid except r && before r q) ∘ f) =
      posts.rows.countP fun r => isMember sid except' r && before r q := by
    apply List.countP_congr
    intro r hr
    simp only [Function.comp_apply, h r hr]
  rw [rank, rank, Table.update, List.countP_map, hcount]

theorem count_update (hf : ∀ a, (f a).id = a.id) {sid except : Int}
    (h : ∀ r ∈ posts.rows, isMember sid except (f r) = isMember sid except r) :
    count (posts.update f hf) sid except = count posts sid except := by
  have hcount : posts.rows.countP (isMember sid except ∘ f) =
      posts.rows.countP (isMember sid except) := by
    apply List.countP_congr
    intro r hr
    simp only [Function.comp_apply, h r hr]
  rw [count, count, Table.update, List.countP_map, hcount]

theorem find?_setPositions (posts : Posts) (sid except : Int) (newPos : Post → Int) (id : Int) :
    (setPositions posts sid except newPos).find? id = (posts.find? id).map fun q =>
      if isMember sid except q then { q with seriesPos := newPos q } else q :=
  Table.find?_update _ _ _ _

theorem find?_place (posts : Posts) (postId : Int) (sid : Option Int) (pos id : Int) :
    (place posts postId sid pos).find? id = (posts.find? id).map fun q =>
      if q.id = postId then { q with seriesId := sid, seriesPos := pos } else q :=
  Table.find?_update _ _ _ _

/-- Where the move of `p` leaves another post: at its rank in the series that `p` leaves,
and in the series that `p` joins at its rank past or before the place of `p`. -/
def newPos (posts : Posts) (p : Post) (seriesId pos : Int) (q : Post) : Int :=
  let oldSeries := p.seriesId.getD 0
  let r := rank posts seriesId p.id q
  if 0 < oldSeries ∧ oldSeries ≠ seriesId ∧ q.seriesId = some oldSeries then
    rank posts oldSeries p.id q
  else if 0 < seriesId ∧ q.seriesId = some seriesId then
    if askedPlace pos oldSeries p.seriesPos seriesId (count posts seriesId p.id) ≤ r then r + 1
    else r
  else q.seriesPos

theorem find?_renumber (hq : posts.find? q.id = some q) (sid except : Int) :
    (renumber posts sid except).find? q.id = some
      (if isMember sid except q then { q with seriesPos := rank posts sid except q } else q) := by
  rw [renumber, find?_setPositions, hq, Option.map_some]

theorem find?_place_ne {postId : Int} (hq : posts.find? q.id = some q)
    (hne : q.id ≠ postId) : (place posts postId sid pos).find? q.id = some q := by
  rw [find?_place, hq, Option.map_some, if_neg hne]

/-- Once `p` has been taken out of its series, nobody else there has lost its rank. -/
theorem rank_place_left {oldSeries : Int} (hsid : sid ≠ some oldSeries) :
    rank (place posts p.id sid 0) oldSeries 0 q = rank posts oldSeries p.id q := by
  apply rank_update
  intro r _
  have hpos := r.id_pos
  -- no post has the id 0, so the second count leaves nobody out
  by_cases hr : r.id = p.id
  · simp [hr, isMember, hsid]
  · have hzero : r.id ≠ 0 := by omega
    simp only [if_neg hr, isMember, bne_iff_ne.mpr hr, bne_iff_ne.mpr hzero]

/-- In the series that `p` joins the others are ranked without it. -/
theorem rank_place_joined {place' : Int} :
    rank (place posts p.id sid place') seriesId p.id q = rank posts seriesId p.id q := by
  apply rank_update
  intro r _
  by_cases hr : r.id = p.id
  · simp [hr, isMember]
  · simp [hr]

theorem rank_renumber_other {other except : Int} (hne : other ≠ seriesId) :
    rank (renumber posts other except) seriesId p.id q = rank posts seriesId p.id q := by
  unfold renumber setPositions
  apply rank_update
  intro r _
  by_cases hr : isMember other except r
  · have hother : r.seriesId = some other := by
      simp only [isMember, Bool.and_eq_true, beq_iff_eq] at hr
      exact hr.1
    have hnot : (some other == some seriesId) = false := by simpa using hne
    rw [if_pos hr]
    simp only [isMember, hother, hnot, Bool.false_and]
  · rw [if_neg hr]

theorem count_place :
    count (place posts p.id sid 0) seriesId p.id = count posts seriesId p.id := by
  apply count_update
  intro r _
  by_cases hr : r.id = p.id
  · simp [hr, isMember]
  · simp [hr]

theorem count_renumber {other except : Int} :
    count (renumber posts other except) seriesId p.id = count posts seriesId p.id := by
  unfold renumber setPositions
  apply count_update
  intro r _
  by_cases hr : isMember other except r
  · rw [if_pos hr]
    rfl
  · rw [if_neg hr]

theorem isMember_iff {sid except : Int} :
    isMember sid except q = true ↔ q.seriesId = some sid ∧ q.id ≠ except := by
  simp [isMember]

/-- The series that `p` joins makes room for it. -/
theorem find?_joined (hq : posts.find? q.id = some q) (hne : q.id ≠ p.id) (asked : Int) :
    (place (setPositions (renumber posts seriesId p.id) seriesId p.id fun r =>
        if asked ≤ r.seriesPos then r.seriesPos + 1 else r.seriesPos)
      p.id (some seriesId) asked).find? q.id = some
      (if q.seriesId = some seriesId then
        { q with
          seriesPos :=
            if asked ≤ rank posts seriesId p.id q then rank posts seriesId p.id q + 1
            else rank posts seriesId p.id q }
      else q) := by
  rw [find?_place, find?_setPositions, find?_renumber hq, Option.map_some, Option.map_some]
  -- a member stays one whatever its position
  by_cases hmem : q.seriesId = some seriesId
  · have hmember : ∀ n, isMember seriesId p.id { q with seriesPos := n } = true :=
      fun _ => isMember_iff.mpr ⟨hmem, hne⟩
    rw [if_pos (hmember q.seriesPos), if_pos (hmember _), if_neg hne, if_pos hmem]
  · have hnot : ¬ isMember seriesId p.id q = true := fun h => hmem (isMember_iff.mp h).1
    rw [if_neg hnot, if_neg hnot, if_neg hne, if_neg hmem]

theorem joined_eq (hpos : 0 < seriesId) (n : Int) :
    (if q.seriesId = some seriesId then { q with seriesPos := n } else q) =
      { q with
        seriesPos := if 0 < seriesId ∧ q.seriesId = some seriesId then n else q.seriesPos } := by
  by_cases hjoin : q.seriesId = some seriesId
  · rw [if_pos hjoin, if_pos ⟨hpos, hjoin⟩]
  · rw [if_neg hjoin, if_neg (fun h => hjoin h.2)]

/-- The move takes another post to its new position and changes nothing else of it. -/
theorem find?_moved (hq : posts.find? q.id = some q) (hne : q.id ≠ p.id) :
    (moved posts p seriesId pos).find? q.id =
      some { q with seriesPos := newPos posts p seriesId pos q } := by
  have hzero : q.id ≠ 0 := by
    have hpos := q.id_pos
    omega
  unfold moved newPos
  by_cases hsid : seriesId ≤ 0
  · -- out of its series: only the series it leaves is renumbered
    simp only [if_pos hsid]
    have hout : (place posts p.id none 0).find? q.id = some q := find?_place_ne hq hne
    by_cases hold : 0 < p.seriesId.getD 0
    · have hdiff : p.seriesId.getD 0 ≠ seriesId := by omega
      rw [if_pos hold, find?_renumber hout, rank_place_left (by simp)]
      by_cases hmem : q.seriesId = some (p.seriesId.getD 0)
      · rw [if_pos (isMember_iff.mpr ⟨hmem, hzero⟩), if_pos ⟨hold, hdiff, hmem⟩]
      · rw [if_neg (fun h => hmem (isMember_iff.mp h).1), if_neg (fun h => hmem h.2.2),
          if_neg (fun h => absurd h.1 (by omega))]
    · rw [if_neg hold, hout, if_neg (fun h => hold h.1), if_neg (fun h => absurd h.1 (by omega))]
  · -- into a series: the one it leaves is renumbered, then the one it joins makes room
    simp only [if_neg hsid]
    have hpos : 0 < seriesId := by omega
    have hin : (place posts p.id (some seriesId) 0).find? q.id = some q := find?_place_ne hq hne
    by_cases hold : 0 < p.seriesId.getD 0 ∧ p.seriesId.getD 0 ≠ seriesId
    · have hother : some seriesId ≠ some (p.seriesId.getD 0) :=
        fun h => hold.2 (Option.some.inj h).symm
      have hleft := find?_renumber hin (p.seriesId.getD 0) 0
      rw [rank_place_left hother] at hleft
      rw [if_pos hold, count_renumber, count_renumber, count_place]
      by_cases hmem : q.seriesId = some (p.seriesId.getD 0)
      · -- it stays behind in the series that the post leaves
        rw [if_pos (isMember_iff.mpr ⟨hmem, hzero⟩)] at hleft
        have hnot : q.seriesId ≠ some seriesId := fun h => hother (h.symm.trans hmem)
        rw [find?_joined (q := { q with seriesPos := rank posts (p.seriesId.getD 0) p.id q })
          hleft hne, if_neg hnot, if_pos ⟨hold.1, hold.2, hmem⟩]
      · rw [if_neg (fun h => hmem (isMember_iff.mp h).1)] at hleft
        have hstay : ¬ (0 < p.seriesId.getD 0 ∧ p.seriesId.getD 0 ≠ seriesId ∧
            q.seriesId = some (p.seriesId.getD 0)) := fun h => hmem h.2.2
        rw [find?_joined hleft hne, rank_renumber_other hold.2, rank_place_joined, if_neg hstay,
          joined_eq hpos]
    · have hstay : ¬ (0 < p.seriesId.getD 0 ∧ p.seriesId.getD 0 ≠ seriesId ∧
          q.seriesId = some (p.seriesId.getD 0)) := fun h => hold ⟨h.1, h.2.1⟩
      rw [if_neg hold, count_renumber, count_place, find?_joined hin hne, rank_place_joined,
        if_neg hstay, joined_eq hpos]

end Moved

/-! ## What the replica has -/

/-- `series_id` and `series_pos` of a post of the replica. -/
def postView (t : Tables) (id : Int) : Option (Json × Json) :=
  (t (.row .post id)).map fun row => (row (bytes "series_id"), row (bytes "series_pos"))

/-- The columns of `series`. -/
def seriesColumns : List Bytes :=
  [bytes "id", bytes "title", bytes "description", bytes "user_id", bytes "created_at"]

def seriesView (t : Tables) (id : Int) : Option (List Json) :=
  (t (.row .series id)).map fun row => seriesColumns.map row

def Post.view (p : Post) : Json × Json := ((nullable p.seriesId).bind, .num p.seriesPos)

def Series.view (s : Series) : List Json :=
  [.num s.id, .str s.title, .str s.description, (nullable s.userId).bind, .str s.createdAt]

/-- The replica has the primary's series, and its posts stand in them as on the primary. -/
structure Agrees (posts : Posts) (series : Table Series.id) (t : Tables) : Prop where
  posts_eq : ∀ id, postView t id = (posts.find? id).map Post.view
  series_eq : ∀ id, seriesView t id = (series.find? id).map Series.view

/-- The replica has the columns the primary has, and stores the rows the primary stores. -/
structure SameSchema (rep : Replica) : Prop where
  seriesId_mem : bytes "series_id" ∈ rep.columns .post
  seriesPos_mem : bytes "series_pos" ∈ rep.columns .post
  series_mem : ∀ column ∈ seriesColumns, column ∈ rep.columns .series
  accepts_post : ∀ p : Post, rep.accepts .post p.snapshot = true
  accepts_series : ∀ s : Series, rep.accepts .series s.snapshot = true

section Views

variable {rep : Replica} {t : Tables} {id : Int}

theorem applyRow_postRow (h : SameSchema rep) (p : Post) :
    rep.applyRow t (postRow p) = Function.update t (.row .post p.id)
      (some (LastWriter.overwrite (rep.written .post p.snapshot)
        ((t (.row .post p.id)).getD (rep.default (.row .post p.id))))) := by
  show rep.applyUpsert t .post p.snapshot = _
  show (if rep.accepts .post p.snapshot then _ else t) = _
  rw [if_pos (h.accepts_post p)]

theorem applyRow_seriesRow (h : SameSchema rep) (s : Series) :
    rep.applyRow t (seriesRow s) = Function.update t (.row .series s.id)
      (some (LastWriter.overwrite (rep.written .series s.snapshot)
        ((t (.row .series s.id)).getD (rep.default (.row .series s.id))))) := by
  show rep.applyUpsert t .series s.snapshot = _
  show (if rep.accepts .series s.snapshot then _ else t) = _
  rw [if_pos (h.accepts_series s)]

variable {series : Table Series.id}

theorem find?_eq_none_of_nonpos (hid : ¬ 0 < id) :
    series.find? id = none := by
  rw [Option.eq_none_iff_forall_ne_some]
  intro s hs
  have hpos := s.id_pos
  have hkey := (Table.find?_eq_some.mp hs).2
  omega

theorem applyRow_seriesDelete (hid : 0 < id) :
    rep.applyRow t (seriesDelete id) = Function.update t (.row .series id) none := by
  show applyDelete t (.plain .series) id [] = _
  rw [applyDelete, if_neg (by omega)]

theorem overwrite_written {e : Sync.Entity} {payload : Payload} {column : Bytes} {row : Row}
    (h : column ∈ rep.columns e) :
    LastWriter.overwrite (rep.written e payload) row column =
      ((getObjectItem payload column).map (·.bind)).getD (row column) := by
  rw [LastWriter.overwrite, Replica.written, if_pos h]

theorem postView_postRow (h : SameSchema rep) (p : Post) (id : Int) :
    postView (rep.applyRow t (postRow p)) id = if id = p.id then some p.view else postView t id := by
  rw [applyRow_postRow h, postView]
  by_cases hid : id = p.id
  · subst hid
    rw [Function.update_self, if_pos rfl, Option.map_some, overwrite_written h.seriesId_mem,
      overwrite_written h.seriesPos_mem]
    rfl
  · have hkey : Key.row .post id ≠ Key.row .post p.id := fun heq => hid (Key.row.inj heq).2
    rw [Function.update_of_ne hkey, if_neg hid, postView]

theorem seriesView_seriesRow (h : SameSchema rep) (s : Series) (id : Int) :
    seriesView (rep.applyRow t (seriesRow s)) id =
      if id = s.id then some s.view else seriesView t id := by
  rw [applyRow_seriesRow h, seriesView]
  by_cases hid : id = s.id
  · subst hid
    rw [Function.update_self, if_pos rfl, Option.map_some,
      List.map_congr_left fun column hcolumn => overwrite_written (h.series_mem column hcolumn)]
    rfl
  · have hkey : Key.row .series id ≠ Key.row .series s.id := fun heq => hid (Key.row.inj heq).2
    rw [Function.update_of_ne hkey, if_neg hid, seriesView]

theorem seriesView_postRow (h : SameSchema rep) (p : Post) :
    seriesView (rep.applyRow t (postRow p)) = seriesView t := by
  funext id
  have hkey : Key.row .series id ≠ Key.row .post p.id := nofun
  rw [applyRow_postRow h, seriesView, Function.update_of_ne hkey, seriesView]

theorem postView_seriesRow (h : SameSchema rep) (s : Series) :
    postView (rep.applyRow t (seriesRow s)) = postView t := by
  funext id
  have hkey : Key.row .post id ≠ Key.row .series s.id := nofun
  rw [applyRow_seriesRow h, postView, Function.update_of_ne hkey, postView]

/-- A delete that names no id a series can have is passed over, and takes nothing away. -/
theorem seriesView_seriesDelete
    (hseries : ∀ id, seriesView t id = (series.find? id).map Series.view) (id id' : Int) :
    seriesView (rep.applyRow t (seriesDelete id)) id' =
      ((series.remove id).find? id').map Series.view := by
  rw [Table.find?_remove]
  by_cases hid : 0 < id
  · rw [applyRow_seriesDelete hid, seriesView]
    by_cases heq : id' = id
    · subst heq
      rw [Function.update_self, if_pos rfl]
      rfl
    · have hkey : Key.row .series id' ≠ Key.row .series id := fun h => heq (Key.row.inj h).2
      rw [Function.update_of_ne hkey, if_neg heq, ← hseries, seriesView]
  · -- the replica wants a positive id, and so has every series
    have hskip : rep.applyRow t (seriesDelete id) = t := by
      show applyDelete t (.plain .series) id [] = t
      rw [applyDelete, if_pos (by omega)]
    rw [hskip, hseries]
    split
    · rename_i heq
      subst heq
      rw [find?_eq_none_of_nonpos hid]
    · rfl

theorem postView_seriesDelete (id : Int) :
    postView (rep.applyRow t (seriesDelete id)) = postView t := by
  funext id'
  have hkey : Key.row .post id' ≠ Key.row .series id := nofun
  show postView (applyDelete t (.plain .series) id []) id' = postView t id'
  rw [applyDelete]
  split
  · rfl
  · rw [postView, Function.update_of_ne hkey, postView]

theorem postView_journalPost (h : SameSchema rep) {posts : Posts}
    (hnone : ∀ id, posts.find? id = none → postView t id = none) (postId id : Int) :
    postView (rep.applyAll t (journalPost posts postId)) id =
      if id = postId then (posts.find? id).map Post.view else postView t id := by
  rw [journalPost]
  cases hp : posts.find? postId with
  | none =>
    -- nothing is journaled for a post that is not there
    show postView t id = _
    split
    · rename_i hid
      subst hid
      rw [hp, hnone _ hp]
      rfl
    · rfl
  | some p =>
    have hkey : p.id = postId := (Table.find?_eq_some.mp hp).2
    show postView (rep.applyRow t (postRow p)) id = _
    rw [postView_postRow h, hkey]
    split
    · rename_i hid
      rw [hid, hp]
      rfl
    · rfl

theorem postView_flatMap_journalPost (h : SameSchema rep) {posts : Posts}
    (hnone : ∀ id, posts.find? id = none → postView t id = none) (postIds : List Int) (id : Int) :
    postView (rep.applyAll t (postIds.flatMap (journalPost posts))) id =
      if id ∈ postIds then (posts.find? id).map Post.view else postView t id := by
  induction postIds generalizing t with
  | nil => rfl
  | cons a rest ih =>
    have hfirst := postView_journalPost h hnone a
    have hnone' : ∀ id, posts.find? id = none →
        postView (rep.applyAll t (journalPost posts a)) id = none := by
      intro id' hid'
      rw [hfirst, hid', hnone id' hid']
      split <;> rfl
    rw [List.flatMap_cons, Replica.applyAll_append, ih hnone', hfirst]
    -- a post that is named twice is journaled twice, in its final state
    by_cases hrest : id ∈ rest
    · rw [if_pos hrest, if_pos (List.mem_cons_of_mem a hrest)]
    · by_cases ha : id = a
      · rw [if_neg hrest, if_pos ha, if_pos (ha ▸ List.mem_cons_self)]
      · have hnot : id ∉ a :: rest := by
          rw [List.mem_cons]
          exact fun hor => hor.elim ha hrest
        rw [if_neg hrest, if_neg ha, if_neg hnot]

theorem seriesView_flatMap_journalPost (h : SameSchema rep) (posts : Posts) (postIds : List Int) :
    seriesView (rep.applyAll t (postIds.flatMap (journalPost posts))) = seriesView t := by
  induction postIds generalizing t with
  | nil => rfl
  | cons a rest ih =>
    rw [List.flatMap_cons, Replica.applyAll_append, ih, journalPost]
    cases posts.find? a with
    | none => rfl
    | some p => exact seriesView_postRow h p

end Views

/-! ## When the journal tells it all -/

/-- The move of `p` shifts nobody else: in the series it leaves the others stand at their
rank already, and in the series it joins they have left its place free. -/
def Undisturbed (posts : Posts) (p : Post) (seriesId pos : Int) : Prop :=
  let oldSeries := p.seriesId.getD 0
  (0 < oldSeries → oldSeries ≠ seriesId → ∀ q ∈ posts.rows, isMember oldSeries p.id q →
    q.seriesPos = rank posts oldSeries p.id q) ∧
  (0 < seriesId → ∀ q ∈ posts.rows, isMember seriesId p.id q →
    let asked := askedPlace pos oldSeries p.seriesPos seriesId (count posts seriesId p.id)
    let r := rank posts seriesId p.id q
    q.seriesPos = if asked ≤ r then r + 1 else r)

def Covered (s : Primary) : Call → Prop
  | .setSeries postId seriesId pos =>
    ∀ p ∈ s.posts.find? postId, Undisturbed s.posts p seriesId pos
  | .delete id => ∀ q ∈ s.posts.rows, q.seriesId ≠ some id
  | .create .. | .setOrder .. | .update .. => True

section Steps

variable {posts : Posts} {p : Post} {seriesId pos : Int} {id : Int} {postIds : List Int}

theorem undisturbed_iff : Undisturbed posts p seriesId pos ↔
    ∀ q ∈ posts.rows, q.id ≠ p.id → newPos posts p seriesId pos q = q.seriesPos := by
  constructor
  · -- by the three branches of `newPos`
    rintro ⟨hleft, hjoined⟩ q hq hne
    unfold newPos
    by_cases hold : 0 < p.seriesId.getD 0 ∧ p.seriesId.getD 0 ≠ seriesId ∧
        q.seriesId = some (p.seriesId.getD 0)
    · rw [if_pos hold]
      exact (hleft hold.1 hold.2.1 q hq (isMember_iff.mpr ⟨hold.2.2, hne⟩)).symm
    · rw [if_neg hold]
      by_cases hjoin : 0 < seriesId ∧ q.seriesId = some seriesId
      · rw [if_pos hjoin]
        exact (hjoined hjoin.1 q hq (isMember_iff.mpr ⟨hjoin.2, hne⟩)).symm
      · rw [if_neg hjoin]
  · intro h
    constructor
    · intro hold hdiff q hq hmem
      rcases isMember_iff.mp hmem with ⟨hseries, hne⟩
      rw [← h q hq hne, newPos, if_pos ⟨hold, hdiff, hseries⟩]
    · intro hjoin q hq hmem
      rcases isMember_iff.mp hmem with ⟨hseries, hne⟩
      have hstay : ¬ (0 < p.seriesId.getD 0 ∧ p.seriesId.getD 0 ≠ seriesId ∧
          q.seriesId = some (p.seriesId.getD 0)) :=
        fun hold => hold.2.1 (Option.some.inj (hold.2.2.symm.trans hseries))
      dsimp only
      rw [← h q hq hne, newPos, if_neg hstay, if_pos ⟨hjoin, hseries⟩]

theorem find?_moved_eq_none :
    (moved posts p seriesId pos).find? id = none ↔ posts.find? id = none := by
  unfold moved renumber
  dsimp only
  split
  · split
    · rw [find?_setPositions, find?_place, Option.map_eq_none_iff, Option.map_eq_none_iff]
    · rw [find?_place, Option.map_eq_none_iff]
  · rw [find?_place, find?_setPositions, find?_setPositions, Option.map_eq_none_iff,
      Option.map_eq_none_iff, Option.map_eq_none_iff]
    split
    · rw [find?_setPositions, find?_place, Option.map_eq_none_iff, Option.map_eq_none_iff]
    · rw [find?_place, Option.map_eq_none_iff]

theorem find?_ordered_eq_none {id i : Int} :
    (ordered posts seriesId i postIds).find? id = none ↔ posts.find? id = none := by
  induction postIds generalizing posts i with
  | nil => rfl
  | cons a rest ih => rw [ordered, ih, Table.find?_update, Option.map_eq_none_iff]

theorem find?_ordered_of_notMem (h : id ∉ postIds) (i : Int) :
    (ordered posts seriesId i postIds).find? id = posts.find? id := by
  induction postIds generalizing posts i with
  | nil => rfl
  | cons a rest ih =>
    rw [List.mem_cons, not_or] at h
    rw [ordered, ih h.2, Table.find?_update]
    cases hp : posts.find? id with
    | none => rfl
    | some p =>
      have hkey : p.id = id := (Table.find?_eq_some.mp hp).2
      have hne : ¬ (p.id = a ∧ p.seriesId = some seriesId) := fun hand => h.1 (hkey ▸ hand.1)
      rw [Option.map_some, if_neg hne]

variable {rep : Replica} {t : Tables} {s : Primary}

def Replicated (rep : Replica) (t : Tables) (s : Primary) : Prop :=
  Agrees s.posts s.series (rep.applyAll t s.journal)

theorem Agrees.postView_eq_none {posts : Posts} {series : Table Series.id}
    (ha : Agrees posts series t) (hid : posts.find? id = none) :
    postView t id = none := by
  rw [ha.posts_eq, hid]
  rfl

theorem newSeries_free (s : Primary) (title : Bytes) (userId : Int) (now : Bytes) :
    (newSeries s title userId now).id ∉ s.series.rows.map Series.id := by
  intro hmem
  rcases List.mem_map.mp hmem with ⟨x, hx, hxid⟩
  have hle := s.le_sequence x hx
  have hnew : (newSeries s title userId now).id = s.sequence + 1 := rfl
  omega

theorem replicated_create (h : SameSchema rep) (hr : Replicated rep t s) (title : Bytes)
    (userId : Int) (now : Bytes) : Replicated rep t (step s (.create title userId now)) := by
  rw [step]
  split
  · exact hr
  · rw [Replicated, Replica.applyAll_append]
    show Agrees s.posts _ (rep.applyRow _ (seriesRow _))
    constructor
    · rw [postView_seriesRow h]
      exact hr.posts_eq
    · intro id
      rw [seriesView_seriesRow h, Table.find?_insertOrIgnore_of_free (newSeries_free s title userId now)]
      split
      · rfl
      · exact hr.series_eq id

theorem replicated_setOrder (h : SameSchema rep) (hr : Replicated rep t s) (seriesId : Int)
    (postIds : List Int) : Replicated rep t (step s (.setOrder seriesId postIds)) := by
  rw [step, Replicated, Replica.applyAll_append]
  have hnone : ∀ id, (ordered s.posts seriesId 1 postIds).find? id = none →
      postView (rep.applyAll t s.journal) id = none := by
    intro id hid
    exact hr.postView_eq_none (find?_ordered_eq_none.mp hid)
  constructor
  · intro id
    rw [postView_flatMap_journalPost h hnone]
    by_cases hid : id ∈ postIds
    · rw [if_pos hid]
    · rw [if_neg hid, find?_ordered_of_notMem hid]
      exact hr.posts_eq id
  · rw [seriesView_flatMap_journalPost h]
    exact hr.series_eq

theorem replicated_update (h : SameSchema rep) (hr : Replicated rep t s) (id : Int)
    (title description : Bytes) : Replicated rep t (step s (.update id title description)) := by
  rw [step]
  cases hold : s.series.find? id with
  | none => exact hr
  | some old =>
    have hkey : old.id = id := (Table.find?_eq_some.mp hold).2
    rw [Replicated, Replica.applyAll_append]
    show Agrees s.posts _ (rep.applyRow _ (seriesRow _))
    constructor
    · rw [postView_seriesRow h]
      exact hr.posts_eq
    · intro id'
      rw [seriesView_seriesRow h, Table.find?_update, hr.series_eq]
      show (if id' = old.id then _ else _) = _
      -- the row of the new title, and the others
      by_cases hid : id' = old.id
      · have hfound : s.series.find? id' = some old := by rw [hid, hkey, hold]
        rw [if_pos hid, hfound, Option.map_some, Option.map_some, if_pos hkey]
      · rw [if_neg hid]
        cases hx : s.series.find? id' with
        | none => rfl
        | some x =>
          have hxid : x.id ≠ id := fun heq => hid
            (((Table.find?_eq_some.mp hx).2.symm.trans heq).trans hkey.symm)
          rw [Option.map_some, Option.map_some, Option.map_some, if_neg hxid]

/-- A move is told in full just when it shifts nobody else. -/
theorem replicated_setSeries (h : SameSchema rep) (hr : Replicated rep t s)
    (postId seriesId pos : Int) :
    Replicated rep t (step s (.setSeries postId seriesId pos)) ↔
      Covered s (.setSeries postId seriesId pos) := by
  rw [step, Covered]
  cases hp : s.posts.find? postId with
  | none => exact ⟨fun _ _ hmem => absurd hmem (Option.not_mem_none _), fun _ => hr⟩
  | some p =>
    have hkey : p.id = postId := (Table.find?_eq_some.mp hp).2
    have hview : ∀ id, postView (rep.applyAll (rep.applyAll t s.journal)
        (journalPost (moved s.posts p seriesId pos) postId)) id =
        if id = postId then ((moved s.posts p seriesId pos).find? id).map Post.view
        else (s.posts.find? id).map Post.view := by
      intro id
      rw [postView_journalPost h, hr.posts_eq]
      intro id' hid'
      exact hr.postView_eq_none (find?_moved_eq_none.mp hid')
    have hseries : seriesView (rep.applyAll (rep.applyAll t s.journal)
        (journalPost (moved s.posts p seriesId pos) postId)) =
        seriesView (rep.applyAll t s.journal) := by
      have hflat := seriesView_flatMap_journalPost (t := rep.applyAll t s.journal) h
        (moved s.posts p seriesId pos) [postId]
      rwa [List.flatMap_singleton] at hflat
    rw [Replicated, Replica.applyAll_append]
    constructor
    · rintro ⟨hposts, -⟩ p' hp'
      rw [← Option.some.inj hp', undisturbed_iff]
      intro q hq hne
      -- the replica has the old position of `q`
      have hq' : s.posts.find? q.id = some q := Table.find?_eq_some.mpr ⟨hq, rfl⟩
      have hboth := (hview q.id).symm.trans (hposts q.id)
      rw [if_neg (hkey ▸ hne), find?_moved hq' hne, hq'] at hboth
      have hpos := congrArg Prod.snd (Option.some.inj hboth)
      exact (Json.num.inj hpos).symm
    · intro hcovered
      have hstay := undisturbed_iff.mp (hcovered p rfl)
      constructor
      · intro id
        rw [hview id]
        split
        · rfl
        · rename_i hid
          cases hq : s.posts.find? id with
          | none => rw [find?_moved_eq_none.mpr hq]
          | some q =>
            rcases Table.find?_eq_some.mp hq with ⟨hmem, rfl⟩
            have hne : q.id ≠ p.id := hkey ▸ hid
            rw [find?_moved hq hne, hstay q hmem hne]
      · rw [hseries]
        exact hr.series_eq

theorem replicated_delete (hr : Replicated rep t s) (id : Int) :
    Replicated rep t (step s (.delete id)) ↔ Covered s (.delete id) := by
  rw [step, Covered, Replicated, Replica.applyAll_append]
  show Agrees _ _ (rep.applyRow _ (seriesDelete id)) ↔ _
  constructor
  · -- a member has no series on the primary and still has this one on the replica
    rintro ⟨hposts, -⟩ q hq hmem
    have hq' : s.posts.find? q.id = some q := Table.find?_eq_some.mpr ⟨hq, rfl⟩
    have hboth := hposts q.id
    rw [postView_seriesDelete, hr.posts_eq, Table.find?_update, hq', Option.map_some,
      Option.map_some, Option.map_some, if_pos hmem] at hboth
    have hseries := congrArg Prod.fst (Option.some.inj hboth)
    rw [Post.view, hmem] at hseries
    exact nomatch hseries
  · intro hcovered
    constructor
    · intro id'
      rw [postView_seriesDelete, hr.posts_eq, Table.find?_update]
      cases hq : s.posts.find? id' with
      | none => rfl
      | some q =>
        rw [Option.map_some, Option.map_some, Option.map_some,
          if_neg (hcovered q (Table.find?_eq_some.mp hq).1)]
    · exact seriesView_seriesDelete hr.series_eq id

theorem replicated_step_iff (h : SameSchema rep) (hr : Replicated rep t s) (c : Call) :
    Replicated rep t (step s c) ↔ Covered s c := by
  cases c with
  | create title userId now =>
    exact ⟨fun _ => trivial, fun _ => replicated_create h hr title userId now⟩
  | setSeries postId seriesId pos => exact replicated_setSeries h hr postId seriesId pos
  | setOrder seriesId postIds =>
    exact ⟨fun _ => trivial, fun _ => replicated_setOrder h hr seriesId postIds⟩
  | update id title description =>
    exact ⟨fun _ => trivial, fun _ => replicated_update h hr id title description⟩
  | delete id => exact replicated_delete hr id

end Steps

theorem idTwo_pos : (0 : Int) < 2 := by decide

def part (id pos : Int) (id_pos : 0 < id) : Post :=
  ⟨id, id_pos, some 1, pos, bytes "2024-01-01 00:00:00", []⟩

def twoParts : Primary where
  posts := ⟨[part 1 1 Int.one_pos, part 2 2 idTwo_pos], by decide⟩
  series := ⟨[⟨1, Int.one_pos, bytes "Travel", [], none, bytes "2024-01-01 00:00:00"⟩], by decide⟩
  sequence := 1
  le_sequence := by
    intro s hs
    rw [List.mem_singleton] at hs
    subst hs
    exact le_refl _
  journal := []

def mirror : Replica where
  adminUsername := bytes "admin"
  siteAdminUid := 0
  columns := fun e => if e = .post then [bytes "id", bytes "series_id", bytes "series_pos"]
    else seriesColumns
  default := fun _ _ => .null
  accepts := fun _ _ => true

theorem sameSchema_mirror : SameSchema mirror where
  seriesId_mem := by decide
  seriesPos_mem := by decide
  series_mem := fun _ h => h
  accepts_post := fun _ => rfl
  accepts_series := fun _ => rfl

def snapshotRow (payload : Payload) : Row := fun column =>
  ((getObjectItem payload column).map (·.bind)).getD .null

def copyOf (posts : Posts) (series : Table Series.id) : Tables
  | .row .post id => (posts.find? id).map fun p => snapshotRow p.snapshot
  | .row .series id => (series.find? id).map fun s => snapshotRow s.snapshot
  | _ => none

theorem agrees_copyOf (posts : Posts) (series : Table Series.id) :
    Agrees posts series (copyOf posts series) where
  posts_eq := fun _ => Option.map_map ..
  series_eq := fun _ => Option.map_map ..

end FlyBoard.SeriesDb

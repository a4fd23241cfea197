import FlyBoard.Lib.Bytes
import FlyBoard.Lib.Keyed
import FlyBoard.Lib.ParentForest
import FlyBoard.Lib.Run

/-!
# The tree of boards (`src/handlers/board.c`, `src/db/board.c`, `src/db/board_tree.c`)

Boards live in the main database, their parents in a table of their own that no foreign
key ties to them. A creation is queued with the parent the form asked for and looks at no
board when it runs; an edit refuses the board itself as its parent and nothing else; a
deletion makes the children topmost. `forest_step` says which step keeps the parents a
forest, `good_of_forest` that in a forest `board_depth` ends and `append_boards_flat` lists
every board once.
-/

namespace FlyBoard.BoardTree

open Run ParentForest Bytes

/-! ## Tables -/

/-- The columns of `boards` that the handlers read and write. -/
structure BoardRow where
  id : ℤ
  name : Bytes
  slug : Bytes
  description : Bytes
  adminOnly : Bool
deriving DecidableEq

/-- A row of `board_tree`. -/
structure TreeRow where
  boardId : ℤ
  parentBoardId : ℤ
deriving DecidableEq

/-- `board_create_job`. -/
structure Job where
  name : Bytes
  slug : Bytes
  desc : Bytes
  adminOnly : Bool
  parentId : ℤ
deriving DecidableEq

/-- The two tables and the queued creations. `sequence` is the largest id that
AUTOINCREMENT has given. -/
structure State where
  boards : Keyed.Table BoardRow.id
  sequence : ℕ
  fresh : ∀ r ∈ boards.rows, 0 < r.id ∧ r.id ≤ sequence
  small : sequence < 2 ^ 31
  tree : Keyed.Table TreeRow.boardId
  jobs : List Job

namespace State

/-- `db_board_get_by_id`. -/
def getById (s : State) (id : ℤ) : Option BoardRow := s.boards.find? id

/-- `db_board_get_by_slug`. -/
def getBySlug (s : State) (slug : Bytes) : Option BoardRow :=
  s.boards.rows.find? fun r => r.slug = slug

/-- Another row than `id` has the name or the slug, which are both UNIQUE. -/
def Taken (s : State) (id : ℤ) (name slug : Bytes) : Prop :=
  ∃ r ∈ s.boards.rows, r.id ≠ id ∧ (r.name = name ∨ r.slug = slug)

instance (s : State) (id : ℤ) (name slug : Bytes) : Decidable (s.Taken id name slug) :=
  inferInstanceAs (Decidable (∃ r ∈ s.boards.rows, _))

/-- The row that `db_board_create` inserts. -/
def newRow (s : State) (j : Job) : BoardRow :=
  ⟨s.sequence + 1, j.name, j.slug, j.desc, j.adminOnly⟩

def insertBoard (s : State) (j : Job) (hsmall : s.sequence + 1 < 2 ^ 31) : State where
  boards := s.boards.insertOrIgnore (s.newRow j)
  sequence := s.sequence + 1
  fresh := by
    intro r hr
    rcases Keyed.Table.mem_insertOrIgnore.mp hr with hold | ⟨rfl, -⟩
    · have hid := s.fresh r hold
      push_cast
      omega
    · simp only [newRow]
      omega
  small := hsmall
  tree := s.tree
  jobs := s.jobs

def Creatable (s : State) (j : Job) : Prop :=
  ¬ s.Taken (s.sequence + 1) j.name j.slug ∧ s.sequence + 1 < 2 ^ 31

instance (s : State) (j : Job) : Decidable (s.Creatable j) :=
  inferInstanceAs (Decidable (_ ∧ _))

/-- `db_board_create`. -/
def dbBoardCreate (s : State) (j : Job) : Option State :=
  if h : s.Creatable j then some (s.insertBoard j h.2) else none

def updateBoard (s : State) (id : ℤ) (name slug desc : Bytes) (adminOnly : Bool) : State where
  boards := s.boards.update
    (fun r => if r.id = id then ⟨r.id, name, slug, desc, adminOnly⟩ else r) (by
      intro r
      split <;> rfl)
  sequence := s.sequence
  fresh := by
    intro r hr
    rcases List.mem_map.mp hr with ⟨r', hr', rfl⟩
    have hid := s.fresh r' hr'
    split
    · exact hid
    · exact hid
  small := s.small
  tree := s.tree
  jobs := s.jobs

/-- `db_board_update`. -/
def dbBoardUpdate (s : State) (id : ℤ) (name slug desc : Bytes) (adminOnly : Bool) :
    Option State :=
  if s.Taken id name slug then none else some (s.updateBoard id name slug desc adminOnly)

/-- `db_board_delete`. -/
def dbBoardDelete (s : State) (id : ℤ) : State where
  boards := s.boards.remove id
  sequence := s.sequence
  fresh r hr := s.fresh r (List.mem_of_mem_filter hr)
  small := s.small
  tree := s.tree
  jobs := s.jobs

/-- `db_board_tree_set_parent`. -/
def setParent (s : State) (boardId parentBoardId : ℤ) : State :=
  if boardId ≤ 0 then s else { s with tree := s.tree.upsert ⟨boardId, parentBoardId⟩ }

/-- `db_board_tree_remove`. -/
def removeNode (s : State) (boardId : ℤ) : State :=
  if boardId ≤ 0 then s else { s with tree := s.tree.remove boardId }

/-- `db_board_tree_promote_children`. -/
def promoteChildren (s : State) (parentBoardId : ℤ) : State :=
  if parentBoardId ≤ 0 then s
  else
    { s with
      tree := s.tree.update
        (fun r => if r.parentBoardId = parentBoardId then { r with parentBoardId := 0 } else r)
        (by
          intro r
          split <;> rfl) }

end State

/-! ## The handlers -/

/-- What `auth_require_login` finds: the user and his role. -/
structure Login where
  uid : ℤ
  role : Bytes

/-- The fields of the two forms; an absent field is `none`. -/
structure BoardForm where
  id : Option Bytes
  name : Option Bytes
  slug : Option Bytes
  description : Option Bytes
  adminOnly : Option Bytes
  parentId : Option Bytes

def slugByte (c : UInt8) : Bool :=
  (97 ≤ c && c ≤ 122) || (48 ≤ c && c ≤ 57) || c == 45 || c == 95

/-- The checks of name and slug that both forms make, with their message. -/
def fieldError (name slug : Bytes) : Option Bytes :=
  if name.length = 0 ∨ slug.length = 0 then some (bytes "Name and slug cannot be empty.")
  else if 80 < name.length then some (bytes "Name is too long (max 80 characters).")
  else if 80 < slug.length then some (bytes "Slug is too long (max 80 characters).")
  else if slug.all slugByte then none
  else some (bytes
    "Slug may only contain lowercase letters, numbers, hyphens and underscores.")

def slugConflict : Bytes := bytes "A board with this slug already exists."

/-- `handler_board_new_post` up to the job: the error page, or what is to be created. -/
def newPlan (s : State) (who : Login) (form : BoardForm) : Except Bytes Job :=
  match form.name, form.slug with
  | some name, some slug =>
    match fieldError name slug with
    | some e => .error e
    | none =>
      if (s.getBySlug slug).isSome then .error slugConflict
      else .ok
        { name
          slug
          desc := form.description.getD []
          adminOnly := who.role = bytes "admin" ∧ form.adminOnly.isSome
          parentId := (form.parentId.map atoi).getD 0 }
  | _, _ => .error (bytes "Name and slug are required.")

/-- `board_create_bg_thread`, and the same statements inline where no thread starts. -/
def createBoard (s : State) (j : Job) : State :=
  match s.dbBoardCreate j with
  | none => s
  | some s' =>
    match s'.getBySlug j.slug with
    | none => s'
    | some created =>
      if 0 < created.id then s'.setParent created.id (if 0 < j.parentId then j.parentId else 0)
      else s'

/-- `handler_board_new_post`; `queued` says whether the thread could be started. -/
def handlerBoardNewPost (s : State) (who : Option Login) (form : BoardForm) (queued : Bool) :
    State :=
  match who with
  | none => s
  | some who =>
    match newPlan s who form with
    | .error _ => s
    | .ok j => if queued then { s with jobs := s.jobs ++ [j] } else createBoard s j

/-- The background thread of the `i`-th queued creation runs. -/
def runJob (s : State) (i : ℕ) : State :=
  match s.jobs[i]? with
  | none => s
  | some j => createBoard { s with jobs := s.jobs.eraseIdx i } j

structure Edit where
  bid : ℤ
  name : Bytes
  slug : Bytes
  desc : Bytes
  adminOnly : Bool
  parentId : ℤ

/-- `handler_board_edit_post` up to its UPDATE: the error page, or what is to be set. -/
def editPlan (s : State) (who : Login) (form : BoardForm) : Except Bytes Edit :=
  match form.id, form.name, form.slug with
  | some id, some name, some slug =>
    match fieldError name slug, s.getById (atoi id) with
    | some e, _ => .error e
    | none, none => .error (bytes "Board not found.")
    | none, some board =>
      if (s.getBySlug slug).any fun existing => existing.id ≠ atoi id then .error slugConflict
      else
        let parentId := (form.parentId.map atoi).getD 0
        .ok
          { bid := atoi id
            name
            slug
            desc := form.description.getD []
            adminOnly :=
              if who.role = bytes "admin" then form.adminOnly.isSome else board.adminOnly
            parentId := if 0 < parentId ∧ parentId = atoi id then 0 else parentId }
  | _, _, _ => .error (bytes "All fields are required.")

/-- `handler_board_edit_post`. -/
def handlerBoardEditPost (s : State) (who : Option Login) (form : BoardForm) : State :=
  match who with
  | none => s
  | some who =>
    match editPlan s who form with
    | .error _ => s
    | .ok e =>
      match s.dbBoardUpdate e.bid e.name e.slug e.desc e.adminOnly with
      | none => s
      | some s' => s'.setParent e.bid e.parentId

/-- `handler_board_delete`; a GET only asks for confirmation. -/
def handlerBoardDelete (s : State) (who : Option Login) (post : Bool) (id : Option Bytes) :
    State :=
  match who, id with
  | some who, some id =>
    if who.role = bytes "admin" ∧ post then
      ((s.promoteChildren (atoi id)).dbBoardDelete (atoi id)).removeNode (atoi id)
    else s
  | _, _ => s

/-- A request, or the moment a queued creation runs. -/
inductive Action
  | newPost (who : Option Login) (form : BoardForm) (queued : Bool)
  | runJob (i : ℕ)
  | editPost (who : Option Login) (form : BoardForm)
  | delete (who : Option Login) (post : Bool) (id : Option Bytes)

def step (s : State) : Action → State
  | .newPost who form queued => handlerBoardNewPost s who form queued
  | .runJob i => runJob s i
  | .editPost who form => handlerBoardEditPost s who form
  | .delete who post id => handlerBoardDelete s who post id

/-! ## The readers -/

/-- The `parent_board_id` that both readers find for a board: 0 without a row. -/
def treeParent (tree : List TreeRow) (bid : ℤ) : ℤ :=
  match tree.find? fun node => node.boardId = bid with
  | none => 0
  | some node => node.parentBoardId

/-- `board_depth` from `current` on, for at most so many rounds. -/
def boardDepth (tree : List TreeRow) : ℕ → ℤ → ℕ → Option ℕ
  | 0, _, _ => none
  | rounds + 1, current, depth =>
    if 0 < current then
      let parent := treeParent tree current
      if parent ≤ 0 then some depth
      else if parent = current then some (depth + 1)
      else boardDepth tree rounds parent (depth + 1)
    else some depth

/-- `append_boards_flat`: the entries it appends, each a board with its depth. `rounds`
bounds the loop of `board_depth`, `fuel` the recursion. -/
def appendBoardsFlat (boards : List BoardRow) (tree : List TreeRow) (maxDepth : ℤ)
    (rounds : ℕ) : ℕ → ℤ → Option (List (BoardRow × ℕ))
  | 0, _ => none
  | fuel + 1, parentId =>
    boards.foldlM (fun out bo =>
      if treeParent tree bo.id = parentId then do
        let depth ← boardDepth tree rounds bo.id 0
        if (depth : ℤ) ≤ maxDepth then
          let below ← appendBoardsFlat boards tree maxDepth rounds fuel bo.id
          pure (out ++ (bo, depth) :: below)
        else pure out
      else pure out) []

/-! ## The forest -/

def State.ids (s : State) : Set ℤ := {b | ∃ r ∈ s.boards.rows, r.id = b}

def State.parent (s : State) : ℤ → ℤ := treeParent s.tree.rows

/-- From every board the parents lead to 0 through boards that exist. -/
def State.Forest (s : State) : Prop := ParentForest.Forest s.parent 0 s.ids

/-- `board_depth` ends for every board. -/
def State.DepthsEnd (s : State) : Prop :=
  ∀ r ∈ s.boards.rows, ∃ rounds depth, boardDepth s.tree.rows rounds r.id 0 = some depth

/-- `append_boards_flat` from 0, with the greatest `int` as its limit, ends and lists every
board once, in whatever order it is given the boards. -/
def State.ListsOnce (s : State) : Prop :=
  ∀ boards, boards.Perm s.boards.rows → ∃ rounds fuel out,
    appendBoardsFlat boards s.tree.rows (2 ^ 31 - 1) rounds fuel 0 = some out ∧
      (out.map Prod.fst).Perm boards

theorem treeParent_rows (t : Keyed.Table TreeRow.boardId) (b : ℤ) :
    treeParent t.rows b = ((t.find? b).map TreeRow.parentBoardId).getD 0 := by
  rw [treeParent, Keyed.Table.find?]
  cases t.rows.find? fun node => node.boardId = b with
  | none => rfl
  | some node => rfl

theorem zero_not_mem_ids (s : State) : (0 : ℤ) ∉ s.ids := by
  rintro ⟨r, hr, hid⟩
  have hpos := (s.fresh r hr).1
  omega

variable {b : ℤ} {s : State}

theorem pos_of_mem_ids (hb : b ∈ s.ids) : 0 < b := by
  rcases hb with ⟨r, hr, rfl⟩
  exact (s.fresh r hr).1

/-! ### What the statements do to ids and parents -/

theorem ids_setParent (s : State) (b p : ℤ) : (s.setParent b p).ids = s.ids := by
  rw [State.setParent]
  split
  · rfl
  · rfl

theorem parent_setParent (s : State) (hb : 0 < b) (p : ℤ) :
    (s.setParent b p).parent = Function.update s.parent b p := by
  funext c
  rw [State.setParent, if_neg (by omega), State.parent, State.parent, treeParent_rows,
    Keyed.Table.find?_upsert]
  by_cases hc : c = b
  · rw [hc, if_pos rfl, Function.update_self]
    rfl
  · rw [if_neg hc, Function.update_of_ne hc, treeParent_rows]

theorem ids_updateBoard (s : State) (id : ℤ) (name slug desc : Bytes) (adminOnly : Bool) :
    (s.updateBoard id name slug desc adminOnly).ids = s.ids := by
  ext b
  constructor
  · rintro ⟨r, hr, rfl⟩
    rcases List.mem_map.mp hr with ⟨r', hr', rfl⟩
    refine ⟨r', hr', ?_⟩
    split
    · rfl
    · rfl
  · rintro ⟨r, hr, rfl⟩
    refine ⟨_, List.mem_map_of_mem hr, ?_⟩
    split
    · rfl
    · rfl

theorem ids_insertBoard (s : State) (j : Job) (hsmall : s.sequence + 1 < 2 ^ 31) :
    (s.insertBoard j hsmall).ids = insert (s.sequence + 1 : ℤ) s.ids := by
  have hfree : (s.newRow j).id ∉ s.boards.rows.map BoardRow.id := by
    intro hin
    rcases List.mem_map.mp hin with ⟨r, hr, heq⟩
    have hid := s.fresh r hr
    simp only [State.newRow] at heq
    omega
  ext b
  rw [Set.mem_insert_iff]
  constructor
  · rintro ⟨r, hr, rfl⟩
    rcases Keyed.Table.mem_insertOrIgnore.mp hr with hold | ⟨rfl, -⟩
    · exact .inr ⟨r, hold, rfl⟩
    · exact .inl rfl
  · rintro (rfl | ⟨r, hr, rfl⟩)
    · exact ⟨s.newRow j, Keyed.Table.mem_insertOrIgnore.mpr (.inr ⟨rfl, hfree⟩), rfl⟩
    · exact ⟨r, Keyed.Table.mem_insertOrIgnore_of_mem hr, rfl⟩

theorem getBySlug_insertBoard {j : Job} {hsmall : s.sequence + 1 < 2 ^ 31}
    (h : ¬ s.Taken (s.sequence + 1) j.name j.slug) :
    (s.insertBoard j hsmall).getBySlug j.slug = some (s.newRow j) := by
  have hnone : ∀ r ∈ s.boards.rows, r.id ≠ s.sequence + 1 ∧ r.slug ≠ j.slug := by
    intro r hr
    have hid := s.fresh r hr
    have hne : r.id ≠ s.sequence + 1 := by omega
    exact ⟨hne, fun heq => h ⟨r, hr, hne, .inr heq⟩⟩
  have hfree : (s.newRow j).id ∉ s.boards.rows.map BoardRow.id := by
    intro hin
    rcases List.mem_map.mp hin with ⟨r, hr, heq⟩
    exact (hnone r hr).1 heq
  have hold : s.boards.rows.find? (fun r => r.slug = j.slug) = none := by
    rw [List.find?_eq_none]
    intro r hr heq
    exact (hnone r hr).2 (of_decide_eq_true heq)
  simp only [State.getBySlug, State.insertBoard]
  rw [Keyed.Table.rows_insertOrIgnore_of_free hfree, List.find?_append, hold]
  simp [State.newRow]

theorem ids_dbBoardDelete (s : State) (b : ℤ) : (s.dbBoardDelete b).ids = s.ids \ {b} := by
  ext c
  constructor
  · rintro ⟨r, hr, rfl⟩
    rcases List.mem_filter.mp hr with ⟨hold, hne⟩
    exact ⟨⟨r, hold, rfl⟩, of_decide_eq_true hne⟩
  · rintro ⟨⟨r, hr, rfl⟩, hne⟩
    exact ⟨r, List.mem_filter.mpr ⟨hr, decide_eq_true hne⟩, rfl⟩

theorem ids_removeNode (s : State) (b : ℤ) : (s.removeNode b).ids = s.ids := by
  rw [State.removeNode]
  split
  · rfl
  · rfl

theorem ids_promoteChildren (s : State) (b : ℤ) : (s.promoteChildren b).ids = s.ids := by
  rw [State.promoteChildren]
  split
  · rfl
  · rfl

theorem parent_removeNode {b c : ℤ} (hc : c ≠ b) :
    (s.removeNode b).parent c = s.parent c := by
  rw [State.removeNode]
  split
  · rfl
  · rw [State.parent, State.parent, treeParent_rows, treeParent_rows,
      Keyed.Table.find?_remove, if_neg hc]

theorem parent_promoteChildren (hb : 0 < b) (c : ℤ) :
    (s.promoteChildren b).parent c = if s.parent c = b then 0 else s.parent c := by
  rw [State.promoteChildren, if_neg (by omega), State.parent, State.parent, treeParent_rows,
    treeParent_rows, Keyed.Table.find?_update]
  cases s.tree.find? c with
  | none =>
    simp only [Option.map_none, Option.getD_none]
    rw [if_neg (by omega)]
  | some r =>
    simp only [Option.map_some, Option.getD_some]
    split
    · rfl
    · rfl

/-! ### One step -/

/-- The creation leaves no board with a parent that does not exist: it is refused, or it
asks for no parent, or for a board that exists when it runs. -/
def ParentExists (s : State) (j : Job) : Prop :=
  ¬ s.Creatable j ∨ j.parentId ≤ 0 ∨ j.parentId ∈ s.ids

/-- The edit gives the board no parent, or one whose own chain of parents does not pass
the board. -/
def NoCycle (s : State) (e : Edit) : Prop :=
  e.parentId = 0 ∨ ∃ l, Path s.parent 0 s.ids e.parentId l ∧ e.bid ∉ l

def Sound (s : State) : Action → Prop
  | .newPost who form queued =>
    ∀ w ∈ who, ∀ j, newPlan s w form = .ok j → queued = false → ParentExists s j
  | .runJob i => ∀ j ∈ s.jobs[i]?, ParentExists s j
  | .editPost who form =>
    ∀ w ∈ who, ∀ e, editPlan s w form = .ok e →
      ¬ s.Taken e.bid e.name e.slug → NoCycle s e
  | .delete _ _ _ => True

/-- What a creation does: nothing, or a new id under the parent asked for. -/
theorem createBoard_cases (s : State) (j : Job) :
    ¬ s.Creatable j ∧ createBoard s j = s ∨
      s.Creatable j ∧ (createBoard s j).ids = insert (s.sequence + 1 : ℤ) s.ids ∧
        (createBoard s j).parent =
          Function.update s.parent (s.sequence + 1) (if 0 < j.parentId then j.parentId else 0) := by
  by_cases h : s.Creatable j
  · have hcreate : s.dbBoardCreate j = some (s.insertBoard j h.2) := dif_pos h
    have hpos : (0 : ℤ) < (s.newRow j).id := by
      simp only [State.newRow]
      omega
    refine .inr ⟨h, ?_⟩
    rw [createBoard, hcreate]
    simp only [getBySlug_insertBoard h.1]
    rw [if_pos hpos]
    refine ⟨?_, parent_setParent (s.insertBoard j h.2) hpos _⟩
    rw [ids_setParent, ids_insertBoard]
  · have hcreate : s.dbBoardCreate j = none := dif_neg h
    exact .inl ⟨h, by rw [createBoard, hcreate]⟩

theorem forest_createBoard (h : s.Forest) (j : Job) :
    (createBoard s j).Forest ↔ ParentExists s j := by
  rcases createBoard_cases s j with ⟨hnone, heq⟩ | ⟨hsome, hids, hparent⟩
  · rw [heq]
    exact ⟨fun _ => .inl hnone, fun _ => h⟩
  · have hnew : (s.sequence + 1 : ℤ) ∉ s.ids := by
      rintro ⟨r, hr, hid⟩
      have hle := (s.fresh r hr).2
      omega
    rw [State.Forest, hids, hparent,
      forest_insert_iff (zero_not_mem_ids s) h hnew (by omega), ParentExists]
    constructor
    · rintro (hzero | hin)
      · split at hzero
        · exact .inr (.inl (by omega))
        · exact .inr (.inl (by omega))
      · split at hin
        · exact .inr (.inr hin)
        · exact absurd hin (zero_not_mem_ids s)
    · rintro (hnone | hneg | hin)
      · exact absurd hsome hnone
      · exact .inl (if_neg (by omega))
      · rw [if_pos (pos_of_mem_ids hin)]
        exact .inr hin

theorem forest_handlerBoardDelete (h : s.Forest) (who : Option Login)
    (post : Bool) (id : Option Bytes) : (handlerBoardDelete s who post id).Forest := by
  rw [handlerBoardDelete.eq_def]
  split
  · split
    · rename_i w idStr _
      set b := atoi idStr
      have hids : (((s.promoteChildren b).dbBoardDelete b).removeNode b).ids = s.ids \ {b} := by
        rw [ids_removeNode, ids_dbBoardDelete, ids_promoteChildren]
      rw [State.Forest, hids]
      by_cases hb : 0 < b
      · apply forest_remove h
        intro x _ hx
        rw [parent_removeNode hx]
        exact parent_promoteChildren hb x
      · -- a deletion of no board changes no parent
        have hfree : b ∉ s.ids := fun hin => hb (pos_of_mem_ids hin)
        rw [Set.sdiff_singleton_eq_self hfree, State.removeNode, if_pos (by omega),
          State.promoteChildren, if_pos (by omega)]
        exact h
    · exact h
  · exact h

theorem atoi_mem_ids {w : Login} {form : BoardForm} {e : Edit}
    (h : editPlan s w form = .ok e) : e.bid ∈ s.ids := by
  rw [editPlan.eq_def] at h
  split at h
  · split at h
    · exact nomatch h
    · exact nomatch h
    · rename_i id name slug _ _ _ _ _ _ board _ hboard
      split at h
      · exact nomatch h
      · rw [Except.ok.injEq] at h
        subst h
        rcases Keyed.Table.find?_eq_some.mp hboard with ⟨hmem, hid⟩
        exact ⟨board, hmem, hid⟩
  · exact nomatch h

theorem forest_handlerBoardEditPost (h : s.Forest) (who : Option Login) (form : BoardForm) :
    (handlerBoardEditPost s who form).Forest ↔ Sound s (.editPost who form) := by
  cases who with
  | none => exact ⟨fun _ w hw => (nomatch hw), fun _ => h⟩
  | some w =>
    cases hplan : editPlan s w form with
    | error _ =>
      have hsame : handlerBoardEditPost s (some w) form = s := by
        simp only [handlerBoardEditPost, hplan]
      rw [hsame]
      refine ⟨fun _ w' hw e he => ?_, fun _ => h⟩
      rw [← Option.mem_some.mp hw, hplan] at he
      exact nomatch he
    | ok e =>
      have hsound : Sound s (.editPost (some w) form) ↔
          (¬ s.Taken e.bid e.name e.slug → NoCycle s e) := by
        constructor
        · intro hall
          exact hall w rfl e hplan
        · intro hone w' hw e' he'
          rw [← Option.mem_some.mp hw, hplan, Except.ok.injEq] at he'
          exact he' ▸ hone
      rw [hsound]
      by_cases htaken : s.Taken e.bid e.name e.slug
      · have hsame : handlerBoardEditPost s (some w) form = s := by
          simp only [handlerBoardEditPost, hplan, State.dbBoardUpdate, if_pos htaken]
        rw [hsame]
        exact ⟨fun _ hfree => absurd htaken hfree, fun _ => h⟩
      · have hset : handlerBoardEditPost s (some w) form =
            (s.updateBoard e.bid e.name e.slug e.desc e.adminOnly).setParent e.bid
              e.parentId := by
          simp only [handlerBoardEditPost, hplan, State.dbBoardUpdate, if_neg htaken]
        have hbid := atoi_mem_ids hplan
        rw [hset, State.Forest, ids_setParent, ids_updateBoard,
          parent_setParent _ (pos_of_mem_ids hbid)]
        exact (forest_update_iff (zero_not_mem_ids s) h hbid).trans
          ⟨fun hok _ => hok, fun hok => hok htaken⟩

theorem forest_step (h : s.Forest) (a : Action) :
    (step s a).Forest ↔ Sound s a := by
  cases a with
  | newPost who form queued =>
    cases who with
    | none => exact ⟨fun _ w hw => (nomatch hw), fun _ => h⟩
    | some w =>
      cases hplan : newPlan s w form with
      | error _ =>
        have hsame : handlerBoardNewPost s (some w) form queued = s := by
          simp only [handlerBoardNewPost, hplan]
        rw [step, hsame]
        refine ⟨fun _ w' hw j hj => ?_, fun _ => h⟩
        rw [← Option.mem_some.mp hw, hplan] at hj
        exact nomatch hj
      | ok j =>
        cases queued with
        | true =>
          have hjob : handlerBoardNewPost s (some w) form true =
              { s with jobs := s.jobs ++ [j] } := by
            simp only [handlerBoardNewPost, hplan, if_true]
          rw [step, hjob]
          exact ⟨fun _ _ _ _ _ hq => (nomatch hq), fun _ => h⟩
        | false =>
          have hinline : handlerBoardNewPost s (some w) form false = createBoard s j := by
            simp [handlerBoardNewPost, hplan]
          rw [step, hinline]
          refine (forest_createBoard h j).trans ⟨fun hok w' hw j' hj' _ => ?_, fun hall => ?_⟩
          · rw [← Option.mem_some.mp hw, hplan, Except.ok.injEq] at hj'
            exact hj' ▸ hok
          · exact hall w rfl j hplan rfl
  | runJob i =>
    rw [step, runJob]
    cases hj : s.jobs[i]? with
    | none =>
      refine ⟨fun _ j hmem => ?_, fun _ => h⟩
      rw [hj] at hmem
      exact nomatch hmem
    | some j =>
      refine (forest_createBoard (s := { s with jobs := s.jobs.eraseIdx i }) h j).trans
        ⟨fun hok j' hj' => ?_, fun hall => ?_⟩
      · rw [hj, Option.mem_some] at hj'
        subst hj'
        exact hok
      · exact hall j hj
  | editPost who form => exact forest_handlerBoardEditPost h who form
  | delete who post id => exact ⟨fun _ => trivial, fun _ => forest_handlerBoardDelete h who post id⟩

/-! ## The readers in a forest -/

theorem boardDepth_of_path {l : List ℤ}
    (h : Path s.parent 0 s.ids b l) {rounds : ℕ} (hrounds : l.length ≤ rounds) (depth : ℕ) :
    boardDepth s.tree.rows rounds b depth = some (depth + (l.length - 1)) := by
  induction h generalizing rounds depth with
  | @top b hb htop =>
    obtain ⟨n, rfl⟩ : ∃ n, rounds = n + 1 := ⟨rounds - 1, by simp at hrounds; omega⟩
    have hparent : treeParent s.tree.rows b = 0 := htop
    simp [boardDepth, pos_of_mem_ids hb, hparent]
  | @under b l hb hrest ih =>
    rw [List.length_cons] at hrounds
    obtain ⟨n, rfl⟩ : ∃ n, rounds = n + 1 := ⟨rounds - 1, by omega⟩
    have hparent : treeParent s.tree.rows b = s.parent b := rfl
    have hpos := pos_of_mem_ids hrest.mem_nodes
    have hne : s.parent b ≠ b := by
      intro heq
      have hnodup := (Path.under hb hrest).nodup (zero_not_mem_ids s)
      exact (List.nodup_cons.mp hnodup).1 (heq ▸ hrest.start_mem)
    have hlength : 0 < l.length := List.length_pos_of_mem hrest.start_mem
    simp only [boardDepth, hparent]
    rw [if_pos (pos_of_mem_ids hb), if_neg (by omega), if_neg hne, ih (by omega)]
    congr 1
    rw [List.length_cons]
    omega

/-- A loop whose body appends `g r` for every `r` appends all of them. -/
theorem foldlM_append {α β : Type} {f : List β → α → Option (List β)} {g : α → List β}
    {as : List α} (h : ∀ a ∈ as, ∀ out, f out a = some (out ++ g a)) (out : List β) :
    as.foldlM f out = some (out ++ as.flatMap g) := by
  induction as generalizing out with
  | nil => simp
  | cons a as ih =>
    rw [List.foldlM_cons, h a List.mem_cons_self, Option.bind_eq_bind, Option.bind_some,
      ih (fun b hb => h b (List.mem_cons_of_mem _ hb)), List.flatMap_cons, List.append_assoc]

variable {boards : List BoardRow}

/-- One call of `append_boards_flat`, once the calls below it are known. -/
theorem appendBoardsFlat_succ {tree : List TreeRow} {maxDepth q : ℤ}
    {rounds fuel depth : ℕ} {sub : ℤ → List (BoardRow × ℕ)} (hle : (depth : ℤ) ≤ maxDepth)
    (hchild : ∀ r ∈ boards, treeParent tree r.id = q →
      boardDepth tree rounds r.id 0 = some depth ∧
        appendBoardsFlat boards tree maxDepth rounds fuel r.id = some (sub r.id)) :
    appendBoardsFlat boards tree maxDepth rounds (fuel + 1) q =
      some (boards.flatMap fun r =>
        if treeParent tree r.id = q then (r, depth) :: sub r.id else []) := by
  rw [appendBoardsFlat]
  refine (foldlM_append ?_ []).trans (by rw [List.nil_append])
  intro r hr out
  by_cases hq : treeParent tree r.id = q
  · rcases hchild r hr hq with ⟨hdepth, hsub⟩
    simp [hq, hdepth, hsub, hle]
  · simp [hq]

/-- The ids are distinct, positive and at most `sequence`, so an `int` counts the boards. -/
theorem length_boards_le (s : State) : (s.boards.rows.length : ℤ) ≤ 2 ^ 31 - 1 := by
  have hsub : (s.boards.rows.map fun r => r.id.toNat) ⊆ List.range' 1 s.sequence := by
    intro n hn
    rcases List.mem_map.mp hn with ⟨r, hr, rfl⟩
    have hid := s.fresh r hr
    rw [List.mem_range'_1]
    omega
  have hnodup : (s.boards.rows.map fun r => r.id.toNat).Nodup := by
    refine List.Nodup.map_on ?_ s.boards.keyed.of_map
    intro x hx y hy heq
    have hx' := (s.fresh x hx).1
    have hy' := (s.fresh y hy).1
    exact s.boards.eq_of_key_eq hx hy (by omega)
  have hle := (List.subperm_of_subset hnodup hsub).length_le
  have hseq := s.small
  rw [List.length_map, List.length_range'] at hle
  omega

/-- There are so many boards on the way down to `q`, and none to the root. -/
def AtLevel (s : State) (q : ℤ) (above : ℕ) : Prop :=
  q = 0 ∧ above = 0 ∨ ∃ l, Path s.parent 0 s.ids q l ∧ above = l.length

variable {above : ℕ}

/-- Each child of `q` lies one level deeper. -/
theorem AtLevel.child {q b : ℤ} (hq : AtLevel s q above) (hb : b ∈ s.ids)
    (hbq : s.parent b = q) : ∃ l, Path s.parent 0 s.ids b l ∧ l.length = above + 1 := by
  rcases hq with ⟨rfl, rfl⟩ | ⟨l, hl, rfl⟩
  · exact ⟨[b], .top hb hbq, rfl⟩
  · exact ⟨b :: l, .under hb (hbq ▸ hl), rfl⟩

variable {q : ℤ}

theorem AtLevel.le {above n : ℕ} (hq : AtLevel s q above)
    (hshort : ∀ {b l}, Path s.parent 0 s.ids b l → l.length ≤ n) : above ≤ n := by
  rcases hq with ⟨-, rfl⟩ | ⟨l, hl, rfl⟩
  · exact Nat.zero_le n
  · exact hshort hl

/-- In a forest the call for `q` appends the boards below `q`, each once. -/
theorem appendBoardsFlat_below (h : s.Forest)
    (hperm : boards.Perm s.boards.rows) {fuel : ℕ} (hq : AtLevel s q above)
    (hfuel : boards.length + 1 ≤ fuel + above) :
    ∃ out, appendBoardsFlat boards s.tree.rows (2 ^ 31 - 1) boards.length fuel q = some out ∧
      (out.map fun e => e.1.id).Nodup ∧ (∀ e ∈ out, e.1 ∈ boards) ∧
      ∀ c, c ∈ (out.map fun e => e.1.id) ↔ Below s.parent 0 s.ids q c := by
  have hroot := zero_not_mem_ids s
  have hns : ∀ x, x ∈ boards.map BoardRow.id ↔ x ∈ s.ids := by
    intro x
    rw [List.mem_map]
    exact ⟨fun ⟨r, hr, hx⟩ => ⟨r, hperm.mem_iff.mp hr, hx⟩,
      fun ⟨r, hr, hx⟩ => ⟨r, hperm.mem_iff.mpr hr, hx⟩⟩
  have hnd : (boards.map BoardRow.id).Nodup := (hperm.map _).nodup_iff.mpr s.boards.keyed
  have hshort : ∀ {b l}, Path s.parent 0 s.ids b l → l.length ≤ boards.length := by
    intro b l hl
    have hle := hl.length_le hroot fun x hx => (hns x).mpr hx
    rwa [List.length_map] at hle
  have hsmall : (boards.length : ℤ) ≤ 2 ^ 31 - 1 := hperm.length_eq ▸ length_boards_le s
  induction fuel generalizing q above with
  | zero =>
    have hle := hq.le hshort
    omega
  | succ fuel ih =>
    have hcall : ∀ b : ℤ, ∃ sub, b ∈ s.ids → s.parent b = q →
        appendBoardsFlat boards s.tree.rows (2 ^ 31 - 1) boards.length fuel b = some sub ∧
        (sub.map fun e => e.1.id).Nodup ∧ (∀ e ∈ sub, e.1 ∈ boards) ∧
        ∀ c, c ∈ (sub.map fun e => e.1.id) ↔ Below s.parent 0 s.ids b c := by
      intro b
      by_cases hb : b ∈ s.ids ∧ s.parent b = q
      · rcases hq.child hb.1 hb.2 with ⟨l, hl, hlength⟩
        rcases ih (.inr ⟨l, hl, rfl⟩) (by omega) with ⟨sub, hsub⟩
        exact ⟨sub, fun _ _ => hsub⟩
      · exact ⟨[], fun hin hbq => absurd ⟨hin, hbq⟩ hb⟩
    choose sub hsub using hcall
    have habove : (above : ℤ) ≤ 2 ^ 31 - 1 := by
      have hle := hq.le hshort
      omega
    have hstep : ∀ r ∈ boards, treeParent s.tree.rows r.id = q →
        boardDepth s.tree.rows boards.length r.id 0 = some above ∧
          appendBoardsFlat boards s.tree.rows (2 ^ 31 - 1) boards.length fuel r.id =
            some (sub r.id) := by
      intro r hr hrq
      have hin := (hns r.id).mp (List.mem_map_of_mem hr)
      rcases hq.child hin hrq with ⟨l, hl, hlength⟩
      have hdepth := boardDepth_of_path hl (hshort hl) 0
      rw [hlength] at hdepth
      exact ⟨by simpa using hdepth, (hsub r.id hin hrq).1⟩
    have hout := appendBoardsFlat_succ habove hstep
    have hids : (boards.flatMap fun r =>
          if treeParent s.tree.rows r.id = q then (r, above) :: sub r.id else []).map
            (fun e => e.1.id) =
        (boards.map BoardRow.id).flatMap fun b =>
          if s.parent b = q then b :: (sub b).map (fun e => e.1.id) else [] := by
      rw [List.map_flatMap, List.flatMap_map]
      refine List.flatMap_congr fun r _ => ?_
      change List.map _ (if s.parent r.id = q then _ else _) = _
      split
      · rfl
      · rfl
    have hbelow : ∀ b ∈ boards.map BoardRow.id, s.parent b = q →
        ((sub b).map fun e => e.1.id).Nodup ∧
          ∀ c, c ∈ ((sub b).map fun e => e.1.id) ↔ Below s.parent 0 s.ids b c := by
      intro b hb hbq
      exact (hsub b ((hns b).mp hb) hbq).2.imp_right And.right
    have hwalk := nodup_and_mem_children hroot h hnd hns hbelow
    refine ⟨_, hout, hids ▸ hwalk.1, ?_, hids ▸ hwalk.2⟩
    intro e he
    rcases List.mem_flatMap.mp he with ⟨r, hr, her⟩
    split at her
    · rename_i hrq
      rcases List.mem_cons.mp her with rfl | hrest
      · exact hr
      · exact (hsub r.id ((hns r.id).mp (List.mem_map_of_mem hr)) hrq).2.2.1 e hrest
    · exact (List.not_mem_nil her).elim

theorem listsOnce_of_forest (h : s.Forest) : s.ListsOnce := by
  intro boards hperm
  rcases appendBoardsFlat_below h hperm (.inl ⟨rfl, rfl⟩) (Nat.le_refl _) with
    ⟨out, hout, hnodup, hin, hmem⟩
  refine ⟨boards.length, _, out, hout, ?_⟩
  have hkeyed : (boards.map BoardRow.id).Nodup := (hperm.map _).nodup_iff.mpr s.boards.keyed
  have hrows : (out.map Prod.fst).Nodup := by
    refine List.Nodup.of_map BoardRow.id ?_
    rw [List.map_map]
    exact hnodup
  rw [List.perm_ext_iff_of_nodup hrows hkeyed.of_map]
  intro r
  constructor
  · intro hr
    rcases List.mem_map.mp hr with ⟨e, he, rfl⟩
    exact hin e he
  · intro hr
    have hid : r.id ∈ s.ids := ⟨r, hperm.mem_iff.mp hr, rfl⟩
    rcases List.mem_map.mp ((hmem r.id).mpr ((below_root_iff h).mpr hid)) with ⟨e, he, heq⟩
    have hrow := s.boards.eq_of_key_eq (hperm.mem_iff.mp (hin e he)) (hperm.mem_iff.mp hr) heq
    exact List.mem_map.mpr ⟨e, he, hrow⟩

theorem depthsEnd_of_forest (h : s.Forest) : s.DepthsEnd := by
  intro r hr
  rcases h r.id ⟨r, hr, rfl⟩ with ⟨l, hl⟩
  exact ⟨l.length, _, boardDepth_of_path hl (Nat.le_refl _) 0⟩

/-- The board tree as the readers need it. -/
def Good (s : State) : Prop := s.Forest ∧ s.DepthsEnd ∧ s.ListsOnce

theorem good_iff_forest : Good s ↔ s.Forest :=
  ⟨And.left, fun h => ⟨h, depthsEnd_of_forest h, listsOnce_of_forest h⟩⟩

/-! ## Runs -/

/-- From a forest, the runs that pass through forests only, with every board listed once in
each state, are those in which every board is created under an existing parent, or none,
and no edit puts a board below itself. -/
theorem board_tree_sound_iff {s : State} (h : s.Forest) (as : List Action) :
    AllSteps step Sound s as ↔ ∀ t, Reaches step s as t → Good t := by
  have hstep : ∀ t a, State.Forest t → (State.Forest (step t a) ↔ Sound t a) :=
    fun t a ht => forest_step ht a
  rw [allSteps_iff_forall_good hstep h as]
  exact forall_congr' fun t => imp_congr_right fun _ => good_iff_forest.symm

def State.empty : State where
  boards := .empty
  sequence := 0
  fresh _ hr := (List.not_mem_nil hr).elim
  small := by decide
  tree := .empty
  jobs := []

theorem forest_empty : State.empty.Forest := by
  rintro b ⟨r, hr, -⟩
  exact (List.not_mem_nil hr).elim

def admin : Login := ⟨1, bytes "admin"⟩

def formOf (id : Option Bytes) (name parentId : Bytes) : BoardForm :=
  ⟨id, some name, some name, none, none, some parentId⟩

def nested : List Action :=
  [.newPost (some admin) (formOf none (bytes "a") (bytes "0")) true, .runJob 0,
   .newPost (some admin) (formOf none (bytes "b") (bytes "1")) false]

theorem nested_sound : Good (run step State.empty nested) := by
  have hjobs : (step State.empty (.newPost (some admin)
      (formOf none (bytes "a") (bytes "0")) true)).jobs[0]? =
        some ⟨bytes "a", bytes "a", [], false, 0⟩ := by
    decide +kernel
  have hplan : newPlan (run step State.empty (nested.take 2)) admin
      (formOf none (bytes "b") (bytes "1")) = .ok ⟨bytes "b", bytes "b", [], false, 1⟩ := by
    decide +kernel
  have hids : (run step State.empty (nested.take 2)).boards.rows.map BoardRow.id = [1] := by
    decide +kernel
  refine (board_tree_sound_iff forest_empty nested).mp ⟨?_, ?_, ?_, trivial⟩ _
    (reaches_run _ _)
  · rintro w - j - hq
    exact nomatch hq
  · intro j hj
    rw [hjobs, Option.mem_some] at hj
    subst hj
    exact .inr (.inl (Int.le_refl 0))
  · intro w hw j hj _
    rw [Option.mem_some] at hw
    subst hw
    have hj' := hplan.symm.trans hj
    rw [Except.ok.injEq] at hj'
    subst hj'
    have hone : (1 : ℤ) ∈ (run step State.empty (nested.take 2)).boards.rows.map BoardRow.id := by
      rw [hids]
      exact List.mem_singleton_self 1
    rcases List.mem_map.mp hone with ⟨r, hr, hid⟩
    exact .inr (.inr ⟨r, hr, hid⟩)

/-- Two boards, each then put below the other. -/
def crossed : List Action :=
  [.newPost (some admin) (formOf none (bytes "a") (bytes "0")) true,
   .newPost (some admin) (formOf none (bytes "b") (bytes "0")) true,
   .runJob 0, .runJob 0,
   .editPost (some admin) (formOf (some (bytes "1")) (bytes "a") (bytes "2")),
   .editPost (some admin) (formOf (some (bytes "2")) (bytes "b") (bytes "1"))]

/-- Each of the two edits passes the check against the board itself, and the boards end
below each other: no chain of parents leads out of the two. -/
theorem board_tree_not_kept : ¬ Good (run step State.empty crossed) := by
  have hboards : (run step State.empty crossed).boards.rows.map BoardRow.id = [1, 2] := by
    decide +kernel
  have htree : (run step State.empty crossed).tree.rows = [⟨1, 2⟩, ⟨2, 1⟩] := by
    decide +kernel
  have hparent : (run step State.empty crossed).parent 1 = 2 ∧
      (run step State.empty crossed).parent 2 = 1 := by
    rw [State.parent, htree]
    decide
  have hcycle : ∀ b l, Path (run step State.empty crossed).parent 0
      (run step State.empty crossed).ids b l → b = 1 ∨ b = 2 → False := by
    intro b l hl
    induction hl with
    | top _ htop =>
      rintro (rfl | rfl)
      · exact absurd (hparent.1.symm.trans htop) (by decide)
      · exact absurd (hparent.2.symm.trans htop) (by decide)
    | under _ _ ih =>
      rintro (rfl | rfl)
      · exact ih (.inr hparent.1)
      · exact ih (.inl hparent.2)
  intro hgood
  have hone : (1 : ℤ) ∈ (run step State.empty crossed).boards.rows.map BoardRow.id := by
    rw [hboards]
    exact List.mem_cons_self
  rcases List.mem_map.mp hone with ⟨r, hr, hid⟩
  rcases hgood.1 1 ⟨r, hr, hid⟩ with ⟨l, hl⟩
  exact hcycle 1 l hl (.inl rfl)

end FlyBoard.BoardTree

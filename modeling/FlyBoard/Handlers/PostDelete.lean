import FlyBoard.Db.FileStore

/-!
# Deleting a post with its files (`src/handlers/post.c`, `src/db/file.c`, `src/db/post.c`)

`post_delete_everything` opens a transaction, lets `db_file_delete_by_post` delete bytes and
rows of the post's files, deletes the post and commits. Only the rows are transactional:
after a rollback the rows are back and the bytes are not. What fails inside the helper is
not reported, and the foreign key then empties `post_id` in the rows it left.

One statement at most fails, so that a ROLLBACK, which only follows a failure, does not.
The journal rows of the deletions, whose failure nothing looks at, are left out.
-/

namespace FlyBoard.PostDelete

open Bytes FileStore

/-- The main database, as far as it is concerned (of `posts` the ids), and the files. -/
structure State where
  posts : List ℤ
  files : Keyed.Table FileRow.id
  storage : Storage

/-- The statements; the `k`-th step of the SELECT, and the DELETE of the `i`-th row read. -/
inductive Stmt where
  | begin
  | prepare
  | step (k : ℕ)
  | file (i : ℕ)
  | post
  | commit
deriving DecidableEq

/-! ## `db_file_delete_by_post` -/

def maxRows : ℕ := 256

/-- `PATH_MAX` -/
def pathMax : ℕ := 4096

section Helper

-- `mirror` is the prefix of the keys where a bucket is configured
variable (failing : Option Stmt) (mirror : Option Bytes)

/-- The rows it reads: until a step fails, and as many as the arrays hold. -/
def fetch : ℕ → List FileRow → List FileRow
  | _, [] => []
  | k, r :: rest =>
    if failing = some (.step k) ∨ maxRows ≤ k then [] else r :: fetch (k + 1) rest

/-- `public/uploads/.thumbs/<id>_`, which every thumbnail of the file begins with. -/
def thumbStart (id : ℤ) : Bytes := bytes "public/uploads/.thumbs/" ++ decimalInt id ++ bytes "_"

/-- A file of the directory of thumbnails with this beginning. -/
def isThumbOf (id : ℤ) : Place → Bool
  | .disk path => startsWith path (thumbStart id) && !(path.drop (thumbStart id).length).contains 47
  | .object _ => false

def deleteBytes (r : FileRow) (st : Storage) : Storage :=
  let path := snprintfS pathMax r.filePath
  let thumb := snprintfS pathMax r.thumbPath
  let preview := snprintfS pathMax r.previewPath
  let st := if path ≠ [] then storageDeleteFile mirror path st else st
  let st := if thumb ≠ [] ∧ isSafePublicPath thumb then unlink thumb st else st
  let st := if preview ≠ [] ∧ (path = [] ∨ preview ≠ path) ∧ isSafePublicPath preview then
      unlink preview st else st
  st.filter fun x => !isThumbOf r.id x

def deleteEach : ℕ → List FileRow → State → State
  | _, [], s => s
  | i, r :: rest, s =>
    deleteEach (i + 1) rest
      { s with
        storage := deleteBytes mirror r s.storage
        files := if failing = some (.file i) then s.files else s.files.remove r.id }

def rowsOf (s : State) (postId : ℤ) : List FileRow :=
  s.files.rows.filter fun r => r.postId = some postId

/-- `db_file_delete_by_post`. -/
def dbFileDeleteByPost (postId : ℤ) (s : State) : State :=
  if failing = some .prepare then s
  else deleteEach failing mirror 0 (fetch failing 0 (rowsOf s postId)) s

/-! ## `post_delete_everything` -/

/-- DELETE FROM posts, with ON DELETE SET NULL in `files`. -/
def deletePost (postId : ℤ) (s : State) : State :=
  if postId ∈ s.posts then
    { s with
      posts := s.posts.filter (· ≠ postId)
      files := s.files.update
        (fun r => if r.postId = some postId then { r with postId := none } else r) (by
          intro r
          split <;> rfl) }
  else s

/-- `post_delete_everything` on the main database and the files. -/
def postDeleteEverything (postId : ℤ) (s : State) : Bool × State :=
  let helped := dbFileDeleteByPost failing mirror postId s
  if failing = some .begin then
    -- without a transaction each statement stands for itself
    (true, deletePost postId helped)
  else if failing = some .post ∨ failing = some .commit then
    (false, { s with storage := helped.storage })
  else (true, deletePost postId helped)

end Helper

/-! ## All or nothing -/

/-- With success neither the post nor a row of its files is left; without it both are as
they were, and so are the files on disk that the rows name. -/
def AllOrNothing (failing : Option Stmt) (mirror : Option Bytes) (postId : ℤ) (s : State) : Prop :=
  let r := postDeleteEverything failing mirror postId s
  (r.1 = true → postId ∉ r.2.posts ∧ ∀ f ∈ rowsOf s postId, ∀ g ∈ r.2.files.rows, g.id ≠ f.id) ∧
  (r.1 = false →
    (postId ∈ s.posts → postId ∈ r.2.posts) ∧ (∀ f ∈ rowsOf s postId, f ∈ r.2.files.rows) ∧
    ∀ f ∈ rowsOf s postId, ∀ path ∈ f.paths,
      .disk path ∈ s.storage → .disk path ∈ r.2.storage)

def Doomed (mirror : Option Bytes) (r : FileRow) (x : Place) : Prop :=
  x ∈ deleteTargets mirror (snprintfS pathMax r.filePath) ∨
  (∃ path ∈ [snprintfS pathMax r.thumbPath, snprintfS pathMax r.previewPath],
    isSafePublicPath path ∧ x = .disk path) ∨
  isThumbOf r.id x

/-- When the deletion is all or nothing, by the statement that fails: the helper reads and
deletes all rows; where the transaction is rolled back, no file that a row names goes with
the rows read. -/
def Complete (failing : Option Stmt) (mirror : Option Bytes) (postId : ℤ) (s : State) : Prop :=
  let rows := rowsOf s postId
  match failing with
  | none | some .begin => rows.length ≤ maxRows
  | some .prepare => rows = []
  | some (.step k) => rows.length ≤ min k maxRows
  | some (.file i) => rows.length ≤ min i maxRows
  | some .post | some .commit =>
    ∀ f ∈ rows, ∀ path ∈ f.paths, .disk path ∈ s.storage →
      ∀ r ∈ rows.take maxRows, ¬ Doomed mirror r (.disk path)

/-! ## What the helper leaves -/

section Helper

variable {failing : Option Stmt} {mirror : Option Bytes} {s : State} {postId : ℤ} {k : ℕ}
  {x : Place} {i : ℕ} {rs : List FileRow}

def readable : Option Stmt → ℕ
  | some (.step k) => min k maxRows
  | _ => maxRows

theorem readable_of_not_step (h : ∀ j, failing ≠ some (.step j)) :
    readable failing = maxRows := by
  rw [readable.eq_def]
  split
  · rename_i j
    exact absurd rfl (h j)
  · rfl

theorem stops_iff (hk : k ≤ readable failing) :
    failing = some (.step k) ∨ maxRows ≤ k ↔ k = readable failing := by
  by_cases h : ∃ j, failing = some (.step j)
  · rcases h with ⟨j, rfl⟩
    rw [readable] at hk ⊢
    rw [Option.some.injEq, Stmt.step.injEq]
    omega
  · rw [not_exists] at h
    rw [readable_of_not_step h] at hk ⊢
    constructor
    · rintro (hstep | hfull)
      · exact absurd hstep (h k)
      · exact Nat.le_antisymm hk hfull
    · intro heq
      exact .inr heq.ge

theorem fetch_eq_take (rows : List FileRow) (hk : k ≤ readable failing) :
    fetch failing k rows = rows.take (readable failing - k) := by
  induction rows generalizing k with
  | nil => simp [fetch]
  | cons r rest ih =>
    rw [fetch]
    by_cases hstop : k = readable failing
    · rw [if_pos ((stops_iff hk).mpr hstop), hstop, Nat.sub_self, List.take_zero]
    · rw [if_neg (fun h => hstop ((stops_iff hk).mp h)), ih (by omega)]
      have hmore : readable failing - k = (readable failing - (k + 1)) + 1 := by omega
      rw [hmore, List.take_succ_cons]

theorem mem_deleteBytes {r : FileRow} {st : Storage} :
    x ∈ deleteBytes mirror r st ↔ x ∈ st ∧ ¬ Doomed mirror r x := by
  have hwhole : ∀ path, x ∈ (if path ≠ [] then storageDeleteFile mirror path st else st) ↔
      x ∈ st ∧ x ∉ deleteTargets mirror path := by
    intro path
    split
    · exact mem_storageDeleteFile
    · rename_i hnil
      rw [not_not] at hnil
      simp [hnil, deleteTargets]
  have hone : ∀ (c : Prop) [Decidable c] (path : Bytes) (st : Storage),
      x ∈ (if c then unlink path st else st) ↔ x ∈ st ∧ ¬ (c ∧ x = .disk path) := by
    intro c _ path st
    split
    · rename_i hc
      simp [mem_unlink, hc]
    · rename_i hc
      simp [hc]
  simp only [deleteBytes, Doomed, List.mem_filter, hone, hwhole, List.mem_cons, List.not_mem_nil,
    or_false, exists_eq_or_imp, exists_eq_left, Bool.not_eq_true', Bool.not_eq_true, and_assoc,
    not_or]
  have hne : ∀ {path}, isSafePublicPath path = true → path ≠ [] := by
    rintro path h rfl
    exact absurd h (by decide)
  refine and_congr_right fun _ => and_congr_right fun hpath => and_congr ?_ (and_congr_left ?_)
  · exact not_congr ⟨And.right, fun h => ⟨hne h.1, h⟩⟩
  · intro _
    refine not_congr ⟨fun h => h.2.2, fun h => ⟨hne h.1, ?_, h⟩⟩
    -- a preview that is the file itself has gone with it
    refine .inr fun heq => hpath ?_
    rw [h.2, ← heq]
    exact disk_mem_deleteTargets h.1

theorem mem_storage_deleteEach :
    x ∈ (deleteEach failing mirror i rs s).storage ↔
      x ∈ s.storage ∧ ∀ r ∈ rs, ¬ Doomed mirror r x := by
  induction rs generalizing i s with
  | nil => simp [deleteEach]
  | cons r rest ih =>
    rw [deleteEach, ih, mem_deleteBytes, List.forall_mem_cons, and_assoc]

theorem mem_files_deleteEach {g : FileRow} :
    g ∈ (deleteEach failing mirror i rs s).files.rows ↔
      g ∈ s.files.rows ∧
        ∀ j r, rs[j]? = some r → failing ≠ some (.file (i + j)) → g.id ≠ r.id := by
  induction rs generalizing i s with
  | nil => simp [deleteEach]
  | cons r rest ih =>
    rw [deleteEach, ih]
    have hfirst : g ∈ (if failing = some (.file i) then s.files else s.files.remove r.id).rows ↔
        g ∈ s.files.rows ∧ (failing ≠ some (.file i) → g.id ≠ r.id) := by
      split
      · rename_i hfail
        exact ⟨fun h => ⟨h, fun hne => absurd hfail hne⟩, And.left⟩
      · rename_i hok
        rw [Keyed.Table.remove, List.mem_filter, decide_eq_true_eq]
        exact and_congr_right fun _ => ⟨fun h _ => h, fun h => h hok⟩
    rw [hfirst, and_assoc]
    refine and_congr_right fun _ => ⟨?_, ?_⟩
    · rintro ⟨hzero, hrest⟩ j r' hr' hfail
      cases j with
      | zero =>
        rw [List.getElem?_cons_zero, Option.some.injEq] at hr'
        exact hr' ▸ hzero hfail
      | succ j =>
        rw [List.getElem?_cons_succ] at hr'
        exact hrest j r' hr' (by rwa [Nat.add_right_comm, Nat.add_assoc])
    · intro hall
      refine ⟨fun hfail => hall 0 r rfl hfail, fun j r' hr' hfail => ?_⟩
      refine hall (j + 1) r' (by rwa [List.getElem?_cons_succ]) ?_
      rwa [Nat.add_right_comm, Nat.add_assoc] at hfail

/-- No row of the post is left exactly when each of them was read and its DELETE ran. -/
theorem rows_gone_iff (hprepare : failing ≠ some .prepare) :
    (∀ f ∈ rowsOf s postId, ∀ g ∈ (dbFileDeleteByPost failing mirror postId s).files.rows,
        g.id ≠ f.id) ↔
      ∀ m < (rowsOf s postId).length, m < readable failing ∧ failing ≠ some (.file m) := by
  have hread : fetch failing 0 (rowsOf s postId) = (rowsOf s postId).take (readable failing) :=
    fetch_eq_take _ (Nat.zero_le _)
  have hnodup : (rowsOf s postId).Nodup :=
    List.filter_sublist.nodup s.files.keyed.of_map
  rw [dbFileDeleteByPost, if_neg hprepare, hread]
  constructor
  · intro hgone m hm
    by_contra hkept
    -- the row at `m` is not deleted
    set f := (rowsOf s postId)[m] with hf
    have hfmem : f ∈ rowsOf s postId := List.getElem_mem hm
    refine hgone f hfmem f (mem_files_deleteEach.mpr ⟨List.mem_of_mem_filter hfmem, ?_⟩) rfl
    intro j r hr hfail heq
    rw [List.getElem?_take] at hr
    split at hr
    · rename_i hj
      rcases List.getElem?_eq_some_iff.mp hr with ⟨hlt, rfl⟩
      have hrow := s.files.eq_of_key_eq (List.mem_of_mem_filter hfmem)
        (List.mem_of_mem_filter (List.getElem_mem hlt)) heq
      have hjm : m = j := hnodup.getElem_inj_iff.mp hrow
      subst hjm
      exact hkept ⟨hj, by rwa [Nat.zero_add] at hfail⟩
    · exact nomatch hr
  · intro hall f hf g hg heq
    rcases List.getElem_of_mem hf with ⟨m, hm, rfl⟩
    rcases hall m hm with ⟨hlt, hok⟩
    refine (mem_files_deleteEach.mp hg).2 m (rowsOf s postId)[m] ?_ (by rwa [Nat.zero_add]) heq
    rw [List.getElem?_take, if_pos hlt]
    exact List.getElem?_eq_getElem hm

/-- The ids left in `files` are those that the helper left. -/
theorem ids_deletePost (t : State) :
    (∀ f ∈ rowsOf s postId, ∀ g ∈ (deletePost postId t).files.rows, g.id ≠ f.id) ↔
      ∀ f ∈ rowsOf s postId, ∀ g ∈ t.files.rows, g.id ≠ f.id := by
  rw [deletePost]
  split
  · simp only [Keyed.Table.update, List.forall_mem_map]
    refine forall_congr' fun f => imp_congr_right fun _ => forall_congr' fun g =>
      imp_congr_right fun _ => ?_
    split
    · rfl
    · rfl
  · rfl

theorem post_not_mem_deletePost (t : State) : postId ∉ (deletePost postId t).posts := by
  rw [deletePost]
  split
  · simp
  · rename_i hfree
    exact hfree

theorem allOrNothing_of_success (hpost : failing ≠ some .post) (hcommit : failing ≠ some .commit) :
    AllOrNothing failing mirror postId s ↔
      ∀ f ∈ rowsOf s postId, ∀ g ∈ (dbFileDeleteByPost failing mirror postId s).files.rows,
        g.id ≠ f.id := by
  have hdone : postDeleteEverything failing mirror postId s =
      (true, deletePost postId (dbFileDeleteByPost failing mirror postId s)) := by
    simp [postDeleteEverything, hpost, hcommit]
  rw [AllOrNothing, hdone]
  constructor
  · intro h
    exact (ids_deletePost _).mp (h.1 rfl).2
  · intro h
    exact ⟨fun _ => ⟨post_not_mem_deletePost _, (ids_deletePost _).mpr h⟩,
      fun hfalse => nomatch hfalse⟩

theorem allOrNothing_of_rollback (h : failing = some .post ∨ failing = some .commit) :
    AllOrNothing failing mirror postId s ↔
      ∀ f ∈ rowsOf s postId, ∀ path ∈ f.paths, .disk path ∈ s.storage →
        ∀ r ∈ (rowsOf s postId).take maxRows, ¬ Doomed mirror r (.disk path) := by
  have hread : fetch failing 0 (rowsOf s postId) = (rowsOf s postId).take maxRows := by
    rw [fetch_eq_take _ (Nat.zero_le _), readable_of_not_step, Nat.sub_zero]
    rcases h with rfl | rfl
    · exact fun _ hstep => nomatch hstep
    · exact fun _ hstep => nomatch hstep
  have hundone : postDeleteEverything failing mirror postId s =
      (false, { s with storage := (dbFileDeleteByPost failing mirror postId s).storage }) := by
    rcases h with rfl | rfl
    · rfl
    · rfl
  have hprepare : failing ≠ some .prepare := by
    rcases h with rfl | rfl
    · exact fun hstmt => nomatch hstmt
    · exact fun hstmt => nomatch hstmt
  have hstorage : ∀ x, x ∈ (dbFileDeleteByPost failing mirror postId s).storage ↔
      x ∈ s.storage ∧ ∀ r ∈ (rowsOf s postId).take maxRows, ¬ Doomed mirror r x := by
    intro x
    rw [dbFileDeleteByPost, if_neg hprepare, hread]
    exact mem_storage_deleteEach
  rw [AllOrNothing, hundone]
  constructor
  · rintro ⟨-, hfalse⟩ f hf path hpath hdisk
    exact ((hstorage _).mp ((hfalse rfl).2.2 f hf path hpath hdisk)).2
  · intro hall
    refine ⟨fun htrue => (nomatch htrue), fun _ => ⟨id, ?_, ?_⟩⟩
    · intro f hf
      exact List.mem_of_mem_filter hf
    · intro f hf path hpath hdisk
      exact (hstorage _).mpr ⟨hdisk, hall f hf path hpath hdisk⟩

end Helper

/-! ## The result -/

/-- A deletion is all or nothing exactly when it is complete. -/
theorem post_delete_all_or_nothing_iff (failing : Option Stmt) (mirror : Option Bytes)
    (postId : ℤ) (s : State) :
    AllOrNothing failing mirror postId s ↔ Complete failing mirror postId s := by
  have hcount : ∀ n k : ℕ, (∀ m < n, m < k) ↔ n ≤ k := fun n k =>
    ⟨fun h => Nat.le_of_not_lt fun hlt => Nat.lt_irrefl k (h k hlt),
      fun h m hm => Nat.lt_of_lt_of_le hm h⟩
  by_cases hback : failing = some .post ∨ failing = some .commit
  · rw [allOrNothing_of_rollback hback]
    rcases hback with rfl | rfl
    · rfl
    · rfl
  rw [not_or] at hback
  rw [allOrNothing_of_success hback.1 hback.2]
  by_cases hprepare : failing = some .prepare
  · subst hprepare
    rw [dbFileDeleteByPost, if_pos rfl, Complete]
    constructor
    · intro h
      rw [List.eq_nil_iff_forall_not_mem]
      intro f hf
      exact h f hf f (List.mem_of_mem_filter hf) rfl
    · intro hnil f hf
      rw [hnil] at hf
      exact nomatch hf
  rw [rows_gone_iff hprepare]
  cases failing with
  | none => simp [Complete, readable, hcount]
  | some stmt =>
    cases stmt with
    | begin => simp [Complete, readable, hcount]
    | prepare => exact absurd rfl hprepare
    | step k =>
      simp only [Complete, readable, ne_eq, Option.some.injEq, reduceCtorEq, not_false_eq_true,
        and_true, hcount]
    | file i =>
      simp only [Complete, readable, ne_eq, Option.some.injEq, Stmt.file.injEq]
      rw [← hcount]
      -- the row whose DELETE fails must not be reached
      constructor
      · intro h m hm
        have hfull := (h m hm).1
        by_contra hle
        exact (h i (by omega)).2 rfl
      · intro h m hm
        have hlt := h m hm
        omega
    | post => exact absurd rfl hback.1
    | commit => exact absurd rfl hback.2

def attached : State where
  posts := [1]
  files := ⟨[⟨1, some 1, bytes "a.png", bytes "public/uploads/1_a.png", [], []⟩], by decide⟩
  storage := [.disk (bytes "public/uploads/1_a.png")]

/-- The DELETE of the post fails, everything is rolled back, and the file is gone. -/
theorem post_points_to_deleted_file :
    attached.storage = [.disk (bytes "public/uploads/1_a.png")] ∧
      (postDeleteEverything (some .post) none 1 attached).1 = false ∧
      (postDeleteEverything (some .post) none 1 attached).2.files.rows = attached.files.rows ∧
      (postDeleteEverything (some .post) none 1 attached).2.storage = [] ∧
      ¬ AllOrNothing (some .post) none 1 attached := by
  have hreturn : (postDeleteEverything (some .post) none 1 attached).1 = false := rfl
  have hgone : (postDeleteEverything (some .post) none 1 attached).2.storage = [] := by
    decide +kernel
  refine ⟨rfl, hreturn, rfl, hgone, ?_⟩
  intro h
  have hkept := (h.2 hreturn).2.2 ⟨1, some 1, bytes "a.png", bytes "public/uploads/1_a.png", [], []⟩
    (by decide +kernel) (bytes "public/uploads/1_a.png") (by decide +kernel) (by decide +kernel)
  rw [hgone] at hkept
  exact nomatch hkept

end FlyBoard.PostDelete

import FlyBoard.Db.FileStore

/-!
# The clean-up of files at startup (`src/db/file.c`)

`db_file_cleanup_duplicates` looks for a row with a newer row of the same post and name,
deletes its file and then the row, and starts over until it finds none; a row that is not
deleted is found again. `db_cleanup_orphaned_files` deletes what no row names, and a failing
query names nothing. Any statement may fail at any round.

Which of several rows a round finds is not determined, since its query has no ORDER BY. The
path of the row is copied after its statement is finalized; it is taken to be intact then.
-/

namespace FlyBoard.FileCleanup

open Bytes FileStore

structure State where
  files : Keyed.Table FileRow.id
  storage : Storage

/-- Which statements fail: those of each round, and the query for each path. -/
structure Failures where
  select : ℕ → Bool
  delete : ℕ → Bool
  lookup : Bytes → Bool

/-! ## `db_file_cleanup_duplicates` -/

def older (rows : List FileRow) : List FileRow :=
  rows.filter fun a => rows.any fun b =>
    decide (a.postId = b.postId ∧ a.filename = b.filename ∧ a.id < b.id)

abbrev Pick := ℕ → List FileRow → Option FileRow

def Picks (pick : Pick) : Prop :=
  ∀ j rows, (pick j rows = none ↔ older rows = []) ∧ ∀ r ∈ pick j rows, r ∈ older rows

def targets (mirror : Option Bytes) (r : FileRow) : List Place :=
  deleteTargets mirror (snprintfS 4096 r.filePath)

section

-- `mirror` is the prefix of the keys where a bucket is configured
variable (fails : Failures) (mirror : Option Bytes)

def round (j : ℕ) (r : FileRow) (s : State) : State where
  files := if fails.delete j then s.files else s.files.remove r.id
  storage := storageDeleteFile mirror (snprintfS 4096 r.filePath) s.storage

/-- `db_file_cleanup_duplicates` from round `j` on, for at most so many rounds. -/
def cleanupDuplicates (pick : Pick) : ℕ → ℕ → State → Option State
  | 0, _, _ => none
  | fuel + 1, j, s =>
    if fails.select j then some s
    else
      match pick j s.files.rows with
      | none => some s
      | some r => cleanupDuplicates pick fuel (j + 1) (round fails mirror j r s)

/-! ## `db_cleanup_orphaned_files` -/

/-- `path_in_db` -/
def pathInDb (rows : List FileRow) (path : Bytes) : Bool :=
  path ≠ [] && !fails.lookup path &&
    rows.any fun r => r.filePath = path || r.thumbPath = path || r.previewPath = path

/-- `path` is an entry of the directory that the loop does not skip. -/
def isEntry (dir : Bytes) (skipHidden : Bool) (path : Bytes) : Bool :=
  let name := path.drop (dir.length + 1)
  startsWith path (dir ++ bytes "/") && name ≠ [] && !name.contains 47 &&
    !(skipHidden && name.head? = some 46)

/-- `cleanup_upload_dir` -/
def cleanupUploadDir (dir : Bytes) (skipHidden : Bool) (s : State) : State :=
  { s with
    storage := s.storage.filter fun x =>
      match x with
      | .disk path => !isEntry dir skipHidden path || pathInDb fails s.files.rows path
      | .object _ => true }

/-- The directories it cleans, and whether it skips hidden files there. -/
def uploadDirs : List (Bytes × Bool) :=
  [(bytes "public/uploads", true), (bytes "public/uploads/.thumbs", false),
   (bytes "public/uploads/.previews", false)]

/-- `db_cleanup_orphaned_files` -/
def cleanupOrphanedFiles (s : State) : State :=
  uploadDirs.foldl (fun s dir => cleanupUploadDir fails dir.1 dir.2 s) s

end

/-! ## What is asked of them -/

/-- No file that a remaining row names is gone. -/
def Spared (before after : State) : Prop :=
  ∀ x ∈ after.files.rows, ∀ path ∈ x.paths, place path ∈ before.storage →
    place path ∈ after.storage

def NoFailure (fails : Failures) : Prop :=
  (∀ j, fails.select j = false ∧ fails.delete j = false) ∧ ∀ path, fails.lookup path = false

/-- The clean-up ends, spares the files of the rows that remain, and leaves exactly the
newest row of each post and name unless a statement fails, whichever rows the rounds find. -/
def CleanUpSafe (fails : Failures) (mirror : Option Bytes) (s : State) : Prop :=
  ∀ pick, Picks pick → ∃ fuel t, cleanupDuplicates fails mirror pick fuel 0 s = some t ∧
    Spared s (cleanupOrphanedFiles fails t) ∧
    (NoFailure fails → ∀ r, r ∈ (cleanupOrphanedFiles fails t).files.rows ↔
      r ∈ s.files.rows ∧ r ∉ older s.files.rows)

/-! ## The condition -/

/-- The rows deleted in the first `k` rounds, if all of them find one. -/
def deletions (fails : Failures) (k : ℕ) : ℕ :=
  (List.range k).countP fun j => !fails.delete j

def Exhausts (fails : Failures) (s : State) : Prop :=
  ∃ k, (older s.files.rows).length ≤ deletions fails k ∧ ∀ j < k, fails.select j = false

/-- The SELECT of round `k` is the first to fail, and older rows are left. -/
def CutAt (fails : Failures) (s : State) (k : ℕ) : Prop :=
  fails.select k = true ∧ (∀ j < k, fails.select j = false) ∧
    deletions fails k < (older s.files.rows).length

/-- A stored file that `x` names goes with the row `r`. -/
def Shares (mirror : Option Bytes) (s : State) (r x : FileRow) : Prop :=
  ∃ path ∈ x.paths, place path ∈ s.storage ∧ place path ∈ targets mirror r

def Listed (path : Bytes) : Prop := ∃ dir ∈ uploadDirs, isEntry dir.1 dir.2 path

/-- The condition: the rounds come to an end; where they run out of older rows, no older
row takes a file of a newest row with it; where a SELECT fails first, none takes one of
another row, nor its own when the DELETE of some round failed; and the query of no file
that a remaining row may name fails. -/
structure Careful (fails : Failures) (mirror : Option Bytes) (s : State) : Prop where
  ends : Exhausts fails s ∨ ∃ k, CutAt fails s k
  exhausted : Exhausts fails s →
    ∀ r ∈ older s.files.rows, ∀ x ∈ s.files.rows, x ∉ older s.files.rows → ¬ Shares mirror s r x
  cut : ∀ k, CutAt fails s k → 0 < k →
    ∀ r ∈ older s.files.rows, ∀ x ∈ s.files.rows,
      (x ≠ r ∨ ∃ j < k, fails.delete j = true) → ¬ Shares mirror s r x
  found : ∀ x ∈ s.files.rows, (Exhausts fails s → x ∉ older s.files.rows) →
    ∀ path ∈ x.paths, .disk path ∈ s.storage → Listed path → fails.lookup path = false

/-! ## Older rows -/

variable {a : FileRow}

theorem mem_older {rows : List FileRow} :
    a ∈ older rows ↔ a ∈ rows ∧
      ∃ b ∈ rows, a.postId = b.postId ∧ a.filename = b.filename ∧ a.id < b.id := by
  simp [older]

variable {r : FileRow} {t : Keyed.Table FileRow.id}

/-- The deletion of an older row leaves the other rows as old as they were. -/
theorem mem_older_remove (hr : r ∈ older t.rows)
    : a ∈ older (t.remove r.id).rows ↔ a ∈ older t.rows ∧ a.id ≠ r.id := by
  rcases mem_older.mp hr with ⟨-, c, hc, hpost, hname, hid⟩
  simp only [mem_older, Keyed.Table.remove, List.mem_filter, decide_eq_true_eq]
  constructor
  · rintro ⟨⟨ha, hne⟩, b, ⟨hb, -⟩, hab⟩
    exact ⟨⟨ha, b, hb, hab⟩, hne⟩
  · rintro ⟨⟨ha, b, hb, hab⟩, hne⟩
    refine ⟨⟨ha, hne⟩, ?_⟩
    by_cases hbr : b.id = r.id
    · -- the newer row of `r` is newer than `a`, too
      have heq : b = r := t.eq_of_key_eq hb (mem_older.mp hr).1 hbr
      subst heq
      have hlt := hab.2.2.trans hid
      exact ⟨c, ⟨hc, by omega⟩, hab.1.trans hpost, hab.2.1.trans hname, hlt⟩
    · exact ⟨b, ⟨hb, hbr⟩, hab⟩

theorem nodup_older (t : Keyed.Table FileRow.id) : (older t.rows).Nodup :=
  List.filter_sublist.nodup t.keyed.of_map

theorem length_older_remove (hr : r ∈ older t.rows) :
    (older (t.remove r.id).rows).length + 1 = (older t.rows).length := by
  have hperm : (r :: older (t.remove r.id).rows).Perm (older t.rows) := by
    refine (List.perm_ext_iff_of_nodup ?_ (nodup_older t)).mpr ?_
    · refine List.nodup_cons.mpr ⟨?_, nodup_older (t.remove r.id)⟩
      intro hin
      exact (mem_older_remove hr).mp hin |>.2 rfl
    · intro a
      rw [List.mem_cons, mem_older_remove hr]
      constructor
      · rintro (rfl | ⟨ha, -⟩)
        · exact hr
        · exact ha
      · intro ha
        by_cases hid : a.id = r.id
        · exact .inl (t.eq_of_key_eq (mem_older.mp ha).1 (mem_older.mp hr).1 hid)
        · exact .inr ⟨ha, hid⟩
  exact hperm.length_eq

/-! ## The rounds -/

section Rounds

variable {fails : Failures} {mirror : Option Bytes} {pick : Pick} {s t : State} {j k : ℕ} {fuel : ℕ}

/-- The rule of the loop: what holds at the start and is kept by a round that finds a row
holds where the loop ends, after rounds whose SELECT worked. -/
theorem cleanupDuplicates_invariant {P : ℕ → State → Prop}
    (hround : ∀ j t r, P j t → fails.select j = false → pick j t.files.rows = some r →
      P (j + 1) (round fails mirror j r t))
    (h : cleanupDuplicates fails mirror pick fuel j s = some t) (h0 : P j s) :
    ∃ k, P k t ∧ (∀ i, j ≤ i → i < k → fails.select i = false) ∧
      (fails.select k = true ∨ pick k t.files.rows = none) := by
  induction fuel generalizing j s with
  | zero => exact nomatch h
  | succ fuel ih =>
    rw [cleanupDuplicates] at h
    split at h
    · rename_i hselect
      rw [Option.some.injEq] at h
      subst h
      exact ⟨j, h0, fun i hle hlt => by omega, .inl hselect⟩
    · rename_i hselect
      rw [Bool.not_eq_true] at hselect
      split at h
      · rename_i hnone
        rw [Option.some.injEq] at h
        subst h
        exact ⟨j, h0, fun i hle hlt => by omega, .inr hnone⟩
      · rename_i r hsome
        rcases ih h (hround j s r h0 hselect hsome) with ⟨k, hk, hrounds, hend⟩
        refine ⟨k, hk, fun i hle hlt => ?_, hend⟩
        rcases Nat.eq_or_lt_of_le hle with rfl | hlt'
        · exact hselect
        · exact hrounds i hlt' hlt

theorem deletions_succ (fails : Failures) (k : ℕ) :
    deletions fails (k + 1) = deletions fails k + if fails.delete k then 0 else 1 := by
  rw [deletions, List.range_succ, List.countP_append, deletions]
  cases hfail : fails.delete k with
  | true => simp [hfail]
  | false => simp [hfail]

theorem deletions_mono (fails : Failures) (h : j ≤ k) : deletions fails j ≤ deletions fails k := by
  induction h with
  | refl => exact Nat.le_refl _
  | step _ ih =>
    rw [deletions_succ]
    omega

/-- What holds after `j` rounds that found a row each, from `s`. -/
structure After (fails : Failures) (mirror : Option Bytes) (s : State) (j : ℕ) (t : State) :
    Prop where
  rows_subset : ∀ r ∈ t.files.rows, r ∈ s.files.rows
  newest_kept : ∀ r ∈ s.files.rows, r ∉ older s.files.rows → r ∈ t.files.rows
  older_iff : ∀ r, r ∈ older t.files.rows ↔ r ∈ older s.files.rows ∧ r ∈ t.files.rows
  count : (older t.files.rows).length + deletions fails j = (older s.files.rows).length
  lost : ∀ x ∈ s.storage, x ∉ t.storage → 0 < j ∧ ∃ r ∈ older s.files.rows, x ∈ targets mirror r ∧
    (r ∉ t.files.rows ∨ ∃ i < j, fails.delete i = true)
  gone : ∀ r ∈ s.files.rows, r ∉ t.files.rows → ∀ x ∈ targets mirror r, x ∉ t.storage

theorem after_zero (fails : Failures) (mirror : Option Bytes) (s : State) :
    After fails mirror s 0 s where
  rows_subset _ h := h
  newest_kept _ h _ := h
  older_iff _ := ⟨fun h => ⟨h, (mem_older.mp h).1⟩, And.left⟩
  count := rfl
  lost _ hin hout := absurd hin hout
  gone _ hin hout := absurd hin hout

theorem mem_rows_round {r a : FileRow} (hr : r ∈ t.files.rows) :
    a ∈ (round fails mirror j r t).files.rows ↔
      a ∈ t.files.rows ∧ (a = r → fails.delete j = true) := by
  rw [round]
  cases hfail : fails.delete j with
  | true => simp
  | false =>
    simp only [Bool.false_eq_true, if_false, Keyed.Table.remove, List.mem_filter,
      decide_eq_true_eq]
    refine and_congr_right fun ha => ⟨?_, ?_⟩
    · rintro hne rfl
      exact hne rfl
    · intro hne hid
      exact hne (t.files.eq_of_key_eq ha hr hid)

theorem mem_storage_round {x : Place} :
    x ∈ (round fails mirror j r t).storage ↔ x ∈ t.storage ∧ x ∉ targets mirror r :=
  mem_storageDeleteFile

theorem After.round (h : After fails mirror s j t) (hr : r ∈ older t.files.rows) :
    After fails mirror s (j + 1) (round fails mirror j r t) where
  rows_subset a ha := h.rows_subset a ((mem_rows_round (mem_older.mp hr).1).mp ha).1
  newest_kept a ha hnewest := by
    refine (mem_rows_round (mem_older.mp hr).1).mpr ⟨h.newest_kept a ha hnewest, ?_⟩
    rintro rfl
    exact absurd ((h.older_iff a).mp hr).1 hnewest
  older_iff a := by
    rw [mem_rows_round (mem_older.mp hr).1, ← and_assoc, ← h.older_iff]
    cases hfail : fails.delete j with
    | true => simp [FileCleanup.round, hfail]
    | false =>
      simp only [FileCleanup.round, hfail, Bool.false_eq_true, if_false, mem_older_remove hr]
      refine and_congr_right fun ha => ⟨?_, ?_⟩
      · rintro hne rfl
        exact hne rfl
      · intro hne hid
        exact hne (t.files.eq_of_key_eq (mem_older.mp ha).1 (mem_older.mp hr).1 hid)
  count := by
    have hcount := h.count
    rw [deletions_succ, FileCleanup.round]
    cases fails.delete j with
    | true => simpa using hcount
    | false =>
      have hlength := length_older_remove hr
      simp only [Bool.false_eq_true, if_false]
      omega
  lost x hin hout := by
    refine ⟨Nat.succ_pos j, ?_⟩
    by_cases hx : x ∈ t.storage
    · -- it goes in this round
      have htarget : x ∈ targets mirror r := by
        by_contra hno
        exact hout (mem_storage_round.mpr ⟨hx, hno⟩)
      refine ⟨r, ((h.older_iff r).mp hr).1, htarget, ?_⟩
      cases hfail : fails.delete j with
      | true => exact .inr ⟨j, Nat.lt_succ_self j, hfail⟩
      | false =>
        refine .inl fun hmem => ?_
        have hfailed := ((mem_rows_round (mem_older.mp hr).1).mp hmem).2 rfl
        rw [hfail] at hfailed
        exact nomatch hfailed
    · rcases (h.lost x hin hx).2 with ⟨a, ha, htarget, hremoved | ⟨i, hi, hfail⟩⟩
      · exact ⟨a, ha, htarget,
          .inl fun hmem => hremoved ((mem_rows_round (mem_older.mp hr).1).mp hmem).1⟩
      · exact ⟨a, ha, htarget, .inr ⟨i, Nat.lt_succ_of_lt hi, hfail⟩⟩
  gone a ha hout x hx hmem := by
    rcases mem_storage_round.mp hmem with ⟨hold, hno⟩
    by_cases hat : a ∈ t.files.rows
    · have har : a = r := by
        by_contra hne
        exact hout ((mem_rows_round (mem_older.mp hr).1).mpr ⟨hat, fun heq => absurd heq hne⟩)
      subst har
      exact hno hx
    · exact h.gone a ha hat x hx hold

theorem after_of_cleanupDuplicates (hpick : Picks pick)
    (h : cleanupDuplicates fails mirror pick fuel 0 s = some t) :
    ∃ k, After fails mirror s k t ∧
      (CutAt fails s k ∨ Exhausts fails s ∧ older t.files.rows = []) := by
  have hround : ∀ j t r, After fails mirror s j t → fails.select j = false →
      pick j t.files.rows = some r → After fails mirror s (j + 1) (round fails mirror j r t) :=
    fun j t r ht _ hr => ht.round ((hpick j t.files.rows).2 r hr)
  rcases cleanupDuplicates_invariant hround h (after_zero fails mirror s) with
    ⟨k, hk, hrounds, hend⟩
  refine ⟨k, hk, ?_⟩
  have hbefore : ∀ i < k, fails.select i = false := fun i hi => hrounds i (Nat.zero_le i) hi
  have hcount := hk.count
  by_cases hleft : older t.files.rows = []
  · rw [hleft, List.length_nil] at hcount
    exact .inr ⟨⟨k, by omega, hbefore⟩, hleft⟩
  · have hpos := List.length_pos_iff.mpr hleft
    rcases hend with hselect | hnone
    · exact .inl ⟨hselect, hbefore, by omega⟩
    · exact absurd ((hpick k _).1.mp hnone) hleft

theorem exists_cleanupDuplicates (hpick : Picks pick)
    (h : Exhausts fails s ∨ ∃ k, CutAt fails s k) :
    ∃ fuel t, cleanupDuplicates fails mirror pick fuel 0 s = some t := by
  obtain ⟨k, hbefore, hend⟩ : ∃ k, (∀ j < k, fails.select j = false) ∧
      (fails.select k = true ∨ (older s.files.rows).length ≤ deletions fails k) := by
    rcases h with ⟨k, hcount, hbefore⟩ | ⟨k, hselect, hbefore, -⟩
    · exact ⟨k, hbefore, .inr hcount⟩
    · exact ⟨k, hbefore, .inl hselect⟩
  -- from round `j` on, `k - j` more rounds are enough
  suffices hloop : ∀ n j t, j + n = k → After fails mirror s j t →
      ∃ t', cleanupDuplicates fails mirror pick (n + 1) j t = some t' from
    ⟨k + 1, hloop k 0 s (Nat.zero_add k) (after_zero fails mirror s)⟩
  intro n
  induction n with
  | zero =>
    intro j t hj ht
    rw [Nat.add_zero] at hj
    subst hj
    rw [cleanupDuplicates]
    split
    · exact ⟨t, rfl⟩
    · rename_i hselect
      have hcount := ht.count
      have hdone := hend.resolve_left hselect
      have hnil : older t.files.rows = [] := List.length_eq_zero_iff.mp (by omega)
      rw [(hpick j _).1.mpr hnil]
      exact ⟨t, rfl⟩
  | succ n ih =>
    intro j t hj ht
    rw [cleanupDuplicates, if_neg (by simp [hbefore j (by omega)])]
    cases hr : pick j t.files.rows with
    | none => exact ⟨t, rfl⟩
    | some r => exact ih (j + 1) _ (by omega) (ht.round ((hpick j _).2 r hr))

end Rounds

/-! ## The orphaned files -/

section Orphans

variable {fails : Failures} {mirror : Option Bytes} {s t : State} {path : Bytes} {x : FileRow}

theorem files_cleanupOrphanedFiles (fails : Failures) (t : State) :
    (cleanupOrphanedFiles fails t).files = t.files := rfl

/-- A file stays unless a directory lists it and the query does not find it. -/
theorem disk_mem_cleanupOrphanedFiles :
    .disk path ∈ (cleanupOrphanedFiles fails t).storage ↔
      .disk path ∈ t.storage ∧ (Listed path → pathInDb fails t.files.rows path = true) := by
  simp only [cleanupOrphanedFiles, uploadDirs, List.foldl_cons, List.foldl_nil, cleanupUploadDir,
    List.mem_filter, Bool.or_eq_true, Bool.not_eq_true', Listed, List.mem_cons, List.not_mem_nil,
    or_false, exists_eq_or_imp, exists_eq_left, and_assoc]
  refine and_congr_right fun _ => ?_
  cases pathInDb fails t.files.rows path with
  | true => simp
  | false => simp [not_or]

theorem object_mem_cleanupOrphanedFiles {key : Bytes} :
    .object key ∈ (cleanupOrphanedFiles fails t).storage ↔ .object key ∈ t.storage := by
  simp [cleanupOrphanedFiles, uploadDirs, cleanupUploadDir]

theorem pathInDb_of_mem_paths (hx : x ∈ t.files.rows) (hpath : path ∈ x.paths) :
    pathInDb fails t.files.rows path = !fails.lookup path := by
  rcases List.mem_filter.mp hpath with ⟨hin, hne⟩
  have hrow : (t.files.rows.any fun r =>
      r.filePath = path || r.thumbPath = path || r.previewPath = path) = true := by
    rw [List.any_eq_true]
    refine ⟨x, hx, ?_⟩
    simp only [List.mem_cons, List.not_mem_nil, or_false] at hin
    simp only [Bool.or_eq_true, decide_eq_true_eq]
    rcases hin with rfl | rfl | rfl
    · exact .inl (.inl rfl)
    · exact .inl (.inr rfl)
    · exact .inr rfl
  rw [pathInDb, hrow, Bool.and_true]
  simp only [ne_eq, decide_not] at hne ⊢
  simp [hne]

theorem place_of_listed (h : Listed path) : place path = .disk path := by
  have hdirs : ∀ dir ∈ uploadDirs, dir.1 ++ bytes "/" ≠ [] ∧
      (dir.1 ++ bytes "/").head? ≠ (bytes "s3://").head? := by
    decide
  rcases h with ⟨dir, hdir, hentry⟩
  simp only [isEntry, Bool.and_eq_true] at hentry
  have hhead := head?_of_startsWith hentry.1.1.1 (hdirs dir hdir).1
  rw [place, s3PathKey]
  split
  · rename_i key hkey
    split at hkey
    · rename_i hs3
      rw [head?_of_startsWith hs3 (by decide)] at hhead
      exact absurd hhead.symm (hdirs dir hdir).2
    · cases hkey
  · rfl

/-- The files of the rows are spared by the second routine exactly when no query for one
of them fails. -/
theorem place_mem_cleanupOrphanedFiles (hx : x ∈ t.files.rows) (hpath : path ∈ x.paths) :
    place path ∈ (cleanupOrphanedFiles fails t).storage ↔
      place path ∈ t.storage ∧ (Listed path → fails.lookup path = false) := by
  by_cases hlisted : Listed path
  · rw [place_of_listed hlisted, disk_mem_cleanupOrphanedFiles, pathInDb_of_mem_paths hx hpath,
      Bool.not_eq_true']
  · have hdone : (Listed path → fails.lookup path = false) := fun h => absurd h hlisted
    cases hplace : place path with
    | object key =>
      rw [object_mem_cleanupOrphanedFiles]
      exact ⟨fun h => ⟨h, hdone⟩, And.left⟩
    | disk path' =>
      have heq : path' = path := by
        rw [place] at hplace
        split at hplace
        · exact nomatch hplace
        · exact (Place.disk.inj hplace).symm
      subst heq
      rw [disk_mem_cleanupOrphanedFiles]
      exact and_congr_right fun _ => ⟨fun _ => hdone, fun _ h => absurd h hlisted⟩

end Orphans

/-! ## The condition is enough -/

section Result

variable {fails : Failures} {mirror : Option Bytes} {s t : State} {rows : List FileRow}
  {x a : FileRow}

theorem exhausts_of_noFailure (h : NoFailure fails) (s : State) : Exhausts fails s := by
  refine ⟨(older s.files.rows).length, ?_, fun j _ => (h.1 j).1⟩
  have hall : deletions fails (older s.files.rows).length = (older s.files.rows).length := by
    rw [deletions, List.countP_eq_length.mpr, List.length_range]
    intro j _
    rw [(h.1 j).2]
    rfl
  exact hall.ge

theorem not_exhausts_of_cutAt {k : ℕ} (h : CutAt fails s k) : ¬ Exhausts fails s := by
  rintro ⟨k', hcount, hbefore⟩
  have hle : k' ≤ k := by
    by_contra hlt
    have hok := hbefore k (by omega)
    rw [h.1] at hok
    exact nomatch hok
  have hmono := deletions_mono fails hle
  have hleft := h.2.2
  omega

theorem After.mem_iff_newest {j : ℕ} (h : After fails mirror s j t)
    (hnil : older t.files.rows = []) (r : FileRow) :
    r ∈ t.files.rows ↔ r ∈ s.files.rows ∧ r ∉ older s.files.rows := by
  constructor
  · intro hr
    refine ⟨h.rows_subset r hr, fun holder => ?_⟩
    have hin := (h.older_iff r).mpr ⟨holder, hr⟩
    rw [hnil] at hin
    exact nomatch hin
  · rintro ⟨hr, hnewest⟩
    exact h.newest_kept r hr hnewest

theorem cleanUpSafe_of_careful (h : Careful fails mirror s) : CleanUpSafe fails mirror s := by
  intro pick hpick
  rcases exists_cleanupDuplicates hpick h.ends with ⟨fuel, t, ht⟩
  rcases after_of_cleanupDuplicates hpick ht with ⟨k, hk, hend⟩
  refine ⟨fuel, t, ht, ?_, ?_⟩
  · intro x hx path hpath hstored
    rw [files_cleanupOrphanedFiles] at hx
    have hxs := hk.rows_subset x hx
    -- the first routine leaves the file
    have hkept : place path ∈ t.storage := by
      by_contra hlost
      rcases hk.lost _ hstored hlost with ⟨hpos, r, hr, htarget, hwhy⟩
      have hshares : Shares mirror s r x := ⟨path, hpath, hstored, htarget⟩
      rcases hend with hcut | ⟨hexhausts, hnil⟩
      · refine h.cut k hcut hpos r hr x hxs ?_ hshares
        rcases hwhy with hremoved | hfail
        · exact .inl fun heq => hremoved (heq ▸ hx)
        · exact .inr hfail
      · have hnewest := ((hk.mem_iff_newest hnil x).mp hx).2
        exact h.exhausted hexhausts r hr x hxs hnewest hshares
    refine (place_mem_cleanupOrphanedFiles hx hpath).mpr ⟨hkept, fun hlisted => ?_⟩
    refine h.found x hxs ?_ path hpath ?_ hlisted
    · intro hexhausts
      rcases hend with hcut | ⟨-, hnil⟩
      · exact absurd hexhausts (not_exhausts_of_cutAt hcut)
      · exact ((hk.mem_iff_newest hnil x).mp hx).2
    · exact place_of_listed hlisted ▸ hstored
  · intro hnone r
    rw [files_cleanupOrphanedFiles]
    rcases hend with hcut | ⟨-, hnil⟩
    · exact absurd (exhausts_of_noFailure hnone s) (not_exhausts_of_cutAt hcut)
    · exact hk.mem_iff_newest hnil r

/-! ## The condition is needed -/

def pickHead : Pick := fun _ rows => (older rows).head?

theorem picks_pickHead : Picks pickHead := fun _ _ =>
  ⟨List.head?_eq_none_iff, fun _ h => List.mem_of_head? (Option.mem_def.mp h)⟩

/-- An older row, and `x` only where there is no other. -/
def avoid (x : FileRow) (rows : List FileRow) : Option FileRow :=
  ((older rows).filter (· ≠ x)).head?.or (older rows).head?

theorem mem_older_of_avoid (h : avoid x rows = some a) :
    a ∈ older rows := by
  rw [avoid, Option.or_eq_some_iff] at h
  rcases h with hother | ⟨-, hfirst⟩
  · exact List.mem_of_mem_filter (List.mem_of_head? hother)
  · exact List.mem_of_head? hfirst

theorem avoid_ne (hnodup : (older rows).Nodup)
    (htwo : 2 ≤ (older rows).length) (h : avoid x rows = some a) : a ≠ x := by
  have hother : (older rows).filter (· ≠ x) ≠ [] := by
    intro hnil
    have hall : ∀ y ∈ older rows, y = x := by
      intro y hy
      by_contra hne
      have hin : y ∈ (older rows).filter (· ≠ x) :=
        List.mem_filter.mpr ⟨hy, decide_eq_true hne⟩
      rw [hnil] at hin
      exact nomatch hin
    have hle := (List.subperm_of_subset hnodup
      (fun y hy => List.mem_singleton.mpr (hall y hy))).length_le
    rw [List.length_singleton] at hle
    omega
  rw [avoid, Option.or_eq_some_iff] at h
  rcases h with hhead | ⟨hnone, -⟩
  · exact of_decide_eq_true (List.mem_filter.mp (List.mem_of_head? hhead)).2
  · exact absurd (List.head?_eq_none_iff.mp hnone) hother

/-- Round `i` finds `r`, and the others find `x` only where they find nothing else. -/
def steered (i : ℕ) (r x : FileRow) : Pick := fun j rows =>
  if j = i ∧ r ∈ older rows then some r else avoid x rows

theorem picks_steered (i : ℕ) (r x : FileRow) : Picks (steered i r x) := by
  intro j rows
  rw [steered]
  split
  · rename_i h
    refine ⟨⟨fun hnone => (nomatch hnone), fun hnil => ?_⟩, fun a ha => ?_⟩
    · rw [hnil] at h
      exact nomatch h.2
    · exact Option.mem_some.mp ha ▸ h.2
  · refine ⟨?_, fun a ha => mem_older_of_avoid ha⟩
    rw [avoid, Option.or_eq_none_iff, List.head?_eq_none_iff, List.head?_eq_none_iff]
    refine ⟨And.right, fun hnil => ⟨?_, hnil⟩⟩
    rw [hnil]
    rfl

/-- What these rounds have done up to round `k`, where a SELECT fails. -/
structure Steered (fails : Failures) (mirror : Option Bytes) (s : State) (i k : ℕ)
    (r x : FileRow) (j : ℕ) (t : State) : Prop where
  after : After fails mirror s j t
  kept : j ≤ k → x ∈ t.files.rows
  gone : i < j → ∀ y ∈ targets mirror r, y ∉ t.storage

/-- A SELECT that fails while older rows are left lets `x` remain, and the file of `r` be
gone if a round before it finds `r`. -/
theorem steered_end {i k : ℕ} {r x : FileRow} (hcut : CutAt fails s k)
    (hr : r ∈ older s.files.rows) (hx : x ∈ s.files.rows)
    (hkeep : i < k → x ≠ r ∨ fails.delete i = true) {fuel : ℕ}
    (h : cleanupDuplicates fails mirror (steered i r x) fuel 0 s = some t) :
    x ∈ t.files.rows ∧ (i < k → ∀ y ∈ targets mirror r, y ∉ t.storage) := by
  have hround : ∀ j t a, Steered fails mirror s i k r x j t → fails.select j = false →
      steered i r x j t.files.rows = some a →
      Steered fails mirror s i k r x (j + 1) (round fails mirror j a t) := by
    rintro j t a ⟨hafter, hxt, hgone⟩ - ha
    have holder := (picks_steered i r x j t.files.rows).2 a ha
    refine ⟨hafter.round holder, fun hle => ?_, fun hlt y hy hmem => ?_⟩
    · refine (mem_rows_round (mem_older.mp holder).1).mpr ⟨hxt (by omega), ?_⟩
      intro hxa
      rw [steered] at ha
      split at ha
      · rename_i hi
        rw [Option.some.injEq] at ha
        subst ha
        have hwhy := hkeep (by omega)
        exact hi.1 ▸ hwhy.resolve_left fun hne => hne hxa
      · -- as many older rows are left as rounds have still to delete, and one more
        by_contra hok
        have hcount := hafter.count
        have hnext := deletions_mono fails hle
        rw [deletions_succ, if_neg hok] at hnext
        have hleft := hcut.2.2
        exact avoid_ne (nodup_older t.files) (by omega) ha hxa.symm
    · rcases mem_storage_round.mp hmem with ⟨hold, hno⟩
      rcases Nat.lt_succ_iff_lt_or_eq.mp hlt with hbefore | rfl
      · exact hgone hbefore y hy hold
      · by_cases hrt : r ∈ older t.files.rows
        · rw [steered, if_pos ⟨rfl, hrt⟩, Option.some.injEq] at ha
          exact hno (ha ▸ hy)
        · have hout : r ∉ t.files.rows := fun hin => hrt ((hafter.older_iff r).mpr ⟨hr, hin⟩)
          exact hafter.gone r (mem_older.mp hr).1 hout y hy hold
  have hzero : Steered fails mirror s i k r x 0 s :=
    ⟨after_zero fails mirror s, fun _ => hx, fun hlt => by omega⟩
  rcases cleanupDuplicates_invariant hround h hzero with
    ⟨k', ⟨hafter, hxt, hgone⟩, hrounds, hend⟩
  have hbefore : ∀ j < k', fails.select j = false := fun j hj => hrounds j (Nat.zero_le j) hj
  have hselect : fails.select k' = true := by
    refine hend.resolve_right fun hnone => not_exhausts_of_cutAt hcut ⟨k', ?_, hbefore⟩
    have hcount := hafter.count
    rw [(picks_steered i r x k' _).1.mp hnone, List.length_nil] at hcount
    omega
  have hk : k' = k := by
    rcases Nat.lt_trichotomy k' k with hlt | heq | hlt
    · rw [hcut.2.1 k' hlt] at hselect
      exact nomatch hselect
    · exact heq
    · have hfailed := hcut.1
      rw [hbefore k hlt] at hfailed
      exact nomatch hfailed
  subst hk
  exact ⟨hxt (Nat.le_refl _), hgone⟩

theorem careful_of_cleanUpSafe (h : CleanUpSafe fails mirror s) : Careful fails mirror s := by
  rcases h pickHead picks_pickHead with ⟨fuel, t, ht, hspared, -⟩
  rcases after_of_cleanupDuplicates picks_pickHead ht with ⟨k, hk, hend⟩
  -- a remaining row whose file the first routine took is not spared
  have hcontra : ∀ {t' : State} {r x : FileRow}, Spared s (cleanupOrphanedFiles fails t') →
      x ∈ t'.files.rows → (∀ y ∈ targets mirror r, y ∉ t'.storage) → ¬ Shares mirror s r x := by
    rintro t' r x hspared' hx hgone ⟨path, hpath, hstored, htarget⟩
    have hkept := hspared' x hx path hpath hstored
    exact hgone _ htarget ((place_mem_cleanupOrphanedFiles hx hpath).mp hkept).1
  have hends : Exhausts fails s ∨ ∃ k, CutAt fails s k := by
    rcases hend with hcut | ⟨hexhausts, -⟩
    · exact .inr ⟨k, hcut⟩
    · exact .inl hexhausts
  have hnewest : Exhausts fails s → older t.files.rows = [] := by
    intro hexhausts
    rcases hend with hcut | ⟨-, hnil⟩
    · exact absurd hexhausts (not_exhausts_of_cutAt hcut)
    · exact hnil
  refine ⟨hends, ?_, ?_, ?_⟩
  · intro hexhausts r hr x hx hxnew
    refine hcontra hspared ((hk.mem_iff_newest (hnewest hexhausts) x).mpr ⟨hx, hxnew⟩) ?_
    refine hk.gone r (mem_older.mp hr).1 fun hrt => ?_
    exact ((hk.mem_iff_newest (hnewest hexhausts) r).mp hrt).2 hr
  · intro k' hcut hpos r hr x hx hwhy
    obtain ⟨i, hi, hkeep⟩ : ∃ i < k', x ≠ r ∨ fails.delete i = true := by
      rcases hwhy with hne | ⟨i, hi, hfail⟩
      · exact ⟨0, hpos, .inl hne⟩
      · exact ⟨i, hi, .inr hfail⟩
    rcases h (steered i r x) (picks_steered i r x) with ⟨fuel', t', ht', hspared', -⟩
    rcases steered_end hcut hr hx (fun _ => hkeep) ht' with ⟨hxt, hgone⟩
    exact hcontra hspared' hxt (hgone hi)
  · intro x hx hstays path hpath hdisk hlisted
    obtain ⟨t', hxt, hspared'⟩ : ∃ t' : State, x ∈ t'.files.rows ∧
        Spared s (cleanupOrphanedFiles fails t') := by
      rcases hends with hexhausts | ⟨k', hcut⟩
      · exact ⟨t, (hk.mem_iff_newest (hnewest hexhausts) x).mpr ⟨hx, hstays hexhausts⟩, hspared⟩
      · have hpos : 0 < (older s.files.rows).length := by
          have hleft := hcut.2.2
          omega
        rcases List.exists_mem_of_length_pos hpos with ⟨r, hr⟩
        rcases h (steered k' r x) (picks_steered k' r x) with ⟨fuel', t', ht', hspared', -⟩
        exact ⟨t', (steered_end hcut hr hx (fun hlt => by omega) ht').1, hspared'⟩
    have hstored : place path ∈ s.storage := (place_of_listed hlisted).symm ▸ hdisk
    have hkept := hspared' x hxt path hpath hstored
    exact ((place_mem_cleanupOrphanedFiles hxt hpath).mp hkept).2 hlisted

/-- Two rows of one post and name that share their file. -/
def shared : State where
  files := ⟨[⟨1, some 1, bytes "a.png", bytes "public/uploads/1_a.png", [], []⟩,
    ⟨2, some 1, bytes "a.png", bytes "public/uploads/1_a.png", [], []⟩], by decide⟩
  storage := [.disk (bytes "public/uploads/1_a.png")]

def noFailures : Failures := ⟨fun _ => false, fun _ => false, fun _ => false⟩

end Result

end FlyBoard.FileCleanup

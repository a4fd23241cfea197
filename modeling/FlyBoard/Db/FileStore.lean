import FlyBoard.Lib.Bytes
import FlyBoard.Lib.Keyed

/-!
# Rows of `files` and the bytes they name (`src/db/file.c`, `src/utils/s3_client.c`)

A row names up to three files. A path is a file on disk, or an object of the bucket where
it starts with `s3://`; with a bucket configured, a deletion of a local file also deletes
the object that mirrors it. Two paths name one file when they are equal. A deletion of a
file does not fail.
-/

namespace FlyBoard.FileStore

open Bytes

/-- A row of `files`; NULL and the empty text are not distinguished in the paths. -/
structure FileRow where
  id : ℤ
  postId : Option ℤ
  filename : Bytes
  filePath : Bytes
  thumbPath : Bytes
  previewPath : Bytes
deriving DecidableEq

inductive Place where
  | disk (path : Bytes)
  | object (key : Bytes)
deriving DecidableEq

abbrev Storage := List Place

/-! ## Paths -/

/-- `s3_path_key`. -/
def s3PathKey (path : Bytes) : Option Bytes :=
  if startsWith path (bytes "s3://") then some (path.drop 5) else none

def place (path : Bytes) : Place :=
  match s3PathKey path with
  | some key => .object key
  | none => .disk path

/-- `allowed_prefixes` -/
def allowedPrefixes : List Bytes :=
  [bytes "public/uploads/", bytes "public/profile/", bytes "public/img/", bytes "public/media/",
   bytes "data/tasfa/"]

/-- `fb_is_safe_public_path`: no part between two slashes is `..`. -/
def isSafePublicPath (path : Bytes) : Bool :=
  !(path.isEmpty || startsWith path (bytes "/") || startsWith path (bytes "..")) &&
    allowedPrefixes.any (startsWith path) && !(path.splitOn 47).contains (bytes "..")

def FileRow.paths (r : FileRow) : List Bytes :=
  [r.filePath, r.thumbPath, r.previewPath].filter (· ≠ [])

/-! ## Deletions -/

/-- What `storage_delete_file` deletes; `mirror` is the prefix of the keys where a bucket is
configured. -/
def deleteTargets (mirror : Option Bytes) (path : Bytes) : List Place :=
  if path = [] then []
  else
    match s3PathKey path with
    | some key => [.object key]
    | none =>
      let base := (path.splitOn 47).getLastD []
      (if isSafePublicPath path then [.disk path] else []) ++
        match mirror with
        | some pre => if base = [] then [] else [.object (snprintfS 768 (pre ++ base))]
        | none => []

/-- `storage_delete_file`. -/
def storageDeleteFile (mirror : Option Bytes) (path : Bytes) (st : Storage) : Storage :=
  st.filter fun x => x ∉ deleteTargets mirror path

/-- `unlink`. -/
def unlink (path : Bytes) (st : Storage) : Storage := st.filter fun x => x ≠ .disk path

theorem head?_of_startsWith {path p : Bytes} (h : startsWith path p) (hp : p ≠ []) :
    path.head? = p.head? := by
  cases p with
  | nil => exact absurd rfl hp
  | cons c p =>
    cases path with
    | nil => simp [startsWith] at h
    | cons d rest =>
      simp only [startsWith, List.length_cons, List.take_succ_cons, beq_iff_eq,
        List.cons.injEq] at h
      rw [List.head?_cons, List.head?_cons, h.1]

variable {path : Bytes}

theorem s3PathKey_of_isSafe (h : isSafePublicPath path) : s3PathKey path = none := by
  -- the allowed directories begin with another letter
  have hprefixes : ∀ q ∈ allowedPrefixes, q ≠ [] ∧ q.head? ≠ (bytes "s3://").head? := by decide
  rw [isSafePublicPath, Bool.and_eq_true, Bool.and_eq_true, List.any_eq_true] at h
  rcases h.1.2 with ⟨q, hq, hstart⟩
  rw [s3PathKey]
  split
  · rename_i hs3
    have hhead := head?_of_startsWith hs3 (by decide)
    rw [head?_of_startsWith hstart (hprefixes q hq).1] at hhead
    exact absurd hhead (hprefixes q hq).2
  · rfl

theorem disk_mem_deleteTargets {mirror : Option Bytes}
    (h : isSafePublicPath path) : .disk path ∈ deleteTargets mirror path := by
  have hne : path ≠ [] := by
    rintro rfl
    exact absurd h (by decide)
  rw [deleteTargets, if_neg hne, s3PathKey_of_isSafe h, if_pos h]
  exact List.mem_append_left _ List.mem_cons_self

variable {st : Storage} {x : Place}

theorem mem_storageDeleteFile {mirror : Option Bytes} :
    x ∈ storageDeleteFile mirror path st ↔ x ∈ st ∧ x ∉ deleteTargets mirror path := by
  rw [storageDeleteFile, List.mem_filter, decide_eq_true_eq]

theorem mem_unlink :
    x ∈ unlink path st ↔ x ∈ st ∧ x ≠ .disk path := by
  rw [unlink, List.mem_filter, decide_eq_true_eq]

end FlyBoard.FileStore

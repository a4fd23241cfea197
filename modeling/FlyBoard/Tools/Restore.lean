import FlyBoard.Lib.FileTree
import FlyBoard.Tools.Archive

/-!
# Restoring an archive (`cmd_restore` in `src/tools/backup.c`)

A restore reads the archive, checks it and opens its secrets before it touches the site; then
it goes through the entries of the manifest, and through the secrets. Over an existing site
what is in the way is moved aside first. At the end SQLite looks at the database, and a marker
keeps the journal position of the archive.

Every call may fail. The staging directory is a place of its own; paths are relative to the
site, and there are no symbolic links.
-/

namespace FlyBoard.Restore

open Bytes Archive FileTree

abbrev Files := Tree Bytes Bytes

/-! ## Paths -/

def isName (part : Bytes) : Bool := part != [] && part != bytes "."

/-- The names on a path. None is `..`, which `restore_path_ok` refuses. -/
def resolve (path : Bytes) : List Bytes := (path.splitOn 47).filter isName

def plain (path : Bytes) : Bool := ((path.splitOn 47).getLast?.map isName).getD false

def pathMax : ℕ := 4096

/-- `access` with `F_OK` -/
def access (t : Files) (path : Bytes) : Bool :=
  path.length < pathMax &&
    if plain path then decide (t.Exists (resolve path)) else decide (t.IsDir (resolve path))

/-- `rename` to a name that begins with the old one. A path that ends in `/` or `/.` cannot be
renamed so: the new name would be below it. -/
def renamePath (t : Files) (src dst : Bytes) : Option Files :=
  if src.length < pathMax ∧ dst.length < pathMax ∧ plain src then
    t.rename (resolve src) (resolve dst)
  else none

def asidePath (suffix path : Bytes) : Bytes := path ++ (bytes ".pre-restore-" ++ suffix)

/-- A file that SQLite keeps next to a database. -/
def sidePath (path : Bytes) (ext : String) : Bytes := snprintfS pathMax (path ++ bytes ext)

/-! ## Steps -/

/-- How a staged file gets to its place: not at all, or by `rename`, or as a copy of its first
bytes. -/
inductive Placing where
  | refused
  | renamed
  | copied (n : ℕ)

/-- What the system lets happen at an entry, or a secret. -/
structure Faults where
  /-- The directory can be made. -/
  mkdir : List Bytes → Bool
  /-- The path can be renamed. -/
  rename : Bytes → Bool
  placing : Placing
  /-- The secret can be opened, so many bytes of it written, and `fsync` succeeds. -/
  write : Option (ℕ × Bool)

/-- `move_aside` -/
def moveAside (f : Faults) (suffix : Bytes) (t : Files) (path : Bytes) : Bool × Files :=
  if access t path then
    match if f.rename path then renamePath t path (asidePath suffix path) else none with
    | some t' => (true, t')
    | none => (false, t)
  else (true, t)

/-- The loop of `mkdirs_for`. -/
def makeDirs (f : Faults) : List (List Bytes) → Files → Bool × Files
  | [], t => (true, t)
  | p :: ps, t =>
    match if t.Exists p || f.mkdir p then t.mkdir p else none with
    | some t' => makeDirs f ps t'
    | none => (false, t)

def dirsOf (path : Bytes) : List (List Bytes) :=
  ((path.splitOn 47).dropLast.inits.drop 1).map fun parts => parts.filter isName

/-- `mkdirs_for` -/
def mkdirsFor (f : Faults) (t : Files) (path : Bytes) : Bool × Files :=
  if path.length < pathMax then makeDirs f (dirsOf path) t else (false, t)

def writePath (t : Files) (path data : Bytes) : Option Files :=
  if plain path then t.write (resolve path) data else none

/-- The site, what is still in the staging directory, and the counters. -/
structure Progress where
  files : Files
  stage : List (Bytes × Bytes)
  placed : ℕ
  failed : ℕ
  secrets : ℕ

def Progress.unstage (r : Progress) (name : Bytes) : List (Bytes × Bytes) :=
  r.stage.filter fun s => s.1 ≠ name

/-- `place_file`: whether it went well, the site, and the staging directory. -/
def placeFile (f : Faults) (r : Progress) (name path : Bytes) :
    Bool × Files × List (Bytes × Bytes) :=
  let (ok, t) := mkdirsFor f r.files path
  let data := r.stage.lookup name
  if ok then
    match f.placing, data with
    | .refused, _ => (false, t, r.stage)
    | .renamed, none => (false, t, r.stage)
    | .renamed, some data =>
      match writePath t path data with
      | some t' => (true, t', r.unstage name)
      | none => (false, t, r.stage)
    -- the copy begins with an empty file
    | .copied _, none => (false, (writePath t path []).getD t, r.stage)
    | .copied n, some data =>
      match writePath t path (data.take n) with
      | some t' => (decide (data.length ≤ n), t', r.unstage name)
      | none => (false, t, r.unstage name)
  else (false, t, r.stage)

/-- `write_secret` -/
def writeSecret (f : Faults) (t : Files) (path data : Bytes) : Bool × Files :=
  let (ok, t) := mkdirsFor f t path
  if ok then
    match f.write with
    | none => (false, t)
    | some (n, synced) =>
      match writePath t path (data.take n) with
      | some t' => (decide (data.length ≤ n) && synced, t')
      | none => (false, t)
  else (false, t)

/-- Several paths are moved aside, one after the other, as long as that goes well. -/
def moveAll (f : Faults) (suffix : Bytes) : List Bytes → Files → Bool × Files
  | [], t => (true, t)
  | path :: paths, t =>
    match moveAside f suffix t path with
    | (true, t') => moveAll f suffix paths t'
    | (false, t') => (false, t')

def isDb (e : Doc) : Bool := e.text "kind" == some (bytes "db")

def inTheWay (e : Doc) (path : Bytes) : List Bytes :=
  path :: if isDb e then [sidePath path "-wal", sidePath path "-shm"] else []

def unlinkSides (e : Doc) (path : Bytes) (t : Files) : Files :=
  if isDb e then
    (t.unlink (resolve (sidePath path "-wal"))).unlink (resolve (sidePath path "-shm"))
  else t

def restoreEntry (existing : Bool) (suffix : Bytes) (f : Faults) (r : Progress) (e : Doc) :
    Progress :=
  let path := (e.text "path").getD []
  let blob := (e.text "blob").getD []
  let (stepOk, t) :=
    if existing then moveAll f suffix (inTheWay e path) r.files
    else (true, unlinkSides e path r.files)
  if stepOk then
    let (ok, t, stage) := placeFile f { r with files := t } (blob.drop 2) path
    if ok then { r with files := t, stage := stage, placed := r.placed + 1 }
    else { r with files := t, stage := stage, failed := r.failed + 1 }
  else { r with files := t, failed := r.failed + 1 }

def secretOf (d : Doc) : Option (Bytes × Bytes) := do
  let path ← d.text "path"
  let raw ← (d.text "data").bind b64Decode
  if secretPathOk path then some (path, raw) else none

def restoreSecret (existing : Bool) (suffix : Bytes) (f : Faults) (r : Progress) (d : Doc) :
    Progress :=
  match secretOf d with
  | none => { r with failed := r.failed + 1 }
  | some (path, raw) =>
    let (moved, t) := if existing then moveAside f suffix r.files path else (true, r.files)
    if moved then
      let (ok, t) := writeSecret f t path raw
      if ok then { r with files := t, secrets := r.secrets + 1 }
      else { r with files := t, failed := r.failed + 1 }
    else { r with files := t, failed := r.failed + 1 }

/-- A loop whose body is told what the system lets happen. -/
def loop (body : Faults → Progress → Doc → Progress) : (ℕ → Faults) → Progress → List Doc → Progress
  | _, r, [] => r
  | fs, r, d :: ds => loop body (fun n => fs (n + 1)) (body (fs 0) r d) ds

/-! ## The command -/

/-- What the command finds, apart from the site and the archive. -/
structure World where
  /-- The time, as `strftime` prints it. -/
  suffix : Bytes
  digits : ∀ c ∈ suffix, isDigit c = true
  /-- `mkdtemp` succeeds. -/
  staging : Bool
  /-- A blob can be written to the staging directory. -/
  staged : Bytes → Bool
  entries : ℕ → Faults
  secrets : ℕ → Faults
  /-- What SQLite says of the database, and what becomes of the files when it opens it, checks
  it, creates the table of keys unless it is there, and closes it. -/
  sqlite : Files → Bool × Files
  /-- So many bytes of the marker can be written, and it can be renamed. -/
  marker : Option (ℕ × Bool)

def markerPath : Bytes := bytes "data/.flywire_seq"

def markerTmp : Bytes := bytes "data/.flywire_seq.tmp"

def checkpoint (m : Doc) : ℤ :=
  match m.item (bytes "flywire_checkpoint") with
  | some (.num n) => n
  | _ => 0

def writeMarker (w : World) (m : Doc) (t : Files) : Files :=
  let text := decimalInt (checkpoint m)
  match w.marker with
  | none => t
  | some (n, ok) =>
    match writePath t markerTmp (text.take n) with
    | none => t
    | some t' =>
      if text.length ≤ n ∧ ok then (renamePath t' markerTmp markerPath).getD t' else t'

inductive Outcome where
  | refused
  | aborted
  | finished (placed failed secrets : ℕ) (dbOk : Bool)
deriving DecidableEq

/-- The secrets of an archive that is checked; `none` is a wrong passphrase. -/
def secretFiles (x : Codecs) (m : Doc) (a : ArchiveRead) (pass : Option Bytes) :
    Option (List Doc) :=
  match m.item (bytes "secrets"), pass with
  | some (.obj members), some pass =>
    (openSecrets x pass (.obj members) (a.secrets.getD [])).map fun doc =>
      ((doc.item (bytes "files")).map Doc.items).getD []
  | _, _ => some []

/-- What `cmd_restore` finds out before it touches anything: the blobs, the manifest and the
secrets. -/
def readAll (x : Codecs) (w : World) (archive : Bytes) (pass : Option Bytes) :
    Option (ArchiveRead × Doc × List Doc) := do
  let a ← readArchive x w.staged archive
  let m ← checkArchive x a
  let secrets ← secretFiles x m a pass
  some (a, m, secrets)

/-- The two loops of `cmd_restore`. -/
def placeFiles (w : World) (existing : Bool) (t : Files) (a : ArchiveRead) (m : Doc)
    (secrets : List Doc) : Progress :=
  let stage := a.blobs.map fun b => (b.name.drop 2, b.content)
  let r := loop (restoreEntry existing w.suffix) w.entries ⟨t, stage, 0, 0, 0⟩ (entries m)
  loop (restoreSecret existing w.suffix) w.secrets r secrets

/-- What `cmd_restore` does with what it has read. -/
def placeAll (w : World) (existing : Bool) (t : Files) (a : ArchiveRead) (m : Doc)
    (secrets : List Doc) : Outcome × Files :=
  let r := placeFiles w existing t a m secrets
  let (dbOk, t) := w.sqlite r.files
  (.finished r.placed r.failed r.secrets dbOk, writeMarker w m t)

/-- `cmd_restore` -/
def cmdRestore (x : Codecs) (w : World) (t : Files) (archive : Bytes) (force : Bool)
    (pass : Option Bytes) : Outcome × Files :=
  let existing := access t (bytes "data/blog.db")
  if existing && !force then (.refused, t)
  else
    match t.mkdir (resolve (bytes "data")) with
    | none => (.refused, t)
    | some t =>
      if w.staging then
        match readAll x w archive pass with
        | none => (.aborted, t)
        | some (a, m, secrets) => placeAll w existing t a m secrets
      else (.refused, t)

end FlyBoard.Restore

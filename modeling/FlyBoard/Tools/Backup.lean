import FlyBoard.Tools.ArchiveContents
import FlyBoard.Tools.Restore

/-!
# Writing a backup (`fly_backup_write` in `src/tools/backup.c`)

A backup goes through the databases, the settings and the directories of files, and writes each
file as a numbered blob. The secrets are sealed into one block, if there is a passphrase; the
manifest says what the blobs are, and comes last with its signature.

SQLite's copy of a database, cJSON, the seal, the signature and zstd are parameters.
-/

namespace FlyBoard.Backup

open Bytes Archive FileTree Restore

/-! ## The site -/

/-- A name in a directory, as file systems have them. -/
structure FileName (name : Bytes) : Prop where
  ne_nil : name ≠ []
  ne_dot : name ≠ bytes "."
  ne_dots : name ≠ bytes ".."
  no_slash : 47 ∉ name
  no_nul : 0 ∉ name

def pathOf (p : List Bytes) : Bytes := [47].intercalate p

/-- A site, in which nothing changes while it is backed up. -/
structure Site where
  files : Files
  /-- What `scandir` lists of a directory, without `.` and `..`; links and the like too. -/
  names : List Bytes → List Bytes
  /-- The path can be opened for reading. -/
  opens : Bytes → Bool
  mtime : Bytes → ℕ
  /-- `snapshot_db`: SQLite's copy of a database. -/
  snapshot : Bytes → Option Bytes
  /-- SQLite copies files only. -/
  snapshot_file : ∀ path data, snapshot path = some data → (files.file? (resolve path)).isSome
  names_ok : ∀ p, ∀ name ∈ names p, FileName name
  names_all : ∀ p name, files.Exists (p ++ [name]) → name ∈ names p
  /-- No path is longer than those that system calls take. -/
  short : ∀ p, ∀ name ∈ names p, (pathOf (p ++ [name])).length < pathMax

/-- A file in the archive: `path`, `kind` and what is read of it. -/
structure Entry where
  path : Bytes
  kind : Bytes
  data : Bytes
  mtime : ℕ

/-- The results for all items, one after the other, if none fails. -/
def collect {α β : Type} (f : α → Option (List β)) : List α → Option (List β)
  | [] => some []
  | a :: as => do
    let found ← f a
    let rest ← collect f as
    some (found ++ rest)

namespace Site

variable (s : Site)

/-- `access` with `R_OK` -/
def readable (path : Bytes) : Bool := decide (s.files.Exists (resolve path)) && s.opens path

/-- What `tar_put_file` writes of a file. -/
def putFile (path : Bytes) : Option Bytes :=
  match s.files.file? (resolve path) with
  | some data => if s.opens path ∧ data.length < 8 ^ 11 then some data else none
  | none => none

/-- `add_entry` of a file of the site -/
def addEntry (kind path : Bytes) : Option (List Entry) :=
  (s.putFile path).map fun data => [⟨path, kind, data, s.mtime path⟩]

def addDb (path : Bytes) : Option (List Entry) :=
  if s.readable path then
    match s.snapshot path with
    | some data =>
      if data.length < 8 ^ 11 then some [⟨path, bytes "db", data, s.mtime path⟩] else none
    | none => none
  else some []

def addSettings (path : Bytes) : Option (List Entry) :=
  if s.readable path then s.addEntry (bytes "settings") path else some []

/-- `add_dir`; the depth is that of the stack. -/
def addDir : ℕ → Bytes → Option (List Entry)
  | 0, _ => none
  | depth + 1, dir =>
    match s.files.node (resolve dir) with
    | none => some []
    | some (.file _) => none
    | some .dir =>
      if s.opens dir then
        collect (fun name =>
          let path := snprintfS pathMax (dir ++ 47 :: name)
          match s.files.node (resolve path) with
          | some .dir => addDir depth path
          | some (.file _) => s.addEntry (bytes "file") path
          | none => some []) (s.names (resolve dir))
      else none

def backupEntries : Option (List Entry) := do
  let dbs ← collect s.addDb dbPaths
  let texts ← collect s.addSettings settings
  let files ← collect (s.addDir pathMax) fileDirs
  let es := dbs ++ texts ++ files
  if es.length ≤ 999999 then some es else none

/-- The secrets that are sealed: the others cannot be read, or are too large. -/
def sealedFiles : List (Bytes × Bytes) :=
  secretPaths.filterMap fun path =>
    match s.files.file? (resolve path) with
    | some data => if s.opens path ∧ data.length ≤ maxSecrets / 4 then some (path, data) else none
    | none => none

end Site

/-! ## What is written -/

structure Env where
  /-- The signing key is registered in the database, and the archive can be begun. -/
  ready : Bool
  compress : Bytes → Bytes
  /-- `cJSON_Print` -/
  print : Doc → Option Bytes
  printUnformatted : Doc → Option Bytes
  keyId : Bytes
  publicKey : Bytes
  sign : Bytes → Option Bytes
  salt : Bytes
  nonce : Bytes
  /-- The key, the nonce and the text. -/
  aeadSeal : Bytes → Bytes → Bytes → Option Bytes
  createdAt : Bytes
  sourceHost : Bytes
  posts : ℕ
  signedPosts : ℕ
  checkpoint : ℤ
  times : Bytes → ℕ
  /-- The archive can be finished and renamed. -/
  stored : Bool
  salt_length : salt.length = 16
  nonce_length : nonce.length = 12
  no_nul : ∀ text ∈ [keyId, publicKey, createdAt, sourceHost], 0 ∉ text
  posts_int : posts < 2 ^ 31
  signedPosts_int : signedPosts < 2 ^ 31
  checkpoint_exact : Doc.Exact checkpoint

def entryDoc (n : ℕ) (e : Entry) : Doc :=
  .obj [(bytes "path", .str e.path), (bytes "blob", .str (blobName n)),
    (bytes "size", .num e.data.length), (bytes "sha256", .str (Sha256.hexDigest e.data)),
    (bytes "kind", .str e.kind)]

/-- The entries for blobs with the numbers from `n` on. -/
def entryDocs : ℕ → List Entry → List Doc
  | _, [] => []
  | n, e :: es => entryDoc n e :: entryDocs (n + 1) es

def secretDoc (f : Bytes × Bytes) : Doc :=
  .obj [(bytes "path", .str f.1), (bytes "data", .str (Base64.encode f.2))]

def secretsDoc (files : List (Bytes × Bytes)) : Doc :=
  .obj [(bytes "files", .arr (files.map secretDoc))]

section Write

variable (x : Codecs) (env : Env)

def sealDoc (files : List (Bytes × Bytes)) (block : Bytes) : Doc :=
  .obj [(bytes "cipher", .str (bytes "aes-256-gcm")), (bytes "kdf", .str (bytes "scrypt")),
    (bytes "N", .num 131072), (bytes "r", .num 8), (bytes "p", .num 1),
    (bytes "salt", .str (Base64.encode env.salt)), (bytes "nonce", .str (Base64.encode env.nonce)),
    (bytes "sha256", .str (Sha256.hexDigest block)), (bytes "files", .num files.length)]

/-- `seal_secrets` -/
def sealSecrets (pass : Bytes) (files : List (Bytes × Bytes)) : Option Bytes := do
  let plain ← env.printUnformatted (secretsDoc files)
  let key ← x.deriveKey pass env.salt
  env.aeadSeal key env.nonce plain

def manifestDoc (es : List Entry) (secrets : Option Doc) : Doc :=
  .obj ([(bytes "format", .str (bytes "fly.board-backup")), (bytes "version", .num 1),
    (bytes "created_at", .str env.createdAt), (bytes "source_host", .str env.sourceHost),
    (bytes "signing_key",
      .obj [(bytes "key_id", .str env.keyId), (bytes "public_key", .str env.publicKey)]),
    (bytes "counts",
      .obj [(bytes "posts", .num env.posts), (bytes "signed_posts", .num env.signedPosts),
        (bytes "files", .num es.length),
        (bytes "bytes", .num ((es.map fun e => e.data.length).sum : ℕ))]),
    (bytes "flywire_checkpoint", .num env.checkpoint)] ++
    secrets.toList.map (fun d => (bytes "secrets", d)) ++
    [(bytes "entries", .arr (entryDocs 1 es))])

def contents (es : List Entry) (block : Option Bytes) (manifest signature : Bytes) : Contents :=
  ⟨es.map fun e => (e.data, e.mtime), block, manifest, signature, env.times⟩

def secretBlock (s : Site) (pass : Option Bytes) : Option (Option Bytes) :=
  match pass with
  | some (c :: cs) => (sealSecrets x env (c :: cs) s.sealedFiles).map some
  | _ => some none

def manifestText (s : Site) (pass : Option Bytes) : Option Bytes := do
  let es ← s.backupEntries
  let block ← secretBlock x env s pass
  env.print (manifestDoc env es (block.map (sealDoc env s.sealedFiles)))

/-- `fly_backup_write`: the archive, if it is written. -/
def flyBackupWrite (s : Site) (pass : Option Bytes) : Option Bytes := do
  if env.ready && s.readable (bytes "data/blog.db") then
    let es ← s.backupEntries
    let block ← secretBlock x env s pass
    let manifest ← env.print (manifestDoc env es (block.map (sealDoc env s.sealedFiles)))
    let signature ← env.sign manifest
    if env.stored then
      some (env.compress (tarStream (contents env es block manifest signature).members))
    else none
  else none

end Write

/-- `cmd_verify`: the archive is accepted, and the passphrase, if one is given, opens its
secrets. -/
def cmdVerify (x : Codecs) (archive : Bytes) (pass : Option Bytes) : Bool :=
  Option.isSome do
    let a ← readArchive x (fun _ => true) archive
    let m ← checkArchive x a
    secretFiles x m a pass

end FlyBoard.Backup

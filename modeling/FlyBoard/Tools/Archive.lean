import FlyBoard.Lib.Base64
import FlyBoard.Lib.Sha256

/-!
# The backup archive (`src/tools/backup.c`)

An archive is a compressed tar stream of numbered blobs, a block of sealed secrets, a manifest
and its signature. Here are the tar members as they are written and read, `read_archive` and
the check of what it has read.

zstd, cJSON, scrypt, AES-GCM and ML-DSA are parameters.
-/

namespace FlyBoard.Archive

open Bytes

/-! ## tar -/

/-- `%0wo` -/
def octal : ℕ → ℕ → Bytes
  | 0, _ => []
  | w + 1, n => octal w (n / 8) ++ [UInt8.ofNat (48 + n % 8)]

def isOctal (c : UInt8) : Bool := 48 ≤ c && c ≤ 55

/-- `parse_octal` -/
def parseOctal (p : Bytes) : ℕ :=
  (p.takeWhile isOctal).foldl (fun v c => 8 * v + (c.toNat - 48)) 0

/-- A text in a field of `n` bytes. -/
def field (n : ℕ) (s : Bytes) : Bytes := (s ++ List.replicate n 0).take n

def byteSum (h : Bytes) : ℕ := (h.map UInt8.toNat).sum

def headerWith (sum name : Bytes) (size mtime : ℕ) : Bytes :=
  (field 100 (snprintfS 100 name) ++ field 8 (octal 7 0o644) ++ field 8 (octal 7 0) ++
    field 8 (octal 7 0) ++ field 12 (octal 11 size) ++ field 12 (octal 11 mtime)) ++ sum ++
    (48 :: List.replicate 100 0 ++ bytes "ustar" ++ [0] ++ bytes "00" ++ List.replicate 247 0)

def blanks : Bytes := List.replicate 8 32

/-- `tar_header`. The digits of `size` and `mtime` are those of the last 33 bits. -/
def tarHeader (name : Bytes) (size mtime : ℕ) : Bytes :=
  headerWith (octal 6 (byteSum (headerWith blanks name size mtime)) ++ [0, 32]) name size mtime

/-- `tar_header_valid` -/
def tarHeaderValid (h : Bytes) : Bool :=
  byteSum (h.take 148 ++ blanks ++ h.drop 156) == parseOctal ((h.drop 148).take 8) &&
    (h.drop 257).take 5 == bytes "ustar"

def zeros (n : ℕ) : Bytes := List.replicate n 0

/-- `tar_pad` -/
def padSize (size : ℕ) : ℕ := (512 - size % 512) % 512

/-- A member: `tar_put_mem` and, but for a file that shrinks, `tar_put_file`. -/
structure Member where
  name : Bytes
  data : Bytes
  mtime : ℕ

def Member.written (m : Member) : Bytes :=
  tarHeader m.name m.data.length m.mtime ++ m.data ++ zeros (padSize m.data.length)

/-! ## Documents -/

/-- A cJSON document. Of a number only the whole part is looked at. -/
inductive Doc where
  | null
  | bool (b : Bool)
  | num (n : ℤ)
  | str (s : Bytes)
  | arr (items : List Doc)
  | obj (members : List (Bytes × Doc))

namespace Doc

/-- `cJSON_GetObjectItem`: the case of the key does not matter. -/
def item (d : Doc) (key : Bytes) : Option Doc :=
  match d with
  | obj members => (members.find? fun m => eqCI m.1 key).map Prod.snd
  | _ => none

/-- What `cJSON_ArrayForEach` goes through. -/
def items : Doc → List Doc
  | arr items => items
  | obj members => members.map Prod.snd
  | _ => []

/-- `valuestring` of a string. -/
def text? : Doc → Option Bytes
  | str s => some s
  | _ => none

def isObject : Doc → Bool
  | obj _ => true
  | _ => false

def text (d : Doc) (key : String) : Option Bytes := (d.item (bytes key)).bind text?

def toInt (n : ℤ) : ℤ := if -2 ^ 31 ≤ n ∧ n < 2 ^ 31 then n else -2 ^ 31

/-- `jint` -/
def jint (d : Doc) (key : String) (default : ℤ) : ℤ :=
  match d.item (bytes key) with
  | some (num n) => toInt n
  | _ => default

mutual

def same : Doc → Doc → Bool
  | null, null => true
  | bool b, bool c => b == c
  | num n, num m => n == m
  | str s, str t => s == t
  | arr items, arr items' => sameItems items items'
  | obj members, obj members' => sameMembers members members'
  | _, _ => false

def sameItems : List Doc → List Doc → Bool
  | [], [] => true
  | d :: ds, e :: es => same d e && sameItems ds es
  | _, _ => false

def sameMembers : List (Bytes × Doc) → List (Bytes × Doc) → Bool
  | [], [] => true
  | (key, d) :: ds, (key', e) :: es => key == key' && same d e && sameMembers ds es
  | _, _ => false

end

mutual

theorem same_iff : ∀ d e, same d e = true ↔ d = e
  | null, e => by cases e <;> simp [same]
  | bool b, e => by cases e <;> simp [same]
  | num n, e => by cases e <;> simp [same]
  | str s, e => by cases e <;> simp [same]
  | arr items, e => by
    cases e with
    | arr items' => simp [same, sameItems_iff items items']
    | _ => simp [same]
  | obj members, e => by
    cases e with
    | obj members' => simp [same, sameMembers_iff members members']
    | _ => simp [same]

theorem sameItems_iff : ∀ ds es, sameItems ds es = true ↔ ds = es
  | [], es => by cases es <;> simp [sameItems]
  | d :: ds, es => by
    cases es with
    | nil => simp [sameItems]
    | cons e es => simp [sameItems, same_iff d e, sameItems_iff ds es]

theorem sameMembers_iff : ∀ ds es, sameMembers ds es = true ↔ ds = es
  | [], es => by cases es <;> simp [sameMembers]
  | (key, d) :: ds, es => by
    cases es with
    | nil => simp [sameMembers]
    | cons e es =>
      rcases e with ⟨key', e⟩
      simp [sameMembers, same_iff d e, sameMembers_iff ds es]

end

instance : DecidableEq Doc := fun d e => decidable_of_iff _ (same_iff d e)

/-- A whole number that a double holds. -/
def Exact (n : ℤ) : Prop := ∃ m : ℤ, ∃ e : ℕ, m.natAbs < 2 ^ 53 ∧ n = m * 2 ^ e

/-- A document that is read as it is printed: texts end at a NUL, and numbers are doubles. -/
inductive Printable : Doc → Prop where
  | null : Printable null
  | bool (b : Bool) : Printable (bool b)
  | num {n : ℤ} (hn : Exact n) : Printable (num n)
  | str {s : Bytes} (hs : 0 ∉ s) : Printable (str s)
  | arr {items : List Doc} (hitems : ∀ d ∈ items, Printable d) : Printable (arr items)
  | obj {members : List (Bytes × Doc)} (hkeys : ∀ m ∈ members, 0 ∉ m.1)
    (hdocs : ∀ m ∈ members, Printable m.2) : Printable (obj members)

theorem exact_natCast {n : ℕ} (h : n < 2 ^ 53) : Exact n := ⟨n, 0, h, (Int.mul_one _).symm⟩

end Doc

structure Codecs where
  /-- What comes out of a zstd stream before it ends or is found corrupt. -/
  decompress : Bytes → Bytes
  parse : Bytes → Option Doc
  keyIdOf : Bytes → Option Bytes
  /-- The public key, the manifest and the signature. -/
  verifyManifest : Bytes → Bytes → Bytes → Bool
  /-- The passphrase and the salt. -/
  deriveKey : Bytes → Bytes → Option Bytes
  /-- The key, the nonce and the sealed block. -/
  aeadOpen : Bytes → Bytes → Bytes → Option Bytes

/-! ## Reading -/

/-- A blob as it went by, with its bytes, which a restore keeps in its staging directory. -/
structure Blob where
  name : Bytes
  sha256 : Bytes
  size : ℕ
  content : Bytes

/-- `archive_read_t` -/
structure ArchiveRead where
  blobs : List Blob
  manifest : Option Bytes
  signature : Option Bytes
  secrets : Option Bytes

def ArchiveRead.empty : ArchiveRead := ⟨[], none, none, none⟩

/-- `blob_name_ok` -/
def blobNameOk (name : Bytes) : Bool :=
  name.take 2 == bytes "b/" && name.length == 8 && (name.drop 2).all isDigit

def maxManifest : ℕ := 64 * 1024 * 1024

def maxSecrets : ℕ := 1024 * 1024

def ArchiveRead.blob? (a : ArchiveRead) (name : Bytes) : Option Blob :=
  a.blobs.find? fun b => eqCI b.name name

def ArchiveRead.admits (a : ArchiveRead) (name : Bytes) (size : ℕ) : Bool :=
  (a.blob? name).isNone &&
    (blobNameOk name ||
      name == bytes "secrets.enc" && a.secrets.isNone && size ≤ maxSecrets ||
      name == bytes "manifest.json" && a.manifest.isNone && size ≤ maxManifest ||
      name == bytes "manifest.sig" && a.signature.isNone && size ≤ 16384)

def firstLine (s : Bytes) : Bytes := s.takeWhile fun c => c != 13 && c != 10

def ArchiveRead.add (a : ArchiveRead) (name data : Bytes) : ArchiveRead :=
  if blobNameOk name then
    { a with blobs := a.blobs ++ [⟨name, Sha256.hexDigest data, data.length, data⟩] }
  else if name = bytes "manifest.json" then { a with manifest := some data }
  else if name = bytes "manifest.sig" then { a with signature := some (firstLine (cstr data)) }
  else { a with secrets := some data }

/-- The loop of `read_archive`. `staged` says whether the blob of a name can be written to the
staging directory. -/
def readMembers (staged : Bytes → Bool) : ℕ → ArchiveRead → Bytes → Option ArchiveRead
  | 0, _, _ => none
  | fuel + 1, a, s =>
    let h := s.take 512
    let name := cstr (h.take 100)
    let size := parseOctal ((h.drop 124).take 12)
    let rest := s.drop 512
    if s.length < 512 then none
    else if h = zeros 512 then some a
    else if !tarHeaderValid h || !a.admits name size then none
    else if blobNameOk name && !staged name then none
    else if rest.length < size + padSize size then none
    else
      readMembers staged fuel (a.add name (rest.take size)) (rest.drop (size + padSize size))

section Read

variable (x : Codecs)

/-- `read_archive` -/
def readArchive (staged : Bytes → Bool) (file : Bytes) : Option ArchiveRead := do
  let stream := x.decompress file
  let a ← readMembers staged (stream.length + 1) .empty stream
  if a.manifest.isSome && a.signature.isSome then some a else none

/-! ## Checking -/

def dbPaths : List Bytes := ["data/blog.db", "data/comments.db", "data/board_tree.db"].map bytes

def fileDirs : List Bytes := ["public/uploads", "public/profile", "public/img"].map bytes

def settings : List Bytes :=
  ["blog.settings", "fonts.settings", "robots.settings", "upload.settings"].map bytes

def seedPath : Bytes := bytes "data/.pqc_mldsa65_seed"

def secretPaths : List Bytes :=
  seedPath :: ["data/.jwt_secret", "admin.settings", "s3.settings", "backup.settings"].map bytes

def belowDir (dir p : Bytes) : Bool := startsWith p (dir ++ [47]) && dir.length + 1 < p.length

/-- `restore_path_ok` -/
def restorePathOk (p : Bytes) : Bool :=
  p != [] && p.head? != some 47 && !hasSub p (bytes "..") && !hasSub p (bytes "//") &&
    !p.contains 92 &&
    (dbPaths.contains p || settings.contains p || secretPaths.contains p ||
      fileDirs.any fun d => belowDir d p)

/-- `secret_path_ok` -/
def secretPathOk (p : Bytes) : Bool := secretPaths.contains p

def entryOk (a : ArchiveRead) (e : Doc) : Bool :=
  match e.text "path", (e.text "blob").bind a.blob? with
  | some path, some seen =>
    restorePathOk path && !secretPathOk path && e.text "sha256" == some seen.sha256 &&
      Doc.toInt seen.size == e.jint "size" (-2)
  | _, _ => false

def secretsOk (a : ArchiveRead) (m : Doc) : Bool :=
  match m.item (bytes "secrets") with
  | some (.obj members) =>
    match a.secrets, (Doc.obj members).text "sha256" with
    | some sealedBlock, some sha => Sha256.hexDigest sealedBlock == sha
    | _, _ => false
  | _ => true

def entries (m : Doc) : List Doc := ((m.item (bytes "entries")).map Doc.items).getD []

/-- `check_archive` -/
def checkArchive (a : ArchiveRead) : Option Doc := do
  let manifest ← a.manifest
  let signature ← a.signature
  let m ← x.parse manifest
  let pk ← (m.item (bytes "signing_key")).bind fun key => key.text "public_key"
  let _ ← x.keyIdOf pk
  if m.text "format" == some (bytes "fly.board-backup") && m.jint "version" 0 == 1 &&
      x.verifyManifest pk manifest signature && (entries m).all (entryOk a) && secretsOk a m
  then some m else none

/-! ## Secrets -/

/-- `b64_decode` -/
def b64Decode (s : Bytes) : Option Bytes :=
  if s.length = 0 ∨ s.length % 4 ≠ 0 then none
  else
    (Base64.decode (trimRight (fun c => isBlank c || c == 13 || c == 10) (trimLeft isBlank s))).map
      fun out => out.take (out.length - Base64.padding s)

/-- `open_secrets` -/
def openSecrets (pass : Bytes) (desc : Doc) (sealedBlock : Bytes) : Option Doc := do
  if desc.jint "N" 0 == 131072 && desc.jint "r" 0 == 8 && desc.jint "p" 0 == 1 then
    let salt ← (desc.text "salt").bind b64Decode
    let nonce ← (desc.text "nonce").bind b64Decode
    if nonce.length = 12 then
      let key ← x.deriveKey pass salt
      let plain ← x.aeadOpen key nonce sealedBlock
      x.parse plain
    else none
  else none

end Read

/-! ## Reading what is written -/

theorem length_octal (w n : ℕ) : (octal w n).length = w := by
  induction w generalizing n with
  | zero => rfl
  | succ w ih => rw [octal, List.length_append, ih, List.length_singleton]

theorem toNat_octalDigit (n : ℕ) : (UInt8.ofNat (48 + n % 8)).toNat = 48 + n % 8 := by
  rw [UInt8.toNat_ofNat']
  omega

theorem isOctal_of_mem_octal {w n : ℕ} {c : UInt8} (h : c ∈ octal w n) : isOctal c = true := by
  induction w generalizing n with
  | zero => exact absurd h List.not_mem_nil
  | succ w ih =>
    rw [octal, List.mem_append, List.mem_singleton] at h
    rcases h with h | rfl
    · exact ih h
    · have hlt := Nat.mod_lt n (by decide : 8 > 0)
      rw [isOctal, Bool.and_eq_true, decide_eq_true_eq, decide_eq_true_eq, UInt8.le_iff_toNat_le,
        UInt8.le_iff_toNat_le, toNat_octalDigit]
      constructor
      · exact Nat.le_add_right 48 _
      · show 48 + n % 8 ≤ 55
        omega

theorem foldl_octal (w n : ℕ) :
    (octal w n).foldl (fun v c => 8 * v + (c.toNat - 48)) 0 = n % 8 ^ w := by
  induction w generalizing n with
  | zero => rw [Nat.pow_zero, Nat.mod_one]; rfl
  | succ w ih =>
    rw [octal, List.foldl_append, ih, List.foldl_cons, List.foldl_nil, toNat_octalDigit,
      Nat.add_sub_cancel_left, Nat.pow_succ, Nat.mul_comm (8 ^ w) 8, Nat.mod_mul]
    omega

theorem parseOctal_octal (w n : ℕ) {rest : Bytes} (h : ∀ c ∈ rest.head?, isOctal c = false) :
    parseOctal (octal w n ++ rest) = n % 8 ^ w := by
  have hdigits : (octal w n ++ rest).takeWhile isOctal = octal w n := by
    rw [List.takeWhile_append_of_pos fun c hc => isOctal_of_mem_octal hc]
    cases rest with
    | nil => rw [List.takeWhile_nil, List.append_nil]
    | cons c rest =>
      rw [List.takeWhile_cons_of_neg (by rw [h c rfl]; decide), List.append_nil]
  rw [parseOctal, hdigits, foldl_octal]

theorem length_field (n : ℕ) (s : Bytes) : (field n s).length = n := by
  rw [field, List.length_take, List.length_append, List.length_replicate]
  omega

theorem field_of_le {n : ℕ} {s : Bytes} (h : s.length ≤ n) :
    field n s = s ++ zeros (n - s.length) := by
  rw [field, List.take_append, List.take_of_length_le h, List.take_replicate, zeros]
  congr 2
  omega

def headerStart (name : Bytes) (size mtime : ℕ) : Bytes :=
  field 100 (snprintfS 100 name) ++ (field 8 (octal 7 0o644) ++ (field 8 (octal 7 0) ++
    field 8 (octal 7 0))) ++ (field 12 (octal 11 size) ++ field 12 (octal 11 mtime))

theorem length_headerStart (name : Bytes) (size mtime : ℕ) :
    (headerStart name size mtime).length = 148 := by
  simp only [headerStart, List.length_append, length_field]

def headerEnd : Bytes :=
  48 :: List.replicate 100 0 ++ bytes "ustar" ++ [0] ++ bytes "00" ++ List.replicate 247 0

theorem headerWith_eq (sum name : Bytes) (size mtime : ℕ) :
    headerWith sum name size mtime = headerStart name size mtime ++ (sum ++ headerEnd) := by
  simp only [headerWith, headerStart, headerEnd, List.append_assoc]

theorem length_headerWith {sum : Bytes} (h : sum.length = 8) (name : Bytes) (size mtime : ℕ) :
    (headerWith sum name size mtime).length = 512 := by
  have hend : headerEnd.length = 356 := by decide +kernel
  rw [headerWith_eq, List.length_append, length_headerStart, List.length_append, h, hend]

theorem length_checksum (n : ℕ) : (octal 6 n ++ [0, 32]).length = 8 := by
  rw [List.length_append, length_octal]
  rfl

theorem length_tarHeader (name : Bytes) (size mtime : ℕ) :
    (tarHeader name size mtime).length = 512 :=
  length_headerWith (length_checksum _) name size mtime

theorem byteSum_le (h : Bytes) : byteSum h ≤ 255 * h.length := by
  induction h with
  | nil => exact Nat.le_refl 0
  | cons c h ih =>
    rw [byteSum] at ih
    rw [byteSum, List.map_cons, List.sum_cons, List.length_cons]
    have hc := c.toNat_lt
    omega

theorem tarHeaderValid_tarHeader (name : Bytes) (size mtime : ℕ) :
    tarHeaderValid (tarHeader name size mtime) = true := by
  have hsum : byteSum (headerWith blanks name size mtime) < 8 ^ 6 := by
    have hle := byteSum_le (headerWith blanks name size mtime)
    rw [length_headerWith (by decide)] at hle
    exact lt_of_le_of_lt hle (by decide)
  generalize hn : byteSum (headerWith blanks name size mtime) = n at hsum
  have hstart := length_headerStart name size mtime
  have hhead : tarHeader name size mtime =
      headerStart name size mtime ++ (octal 6 n ++ [0, 32] ++ headerEnd) := by
    rw [tarHeader, headerWith_eq, hn]
  have hcheck := length_checksum n
  rw [tarHeaderValid, hhead, Bool.and_eq_true, beq_iff_eq, beq_iff_eq]
  constructor
  · have htake : (headerStart name size mtime ++ (octal 6 n ++ [0, 32] ++ headerEnd)).take 148 =
        headerStart name size mtime := by
      rw [← hstart, List.take_left]
    have hdrop : (headerStart name size mtime ++ (octal 6 n ++ [0, 32] ++ headerEnd)).drop 156 =
        headerEnd := by
      rw [← List.append_assoc, List.drop_left' (by rw [List.length_append, hstart, hcheck])]
    have hfield : ((headerStart name size mtime ++
        (octal 6 n ++ [0, 32] ++ headerEnd)).drop 148).take 8 = octal 6 n ++ [0, 32] := by
      rw [List.drop_left' hstart, List.take_left' hcheck]
    rw [htake, hdrop, hfield, parseOctal_octal 6 n (by rintro c ⟨⟩; rfl), Nat.mod_eq_of_lt hsum, ← hn,
      headerWith_eq, List.append_assoc]
  · have hend : headerEnd = 48 :: List.replicate 100 0 ++
        (bytes "ustar" ++ ([0] ++ bytes "00" ++ List.replicate 247 0)) := by
      simp only [headerEnd, List.append_assoc]
    rw [hend, ← List.append_assoc, ← List.append_assoc, List.drop_left', List.take_left']
    · rfl
    · rw [List.length_append, List.length_append, hstart, hcheck]
      rfl

theorem tarHeader_ne_zeros (name : Bytes) (size mtime : ℕ) :
    tarHeader name size mtime ≠ zeros 512 := by
  intro heq
  have hmem : (48 : UInt8) ∈ tarHeader name size mtime := by
    rw [tarHeader, headerWith_eq]
    exact List.mem_append_right _ (List.mem_append_right _ (by decide))
  rw [heq] at hmem
  exact absurd (List.eq_of_mem_replicate hmem) (by decide)

def HeaderName (name : Bytes) : Prop := name.length ≤ 99 ∧ 0 ∉ name

theorem name_tarHeader {name : Bytes} (h : HeaderName name) (size mtime : ℕ) :
    cstr ((tarHeader name size mtime).take 100) = name := by
  have hfield : (tarHeader name size mtime).take 100 = name ++ zeros (100 - name.length) := by
    rw [tarHeader, headerWith_eq, headerStart, List.append_assoc, List.append_assoc,
      List.take_left' (length_field 100 _), snprintfS, List.take_of_length_le h.1,
      field_of_le (h.1.trans (by decide))]
  have hpos : 100 - name.length = (99 - name.length) + 1 := by
    have hle := h.1
    omega
  rw [hfield, cstr, hpos, zeros, List.replicate_succ,
    List.takeWhile_append_of_pos fun c hc => by
      rw [bne_iff_ne]
      rintro rfl
      exact h.2 hc]
  rw [List.takeWhile_cons_of_neg (by decide), List.append_nil]

theorem size_tarHeader (name : Bytes) {size : ℕ} (h : size < 8 ^ 11) (mtime : ℕ) :
    parseOctal (((tarHeader name size mtime).drop 124).take 12) = size := by
  have hfield : ((tarHeader name size mtime).drop 124).take 12 = octal 11 size ++ [0] := by
    have hbefore : (field 100 (snprintfS 100 name) ++ (field 8 (octal 7 0o644) ++
        (field 8 (octal 7 0) ++ field 8 (octal 7 0)))).length = 124 := by
      simp only [List.length_append, length_field]
    have hdigits : field 12 (octal 11 size) = octal 11 size ++ [0] := by
      rw [field_of_le (by rw [length_octal]; decide), length_octal]
      rfl
    have hsplit (x : Bytes) : headerStart name size mtime ++ x =
        (field 100 (snprintfS 100 name) ++ (field 8 (octal 7 0o644) ++ (field 8 (octal 7 0) ++
          field 8 (octal 7 0)))) ++ (field 12 (octal 11 size) ++ (field 12 (octal 11 mtime) ++ x)) := by
      simp only [headerStart, List.append_assoc]
    rw [tarHeader, headerWith_eq, hsplit, List.drop_left' hbefore, List.take_left' (length_field 12 _),
      hdigits]
  rw [hfield, parseOctal_octal 11 size (by rintro c ⟨⟩; rfl), Nat.mod_eq_of_lt h]

def tarStream (ms : List Member) : Bytes := ms.flatMap Member.written ++ (zeros 512 ++ zeros 512)

theorem readMembers_written (staged : Bytes → Bool) (fuel : ℕ) (a : ArchiveRead) {m : Member}
    (hname : HeaderName m.name) (hsize : m.data.length < 8 ^ 11) (rest : Bytes) :
    readMembers staged (fuel + 1) a (m.written ++ rest) =
      if a.admits m.name m.data.length && (!blobNameOk m.name || staged m.name) then
        readMembers staged fuel (a.add m.name m.data) rest
      else none := by
  have hhead := length_tarHeader m.name m.data.length m.mtime
  have hwritten : m.written ++ rest = tarHeader m.name m.data.length m.mtime ++
      (m.data ++ (zeros (padSize m.data.length) ++ rest)) := by
    simp only [Member.written, List.append_assoc]
  have htake : (m.written ++ rest).take 512 = tarHeader m.name m.data.length m.mtime := by
    rw [hwritten, List.take_left' hhead]
  have hdrop : (m.written ++ rest).drop 512 =
      m.data ++ (zeros (padSize m.data.length) ++ rest) := by
    rw [hwritten, List.drop_left' hhead]
  have hlen : ¬ (m.written ++ rest).length < 512 := by
    rw [hwritten, List.length_append, hhead]
    exact Nat.not_lt.mpr (Nat.le_add_right _ _)
  have hrest : ¬ (m.data ++ (zeros (padSize m.data.length) ++ rest)).length <
      m.data.length + padSize m.data.length := by
    rw [List.length_append, List.length_append, zeros, List.length_replicate]
    omega
  have hpad : (m.data ++ (zeros (padSize m.data.length) ++ rest)).drop
      (m.data.length + padSize m.data.length) = rest := by
    rw [← List.append_assoc, List.drop_left']
    rw [List.length_append, zeros, List.length_replicate]
  rw [readMembers]
  simp only [htake, hdrop, name_tarHeader hname, size_tarHeader m.name hsize, hlen, if_false,
    tarHeader_ne_zeros, tarHeaderValid_tarHeader, Bool.not_true, Bool.false_or, hrest, hpad,
    List.take_left]
  cases a.admits m.name m.data.length with
  | false => rfl
  | true =>
    cases blobNameOk m.name with
    | false => rfl
    | true =>
      cases staged m.name with
      | false => rfl
      | true => rfl

theorem readMembers_end (staged : Bytes → Bool) (fuel : ℕ) (a : ArchiveRead) (rest : Bytes) :
    readMembers staged (fuel + 1) a (zeros 512 ++ rest) = some a := by
  have hlen : (zeros 512).length = 512 := List.length_replicate
  have hshort : ¬ (zeros 512 ++ rest).length < 512 := by
    rw [List.length_append, hlen]
    exact Nat.not_lt.mpr (Nat.le_add_right _ _)
  rw [readMembers]
  simp only [hshort, if_false, List.take_left' hlen, if_true]

def ArchiveRead.next (staged : Bytes → Bool) (a : ArchiveRead) (m : Member) : Option ArchiveRead :=
  if a.admits m.name m.data.length && (!blobNameOk m.name || staged m.name) then
    some (a.add m.name m.data)
  else none

theorem readMembers_tarStream (staged : Bytes → Bool) {ms : List Member}
    (h : ∀ m ∈ ms, HeaderName m.name ∧ m.data.length < 8 ^ 11) {fuel : ℕ} (hfuel : ms.length < fuel)
    (a : ArchiveRead) :
    readMembers staged fuel a (tarStream ms) = ms.foldlM (ArchiveRead.next staged) a := by
  induction ms generalizing fuel a with
  | nil =>
    cases fuel with
    | zero => exact absurd hfuel (Nat.not_lt_zero _)
    | succ fuel => exact readMembers_end staged fuel a (zeros 512)
  | cons m ms ih =>
    cases fuel with
    | zero => exact absurd hfuel (Nat.not_lt_zero _)
    | succ fuel =>
      rcases h m List.mem_cons_self with ⟨hname, hsize⟩
      have hrest := ih (fun m' hm' => h m' (List.mem_cons_of_mem _ hm')) (Nat.lt_of_succ_lt_succ hfuel)
      have hstream : tarStream (m :: ms) = m.written ++ tarStream ms := by
        rw [tarStream, List.flatMap_cons, List.append_assoc, tarStream]
      rw [hstream, readMembers_written staged fuel a hname hsize, List.foldlM_cons, ArchiveRead.next]
      split
      · exact hrest _
      · rfl

theorem length_le_tarStream (ms : List Member) : ms.length ≤ (tarStream ms).length := by
  induction ms with
  | nil => exact Nat.zero_le _
  | cons m ms ih =>
    have hstream : tarStream (m :: ms) = m.written ++ tarStream ms := by
      rw [tarStream, List.flatMap_cons, List.append_assoc, tarStream]
    rw [hstream, List.length_append, Member.written, List.append_assoc, List.length_append,
      length_tarHeader, List.length_cons]
    omega

theorem readArchive_tarStream (x : Codecs) (staged : Bytes → Bool) {file : Bytes}
    {ms : List Member} (hfile : x.decompress file = tarStream ms)
    (h : ∀ m ∈ ms, HeaderName m.name ∧ m.data.length < 8 ^ 11) :
    readArchive x staged file = (do
      let a ← ms.foldlM (ArchiveRead.next staged) .empty
      if a.manifest.isSome && a.signature.isSome then some a else none) := by
  rw [readArchive, hfile]
  rw [readMembers_tarStream staged h (Nat.lt_succ_of_le (length_le_tarStream ms))]

end FlyBoard.Archive

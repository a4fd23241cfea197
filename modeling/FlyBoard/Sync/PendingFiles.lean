import FlyBoard.Lib.BoundedQueue
import FlyBoard.Lib.Bytes
import FlyBoard.Lib.Keyed
import FlyBoard.Lib.Run
import Mathlib.Data.List.Sort

/-!
# Fetching the bytes of files (`flywire_replica_iteration` in `src/engine/flywire.c`)

A replica gets the rows of `files` over the feed and their bytes by a download of their
own. Ids of rows whose bytes are missing wait in a queue of 64 places; every round takes
one id from the queue and tries one download, and the first round of a process scans the
whole table. This module asks when no missing file is forgotten.

The rounds are cut into their steps: a row is applied; then, when the page is done, the
table is scanned (once per process) and one file is fetched. A round whose poll fails does
neither.
-/

namespace FlyBoard.PendingFiles

open Bytes Keyed BoundedQueue

/-- `FLYWIRE_PENDING_MAX`. -/
abbrev pendingMax : Nat := 64

/-- `PATH_MAX`. -/
def pathMax : Nat := 4096

/-- A row of `files`. -/
structure FileRow where
  id : Int
  id_pos : 0 < id
  filePath : Option Bytes
  size : Int

abbrev Disk := Bytes → Option Nat

structure Replica where
  files : Table FileRow.id
  disk : Disk
  pending : Queue pendingMax Int
  badFilesQueued : Bool

/-! ## Bytes on disk -/

/-- A size that a row with this `size` can have; 0 is unknown. -/
def sizeOk (n : Nat) (expected : Int) : Bool :=
  if 0 < expected then (n : Int) == expected else 0 < n

/-- `flywire_file_bytes_ok`. -/
def flywireFileBytesOk (disk : Disk) (filePath : Bytes) (expected : Int) : Bool :=
  (disk filePath).any fun n => sizeOk n expected

/-- `file_path LIKE 'public/uploads/%'`. -/
def underUploads (filePath : Bytes) : Bool := startsWithCI filePath (bytes "public/uploads/")

/-- A row under `public/uploads` whose bytes are absent or of the wrong size. -/
def isBad (disk : Disk) (row : FileRow) : Bool :=
  row.filePath.any fun p => underUploads p && !flywireFileBytesOk disk p row.size

/-- What a download meets: whether the `.part` file opens and curl starts, the bytes the
`.part` file has in the end, whether the transfer is complete, its HTTP status, and whether
the file can be moved into place. -/
structure Transfer where
  opened : Bool
  started : Bool
  fetched : Nat
  complete : Bool
  status : Nat
  renamed : Bool

/-- Only such a response carries file bytes. -/
def Transfer.ok (tr : Transfer) : Bool := tr.complete && (tr.status == 200 || tr.status == 206)

/-- The name a download is written under. -/
def partPath (filePath : Bytes) : Bytes := filePath ++ bytes ".part"

/-- `flywire_download_bytes`. Nothing is written for an unsafe path, or when the bytes are
there already. -/
def flywireDownloadBytes (disk : Disk) (filePath : Bytes) (expected : Int) (tr : Transfer) : Disk :=
  if filePath.isEmpty || hasSub filePath (bytes "..") || startsWith filePath (bytes "/") ||
      flywireFileBytesOk disk filePath expected || pathMax ≤ (partPath filePath).length ||
      !tr.opened then disk
  else
    let disk := Function.update disk (partPath filePath) (some tr.fetched)
    if !tr.started then disk
    else if tr.ok && !flywireFileBytesOk disk (partPath filePath) expected then
      Function.update disk (partPath filePath) none
    else if tr.ok && tr.renamed then
      Function.update (Function.update disk (partPath filePath) none) filePath (some tr.fetched)
    -- a resumable rest of a transfer that broke off stays
    else if tr.status ≠ 200 ∧ tr.status ≠ 206 then Function.update disk (partPath filePath) none
    else disk

/-! ## The steps of a round -/

section Steps

variable (s : Replica)

/-- `flywire_enqueue_file`. -/
def flywireEnqueueFile (pending : Queue pendingMax Int) (fileId : Int) : Queue pendingMax Int :=
  if fileId ≤ 0 then pending else pending.enqueue fileId

def FileRow.wanted (disk : Disk) (row : FileRow) : Bool :=
  row.filePath.any fun p => !p.isEmpty && !flywireFileBytesOk disk p row.size

/-- `flywire_apply_row` for the upsert of a file. -/
def Replica.upsert (row : FileRow) : Replica :=
  { s with
    files := s.files.upsert row
    pending := if row.wanted s.disk then flywireEnqueueFile s.pending row.id else s.pending }

/-- The rows the scan finds, in the order it finds them. -/
def missing (files : Table FileRow.id) (disk : Disk) : List Int :=
  ((files.rows.filter (isBad disk)).map (·.id)).insertionSort (· ≤ ·)

/-- `flywire_queue_bad_files`, in the first round of the process whose poll succeeds. -/
def Replica.scan : Replica :=
  if s.badFilesQueued then s
  else
    { s with
      pending := (missing s.files s.disk).foldl flywireEnqueueFile s.pending
      badFilesQueued := true }

/-- `flywire_fetch_file_path`. -/
def Replica.flywireFetchFilePath (fileId : Int) : Option (Bytes × Int) :=
  (s.files.find? fileId).bind fun row => row.filePath.map fun p => (snprintfS pathMax p, row.size)

/-- `flywire_dequeue_file` and the download of that file. -/
def Replica.fetchNext (tr : Transfer) : Replica :=
  match s.pending.items.head? with
  | none => s
  | some fileId =>
    { s with
      pending := s.pending.dequeue
      disk := match s.flywireFetchFilePath fileId with
        | none => s.disk
        | some (filePath, expected) => flywireDownloadBytes s.disk filePath expected tr }

/-- What a round does after its rows. -/
def Replica.pass (tr : Transfer) : Replica := s.scan.fetchNext tr

def Replica.restart : Replica := { s with pending := .empty, badFilesQueued := false }

end Steps

inductive Event where
  | upsert (row : FileRow)
  | pass (tr : Transfer)
  | restart

def step (s : Replica) : Event → Replica
  | .upsert row => s.upsert row
  | .pass tr => s.pass tr
  | .restart => s.restart

def flywireReplicaIteration (s : Replica) (rows : List FileRow) (tr : Transfer) : Replica :=
  (rows.foldl Replica.upsert s).pass tr

theorem flywireReplicaIteration_eq_run (s : Replica) (rows : List FileRow) (tr : Transfer) :
    flywireReplicaIteration s rows tr = Run.run step s (rows.map .upsert ++ [.pass tr]) := by
  rw [flywireReplicaIteration, Run.run, List.foldl_append, List.foldl_map]
  rfl

/-! ## Files that are not forgotten -/

/-- One of these rounds, which bring no rows, puts the file in the queue. -/
def PutBack (s : Replica) (fileId : Int) : List Transfer → Prop
  | [] => False
  | tr :: later => fileId ∈ s.scan.pending ∨ PutBack (s.pass tr) fileId later

def Remembered (s : Replica) (fileId : Int) : Prop :=
  fileId ∈ s.pending ∨ ∀ later, later ≠ [] → PutBack s fileId later

def AllRemembered (s : Replica) : Prop :=
  ∀ row ∈ s.files.rows, isBad s.disk row = true → Remembered s row.id

/-! ## Downloads -/

/-- The download puts the file into place, with the right size. -/
def Fetches (filePath : Bytes) (expected : Int) (tr : Transfer) : Prop :=
  filePath ≠ [] ∧ hasSub filePath (bytes "..") = false ∧
    startsWith filePath (bytes "/") = false ∧ (partPath filePath).length < pathMax ∧
    tr.opened = true ∧ tr.started = true ∧ tr.ok = true ∧ tr.renamed = true ∧
    sizeOk tr.fetched expected = true

section Downloads

variable {disk : Disk} {filePath : Bytes} {expected : Int} {tr : Transfer}

theorem partPath_ne (filePath : Bytes) : partPath filePath ≠ filePath := by
  intro h
  have hlength := congrArg List.length h
  rw [partPath, List.length_append] at hlength
  have hpart : (bytes ".part").length = 5 := rfl
  omega

/-- The file and its `.part` are all that a download touches. -/
theorem flywireDownloadBytes_of_ne {p : Bytes} (hfile : p ≠ filePath)
    (hpart : p ≠ partPath filePath) :
    flywireDownloadBytes disk filePath expected tr p = disk p := by
  unfold flywireDownloadBytes
  dsimp only
  -- every way out of the function leaves `p` as it found it
  split
  · rfl
  · split
    · rw [Function.update_of_ne hpart]
    · split
      · rw [Function.update_of_ne hpart, Function.update_of_ne hpart]
      · split
        · rw [Function.update_of_ne hfile, Function.update_of_ne hpart, Function.update_of_ne hpart]
        · split
          · rw [Function.update_of_ne hpart, Function.update_of_ne hpart]
          · rw [Function.update_of_ne hpart]

theorem flywireDownloadBytes_self (disk : Disk) (filePath : Bytes) (expected : Int) (tr : Transfer) :
    flywireDownloadBytes disk filePath expected tr filePath = disk filePath ∨
      ∃ n, flywireDownloadBytes disk filePath expected tr filePath = some n ∧
        sizeOk n expected = true := by
  have hpart : filePath ≠ partPath filePath := (partPath_ne filePath).symm
  unfold flywireDownloadBytes
  dsimp only
  split
  · exact .inl rfl
  · split
    · exact .inl (Function.update_of_ne hpart ..)
    · split
      · rw [Function.update_of_ne hpart, Function.update_of_ne hpart]
        exact .inl rfl
      · rename_i hsize
        split
        · -- the rename: the size was checked just before it
          rename_i hok
          right
          refine ⟨tr.fetched, Function.update_self .., ?_⟩
          rw [Bool.and_eq_true] at hok
          rw [hok.1, Bool.true_and, flywireFileBytesOk, Function.update_self] at hsize
          simpa using hsize
        · split
          · rw [Function.update_of_ne hpart, Function.update_of_ne hpart]
            exact .inl rfl
          · exact .inl (Function.update_of_ne hpart ..)

theorem flywireDownloadBytes_of_ok (h : flywireFileBytesOk disk filePath expected = true) :
    flywireDownloadBytes disk filePath expected tr = disk := by
  unfold flywireDownloadBytes
  rw [if_pos]
  simp [h]

theorem Fetches.bytesOk (h : Fetches filePath expected tr) :
    flywireFileBytesOk (flywireDownloadBytes disk filePath expected tr) filePath expected = true := by
  by_cases hthere : flywireFileBytesOk disk filePath expected = true
  · rw [flywireDownloadBytes_of_ok hthere]
    exact hthere
  · rcases h with ⟨hne, hdots, hroot, hlong, hopened, hstarted, hok, hrenamed, hsize⟩
    have hempty : filePath.isEmpty = false := List.isEmpty_eq_false_iff.mpr hne
    have hlong' : decide (pathMax ≤ (partPath filePath).length) = false :=
      decide_eq_false (by omega)
    rw [Bool.not_eq_true] at hthere
    -- what arrived has the right size under its `.part` name
    have hpart : flywireFileBytesOk (Function.update disk (partPath filePath) (some tr.fetched))
        (partPath filePath) expected = true := by
      rw [flywireFileBytesOk, Function.update_self]
      exact hsize
    have hmoved : flywireDownloadBytes disk filePath expected tr filePath = some tr.fetched := by
      unfold flywireDownloadBytes
      simp [hempty, hdots, hroot, hthere, hlong', hopened, hstarted, hok, hrenamed, hpart]
    rw [flywireFileBytesOk, hmoved]
    exact hsize

theorem flywireDownloadBytes_snprintfS :
    flywireDownloadBytes disk (snprintfS pathMax filePath) expected tr =
      flywireDownloadBytes disk filePath expected tr := by
  by_cases hlong : filePath.length < pathMax
  · have hsame : snprintfS pathMax filePath = filePath :=
      List.take_of_length_le (by omega)
    rw [hsame]
  · -- neither the path nor what the buffer keeps of it leaves room for `.part`
    have hpart : (bytes ".part").length = 5 := rfl
    have hstays : ∀ p : Bytes, pathMax ≤ (partPath p).length →
        flywireDownloadBytes disk p expected tr = disk := by
      intro p hp
      unfold flywireDownloadBytes
      rw [if_pos]
      simp [hp]
    have hcut : pathMax ≤ (partPath (snprintfS pathMax filePath)).length := by
      rw [partPath, List.length_append, snprintfS, List.length_take, hpart]
      omega
    have hwhole : pathMax ≤ (partPath filePath).length := by
      rw [partPath, List.length_append]
      omega
    rw [hstays _ hcut, hstays _ hwhole]

end Downloads

/-! ## The queue -/

def Replica.toScan (s : Replica) : List Int :=
  if s.badFilesQueued then [] else missing s.files s.disk

/-- Every missing file is in the queue, or the queue has room for all that the scan will
find. -/
structure Queued (s : Replica) : Prop where
  fits : s.pending.Fits s.toScan
  mem_pending : s.badFilesQueued = true → ∀ fileId ∈ missing s.files s.disk, fileId ∈ s.pending

section Queued

variable {s : Replica} {fileId : Int}

theorem mem_missing {files : Table FileRow.id} {disk : Disk} :
    fileId ∈ missing files disk ↔ ∃ row ∈ files.rows, isBad disk row = true ∧ row.id = fileId := by
  rw [missing, List.mem_insertionSort, List.mem_map]
  constructor
  · rintro ⟨row, hrow, rfl⟩
    rw [List.mem_filter] at hrow
    exact ⟨row, hrow.1, hrow.2, rfl⟩
  · rintro ⟨row, hrow, hbad, rfl⟩
    exact ⟨row, List.mem_filter.mpr ⟨hrow, hbad⟩, rfl⟩

theorem foldl_flywireEnqueueFile {ids : List Int} (h : ∀ fileId ∈ ids, 0 < fileId)
    (pending : Queue pendingMax Int) :
    ids.foldl flywireEnqueueFile pending = pending.enqueueAll ids := by
  induction ids generalizing pending with
  | nil => rfl
  | cons a ids ih =>
    have hpos := h a List.mem_cons_self
    rw [List.foldl_cons, ih (fun b hb => h b (List.mem_cons_of_mem a hb)), flywireEnqueueFile,
      if_neg (by omega)]
    rfl

theorem Replica.pending_scan (s : Replica) : s.scan.pending = s.pending.enqueueAll s.toScan := by
  rw [Replica.scan, Replica.toScan]
  split
  · rfl
  · apply foldl_flywireEnqueueFile
    intro fileId hid
    rcases mem_missing.mp hid with ⟨row, -, -, rfl⟩
    exact row.id_pos

theorem Replica.scan_files (s : Replica) : s.scan.files = s.files := by
  rw [Replica.scan]
  split <;> rfl

theorem Replica.scan_disk (s : Replica) : s.scan.disk = s.disk := by
  rw [Replica.scan]
  split <;> rfl

theorem Replica.scan_badFilesQueued (s : Replica) : s.scan.badFilesQueued = true := by
  rw [Replica.scan]
  split
  · rename_i h
    exact h
  · rfl

/-- To be remembered is to be in the queue once the table has been scanned. -/
theorem remembered_iff : Remembered s fileId ↔ fileId ∈ s.scan.pending := by
  constructor
  · rintro (hmem | hlater)
    · rw [s.pending_scan]
      exact Queue.mem_enqueueAll_of_mem hmem _
    · -- one more round has to be enough
      have hone := hlater [⟨false, false, 0, false, 0, false⟩] (List.cons_ne_nil _ _)
      rcases hone with hnow | hnever
      · exact hnow
      · exact hnever.elim
  · intro hmem
    right
    intro later hne
    cases later with
    | nil => exact absurd rfl hne
    | cons tr later => exact .inl hmem

theorem Queued.mem_scan (h : Queued s) : ∀ fileId ∈ missing s.files s.disk,
    fileId ∈ s.scan.pending := by
  intro fileId hid
  rw [s.pending_scan]
  cases hscanned : s.badFilesQueued with
  | true => exact Queue.mem_enqueueAll_of_mem (h.mem_pending hscanned fileId hid) _
  | false =>
    apply h.fits.mem_enqueueAll
    rwa [Replica.toScan, hscanned]

theorem Queued.allRemembered (h : Queued s) : AllRemembered s := by
  intro row hrow hbad
  exact remembered_iff.mpr (h.mem_scan row.id (mem_missing.mpr ⟨row, hrow, hbad, rfl⟩))

end Queued

/-! ## Steps that forget nothing -/

def Replica.next (s : Replica) : Option Int := (s.pending.items ++ s.toScan).head?

/-- The next download puts its file into place when the file is missing, and takes no other
file away. -/
def Delivers (s : Replica) (tr : Transfer) : Prop :=
  ∀ fileId ∈ s.next, ∀ row ∈ s.files.find? fileId, ∀ filePath ∈ row.filePath,
    (isBad s.disk row = true → Fetches filePath row.size tr) ∧
    (flywireFileBytesOk s.disk filePath row.size = false → ∀ q ∈ s.files.rows, q.id ≠ fileId →
      q.id ∈ s.pending ∨ ∀ p ∈ q.filePath,
        p ≠ partPath filePath ∧ (p = filePath → q.size = row.size))

/-- The step forgets nothing: what it queues finds room, and its download succeeds. -/
def Keeps (s : Replica) : Event → Prop
  | .upsert row =>
    s.pending.Fits ((if row.wanted s.disk then [row.id] else []) ++
      if s.badFilesQueued then [] else missing (s.files.upsert row) s.disk)
  | .pass tr => Delivers s tr
  | .restart => (Queue.empty : Queue pendingMax Int).Fits (missing s.files s.disk)

section Kept

variable {s : Replica} {filePath : Bytes} {fileId : Int}

theorem Queued.restart (h : Keeps s .restart) : Queued s.restart where
  fits := h
  mem_pending := nofun

theorem FileRow.wanted_of_isBad {disk : Disk} {row : FileRow} (h : isBad disk row = true) :
    row.wanted disk = true := by
  rw [isBad, Option.any_eq_true] at h
  rcases h with ⟨p, hp, hbad⟩
  rw [Bool.and_eq_true] at hbad
  rw [FileRow.wanted, Option.any_eq_true]
  refine ⟨p, hp, ?_⟩
  rw [Bool.and_eq_true]
  refine ⟨?_, hbad.2⟩
  -- the empty path is not under `public/uploads`
  cases p with
  | nil => exact absurd hbad.1 (by decide)
  | cons c p => rfl

theorem Queued.upsert (h : Queued s) {row : FileRow} (hk : Keeps s (.upsert row)) :
    Queued (s.upsert row) := by
  have hpos := row.id_pos
  have henqueue : flywireEnqueueFile s.pending row.id = s.pending.enqueue row.id :=
    if_neg (by omega)
  rw [Keeps] at hk
  constructor
  · -- there is still room for the scan
    rw [Replica.toScan]
    show Queue.Fits (if row.wanted s.disk then flywireEnqueueFile s.pending row.id else s.pending)
      (if s.badFilesQueued then [] else missing (s.files.upsert row) s.disk)
    split at hk
    · rename_i hwanted
      rw [if_pos hwanted, henqueue]
      exact hk.enqueue
    · rename_i hwanted
      rw [if_neg hwanted]
      exact hk
  · intro hscanned fileId hid
    show fileId ∈ (if row.wanted s.disk then flywireEnqueueFile s.pending row.id else s.pending)
    rcases mem_missing.mp hid with ⟨q, hq, hbad, rfl⟩
    rcases Table.mem_upsert.mp hq with rfl | ⟨hold, -⟩
    · -- the row itself
      have hwanted := FileRow.wanted_of_isBad hbad
      have hwanted' : q.wanted s.disk = true := hwanted
      rw [if_pos hwanted', henqueue]
      rw [if_pos hwanted'] at hk
      exact hk.mem_enqueue
    · have hmem := h.mem_pending hscanned q.id (mem_missing.mpr ⟨q, hold, hbad, rfl⟩)
      split
      · rw [henqueue]
        exact Queue.mem_enqueue_of_mem hmem
      · exact hmem

/-- A download that leaves a row bad did not touch it, or another row's file is in its
place. -/
theorem isBad_of_download {disk : Disk} {q row : FileRow} {tr : Transfer}
    (hq : ∀ p ∈ q.filePath, p ≠ partPath filePath ∧ (p = filePath → q.size = row.size))
    (hbad : isBad (flywireDownloadBytes disk filePath row.size tr) q = true) :
    isBad disk q = true := by
  rw [isBad, Option.any_eq_true] at hbad ⊢
  rcases hbad with ⟨p, hp, hbad⟩
  refine ⟨p, hp, ?_⟩
  rcases hq p hp with ⟨hpart, hsize⟩
  rw [Bool.and_eq_true, Bool.not_eq_true', flywireFileBytesOk] at hbad
  rw [Bool.and_eq_true, Bool.not_eq_true', flywireFileBytesOk]
  refine ⟨hbad.1, ?_⟩
  by_cases hfile : p = filePath
  · -- two rows of one file agree on its size
    subst hfile
    rcases flywireDownloadBytes_self disk p row.size tr with hsame | ⟨n, hn, hok⟩
    · rw [← hsame]
      exact hbad.2
    · rw [hn, hsize rfl] at hbad
      rw [Option.any_some, hok] at hbad
      exact nomatch hbad.2
  · rw [flywireDownloadBytes_of_ne hfile hpart] at hbad
    exact hbad.2

theorem Replica.head?_scan (s : Replica) : s.scan.pending.items.head? = s.next := by
  rw [s.pending_scan, Queue.head?_enqueueAll (by decide), Replica.next]

/-- What the round that fetches `fileId` does to the disk. -/
theorem Replica.disk_pass (hnext : s.next = some fileId) (tr : Transfer) :
    (s.pass tr).disk = s.disk ∧ (∀ row ∈ s.files.find? fileId, row.filePath = none) ∨
    ∃ row ∈ s.files.find? fileId, ∃ filePath ∈ row.filePath,
      (s.pass tr).disk = flywireDownloadBytes s.disk filePath row.size tr := by
  rw [Replica.pass, Replica.fetchNext, s.head?_scan, hnext]
  dsimp only
  rw [Replica.flywireFetchFilePath, s.scan_files, s.scan_disk]
  cases hrow : s.files.find? fileId with
  | none => exact .inl ⟨rfl, nofun⟩
  | some row =>
    cases hpath : row.filePath with
    | none =>
      -- a row without a path: there is nothing to fetch
      left
      constructor
      · rw [Option.bind_some, hpath]
        rfl
      · rintro row' ⟨⟩
        exact hpath
    | some filePath =>
      right
      refine ⟨row, rfl, filePath, hpath, ?_⟩
      rw [Option.bind_some, hpath]
      exact flywireDownloadBytes_snprintfS

theorem Replica.pending_pass (hnext : s.next = some fileId) (tr : Transfer) :
    (s.pass tr).pending = s.scan.pending.dequeue := by
  rw [Replica.pass, Replica.fetchNext, s.head?_scan, hnext]

theorem Replica.pass_of_next_eq_none (hnext : s.next = none) (tr : Transfer) :
    s.pass tr = s.scan := by
  rw [Replica.pass, Replica.fetchNext, s.head?_scan, hnext]

theorem Replica.files_pass (s : Replica) (tr : Transfer) : (s.pass tr).files = s.files := by
  rw [Replica.pass, Replica.fetchNext]
  split
  · exact s.scan_files
  · exact s.scan_files

theorem Replica.badFilesQueued_pass (s : Replica) (tr : Transfer) :
    (s.pass tr).badFilesQueued = true := by
  rw [Replica.pass, Replica.fetchNext]
  split
  · exact s.scan_badFilesQueued
  · exact s.scan_badFilesQueued

theorem isBad_iff {disk : Disk} {row : FileRow}
    (hpath : row.filePath = some filePath) : isBad disk row = true ↔
      underUploads filePath = true ∧ flywireFileBytesOk disk filePath row.size = false := by
  rw [isBad, hpath, Option.any_some, Bool.and_eq_true, Bool.not_eq_true']

theorem not_isBad_of_fetches {disk : Disk} {row : FileRow} {tr : Transfer}
    (hpath : row.filePath = some filePath)
    (h : isBad disk row = true → Fetches filePath row.size tr) :
    ¬ isBad (flywireDownloadBytes disk filePath row.size tr) row = true := by
  intro hbad
  rcases (isBad_iff hpath).mp hbad with ⟨hunder, hnot⟩
  cases hthere : flywireFileBytesOk disk filePath row.size with
  | true =>
    rw [flywireDownloadBytes_of_ok hthere, hthere] at hnot
    exact nomatch hnot
  | false =>
    rw [(h ((isBad_iff hpath).mpr ⟨hunder, hthere⟩)).bytesOk] at hnot
    exact nomatch hnot

theorem Queued.pass (h : Queued s) {tr : Transfer} (hk : Delivers s tr) : Queued (s.pass tr) := by
  constructor
  · rw [Replica.toScan, s.badFilesQueued_pass, if_pos rfl]
    exact Queue.fits_nil _
  · intro _ fileId hid
    rcases mem_missing.mp hid with ⟨q, hq, hbad, rfl⟩
    rw [s.files_pass] at hq
    have hfound : s.files.find? q.id = some q := Table.find?_eq_some.mpr ⟨hq, rfl⟩
    have hscan : isBad s.disk q = true → q.id ∈ s.scan.pending :=
      fun hold => h.mem_scan q.id (mem_missing.mpr ⟨q, hq, hold, rfl⟩)
    cases hnext : s.next with
    | none =>
      rw [Replica.pass_of_next_eq_none hnext, s.scan_disk] at hbad
      rw [Replica.pass_of_next_eq_none hnext]
      exact hscan hbad
    | some fileId =>
      rw [Replica.pending_pass hnext]
      have hstays : q.id ≠ fileId → q.id ∈ s.scan.pending → q.id ∈ s.scan.pending.dequeue :=
        fun hne hmem => Queue.mem_dequeue (s.head?_scan.trans hnext) hmem hne
      rcases Replica.disk_pass hnext tr with ⟨hdisk, hnone⟩ | ⟨row, hrow, filePath, hpath, hdisk⟩
      · -- there is nothing to fetch
        rw [hdisk] at hbad
        apply hstays _ (hscan hbad)
        rintro rfl
        rw [isBad, hnone q hfound] at hbad
        exact nomatch hbad
      · rw [hdisk] at hbad
        rcases hk fileId hnext row hrow filePath hpath with ⟨hfetch, hothers⟩
        have hne : q.id ≠ fileId := by
          rintro rfl
          have hsame : q = row := Option.some.inj (hfound.symm.trans hrow)
          subst hsame
          exact not_isBad_of_fetches hpath hfetch hbad
        apply hstays hne
        cases hthere : flywireFileBytesOk s.disk filePath row.size with
        | true =>
          rw [flywireDownloadBytes_of_ok hthere] at hbad
          exact hscan hbad
        | false =>
          rcases hothers hthere q hq hne with hmem | hsep
          · rw [s.pending_scan]
            exact Queue.mem_enqueueAll_of_mem hmem _
          · exact hscan (isBad_of_download hsep hbad)

theorem Queued.step (h : Queued s) {e : Event} (hk : Keeps s e) : Queued (step s e) := by
  cases e with
  | upsert row => exact h.upsert hk
  | pass tr => exact h.pass hk
  | restart => exact Queued.restart hk

/-- Once the table has been scanned, nothing but an upsert puts a file in the queue. -/
theorem not_putBack (hscanned : s.badFilesQueued = true)
    (hnot : fileId ∉ s.pending) (later : List Transfer) : ¬ PutBack s fileId later := by
  induction later generalizing s with
  | nil => exact id
  | cons tr later ih =>
    have hscan : s.scan = s := if_pos hscanned
    rintro (hnow | hlater)
    · rw [hscan] at hnow
      exact hnot hnow
    · refine ih (s.badFilesQueued_pass tr) ?_ hlater
      cases hnext : s.next with
      | none =>
        rw [Replica.pass_of_next_eq_none hnext, hscan]
        exact hnot
      | some next =>
        rw [Replica.pending_pass hnext, hscan]
        exact fun hmem => hnot (Queue.mem_of_mem_dequeue hmem)

end Kept

def start (files : Table FileRow.id) (disk : Disk) : Replica := ⟨files, disk, .empty, false⟩

/-- No missing file is forgotten as long as the queue has room for what the scan finds,
every file that is queued finds room, and every download of a missing file succeeds
without taking another row's file away. -/
theorem no_missing_file_forgotten (files : Table FileRow.id) (disk : Disk) (events : List Event)
    (hroom : (Queue.empty : Queue pendingMax Int).Fits (missing files disk))
    (h : Run.AllSteps step Keeps (start files disk) events) :
    ∀ s, Run.Reaches step (start files disk) events s → AllRemembered s := by
  have hstart : Queued (start files disk) := ⟨hroom, nofun⟩
  intro s hs
  have hqueued : Queued s := h.invariant_reaches (fun _ _ hq hk => hq.step hk) hstart hs
  exact hqueued.allRemembered

def photo : FileRow := ⟨1, Int.one_pos, some (bytes "public/uploads/a.png"), 3⟩

/-- The primary answers with these many bytes, or with an error. -/
def answers (status fetched : Nat) : Transfer := ⟨true, true, fetched, true, status, true⟩

/-- The row of a file arrives and its bytes are fetched. -/
theorem fetched_photo_remembered :
    AllRemembered (Run.run step (start .empty fun _ => none)
      [.upsert photo, .pass (answers 200 3)]) := by
  refine no_missing_file_forgotten _ _ _ ?_ ?_ _ (Run.reaches_run _ _)
  · decide
  · refine ⟨?_, ?_, trivial⟩
    · show Queue.Fits _ _
      decide
    · intro fileId hid row hrow filePath hpath
      have hnext : (step (start .empty fun _ => none) (.upsert photo)).next = some 1 := by decide
      have hfiles : (step (start .empty fun _ => none) (.upsert photo)).files.rows = [photo] := rfl
      have hfile : fileId = 1 := Option.some.inj (hid.symm.trans hnext)
      have hphoto : row = photo := by
        have hmem := (Table.find?_eq_some.mp hrow).1
        rw [hfiles] at hmem
        exact List.mem_singleton.mp hmem
      have hname : filePath = bytes "public/uploads/a.png" := by
        rw [hphoto] at hpath
        exact (Option.some.inj hpath).symm
      rw [hname, hphoto, hfile]
      refine ⟨fun _ => ?_, ?_⟩
      · unfold Fetches
        decide +kernel
      · intro _ q hq hne
        rw [hfiles] at hq
        exact absurd (congrArg FileRow.id (List.mem_singleton.mp hq)) hne

/-- The primary answers 503 once. The file is out of the queue, and no later round puts it
back. -/
theorem failed_download_forgotten :
    let s := Run.run step (start .empty fun _ => none) [.upsert photo, .pass (answers 503 0)]
    ¬ AllRemembered s ∧ isBad s.disk photo = true ∧ ∀ later, ¬ PutBack s 1 later := by
  intro s
  have hs : s = ((start .empty fun _ => none).upsert photo).pass (answers 503 0) := rfl
  have hitems : s.pending.items = [] := by decide +kernel
  have hbad : isBad s.disk photo = true := by decide +kernel
  have hmem : photo ∈ s.files.rows := by
    rw [hs, Replica.files_pass]
    exact List.mem_singleton.mpr rfl
  have hnot : 1 ∉ s.pending := by
    rw [Queue.mem_def, hitems]
    exact List.not_mem_nil
  have hscanned : s.badFilesQueued = true := by
    rw [hs]
    exact Replica.badFilesQueued_pass _ _
  have hnever : ∀ later, ¬ PutBack s 1 later := not_putBack hscanned hnot
  refine ⟨?_, hbad, hnever⟩
  intro hall
  rcases hall photo hmem hbad with hqueued | hlater
  · exact hnot hqueued
  · exact hnever [answers 200 3] (hlater _ (List.cons_ne_nil _ _))

end FlyBoard.PendingFiles

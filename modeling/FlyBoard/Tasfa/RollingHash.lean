import FlyBoard.Lib.Bytes
import FlyBoard.Lib.Run
import Mathlib.Data.Finset.Basic

/-!
# The rolling checksum of an upload (`src/handlers/tasfa/common.c`)

Data chunks arrive in any order and are written into a preallocated file. While
they arrive, `tasfa_rolling_hash_note_chunk` reads the contiguous prefix back and
feeds it to a SHA-256 context, so that `tasfa_rolling_hash_finish` need not read
the whole file again.

The registry has at most one slot for an upload; what other uploads do to it shows
only in whether a free slot is left. A context is the bytes fed to it so far.
-/

namespace FlyBoard.Tasfa

/-- SHA-256: a function of the bytes fed to the context, without collisions. -/
structure Sha where
  digest : Bytes → Bytes
  injective : Function.Injective digest

structure Session where
  chunkSize : Nat
  totalSize : Nat
  chunkSize_pos : 0 < chunkSize
  totalSize_pos : 0 < totalSize

/-- `data_chunks`. -/
def Session.dataChunks (u : Session) : Nat := (u.totalSize + u.chunkSize - 1) / u.chunkSize

/-- `rolling_hash_slot_t`. -/
structure Slot where
  totalSize : Nat
  chunkSize : Nat
  dataChunks : Nat
  nextChunk : Nat
  consumed : Nat
  received : Nat → Bool
  ctx : Bytes

/-- What the environment does during a call: whether a free slot and its bitmap
were to be had, whether the file could be opened and a buffer allocated, and
which chunks could be read back. -/
structure Io where
  slotFree : Bool
  openOk : Bool
  readOk : Nat → Bool

abbrev File := Nat → UInt8

/-- `len` bytes of the file from `offset` on. -/
def bytesAt (file : File) (offset len : Nat) : Bytes := (List.range' offset len).map file

/-! ## Reading back -/

/-- `while (end < slot->data_chunks && slot->received[end] == '1') end++`, with
the number of chunks left as fuel. -/
def advance (received : Nat → Bool) : Nat → Nat → Nat
  | 0, e => e
  | n + 1, e => if received e then advance received n (e + 1) else e

/-- Where the run of received chunks at `next_chunk` ends. -/
def Slot.segmentEnd (s : Slot) : Nat :=
  advance s.received (s.dataChunks - s.nextChunk) s.nextChunk

/-- The loop that reads `n` chunks back, from `chunk` on. -/
def feedChunks (file : File) (io : Io) (chunkSize totalSize : Nat) : Nat → Nat → Option Bytes
  | 0, _ => some []
  | n + 1, chunk =>
    let offset := chunk * chunkSize
    -- len <= 0 leaves the loop
    if totalSize ≤ offset then some []
    else if io.readOk chunk then
      (feedChunks file io chunkSize totalSize n (chunk + 1)).map fun rest =>
        bytesAt file offset (min chunkSize (totalSize - offset)) ++ rest
    else none

/-- What `rolling_hash_consume` reads back; `none` when there is nothing to read
or the reading fails. -/
def Slot.readBack (s : Slot) (file : File) (io : Io) : Option Bytes :=
  if s.segmentEnd ≤ s.nextChunk || !io.openOk then none
  else feedChunks file io s.chunkSize s.totalSize (s.segmentEnd - s.nextChunk) s.nextChunk

/-- The commit of `rolling_hash_consume`: the context of the slot is replaced by
the one that was filled from the bytes just read. -/
def commit (slot : Option Slot) (snapshot : Slot) (fed : Bytes) : Option Slot :=
  match slot with
  | none => none
  | some s =>
    if s.nextChunk = snapshot.nextChunk ∧ s.chunkSize = snapshot.chunkSize ∧
        s.dataChunks = snapshot.dataChunks ∧ s.totalSize = snapshot.totalSize ∧
        snapshot.segmentEnd ≤ s.dataChunks then
      some { s with ctx := fed, consumed := s.consumed + fed.length,
                    nextChunk := snapshot.segmentEnd }
    else none

/-- `rolling_hash_consume`. -/
def consume (slot : Option Slot) (file : File) (io : Io) : Option Slot :=
  match slot with
  | none => none
  | some s =>
    match s.readBack file io with
    | none => some s
    | some fed => commit slot s fed

/-! ## The calls -/

def Slot.fits (s : Slot) (u : Session) : Bool :=
  s.chunkSize == u.chunkSize && s.dataChunks == u.dataChunks && s.totalSize == u.totalSize

def freshSlot (u : Session) : Slot :=
  ⟨u.totalSize, u.chunkSize, u.dataChunks, 0, 0, fun _ => false, []⟩

/-- The part of `tasfa_rolling_hash_note_chunk` under the lock: a slot is found or
made, and the chunk marked; a chunk that was fed already drops the slot. -/
def mark (u : Session) (slot : Option Slot) (io : Io) (chunk : Nat) : Option Slot :=
  let slot := slot.filter (·.fits u)
  let slot := if slot.isNone && io.slotFree then some (freshSlot u) else slot
  match slot with
  | none => none
  | some s =>
    if chunk < s.nextChunk then none
    else some { s with received := Function.update s.received chunk true }

/-- `tasfa_rolling_hash_note_chunk`. -/
def noteChunk (u : Session) (slot : Option Slot) (file : File) (io : Io) (chunk : Nat) :
    Option Slot :=
  if u.dataChunks ≤ chunk then slot else consume (mark u slot io chunk) file io

/-- `tasfa_rolling_hash_notify_rewrite`. -/
def notifyRewrite (slot : Option Slot) (chunk : Nat) : Option Slot :=
  slot.filter fun s => s.nextChunk ≤ chunk

/-- `tasfa_rolling_hash_finish`: the digest, when it returns true. The slot is
released in any case. -/
def finish (sha : Sha) (u : Session) (slot : Option Slot) (file : File) (io : Io) :
    Option Bytes :=
  match consume (slot.filter (·.fits u)) file io with
  | none => none
  | some s =>
    if s.consumed = s.totalSize ∧ s.dataChunks ≤ s.nextChunk then some (sha.digest s.ctx) else none

/-- `sha256_file`. -/
def sha256File (sha : Sha) (u : Session) (file : File) : Bytes :=
  sha.digest (bytesAt file 0 u.totalSize)

/-! ## Sequences of calls -/

/-- An upload on its way. `unreported` are the chunks that were written since they
were last noted or reported as rewritten. -/
structure State where
  file : File
  slot : Option Slot
  unreported : Finset Nat

/-- A write to the temp file, or a call. -/
inductive Action where
  /-- `pwrite_all` of a data chunk. -/
  | store (chunk : Nat) (data : Nat → UInt8)
  | note (chunk : Nat) (io : Io)
  | rewritten (chunk : Nat)
  | reset
  | finish (io : Io)

def storeChunk (u : Session) (file : File) (chunk : Nat) (data : Nat → UInt8) : File :=
  fun i => if i / u.chunkSize = chunk then data (i % u.chunkSize) else file i

def step (u : Session) (s : State) : Action → State
  | .store chunk data =>
    { s with file := storeChunk u s.file chunk data, unreported := insert chunk s.unreported }
  | .note chunk io =>
    { s with slot := noteChunk u s.slot s.file io chunk, unreported := s.unreported.erase chunk }
  | .rewritten chunk =>
    { s with slot := notifyRewrite s.slot chunk, unreported := s.unreported.erase chunk }
  | .reset => { s with slot := none, unreported := ∅ }
  | .finish _ => { s with slot := none, unreported := ∅ }

def start : State := ⟨fun _ => 0, none, ∅⟩

/-- Whenever every write has been noted or reported, a digest that `finish`
returns is the one `sha256_file` would. -/
def DigestCorrect (sha : Sha) (u : Session) (s : State) (io : Io) : Prop :=
  s.unreported = ∅ → ∀ d, finish sha u s.slot s.file io = some d → d = sha256File sha u s.file

def FeedsWhole (slot : Option Slot) (file : File) (io : Io) : Prop :=
  ∀ s, slot = some s → (s.readBack file io).isSome → s.nextChunk = 0 ∧ s.segmentEnd = s.dataChunks

def InOneGo (u : Session) (s : State) : Action → Prop
  | .note chunk io => chunk < u.dataChunks → FeedsWhole (mark u s.slot io chunk) s.file io
  | .finish io => FeedsWhole (s.slot.filter (·.fits u)) s.file io
  | _ => True

/-! ## Chunks and bytes -/

theorem Session.lt_dataChunks_iff (u : Session) (c : Nat) :
    c < u.dataChunks ↔ c * u.chunkSize < u.totalSize := by
  have hpos := u.chunkSize_pos
  rw [Session.dataChunks, ← Nat.succ_le_iff, Nat.le_div_iff_mul_le hpos, Nat.succ_mul]
  omega

theorem Session.total_le (u : Session) : u.totalSize ≤ u.dataChunks * u.chunkSize := by
  by_contra hlt
  exact absurd ((u.lt_dataChunks_iff u.dataChunks).mpr (by omega)) (lt_irrefl _)

theorem Session.div_lt (u : Session) {i : Nat} (h : i < u.totalSize) :
    i / u.chunkSize < u.dataChunks := by
  rw [u.lt_dataChunks_iff]
  exact (Nat.div_mul_le_self i u.chunkSize).trans_lt h

@[simp] theorem length_bytesAt (file : File) (offset len : Nat) :
    (bytesAt file offset len).length = len := by
  simp [bytesAt]

theorem bytesAt_append (file : File) (offset n m : Nat) :
    bytesAt file offset n ++ bytesAt file (offset + n) m = bytesAt file offset (n + m) := by
  rw [bytesAt, bytesAt, bytesAt, ← List.map_append, List.range'_append_1]

theorem bytesAt_congr {file file' : File} {len : Nat} (h : ∀ i < len, file i = file' i) :
    bytesAt file 0 len = bytesAt file' 0 len := by
  refine List.map_congr_left ?_
  intro i hi
  rw [List.mem_range'_1] at hi
  exact h i (by omega)

theorem advance_bounds (received : Nat → Bool) (n e : Nat) :
    e ≤ advance received n e ∧ advance received n e ≤ e + n := by
  induction n generalizing e with
  | zero => simp [advance]
  | succ n ih =>
    rw [advance]
    split
    · have h := ih (e + 1)
      omega
    · omega

theorem feedChunks_eq {file : File} {io : Io} {chunkSize totalSize n chunk : Nat} {fed : Bytes}
    (h : feedChunks file io chunkSize totalSize n chunk = some fed) :
    fed = bytesAt file (chunk * chunkSize)
      (min totalSize ((chunk + n) * chunkSize) - chunk * chunkSize) := by
  induction n generalizing chunk fed with
  | zero =>
    have hfed : fed = [] := by simpa [feedChunks] using h.symm
    rw [hfed, Nat.add_zero]
    have hlen : min totalSize (chunk * chunkSize) - chunk * chunkSize = 0 := by omega
    rw [hlen]
    rfl
  | succ n ih =>
    rw [feedChunks] at h
    split at h
    · rename_i hbreak
      have hfed : fed = [] := by simpa using h.symm
      have hlen : min totalSize ((chunk + (n + 1)) * chunkSize) - chunk * chunkSize = 0 := by omega
      rw [hfed, hlen]
      rfl
    · rename_i hlt
      split at h
      · rcases Option.map_eq_some_iff.mp h with ⟨rest, hrest, rfl⟩
        rw [ih hrest]
        have hsucc : (chunk + 1) * chunkSize = chunk * chunkSize + chunkSize := Nat.succ_mul _ _
        have hend : (chunk + 1 + n) * chunkSize = (chunk + (n + 1)) * chunkSize := by
          congr 1
          omega
        have hge : chunk * chunkSize + chunkSize ≤ (chunk + (n + 1)) * chunkSize := by
          rw [← hsucc]
          exact Nat.mul_le_mul_right _ (by omega)
        rw [hend, hsucc]
        by_cases hlast : totalSize ≤ chunk * chunkSize + chunkSize
        · -- the last chunk: nothing is left behind it
          have hnil : min totalSize ((chunk + (n + 1)) * chunkSize) -
              (chunk * chunkSize + chunkSize) = 0 := by omega
          have hlen : min chunkSize (totalSize - chunk * chunkSize) =
              min totalSize ((chunk + (n + 1)) * chunkSize) - chunk * chunkSize := by omega
          rw [hnil, hlen]
          simp [bytesAt]
        · have hlen : min chunkSize (totalSize - chunk * chunkSize) = chunkSize := by omega
          rw [hlen, bytesAt_append]
          congr 1
          omega
      · simp at h

/-! ## What a slot knows -/

/-- What every slot satisfies, whatever the calls were. -/
structure Slot.Ok (u : Session) (s : Slot) : Prop where
  fits : s.fits u = true
  next_le : s.nextChunk ≤ u.dataChunks
  consumed_eq : s.consumed = min u.totalSize (s.nextChunk * u.chunkSize)

theorem Slot.fits_iff {s : Slot} {u : Session} : s.fits u = true ↔
    s.chunkSize = u.chunkSize ∧ s.dataChunks = u.dataChunks ∧ s.totalSize = u.totalSize := by
  simp [Slot.fits, and_assoc]

theorem freshSlot_ok (u : Session) : (freshSlot u).Ok u :=
  ⟨by simp [Slot.fits, freshSlot], by simp [freshSlot], by simp [freshSlot]⟩

section Consume

variable {u : Session} {s : Slot} {file : File} {io : Io} {fed : Bytes} {slot : Option Slot}
  {t : Slot}

theorem Slot.Ok.segmentEnd_le (h : s.Ok u) : s.segmentEnd ≤ u.dataChunks := by
  have hb := (advance_bounds s.received (s.dataChunks - s.nextChunk) s.nextChunk).2
  have hN := (Slot.fits_iff.mp h.fits).2.1
  have hle := h.next_le
  rw [Slot.segmentEnd]
  omega

/-- What is read back: the bytes of the run of chunks at `next_chunk`. -/
theorem Slot.Ok.readBack_eq (h : s.Ok u) (hr : s.readBack file io = some fed) :
    s.nextChunk < s.segmentEnd ∧ fed = bytesAt file (s.nextChunk * u.chunkSize)
      (min u.totalSize (s.segmentEnd * u.chunkSize) - s.nextChunk * u.chunkSize) := by
  rcases Slot.fits_iff.mp h.fits with ⟨hcs, -, htot⟩
  unfold Slot.readBack at hr
  split at hr
  · simp at hr
  · rename_i hcond
    have hlt : s.nextChunk < s.segmentEnd := by
      simp only [Bool.or_eq_true, decide_eq_true_eq, Bool.not_eq_true', not_or, not_le] at hcond
      exact hcond.1
    refine ⟨hlt, ?_⟩
    have hfeed := feedChunks_eq hr
    have hend : s.nextChunk + (s.segmentEnd - s.nextChunk) = s.segmentEnd := by omega
    rw [hend, hcs, htot] at hfeed
    exact hfeed

def Slot.fedWith (s : Slot) (fed : Bytes) : Slot :=
  { s with ctx := fed, consumed := s.consumed + fed.length, nextChunk := s.segmentEnd }

/-- `rolling_hash_consume` either leaves the slot as it is or feeds it. -/
theorem Slot.Ok.consume_cases (h : s.Ok u) (file : File) (io : Io) :
    (s.readBack file io = none ∧ consume (some s) file io = some s) ∨
    ∃ fed, s.readBack file io = some fed ∧ consume (some s) file io = some (s.fedWith fed) := by
  cases hr : s.readBack file io with
  | none => exact Or.inl ⟨rfl, by simp [consume, hr]⟩
  | some fed =>
    right
    refine ⟨fed, rfl, ?_⟩
    have hle : s.segmentEnd ≤ s.dataChunks := by
      rw [(Slot.fits_iff.mp h.fits).2.1]
      exact h.segmentEnd_le
    simp [consume, hr, commit, hle, Slot.fedWith]

/-- A slot that is fed stays in step with its count of bytes; the bytes fed before
are in the count, but no longer in the context. -/
theorem Slot.Ok.fedWith (h : s.Ok u) (hr : s.readBack file io = some fed) :
    (s.fedWith fed).Ok u ∧ (0 < s.nextChunk → fed.length < (s.fedWith fed).consumed) := by
  rcases h.readBack_eq hr with ⟨hlt, hfed⟩
  have hstart : s.nextChunk * u.chunkSize < u.totalSize :=
    (u.lt_dataChunks_iff _).mp (hlt.trans_le h.segmentEnd_le)
  have hmul : s.nextChunk * u.chunkSize ≤ s.segmentEnd * u.chunkSize :=
    Nat.mul_le_mul_right _ hlt.le
  have hcons := h.consumed_eq
  have hlen : fed.length =
      min u.totalSize (s.segmentEnd * u.chunkSize) - s.nextChunk * u.chunkSize := by
    rw [hfed, length_bytesAt]
  constructor
  · refine ⟨h.fits, h.segmentEnd_le, ?_⟩
    show s.consumed + fed.length = min u.totalSize (s.segmentEnd * u.chunkSize)
    omega
  · intro hpos
    have hfirst : 0 < s.nextChunk * u.chunkSize := Nat.mul_pos hpos u.chunkSize_pos
    show fed.length < s.consumed + fed.length
    omega

/-- The part under the lock finds a good slot, or makes one, and marks a chunk that
has not been fed yet. -/
theorem mark_cases {chunk : Nat}
    (hslot : ∀ s, slot = some s → s.Ok u) (h : mark u slot io chunk = some t) :
    ∃ s, (slot = some s ∨ slot = none ∧ s = freshSlot u) ∧ s.Ok u ∧ s.nextChunk ≤ chunk ∧
      t = { s with received := Function.update s.received chunk true } := by
  unfold mark at h
  simp only at h
  split at h
  · simp at h
  · rename_i s hs
    split at h
    · simp at h
    · rename_i hle
      obtain rfl := Option.some.inj h
      have hsource : slot = some s ∨ slot = none ∧ s = freshSlot u := by
        split at hs
        · -- a slot of another geometry would have to be dropped first; there is none
          rename_i hnone
          right
          refine ⟨?_, (Option.some.inj hs).symm⟩
          cases slot with
          | none => rfl
          | some s' => simp [Option.filter, (hslot s' rfl).fits] at hnone
        · exact Or.inl (Option.filter_eq_some_iff.mp hs).1
      refine ⟨s, hsource, ?_, by omega, rfl⟩
      rcases hsource with hold | ⟨-, rfl⟩
      · exact hslot s hold
      · exact freshSlot_ok u

/-- Everything a noted chunk can do: nothing, when it lies outside the file; else it
is marked in the old or a new slot, and the slot is then fed or not. -/
theorem noteChunk_cases {chunk : Nat}
    (hslot : ∀ s, slot = some s → s.Ok u) (h : noteChunk u slot file io chunk = some t) :
    (u.dataChunks ≤ chunk ∧ slot = some t) ∨
    (chunk < u.dataChunks ∧ ∃ s m, (slot = some s ∨ slot = none ∧ s = freshSlot u) ∧
      s.nextChunk ≤ chunk ∧ m = { s with received := Function.update s.received chunk true } ∧
      mark u slot io chunk = some m ∧ m.Ok u ∧
      ((m.readBack file io = none ∧ t = m) ∨
        ∃ fed, m.readBack file io = some fed ∧ t = m.fedWith fed)) := by
  unfold noteChunk at h
  split at h
  next hchunk => exact .inl ⟨hchunk, h⟩
  next hchunk =>
    right
    refine ⟨by omega, ?_⟩
    cases hm : mark u slot io chunk with
    | none => simp [hm, consume] at h
    | some m =>
      rcases mark_cases hslot hm with ⟨s, hsource, hs, hle, heq⟩
      have hmok : m.Ok u := by
        rw [heq]
        exact ⟨hs.fits, hs.next_le, hs.consumed_eq⟩
      refine ⟨s, m, hsource, hle, heq, rfl, hmok, ?_⟩
      rw [hm] at h
      rcases hmok.consume_cases file io with ⟨hr, hc⟩ | ⟨fed, hr, hc⟩
      · rw [hc] at h
        exact .inl ⟨hr, (Option.some.inj h).symm⟩
      · rw [hc] at h
        exact .inr ⟨fed, hr, (Option.some.inj h).symm⟩

end Consume

/-! ## Every run -/

section Runs

variable {u : Session} {fed : Bytes} {io : Io} {sha : Sha} {slot : Option Slot} {s : Slot}
  {d : Bytes} {st : State}

/-- Every slot of a run is in step with its count of bytes. -/
def SlotOk (u : Session) (st : State) : Prop := ∀ s, st.slot = some s → s.Ok u

theorem slotOk_step (st : State) (a : Action) (h : SlotOk u st) : SlotOk u (step u st a) := by
  intro t ht
  cases a with
  | store chunk data => exact h t ht
  | note chunk io =>
    rcases noteChunk_cases h ht with ⟨-, hold⟩ | ⟨-, s, m, -, -, -, -, hm, hcase⟩
    · exact h t hold
    · rcases hcase with ⟨-, rfl⟩ | ⟨fed, hr, rfl⟩
      · exact hm
      · exact (hm.fedWith hr).1
  | rewritten chunk => exact h t (Option.filter_eq_some_iff.mp ht).1
  | reset => simp [step] at ht
  | finish io => simp [step] at ht

theorem slotOk_run (as : List Action) : SlotOk u (Run.run (step u) start as) := by
  refine Run.run_invariant (step u) slotOk_step ?_ as
  intro s hs
  simp [start] at hs

/-! ### Files that are fed in one go -/

/-- The slot has been fed nothing, or the whole file; then its context differs from
the file in unreported chunks only. -/
def WholeOrNothing (u : Session) (st : State) : Prop :=
  ∀ s, st.slot = some s → s.nextChunk = 0 ∨
    (s.nextChunk = u.dataChunks ∧ ∃ file₀, s.ctx = bytesAt file₀ 0 u.totalSize ∧
      ∀ i < u.totalSize, i / u.chunkSize ∉ st.unreported → file₀ i = st.file i)

theorem fed_whole {file : File} (hs : s.Ok u)
    (hr : s.readBack file io = some fed) (h0 : s.nextChunk = 0)
    (hend : s.segmentEnd = s.dataChunks) : fed = bytesAt file 0 u.totalSize := by
  have hfed := (hs.readBack_eq hr).2
  have hN := (Slot.fits_iff.mp hs.fits).2.1
  have htotal := u.total_le
  rw [h0, hend, hN, Nat.zero_mul, Nat.sub_zero, min_eq_left htotal] at hfed
  exact hfed

/-- A report on a chunk outside the file changes nothing about the file. -/
theorem not_mem_of_erase {unreported : Finset Nat} {chunk i : Nat} (hchunk : u.dataChunks ≤ chunk)
    (hi : i < u.totalSize) (h : i / u.chunkSize ∉ unreported.erase chunk) :
    i / u.chunkSize ∉ unreported := by
  have hne : i / u.chunkSize ≠ chunk := by
    have hlt := u.div_lt hi
    omega
  intro hmem
  exact h (Finset.mem_erase.mpr ⟨hne, hmem⟩)

theorem wholeOrNothing_step (st : State) (a : Action)
    (h : SlotOk u st ∧ WholeOrNothing u st) (hok : InOneGo u st a) :
    SlotOk u (step u st a) ∧ WholeOrNothing u (step u st a) := by
  rcases h with ⟨hslot, hwhole⟩
  refine ⟨slotOk_step st a hslot, ?_⟩
  intro t ht
  cases a with
  | store chunk data =>
    -- the bytes that change belong to a chunk that is now unreported
    rcases hwhole t ht with h0 | ⟨hN, file₀, hctx, hsame⟩
    · exact Or.inl h0
    · refine Or.inr ⟨hN, file₀, hctx, ?_⟩
      intro i hi hnot
      simp only [step, Finset.mem_insert, not_or] at hnot
      rw [hsame i hi hnot.2]
      simp [step, storeChunk, hnot.1]
  | note chunk io =>
    rcases noteChunk_cases hslot ht with
      ⟨hchunk, hold⟩ | ⟨hchunk, s, m, hsource, hle, rfl, hmark, hm, hcase⟩
    · rcases hwhole t hold with h0 | ⟨hN, file₀, hctx, hsame⟩
      · exact Or.inl h0
      · refine Or.inr ⟨hN, file₀, hctx, ?_⟩
        intro i hi hnot
        exact hsame i hi (not_mem_of_erase hchunk hi hnot)
    · -- a slot that holds the whole file would have been dropped
      have h0 : s.nextChunk = 0 := by
        rcases hsource with hold | ⟨-, rfl⟩
        · rcases hwhole s hold with h0 | ⟨hN, -⟩
          · exact h0
          · omega
        · rfl
      rcases hcase with ⟨-, rfl⟩ | ⟨fed, hr, rfl⟩
      · exact Or.inl h0
      · have hend := (hok hchunk _ hmark (by rw [hr]; rfl)).2
        refine Or.inr ⟨?_, st.file, fed_whole hm hr h0 hend, fun _ _ _ => rfl⟩
        exact hend.trans (Slot.fits_iff.mp hm.fits).2.1
  | rewritten chunk =>
    rcases Option.filter_eq_some_iff.mp ht with ⟨hold, hle⟩
    rcases hwhole t hold with h0 | ⟨hN, file₀, hctx, hsame⟩
    · exact Or.inl h0
    · have hchunk : u.dataChunks ≤ chunk := by
        rw [← hN]
        simpa using hle
      refine Or.inr ⟨hN, file₀, hctx, ?_⟩
      intro i hi hnot
      exact hsame i hi (not_mem_of_erase hchunk hi hnot)
  | reset => simp [step] at ht
  | finish io => simp [step] at ht

/-- The two ways `finish` can return a digest. -/
theorem finish_cases {file : File}
    (hslot : ∀ s, slot = some s → s.Ok u) (h : finish sha u slot file io = some d) :
    ∃ s, slot.filter (·.fits u) = some s ∧ s.Ok u ∧ ∃ t, d = sha.digest t.ctx ∧
      t.consumed = u.totalSize ∧ u.dataChunks ≤ t.nextChunk ∧
      ((s.readBack file io = none ∧ t = s) ∨
        ∃ fed, s.readBack file io = some fed ∧ t = s.fedWith fed) := by
  cases hs : slot.filter (·.fits u) with
  | none => simp [finish, hs, consume] at h
  | some s =>
    have hsok : s.Ok u := hslot s (Option.filter_eq_some_iff.mp hs).1
    have hbody : ∀ t : Slot, t.Ok u → consume (some s) file io = some t →
        d = sha.digest t.ctx ∧ t.consumed = u.totalSize ∧ u.dataChunks ≤ t.nextChunk := by
      intro t ht hc
      rcases Slot.fits_iff.mp ht.fits with ⟨-, hN, htot⟩
      rw [finish, hs, hc] at h
      simp only at h
      split at h
      · rename_i hcond
        exact ⟨(Option.some.inj h).symm, htot ▸ hcond.1, hN ▸ hcond.2⟩
      · simp at h
    refine ⟨s, rfl, hsok, ?_⟩
    rcases hsok.consume_cases file io with ⟨hr, hc⟩ | ⟨fed, hr, hc⟩
    · rcases hbody s hsok hc with ⟨h1, h2, h3⟩
      exact ⟨s, h1, h2, h3, Or.inl ⟨hr, rfl⟩⟩
    · rcases hbody _ (hsok.fedWith hr).1 hc with ⟨h1, h2, h3⟩
      exact ⟨_, h1, h2, h3, Or.inr ⟨fed, hr, rfl⟩⟩

theorem digestCorrect_of_whole (sha : Sha) (hslot : SlotOk u st)
    (hwhole : WholeOrNothing u st) (hok : InOneGo u st (.finish io)) :
    DigestCorrect sha u st io := by
  intro hrep d hd
  rcases finish_cases hslot hd with ⟨s, hs, hsok, t, rfl, hcons, hN, hcase⟩
  rcases hcase with ⟨-, rfl⟩ | ⟨fed, hr, rfl⟩
  · rcases hwhole t (Option.filter_eq_some_iff.mp hs).1 with h0 | ⟨-, file₀, hctx, hsame⟩
    · -- nothing was fed, so nothing was counted
      have hzero := hsok.consumed_eq
      rw [h0, Nat.zero_mul, Nat.min_zero, hcons] at hzero
      exact absurd hzero u.totalSize_pos.ne'
    · rw [sha256File, hctx]
      congr 1
      refine bytesAt_congr ?_
      intro i hi
      exact hsame i hi (by simp [hrep])
  · rcases hok s hs (by rw [hr]; rfl) with ⟨h0, hend⟩
    show sha.digest fed = _
    rw [fed_whole hsok hr h0 hend, sha256File]

/-! ### Files that are fed piecemeal -/

/-- The slot has been fed a part of the file, or has lost a part it was fed. -/
def Slot.Piecemeal (u : Session) (s : Slot) : Prop :=
  0 < s.nextChunk ∧ (s.nextChunk < u.dataChunks ∨ s.ctx.length < s.consumed)

theorem Slot.Ok.piecemeal_fedWith {file : File} (hs : s.Ok u) (hr : s.readBack file io = some fed)
    (hnot : ¬ (s.nextChunk = 0 ∧ s.segmentEnd = s.dataChunks)) :
    (s.fedWith fed).Piecemeal u := by
  have hlt := (hs.readBack_eq hr).1
  have hN := (Slot.fits_iff.mp hs.fits).2.1
  refine ⟨by show 0 < s.segmentEnd; omega, ?_⟩
  by_cases hend : s.segmentEnd = u.dataChunks
  · right
    have hpos : 0 < s.nextChunk := by
      rw [hN] at hnot
      omega
    exact (hs.fedWith hr).2 hpos
  · left
    have hle := hs.segmentEnd_le
    show s.segmentEnd < u.dataChunks
    omega

theorem piecemeal_of_not_inOneGo {chunk : Nat} (hslot : SlotOk u st)
    (h : ¬ InOneGo u st (.note chunk io)) :
    ∃ s, (step u st (.note chunk io)).slot = some s ∧ s.Piecemeal u := by
  simp only [InOneGo, FeedsWhole, not_forall] at h
  rcases h with ⟨hchunk, m, hm, hsome, hnot⟩
  have hmok : m.Ok u := by
    rcases mark_cases hslot hm with ⟨s, -, hs, -, rfl⟩
    exact ⟨hs.fits, hs.next_le, hs.consumed_eq⟩
  rcases hmok.consume_cases st.file io with ⟨hr, -⟩ | ⟨fed, hr, hc⟩
  · rw [hr] at hsome
    simp at hsome
  · refine ⟨m.fedWith fed, ?_, hmok.piecemeal_fedWith hr hnot⟩
    have hge : ¬ u.dataChunks ≤ chunk := by omega
    simp [step, noteChunk, hge, hm, hc]

theorem piecemeal_step {a : Action} (hslot : SlotOk u st)
    (h : ∃ s, st.slot = some s ∧ s.Piecemeal u) (hkept : (step u st a).slot.isSome) :
    ∃ s, (step u st a).slot = some s ∧ s.Piecemeal u := by
  rcases h with ⟨s, hs, hpiece⟩
  have hsok := hslot s hs
  cases a with
  | store chunk data => exact ⟨s, hs, hpiece⟩
  | note chunk io =>
    rcases Option.isSome_iff_exists.mp hkept with ⟨t, ht⟩
    refine ⟨t, ht, ?_⟩
    rcases noteChunk_cases hslot ht with ⟨-, hold⟩ | ⟨-, s', m, hsource, -, rfl, -, hm, hcase⟩
    · rcases Option.some.inj (hs.symm.trans hold) with rfl
      exact hpiece
    · rcases hsource with hold | ⟨hnone, -⟩
      · rcases Option.some.inj (hs.symm.trans hold) with rfl
        rcases hcase with ⟨-, rfl⟩ | ⟨fed, hr, rfl⟩
        · exact hpiece
        · -- whatever is fed now, the chunks before it are no longer in the context
          refine hm.piecemeal_fedWith hr ?_
          intro h0
          exact absurd h0.1 hpiece.1.ne'
      · simp [hs] at hnone
  | rewritten chunk =>
    refine ⟨s, ?_, hpiece⟩
    rcases Option.isSome_iff_exists.mp hkept with ⟨t, ht⟩
    have hold := (Option.filter_eq_some_iff.mp ht).1
    obtain rfl := Option.some.inj (hs.symm.trans hold)
    exact ht
  | reset => simp [step] at hkept
  | finish io => simp [step] at hkept

theorem piecemeal_run {as : List Action} (hslot : SlotOk u st)
    (h : ∃ s, st.slot = some s ∧ s.Piecemeal u)
    (hkept : Run.AllSteps (step u) (fun st a => (step u st a).slot.isSome) st as) :
    ∃ s, (Run.run (step u) st as).slot = some s ∧ s.Piecemeal u := by
  induction as generalizing st with
  | nil => exact h
  | cons a as ih =>
    exact ih (slotOk_step st a hslot) (piecemeal_step hslot h hkept.1) hkept.2

/-- A digest of a piecemeal slot is wrong: the context holds fewer bytes than the
file has. -/
theorem digest_ne {file : File}
    (hslot : ∀ s, slot = some s → s.Ok u) (h : finish sha u slot file io = some d)
    (hbad : (∃ s, slot = some s ∧ s.Piecemeal u) ∨
      ¬ FeedsWhole (slot.filter (·.fits u)) file io) : d ≠ sha256File sha u file := by
  rcases finish_cases hslot h with ⟨s, hs, hsok, t, rfl, hcons, hN, hcase⟩
  have hold := (Option.filter_eq_some_iff.mp hs).1
  have hpiece : t.Piecemeal u := by
    rcases hcase with ⟨hr, rfl⟩ | ⟨fed, hr, rfl⟩
    · -- the call itself feeds nothing, so the slot was piecemeal before
      rcases hbad with ⟨s', hs', hpiece⟩ | hnot
      · obtain rfl := Option.some.inj (hold.symm.trans hs')
        exact hpiece
      · refine absurd ?_ hnot
        intro s' hs' hsome
        obtain rfl := Option.some.inj (hs.symm.trans hs')
        simp [hr] at hsome
    · refine hsok.piecemeal_fedWith hr ?_
      intro hone
      rcases hbad with ⟨s', hs', hpiece⟩ | hnot
      · obtain rfl := Option.some.inj (hold.symm.trans hs')
        exact absurd hone.1 hpiece.1.ne'
      · refine absurd ?_ hnot
        intro s' hs' _
        obtain rfl := Option.some.inj (hs.symm.trans hs')
        exact hone
  -- `finish` has seen the last chunk go by, so the context has lost some before it
  have hlen : t.ctx.length < u.totalSize := by
    rcases hpiece.2 with hlt | hlt
    · omega
    · omega
  intro heq
  have hctx := congrArg List.length (sha.injective heq)
  rw [length_bytesAt] at hctx
  omega

end Runs

/-! ## The digest of an upload -/

/-- In every sequence of writes and calls that feeds each context in one go, the
digest that `finish` returns is that of the file. A call that feeds a part of the
file spoils the digest for as long as its slot lives. -/
theorem digest_correct_in_one_go (sha : Sha) (u : Session) :
    (∀ as io, Run.AllSteps (step u) (InOneGo u) start (as ++ [.finish io]) →
      DigestCorrect sha u (Run.run (step u) start as) io) ∧
    (∀ as chunk io bs io' d, ¬ InOneGo u (Run.run (step u) start as) (.note chunk io) →
      Run.AllSteps (step u) (fun st a => (step u st a).slot.isSome)
        (Run.run (step u) start (as ++ [.note chunk io])) bs →
      finish sha u (Run.run (step u) start (as ++ .note chunk io :: bs)).slot
        (Run.run (step u) start (as ++ .note chunk io :: bs)).file io' = some d →
      d ≠ sha256File sha u (Run.run (step u) start (as ++ .note chunk io :: bs)).file) ∧
    (∀ as io d, ¬ InOneGo u (Run.run (step u) start as) (.finish io) →
      finish sha u (Run.run (step u) start as).slot (Run.run (step u) start as).file io = some d →
      d ≠ sha256File sha u (Run.run (step u) start as).file) := by
  refine ⟨?_, ?_, ?_⟩
  · intro as io has
    have hstart : SlotOk u start ∧ WholeOrNothing u start := by
      constructor
      · intro s hs
        simp [start] at hs
      · intro s hs
        simp [start] at hs
    rcases has.left.invariant wholeOrNothing_step hstart with ⟨hslot, hwhole⟩
    exact digestCorrect_of_whole sha hslot hwhole has.right.1
  · -- the call feeds a part, and the slot stays piecemeal while it lives
    intro as chunk io bs io' d hnot hkept hd
    have hrun : Run.run (step u) start (as ++ .note chunk io :: bs) =
        Run.run (step u) (Run.run (step u) start (as ++ [.note chunk io])) bs := by
      rw [← Run.run_append, List.append_assoc]
      rfl
    have hpiece := piecemeal_of_not_inOneGo (slotOk_run as) hnot
    have hstep : step u (Run.run (step u) start as) (.note chunk io) =
        Run.run (step u) start (as ++ [.note chunk io]) := by
      rw [Run.run_append]
      rfl
    rw [hstep] at hpiece
    refine digest_ne (slotOk_run _) hd (Or.inl ?_)
    rw [hrun]
    exact piecemeal_run (slotOk_run _) hpiece hkept
  · intro as io d hnot hd
    exact digest_ne (slotOk_run as) hd (Or.inr hnot)

def twoChunks : Session := ⟨1, 2, Nat.one_pos, Nat.two_pos⟩

def goodIo : Io := ⟨true, true, fun _ => true⟩

/-- The two chunks arrive in order, each written before it is noted. -/
def inOrder : List Action :=
  [.store 0 fun _ => 65, .note 0 goodIo, .store 1 fun _ => 66, .note 1 goodIo]

/-- Any digest without collisions does below. -/
def plainSha : Sha := ⟨id, Function.injective_id⟩

/-- The digest of the file `AB` is that of `B`. -/
theorem digest_of_last_chunk :
    finish plainSha twoChunks (Run.run (step twoChunks) start inOrder).slot
      (Run.run (step twoChunks) start inOrder).file goodIo = some (plainSha.digest (bytes "B")) ∧
    sha256File plainSha twoChunks (Run.run (step twoChunks) start inOrder).file =
      plainSha.digest (bytes "AB") ∧
    ¬ DigestCorrect plainSha twoChunks (Run.run (step twoChunks) start inOrder) goodIo := by
  have hfinish : finish plainSha twoChunks (Run.run (step twoChunks) start inOrder).slot
      (Run.run (step twoChunks) start inOrder).file goodIo =
        some (plainSha.digest (bytes "B")) := by decide
  have hfile : sha256File plainSha twoChunks (Run.run (step twoChunks) start inOrder).file =
      plainSha.digest (bytes "AB") := by decide
  refine ⟨hfinish, hfile, ?_⟩
  intro h
  have heq := h (by decide) _ hfinish
  rw [hfile] at heq
  exact absurd heq (by decide)

/-- The two chunks arrive in reverse order. -/
def inReverse : List Action :=
  [.store 1 fun _ => 66, .note 1 goodIo, .store 0 fun _ => 65, .note 0 goodIo]

theorem digest_in_reverse :
    Run.AllSteps (step twoChunks) (InOneGo twoChunks) start (inReverse ++ [.finish goodIo]) ∧
      DigestCorrect plainSha twoChunks (Run.run (step twoChunks) start inReverse) goodIo := by
  have hok : Run.AllSteps (step twoChunks) (InOneGo twoChunks) start
      (inReverse ++ [.finish goodIo]) := by
    refine ⟨trivial, ?_, trivial, ?_, ?_, trivial⟩
    · intro _ s hs hsome
      obtain rfl := Option.some.inj hs
      exact absurd hsome (by decide)
    · intro _ s hs _
      obtain rfl := Option.some.inj hs
      decide
    · intro s hs hsome
      obtain rfl := Option.some.inj hs
      exact absurd hsome (by decide)
  exact ⟨hok, (digest_correct_in_one_go plainSha twoChunks).1 inReverse goodIo hok⟩

end FlyBoard.Tasfa

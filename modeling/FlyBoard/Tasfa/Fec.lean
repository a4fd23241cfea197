import FlyBoard.Lib.LogTable
import FlyBoard.Tasfa.RollingHash
import Mathlib.Data.Finset.Card
import Mathlib.Data.Finset.Range
import Mathlib.Data.Nat.Bitwise

/-!
# Forward error correction of an upload (`src/handlers/tasfa/htp.c`, `src/utils/client_core.h`)

Data chunks form groups of six. The client sends for each group one parity chunk
(`xor1`) or two (`rs2`, Reed–Solomon over GF(2⁸) with the rows `x` and `x²`), and
`tasfa_finalize_session_process` computes erased data chunks from them.

The client kernel and the server each build their own tables of the field. A
table and a chunk buffer are functions of the index; the server's static arrays
and the client's cleared state are zero before the tables are filled.
-/

namespace FlyBoard.Tasfa

/-! ## The field -/

/-- `gf_log_tbl`, `gf_exp_tbl`. -/
structure GfTables where
  exp : Nat → UInt8
  log : Nat → UInt8

/-- `x <<= 1; if (x & 0x100) x ^= 0x11d;` -/
def gfNext (x : Nat) : Nat :=
  if (x <<< 1) &&& 0x100 ≠ 0 then (x <<< 1) ^^^ 0x11d else x <<< 1

/-- The first loop: `n` more entries from index `i` on, where the power is `x`. -/
def gfFill : Nat → Nat → Nat → GfTables → GfTables
  | 0, _, _, t => t
  | n + 1, i, x, t =>
    gfFill n (i + 1) (gfNext x)
      ⟨Function.update t.exp i (UInt8.ofNat x), Function.update t.log x (UInt8.ofNat i)⟩

/-- The second loop: `gf_exp[i] = gf_exp[i - 255]`. -/
def gfDouble (exp : Nat → UInt8) : Nat → UInt8 :=
  (List.range' 255 255).foldl (fun e i => Function.update e i (e (i - 255))) exp

/-- `gf_init_tables` -/
def gfInitTables : GfTables :=
  let t := gfFill 255 0 1 ⟨fun _ => 0, fun _ => 0⟩
  { t with exp := gfDouble t.exp }

/-- `gf_mul` -/
def gfMul (a b : UInt8) : UInt8 :=
  if a = 0 ∨ b = 0 then 0
  else gfInitTables.exp ((gfInitTables.log a.toNat).toNat + (gfInitTables.log b.toNat).toNat)

/-- `gf_div`; callers divide by nonzero elements. -/
def gfDiv (a b : UInt8) : UInt8 :=
  if a = 0 then 0
  else gfInitTables.exp
    ((gfInitTables.log a.toNat).toNat + 255 - (gfInitTables.log b.toNat).toNat)

/-- `fb_gf_state_t` -/
structure FbGfState where
  tables : GfTables
  rowA : Nat → Nat → UInt8
  rowB : Nat → Nat → UInt8

/-- A row entry: `(c && v) ? gf_exp[gf_log[c] + gf_log[v]] : 0`. -/
def fbRowEntry (t : GfTables) (c : UInt8) (v : Nat) : UInt8 :=
  if c ≠ 0 ∧ v ≠ 0 then t.exp ((t.log c.toNat).toNat + (t.log v).toNat) else 0

/-- `fb_gf_init` -/
def fbGfInit : FbGfState :=
  let t := gfFill 255 0 1 ⟨fun _ => 0, fun _ => 0⟩
  let t := { t with exp := gfDouble t.exp }
  let a (pos : Nat) : UInt8 := UInt8.ofNat (pos + 1)
  { tables := t
    rowA := fun pos v => fbRowEntry t (a pos) v
    rowB := fun pos v => fbRowEntry t (fbRowEntry t (a pos) (a pos).toNat) v }

/-! ## The client's parity chunks -/

/-- The negotiated mode: `fec=rs2`, anything else is `xor1`. -/
inductive FecMode
  | xor1
  | rs2
deriving DecidableEq, Repr

/-- A buffer of `chunk_size` bytes. -/
abbrev Buf := Nat → UInt8

/-- `fb_parity_chunk_count` -/
def fbParityChunkCount (dataChunks : Nat) : FecMode → Nat
  | .xor1 => (dataChunks + 5) / 6
  | .rs2 => 2 * ((dataChunks + 5) / 6)

/-- `fb_parity_group_row` -/
def fbParityGroupRow (chunkIndex dataChunks : Nat) : FecMode → Nat × Nat
  | .xor1 => (chunkIndex - dataChunks, 0)
  | .rs2 => ((chunkIndex - dataChunks) / 2, (chunkIndex - dataChunks) % 2)

/-- `fb_rs_accumulate_slice` -/
def fbRsAccumulateSlice (st : FbGfState) (slot : Nat) (data : Buf) (dataLen : Nat)
    (p : Buf × Buf) : Buf × Buf :=
  if 6 ≤ slot ∨ dataLen = 0 then p
  else
    (fun i => if i < dataLen ∧ data i ≠ 0 then p.1 i ^^^ st.rowA slot (data i).toNat else p.1 i,
      fun i => if i < dataLen ∧ data i ≠ 0 then p.2 i ^^^ st.rowB slot (data i).toNat else p.2 i)

/-- `fb_xor_accumulate_slice` -/
def fbXorAccumulateSlice (data : Buf) (dataLen : Nat) (parity : Buf) : Buf :=
  fun i => if i < dataLen then parity i ^^^ data i else parity i

namespace Session

variable (u : Session)

def groups : Nat := (u.dataChunks + 5) / 6

/-- `chunk_count` of `handler_file_upload_init`. -/
def chunkCount (mode : FecMode) : Nat := u.dataChunks + fbParityChunkCount u.dataChunks mode

/-- The data chunks of a group: from `g * 6` to `min(g * 6 + 6, data_chunks)`. -/
def groupChunks (g : Nat) : List Nat :=
  List.range' (g * 6) (min (g * 6 + 6) u.dataChunks - g * 6)

def chunkLen (ci : Nat) : Nat := min (u.totalSize - ci * u.chunkSize) u.chunkSize

/-- A data chunk of a file, zero-padded to `chunk_size`. -/
def padded (file : File) (ci : Nat) : Buf :=
  fun i => if i < u.chunkLen ci then file (ci * u.chunkSize + i) else 0

/-- Both rows of a group in `rs2`: slot `ci - groupStart` of each data chunk in turn. -/
def generateRsParityBuffers (file : File) (g : Nat) : Buf × Buf :=
  (u.groupChunks g).foldl
    (fun p ci => fbRsAccumulateSlice fbGfInit (ci - g * 6) (u.padded file ci) u.chunkSize p)
    (fun _ => 0, fun _ => 0)

/-- The parity of a group in `xor1`. -/
def generateXorParityBuffer (file : File) (g : Nat) : Buf :=
  (u.groupChunks g).foldl
    (fun p ci => fbXorAccumulateSlice (u.padded file ci) u.chunkSize p) (fun _ => 0)

/-- `generateParityChunkBuffer`: the parity chunk the client sends under an index. -/
def generateParityChunkBuffer (mode : FecMode) (file : File) (chunkIndex : Nat) : Bytes :=
  let gr := fbParityGroupRow chunkIndex u.dataChunks mode
  let buf := match mode with
    | .xor1 => u.generateXorParityBuffer file gr.1
    | .rs2 =>
      let bufs := u.generateRsParityBuffers file gr.1
      if gr.2 = 0 then bufs.1 else bufs.2
  (List.range u.chunkSize).map buf

end Session

/-! ## Recovery -/

/-- The files `parity_<k>.bin` of a session. -/
abbrev ParityFiles := Nat → Option Bytes

/-- What the system calls of one recovery do: whether the buffers were allocated
and the temp file opened, which chunks `pread` returned whole, and how many bytes
`pwrite_all` wrote for a chunk. -/
structure RecoveryIo where
  allocOk : Bool
  openOk : Bool
  readOk : Nat → Bool
  written : Nat → Nat

def RecoveryIo.Ok (io : RecoveryIo) (u : Session) : Prop :=
  io.allocOk = true ∧ io.openOk = true ∧ (∀ ci, io.readOk ci = true) ∧
    ∀ ci, u.chunkLen ci ≤ io.written ci

namespace Session

variable (u : Session)

/-- Opens a parity file and reads at most `chunk_size` bytes into a cleared buffer;
`none` when it is missing or empty. -/
def readParity (parity : ParityFiles) (k : Nat) : Option Buf :=
  match parity k with
  | none => none
  | some data =>
    if data = [] then none else some fun i => if i < u.chunkSize then data.getD i 0 else 0

/-- The loop over the present chunks of a group: `skip` are the missing ones, and
`acc` takes the chunk out of the parity buffers. -/
def subtractPresent {P : Type} (io : RecoveryIo) (temp : File) (skip : Nat → Bool)
    (acc : Nat → Buf → P → P) : List Nat → P → Option P
  | [], p => some p
  | ci :: rest, p =>
    if skip ci then subtractPresent io temp skip acc rest p
    else if u.totalSize ≤ ci * u.chunkSize then subtractPresent io temp skip acc rest p
    else if io.readOk ci then
      subtractPresent io temp skip acc rest (acc ci (u.padded temp ci) p)
    else none

/-- `pwrite_all` of a data chunk at its place: the file and whether all was written. -/
def pwriteChunk (io : RecoveryIo) (temp : File) (ci : Nat) (buf : Buf) : File × Bool :=
  (fun i => if ci * u.chunkSize ≤ i ∧ i < ci * u.chunkSize + min (u.chunkLen ci) (io.written ci)
      then buf (i - ci * u.chunkSize) else temp i,
    decide (u.chunkLen ci ≤ io.written ci))

/-- `x_i = i + 1`, the coefficient of a chunk in its group. -/
def coeff (start ci : Nat) : UInt8 := UInt8.ofNat (ci - start + 1)

/-- `p[i] ^= gf_mul(c, d)` for the nonzero bytes `d` of a chunk. -/
def mulInto (c : UInt8) (data p : Buf) : Buf :=
  fun i => if data i ≠ 0 then p i ^^^ gfMul c (data i) else p i

/-- The 2×2 solve for two missing chunks with coefficients `aU` and `aV`. -/
def solveTwo (aU aV : UInt8) (p : Buf × Buf) : Buf × Buf :=
  let bU := gfMul aU aU
  let bV := gfMul aV aV
  let det := gfMul aU bV ^^^ gfMul aV bU
  (fun i => gfDiv (gfMul (p.1 i) bV ^^^ gfMul (p.2 i) aV) det,
    fun i => gfDiv (gfMul aU (p.2 i) ^^^ gfMul bU (p.1 i)) det)

/-- `perform_rs_recovery`; `missingB` is `none` for a single erasure. -/
def performRsRecovery (parity : ParityFiles) (io : RecoveryIo) (temp : File)
    (groupStart groupEnd missingA : Nat) (missingB : Option Nat)
    (parity0Idx parity1Idx : Nat) : File × Bool :=
  if !io.allocOk then (temp, false)
  else
    let row1 := match missingB with
      | none => some fun _ => 0
      | some _ => u.readParity parity (parity1Idx - u.dataChunks)
    match u.readParity parity (parity0Idx - u.dataChunks), row1 with
    | some p0, some p1 =>
      if !io.openOk then (temp, false)
      else
        let p := u.subtractPresent io temp
          (fun ci => decide (ci = missingA ∨ some ci = missingB))
          (fun ci data p =>
            (mulInto (coeff groupStart ci) data p.1,
              mulInto (gfMul (coeff groupStart ci) (coeff groupStart ci)) data p.2))
          (List.range' groupStart (groupEnd - groupStart)) (p0, p1)
        match p, missingB with
        | none, _ => (temp, false)
        | some p, none =>
          u.pwriteChunk io temp missingA fun i => gfDiv (p.1 i) (coeff groupStart missingA)
        | some p, some b =>
          let d := solveTwo (coeff groupStart missingA) (coeff groupStart b) p
          let w := u.pwriteChunk io temp missingA d.1
          if w.2 then u.pwriteChunk io w.1 b d.2 else w
    | _, _ => (temp, false)

/-- `perform_xor_recovery` -/
def performXorRecovery (parity : ParityFiles) (io : RecoveryIo) (temp : File)
    (groupStart groupEnd target parityIdx : Nat) : File × Bool :=
  if !io.allocOk then (temp, false)
  else
    match u.readParity parity (parityIdx - u.dataChunks) with
    | none => (temp, false)
    | some p =>
      if !io.openOk then (temp, false)
      else
        match u.subtractPresent io temp (fun ci => decide (ci = target))
          (fun _ data p => fun i => p i ^^^ data i)
          (List.range' groupStart (groupEnd - groupStart)) p with
        | none => (temp, false)
        | some p => u.pwriteChunk io temp target p

end Session

/-! ## Reconstruction of missing chunks in `tasfa_finalize_session_process` -/

/-- The temp file and `mutable_bitmap`. -/
structure FecState where
  temp : File
  bitmap : Nat → Bool

namespace Session

variable (u : Session)

/-- `fec_rs2`, from the stored counts. -/
def fecRs2 (chunkCount : Nat) : Bool := decide (chunkCount = u.dataChunks + 2 * u.groups)

def missingData (bitmap : Nat → Bool) (g : Nat) : List Nat :=
  (u.groupChunks g).filter fun ci => !bitmap ci

def solvable (chunkCount : Nat) (bitmap : Nat → Bool) (g : Nat) : Bool :=
  let missing := (u.missingData bitmap g).length
  if u.fecRs2 chunkCount then
    let parity0 := decide (u.dataChunks + 2 * g < chunkCount) && bitmap (u.dataChunks + 2 * g)
    let parity1 :=
      decide (u.dataChunks + 2 * g + 1 < chunkCount) && bitmap (u.dataChunks + 2 * g + 1)
    if missing = 1 then parity0 else decide (missing = 2) && parity0 && parity1
  else decide (missing = 1) && bitmap (u.dataChunks + g)

def recoverGroup (chunkCount : Nat) (parity : ParityFiles) (io : RecoveryIo) (temp : File)
    (missing : List Nat) (g : Nat) : File × Bool :=
  let groupStart := g * 6
  let groupEnd := min (g * 6 + 6) u.dataChunks
  if u.fecRs2 chunkCount then
    u.performRsRecovery parity io temp groupStart groupEnd (missing.getD 0 0) missing[1]?
      (u.dataChunks + 2 * g) (u.dataChunks + 2 * g + 1)
  else
    u.performXorRecovery parity io temp groupStart groupEnd (missing.getD 0 0) (u.dataChunks + g)

def fecGroup (chunkCount : Nat) (parity : ParityFiles) (io : Nat → RecoveryIo) (s : FecState)
    (g : Nat) : FecState :=
  let missing := u.missingData s.bitmap g
  if u.solvable chunkCount s.bitmap g then
    let r := u.recoverGroup chunkCount parity (io g) s.temp missing g
    ⟨r.1, if r.2 then fun ci => s.bitmap ci || missing.contains ci else s.bitmap⟩
  else s

def fecReconstruct (chunkCount : Nat) (parity : ParityFiles) (io : Nat → RecoveryIo)
    (s : FecState) : FecState :=
  if (List.range chunkCount).all s.bitmap then s
  else (List.range u.groups).foldl (u.fecGroup chunkCount parity io) s

end Session

/-! ## Both tables are those of one field -/

theorem gfNext_eq (x : Nat) :
    gfNext x = x <<< 1 ^^^ if (x <<< 1).testBit 8 then 0x11d else 0 := by
  have h : x <<< 1 &&& 0x100 = ((x <<< 1).testBit 8).toNat * 2 ^ 8 := Nat.and_two_pow _ 8
  rw [gfNext, h]
  cases (x <<< 1).testBit 8 <;> simp

theorem gfNext_xor (a b : Nat) : gfNext (a ^^^ b) = gfNext a ^^^ gfNext b := by
  simp only [gfNext_eq, Nat.shiftLeft_xor_distrib, Nat.testBit_xor]
  cases (a <<< 1).testBit 8 <;> cases (b <<< 1).testBit 8
  · simp
  · simp [Nat.xor_assoc]
  · simp only [Bool.true_bne, Bool.not_false, if_true, Bool.false_eq_true, if_false, Nat.xor_zero]
    ac_rfl
  · simp only [bne_self_eq_false, Bool.false_eq_true, if_false, if_true, Nat.xor_zero]
    -- the two reductions cancel
    calc a <<< 1 ^^^ b <<< 1 = (a <<< 1 ^^^ b <<< 1) ^^^ (0x11d ^^^ 0x11d) := by simp
      _ = (a <<< 1 ^^^ 0x11d) ^^^ (b <<< 1 ^^^ 0x11d) := by ac_rfl

variable {x : Nat}

theorem gfNext_lt (h : x < 256) : gfNext x < 256 := by
  have hall : ∀ y < 256, gfNext y < 256 := by decide +kernel
  exact hall x h

/-- The first loop writes the powers of the generator one after the other. -/
theorem gfFill_exp (n i x : Nat) (t : GfTables) (j : Nat) :
    (gfFill n i x t).exp j
      = if i ≤ j ∧ j < i + n then UInt8.ofNat (gfNext^[j - i] x) else t.exp j := by
  induction n generalizing i x t with
  | zero =>
    rw [if_neg (by omega)]
    rfl
  | succ n ih =>
    rw [gfFill, ih]
    by_cases hj : j = i
    · subst hj
      rw [if_neg (by omega), if_pos (by omega)]
      simp
    by_cases hin : i + 1 ≤ j ∧ j < i + 1 + n
    · have hsucc : j - i = (j - (i + 1)).succ := by omega
      rw [if_pos hin, if_pos (by omega), ← Function.iterate_succ_apply, hsucc]
    · rw [if_neg hin, if_neg (by omega)]
      simp [hj]

theorem foldl_double (n : Nat) (e : Nat → UInt8) (j : Nat) (hn : n ≤ 255) :
    (List.range' 255 n).foldl (fun e i => Function.update e i (e (i - 255))) e j
      = if 255 ≤ j ∧ j < 255 + n then e (j - 255) else e j := by
  induction n with
  | zero =>
    rw [if_neg (by omega)]
    rfl
  | succ n ih =>
    rw [List.range'_concat, List.foldl_append, List.foldl_cons, List.foldl_nil]
    by_cases hj : j = 255 + n
    · subst hj
      -- the entry it copies lies before 255, which the loop does not write
      have hsrc : (List.range' 255 n).foldl (fun e i => Function.update e i (e (i - 255))) e n
          = e n := by
        have hother : ∀ l : List Nat, (∀ i ∈ l, i ≠ n) → ∀ e : Nat → UInt8,
            l.foldl (fun e i => Function.update e i (e (i - 255))) e n = e n := by
          intro l hl
          induction l with
          | nil => intro e; rfl
          | cons i l ihl =>
            intro e
            rw [List.foldl_cons, ihl fun i hi => hl i (List.mem_cons_of_mem _ hi)]
            exact Function.update_of_ne (hl i List.mem_cons_self).symm _ _
        apply hother
        intro i hi
        have := List.mem_range'_1.mp hi
        omega
      simp [hsrc]
    · rw [Nat.one_mul, Function.update_of_ne hj, ih (by omega)]
      by_cases hin : 255 ≤ j ∧ j < 255 + n
      · rw [if_pos hin, if_pos (by omega)]
      · rw [if_neg hin, if_neg (by omega)]

def gfStep (x : UInt8) : UInt8 := UInt8.ofNat (gfNext x.toNat)

theorem toNat_gfStep (x : UInt8) : (gfStep x).toNat = gfNext x.toNat := by
  rw [gfStep, UInt8.toNat_ofNat']
  exact Nat.mod_eq_of_lt (gfNext_lt x.toNat_lt)

theorem toNat_iterate_gfStep (i : Nat) (x : UInt8) :
    (gfStep^[i] x).toNat = gfNext^[i] x.toNat := by
  induction i generalizing x with
  | zero => rfl
  | succ i ih => rw [Function.iterate_succ_apply, ih, toNat_gfStep, ← Function.iterate_succ_apply]

theorem power_log : ∀ x < 256, x ≠ 0 →
    (gfInitTables.log x).toNat < 255 ∧ gfNext^[(gfInitTables.log x).toNat] 1 = x := by
  decide +kernel

theorem gfNext_ne_zero (h : x < 256) (h0 : x ≠ 0) : gfNext x ≠ 0 := by
  have hall : ∀ y < 256, y ≠ 0 → gfNext y ≠ 0 := by decide +kernel
  exact hall x h h0

theorem power_ne_zero (i : Nat) : gfNext^[i] 1 < 256 ∧ gfNext^[i] 1 ≠ 0 := by
  induction i with
  | zero => exact ⟨by decide, by decide⟩
  | succ i ih =>
    rw [Function.iterate_succ_apply']
    exact ⟨gfNext_lt ih.1, gfNext_ne_zero ih.1 ih.2⟩

/-- The first 255 powers of the generator are distinct: they are all bytes but 0. -/
theorem power_injOn : Set.InjOn (fun i => gfNext^[i] 1) (Finset.range 255 : Set Nat) := by
  apply Finset.injOn_of_surjOn_of_card_le (t := (Finset.range 256).erase 0)
  · intro i _
    have hpow := power_ne_zero i
    exact Finset.mem_coe.mpr (Finset.mem_erase.mpr ⟨hpow.2, Finset.mem_range.mpr hpow.1⟩)
  · intro x hx
    rcases Finset.mem_erase.mp (Finset.mem_coe.mp hx) with ⟨h0, hlt⟩
    have hlog := power_log x (Finset.mem_range.mp hlt) h0
    exact ⟨(gfInitTables.log x).toNat, Finset.mem_coe.mpr (Finset.mem_range.mpr hlog.1), hlog.2⟩
  · simp

variable {i : Nat}

theorem log_power (hi : i < 255) : (gfInitTables.log (gfNext^[i] 1)).toNat = i := by
  have hpow := power_ne_zero i
  have hlog := power_log (gfNext^[i] 1) hpow.1 hpow.2
  exact power_injOn (Finset.mem_coe.mpr (Finset.mem_range.mpr hlog.1))
    (Finset.mem_coe.mpr (Finset.mem_range.mpr hi)) hlog.2

def gf : LogTable UInt8 where
  zero := 0
  one := 1
  add a b := a ^^^ b
  step := gfStep
  order := 255
  log a := (gfInitTables.log a.toNat).toNat
  add_comm := UInt8.xor_comm
  add_assoc := UInt8.xor_assoc
  add_zero _ := UInt8.xor_zero
  add_self _ := UInt8.xor_self
  step_add a b := by
    apply UInt8.toNat_inj.mp
    rw [UInt8.toNat_xor, toNat_gfStep, toNat_gfStep, toNat_gfStep, UInt8.toNat_xor, gfNext_xor]
  step_order := by decide +kernel
  step_ne_zero i _ h := by
    apply (power_ne_zero i).2
    rw [← UInt8.toNat_one, ← toNat_iterate_gfStep, h]
    rfl
  log_lt a h := (power_log _ a.toNat_lt fun h0 => h (UInt8.toNat_inj.mp h0)).1
  step_log a h := by
    apply UInt8.toNat_inj.mp
    rw [toNat_iterate_gfStep]
    exact (power_log _ a.toNat_lt fun h0 => h (UInt8.toNat_inj.mp h0)).2
  log_step i hi := by
    rw [toNat_iterate_gfStep]
    exact log_power hi

@[simp] theorem gf_zero : gf.zero = 0 := rfl

theorem gf_order : gf.order = 255 := rfl

@[simp] theorem gf_add (a b : UInt8) : gf.add a b = a ^^^ b := rfl

theorem gfDouble_apply (e : Nat → UInt8) (j : Nat) :
    gfDouble e j = if 255 ≤ j ∧ j < 255 + 255 then e (j - 255) else e j := by
  rw [gfDouble]
  exact foldl_double 255 e j le_rfl

theorem gfInitTables_exp (h : i < 510) : gfInitTables.exp i = gf.exp i := by
  have hlow : ∀ j < 255, (gfFill 255 0 1 ⟨fun _ => 0, fun _ => 0⟩).exp j = gf.exp j := by
    intro j hj
    rw [gfFill_exp, if_pos (by omega)]
    apply UInt8.toNat_inj.mp
    rw [UInt8.toNat_ofNat', LogTable.exp, show gf.step = gfStep from rfl, toNat_iterate_gfStep]
    apply Nat.mod_eq_of_lt
    rw [Nat.sub_zero, ← UInt8.toNat_one, ← toNat_iterate_gfStep]
    exact UInt8.toNat_lt _
  rw [gfInitTables]
  dsimp only
  rw [gfDouble_apply]
  by_cases hi : 255 ≤ i ∧ i < 255 + 255
  · rw [if_pos hi, hlow _ (by omega)]
    have horder : i - 255 + gf.order * 1 = i := by
      rw [gf_order]
      omega
    rw [← gf.exp_add_mul_order (i - 255) 1, horder]
  · rw [if_neg hi, hlow _ (by omega)]

theorem gf_log_lt {a : UInt8} (h : a ≠ 0) : (gfInitTables.log a.toNat).toNat < 255 := gf.log_lt a h

theorem gfMul_eq (a b : UInt8) : gfMul a b = gf.mul a b := by
  rw [gfMul, LogTable.mul, gf_zero]
  by_cases h : a = 0 ∨ b = 0
  · rw [if_pos h, if_pos h]
  · rw [if_neg h, if_neg h]
    have ha := gf_log_lt fun ha => h (Or.inl ha)
    have hb := gf_log_lt fun hb => h (Or.inr hb)
    exact gfInitTables_exp (by omega)

theorem gfDiv_eq (a b : UInt8) : gfDiv a b = gf.div a b := by
  rw [gfDiv, LogTable.div, gf_zero]
  by_cases h : a = 0
  · rw [if_pos h, if_pos h]
  · rw [if_neg h, if_neg h]
    have ha := gf_log_lt h
    exact gfInitTables_exp (by omega)

theorem fbRowEntry_eq (c v : UInt8) : fbRowEntry fbGfInit.tables c v.toNat = gfMul c v := by
  have hv : v.toNat ≠ 0 ↔ v ≠ 0 := by
    rw [Ne, ← UInt8.toNat_zero, UInt8.toNat_inj]
  by_cases h : c = 0 ∨ v = 0
  · have hn : ¬(c ≠ 0 ∧ v.toNat ≠ 0) := by
      rw [hv]
      exact fun hn => h.elim hn.1 hn.2
    rw [fbRowEntry, if_neg hn, gfMul, if_pos h]
  · have hp : c ≠ 0 ∧ v.toNat ≠ 0 := ⟨fun hc => h (Or.inl hc), hv.mpr fun hc => h (Or.inr hc)⟩
    rw [fbRowEntry, if_pos hp, gfMul, if_neg h]
    rfl

/-! ## Buffers -/

theorem gfMul_zero (c : UInt8) : gfMul c 0 = 0 := by simp [gfMul]

@[simp] theorem mulInto_apply (c : UInt8) (data p : Buf) (i : Nat) :
    Session.mulInto c data p i = p i ^^^ gfMul c (data i) := by
  rw [Session.mulInto]
  by_cases h : data i = 0
  · rw [if_neg (by simp [h]), h, gfMul_zero, UInt8.xor_zero]
  · rw [if_pos h]

/-- A loop that adds one term to every byte in each round adds the sum of the terms. -/
theorem foldl_buf_apply (f : Nat → Buf → Buf) (t : Nat → Nat → UInt8)
    (hf : ∀ ci p i, f ci p i = p i ^^^ t ci i) (l : List Nat) (p : Buf) (i : Nat) :
    l.foldl (fun p ci => f ci p) p i = p i ^^^ gf.sum (fun ci => t ci i) l := by
  induction l generalizing p with
  | nil => exact UInt8.xor_zero.symm
  | cons ci l ih =>
    rw [List.foldl_cons, ih, hf]
    exact UInt8.xor_assoc _ _ _

theorem foldl_mulInto (c : Nat → UInt8) (d : Nat → Buf) (l : List Nat) (p : Buf) (i : Nat) :
    l.foldl (fun p ci => Session.mulInto (c ci) (d ci) p) p i
      = p i ^^^ gf.sum (fun ci => gfMul (c ci) (d ci i)) l :=
  foldl_buf_apply (fun ci => Session.mulInto (c ci) (d ci)) (fun ci i => gfMul (c ci) (d ci i))
    (fun _ _ _ => mulInto_apply _ _ _ _) l p i

theorem foldl_prod_eq {f g : Nat → Buf → Buf} (l : List Nat) (p : Buf × Buf) :
    l.foldl (fun p ci => (f ci p.1, g ci p.2)) p
      = (l.foldl (fun p ci => f ci p) p.1, l.foldl (fun p ci => g ci p) p.2) := by
  induction l generalizing p with
  | nil => rfl
  | cons ci l ih => exact ih _

namespace Session

variable {u : Session} {buf : Buf} {io : RecoveryIo} {ci i : Nat} {d : Buf × Buf}

theorem chunkLen_le (u : Session) (ci : Nat) : u.chunkLen ci ≤ u.chunkSize := Nat.min_le_right _ _

theorem padded_of_le {file : File} (h : u.chunkSize ≤ i) : u.padded file ci i = 0 :=
  if_neg (Nat.not_lt.mpr (Nat.le_trans (u.chunkLen_le ci) h))

theorem mem_groupChunks {g ci : Nat} :
    ci ∈ u.groupChunks g ↔ ci / 6 = g ∧ ci < u.dataChunks := by
  rw [groupChunks, List.mem_range'_1]
  omega

/-- The client's accumulation of a padded chunk, as the server takes it out again. -/
theorem fbRsAccumulateSlice_padded {file : File} {g ci : Nat} (h : ci ∈ u.groupChunks g)
    (p : Buf × Buf) :
    fbRsAccumulateSlice fbGfInit (ci - g * 6) (u.padded file ci) u.chunkSize p
      = (mulInto (coeff (g * 6) ci) (u.padded file ci) p.1,
          mulInto (gfMul (coeff (g * 6) ci) (coeff (g * 6) ci)) (u.padded file ci) p.2) := by
  have hslot : ¬(6 ≤ ci - g * 6 ∨ u.chunkSize = 0) := by
    have := mem_groupChunks.mp h
    have := u.chunkSize_pos
    omega
  have hA : ∀ v : UInt8, fbGfInit.rowA (ci - g * 6) v.toNat = gfMul (coeff (g * 6) ci) v :=
    fun v => fbRowEntry_eq _ v
  have hB : ∀ v : UInt8, fbGfInit.rowB (ci - g * 6) v.toNat
      = gfMul (gfMul (coeff (g * 6) ci) (coeff (g * 6) ci)) v := by
    intro v
    rw [← fbRowEntry_eq (coeff (g * 6) ci) (coeff (g * 6) ci)]
    exact fbRowEntry_eq _ v
  -- past `chunk_size` the padding is zero, so the bound of the loop does not show
  have hrow : ∀ (row : Nat → UInt8) (c : UInt8) (q : Buf),
      (∀ v : UInt8, row v.toNat = gfMul c v) →
      (fun i => if i < u.chunkSize ∧ u.padded file ci i ≠ 0
        then q i ^^^ row (u.padded file ci i).toNat else q i)
        = mulInto c (u.padded file ci) q := by
    intro row c q hq
    funext i
    rw [mulInto_apply]
    by_cases hd : u.padded file ci i = 0
    · rw [if_neg fun h => h.2 hd, hd, gfMul_zero, UInt8.xor_zero]
    · have hi : i < u.chunkSize := Nat.not_le.mp fun hle => hd (padded_of_le hle)
      rw [if_pos ⟨hi, hd⟩, hq]
  rw [fbRsAccumulateSlice, if_neg hslot]
  exact Prod.ext (hrow _ _ _ hA) (hrow _ _ _ hB)

theorem generateRsParityBuffers_eq (file : File) (g i : Nat) :
    (u.generateRsParityBuffers file g).1 i
        = gf.sum (fun ci => gfMul (coeff (g * 6) ci) (u.padded file ci i)) (u.groupChunks g) ∧
      (u.generateRsParityBuffers file g).2 i
        = gf.sum (fun ci => gfMul (gfMul (coeff (g * 6) ci) (coeff (g * 6) ci))
            (u.padded file ci i)) (u.groupChunks g) := by
  have hfold : u.generateRsParityBuffers file g
      = (u.groupChunks g).foldl (fun p ci => (mulInto (coeff (g * 6) ci) (u.padded file ci) p.1,
          mulInto (gfMul (coeff (g * 6) ci) (coeff (g * 6) ci)) (u.padded file ci) p.2))
          (fun _ => 0, fun _ => 0) :=
    List.foldl_ext _ _ _ fun p ci hci => fbRsAccumulateSlice_padded hci p
  rw [hfold, foldl_prod_eq]
  constructor
  · exact (foldl_mulInto _ _ _ _ _).trans UInt8.zero_xor
  · exact (foldl_mulInto _ _ _ _ _).trans UInt8.zero_xor

theorem generateXorParityBuffer_eq (file : File) (g i : Nat) :
    u.generateXorParityBuffer file g i
      = gf.sum (fun ci => u.padded file ci i) (u.groupChunks g) := by
  rw [generateXorParityBuffer]
  refine (foldl_buf_apply (fun ci => fbXorAccumulateSlice (u.padded file ci) u.chunkSize)
    (fun ci i => u.padded file ci i) ?_ _ _ i).trans UInt8.zero_xor
  intro ci p i
  rw [fbXorAccumulateSlice]
  by_cases hi : i < u.chunkSize
  · rw [if_pos hi]
  · rw [if_neg hi, padded_of_le (Nat.not_lt.mp hi), UInt8.xor_zero]

theorem readParity_map {parity : ParityFiles} {k : Nat}
    (h : parity k = some ((List.range u.chunkSize).map buf)) :
    u.readParity parity k = some fun i => if i < u.chunkSize then buf i else 0 := by
  have hne : (List.range u.chunkSize).map buf ≠ [] := by
    have := u.chunkSize_pos
    simp only [ne_eq, List.map_eq_nil_iff, List.range_eq_nil]
    omega
  rw [readParity, h]
  dsimp only
  rw [if_neg hne]
  congr 1
  funext i
  by_cases hi : i < u.chunkSize
  · rw [if_pos hi, if_pos hi]
    simp [List.getD_eq_getElem?_getD, hi]
  · rw [if_neg hi, if_neg hi]

/-! ## One recovery -/

/-- The temp file holds a data chunk of `orig`. -/
def HoldsChunk (u : Session) (orig temp : File) (ci : Nat) : Prop :=
  ∀ i < u.chunkLen ci, temp (ci * u.chunkSize + i) = orig (ci * u.chunkSize + i)

/-- The byte `i` of the file lies in a data chunk. -/
def InChunk (u : Session) (ci i : Nat) : Prop :=
  ci * u.chunkSize ≤ i ∧ i < ci * u.chunkSize + u.chunkLen ci

theorem InChunk.eq {ci cj i : Nat} (h : u.InChunk ci i) (h' : u.InChunk cj i) : ci = cj := by
  have hdiv : ∀ {c : Nat}, u.InChunk c i → i / u.chunkSize = c := by
    intro c hc
    have hlen : u.chunkLen c ≤ u.chunkSize := u.chunkLen_le c
    rw [Nat.div_eq_iff u.chunkSize_pos]
    have h1 := hc.1
    have h2 := hc.2
    omega
  rw [← hdiv h, hdiv h']

theorem inChunk_add (h : i < u.chunkLen ci) : u.InChunk ci (ci * u.chunkSize + i) :=
  ⟨Nat.le_add_right _ _, Nat.add_lt_add_left h _⟩

theorem HoldsChunk.padded_eq {orig temp : File} {ci : Nat} (h : u.HoldsChunk orig temp ci) :
    u.padded temp ci = u.padded orig ci := by
  funext i
  by_cases hi : i < u.chunkLen ci
  · simp only [padded, if_pos hi]
    exact h i hi
  · simp only [padded, if_neg hi]

theorem HoldsChunk.of_frame {orig temp temp' : File} {ci : Nat} (h : u.HoldsChunk orig temp ci)
    (hframe : ∀ i, u.InChunk ci i → temp' i = temp i) : u.HoldsChunk orig temp' ci := by
  intro i hi
  rw [hframe _ (inChunk_add hi)]
  exact h i hi

theorem pwriteChunk_frame {temp : File}
    (h : (u.pwriteChunk io temp ci buf).1 i ≠ temp i) : u.InChunk ci i := by
  by_contra hout
  apply h
  apply if_neg
  rintro ⟨h1, h2⟩
  exact hout ⟨h1, Nat.lt_of_lt_of_le h2 (Nat.add_le_add_left (Nat.min_le_left _ _) _)⟩

theorem pwriteChunk_holds {orig temp : File} {ci : Nat}
    (hio : u.chunkLen ci ≤ io.written ci) (hbuf : ∀ i < u.chunkLen ci, buf i = u.padded orig ci i) :
    (u.pwriteChunk io temp ci buf).2 = true ∧
      u.HoldsChunk orig (u.pwriteChunk io temp ci buf).1 ci := by
  constructor
  · exact decide_eq_true hio
  · intro i hi
    have hin : ci * u.chunkSize ≤ ci * u.chunkSize + i ∧
        ci * u.chunkSize + i < ci * u.chunkSize + u.chunkLen ci := inChunk_add hi
    rw [pwriteChunk, Nat.min_eq_left hio]
    dsimp only
    rw [if_pos hin, Nat.add_sub_cancel_left, hbuf i hi, padded, if_pos hi]

theorem pwriteTwo_holds {orig temp : File} {a b : Nat}
    (hio : ∀ ci, u.chunkLen ci ≤ io.written ci) (hab : a ≠ b)
    (hd : ∀ i < u.chunkSize, d.1 i = u.padded orig a i ∧ d.2 i = u.padded orig b i) :
    let w := u.pwriteChunk io temp a d.1
    let r := if w.2 = true then u.pwriteChunk io w.1 b d.2 else w
    r.2 = true ∧ u.HoldsChunk orig r.1 a ∧ u.HoldsChunk orig r.1 b := by
  intro w r
  have ha : w.2 = true ∧ u.HoldsChunk orig w.1 a := pwriteChunk_holds (hio a) fun i hi =>
    (hd i (Nat.lt_of_lt_of_le hi (u.chunkLen_le a))).1
  have hb : (u.pwriteChunk io w.1 b d.2).2 = true ∧
      u.HoldsChunk orig (u.pwriteChunk io w.1 b d.2).1 b := pwriteChunk_holds (hio b) fun i hi =>
    (hd i (Nat.lt_of_lt_of_le hi (u.chunkLen_le b))).2
  have hr : r = u.pwriteChunk io w.1 b d.2 := if_pos ha.1
  rw [hr]
  refine ⟨hb.1, ha.2.of_frame ?_, hb.2⟩
  -- the second write stays out of the first chunk
  intro i hi
  by_contra hne
  exact hab (hi.eq (pwriteChunk_frame hne))

theorem pwriteTwo_frame {temp : File} {a b i : Nat} (h : (if (u.pwriteChunk io temp a d.1).2 = true
      then u.pwriteChunk io (u.pwriteChunk io temp a d.1).1 b d.2
      else u.pwriteChunk io temp a d.1).1 i ≠ temp i) :
    u.InChunk a i ∨ u.InChunk b i := by
  by_cases hfirst : (u.pwriteChunk io temp a d.1).1 i = temp i
  · right
    split at h
    · rw [← hfirst] at h
      exact pwriteChunk_frame h
    · exact absurd hfirst h
  · exact Or.inl (pwriteChunk_frame hfirst)

/-- The loop fails on an unreadable chunk, or runs over all present chunks. -/
theorem subtractPresent_cases {P : Type} {temp : File} {skip : Nat → Bool}
    {acc : Nat → Buf → P → P} {l : List Nat} (hl : ∀ ci ∈ l, ci * u.chunkSize < u.totalSize)
    (p : P) :
    u.subtractPresent io temp skip acc l p
      = if ∀ ci ∈ l, skip ci = false → io.readOk ci = true then
          some ((l.filter fun ci => !skip ci).foldl (fun p ci => acc ci (u.padded temp ci) p) p)
        else none := by
  induction l generalizing p with
  | nil => rfl
  | cons ci l ih =>
    have hrest := ih fun c hc => hl c (List.mem_cons_of_mem _ hc)
    have hci := hl ci List.mem_cons_self
    rw [subtractPresent]
    cases hs : skip ci
    · rw [if_neg (by simp), if_neg (Nat.not_le.mpr hci)]
      cases hr : io.readOk ci
      · rw [if_neg (by simp), if_neg (by simp [hs, hr])]
      · rw [if_pos rfl, hrest, List.filter_cons_of_pos (by simp [hs]), List.foldl_cons]
        simp [hr]
    · rw [if_pos rfl, hrest, List.filter_cons_of_neg (by simp [hs])]
      simp [hs]

theorem coeff_ne_zero {g ci : Nat} (h : ci ∈ u.groupChunks g) : coeff (g * 6) ci ≠ 0 := by
  have hlt : ci - g * 6 < 6 := by
    have := mem_groupChunks.mp h
    omega
  have hall : ∀ k < 6, UInt8.ofNat (k + 1) ≠ 0 := by decide
  exact hall _ hlt

theorem coeff_injective {g ci cj : Nat} (hi : ci ∈ u.groupChunks g) (hj : cj ∈ u.groupChunks g)
    (h : coeff (g * 6) ci = coeff (g * 6) cj) : ci = cj := by
  have hi' := mem_groupChunks.mp hi
  have hj' := mem_groupChunks.mp hj
  have hall : ∀ k < 6, ∀ m < 6, UInt8.ofNat (k + 1) = UInt8.ofNat (m + 1) → k = m := by decide
  have := hall (ci - g * 6) (by omega) (cj - g * 6) (by omega) h
  omega

theorem solveTwo_eq {x y d e : UInt8} (hx : x ≠ 0) (hy : y ≠ 0) (hxy : x ≠ y) {p : Buf × Buf}
    {i : Nat} (h0 : p.1 i = gf.row0 x y d e) (h1 : p.2 i = gf.row1 x y d e) :
    (solveTwo x y p).1 i = d ∧ (solveTwo x y p).2 i = e := by
  have hdet : gf.det x y ≠ gf.zero := gf.det_ne_zero hx hy hxy
  simp only [solveTwo, h0, h1, gfMul_eq, gfDiv_eq, ← gf_add]
  rw [gf.eliminate_right, gf.eliminate_left]
  exact ⟨gf.mul_div_cancel hdet d, gf.mul_div_cancel hdet e⟩

theorem missingData_nodup (u : Session) (bitmap : Nat → Bool) (g : Nat) :
    (u.missingData bitmap g).Nodup :=
  List.Nodup.filter _ List.nodup_range'

section Recovery

variable {orig temp : File} {bitmap : Nat → Bool} {parity : ParityFiles} {g : Nat} {P : Type}

/-- What the parity of a group holds after the present chunks are taken out: the
sum over the missing ones. -/
theorem sum_remaining (t : Nat → UInt8) {skip : Nat → Bool}
    (hskip : ∀ ci ∈ u.groupChunks g, skip ci = !bitmap ci) :
    gf.sum t (u.groupChunks g) ^^^ gf.sum t ((u.groupChunks g).filter fun ci => !skip ci)
      = gf.sum t (u.missingData bitmap g) := by
  have hsum := gf.sum_add_sum_filter t (fun ci => !skip ci) (u.groupChunks g)
  rw [gf_add] at hsum
  rw [hsum, missingData]
  congr 1
  apply List.filter_congr
  intro ci hci
  rw [Bool.not_not, hskip ci hci]

theorem mem_missingData {ci : Nat} :
    ci ∈ u.missingData bitmap g ↔ ci ∈ u.groupChunks g ∧ bitmap ci = false := by
  simp [missingData, List.mem_filter]

theorem skip_one {a : Nat} (hm : u.missingData bitmap g = [a]) :
    ∀ ci ∈ u.groupChunks g, decide (ci = a) = !bitmap ci := by
  intro ci hci
  have hiff : ci = a ↔ bitmap ci = false := by
    have hmem : ci ∈ u.missingData bitmap g ↔ _ := mem_missingData
    rw [hm, List.mem_singleton] at hmem
    exact hmem.trans (and_iff_right hci)
  cases hb : bitmap ci <;> simp [hiff, hb]

theorem skip_two {a b : Nat} (hm : u.missingData bitmap g = [a, b]) :
    ∀ ci ∈ u.groupChunks g, decide (ci = a ∨ some ci = some b) = !bitmap ci := by
  intro ci hci
  have hiff : ci = a ∨ ci = b ↔ bitmap ci = false := by
    have hmem : ci ∈ u.missingData bitmap g ↔ _ := mem_missingData
    rw [hm, List.mem_pair] at hmem
    exact hmem.trans (and_iff_right hci)
  simp only [Option.some_inj]
  cases hb : bitmap ci <;> simp [hiff, hb]

variable {acc : Nat → Buf → P → P}

theorem subtractPresent_group {skip : Nat → Bool}
    (hskip : ∀ ci ∈ u.groupChunks g, skip ci = !bitmap ci)
    (held : ∀ ci ∈ u.groupChunks g, bitmap ci = true → u.HoldsChunk orig temp ci) (p : P) :
    u.subtractPresent io temp skip acc
        (List.range' (g * 6) (min (g * 6 + 6) u.dataChunks - g * 6)) p
      = if ∀ ci ∈ u.groupChunks g, skip ci = false → io.readOk ci = true then
          some (((u.groupChunks g).filter fun ci => !skip ci).foldl
            (fun p ci => acc ci (u.padded orig ci) p) p)
        else none := by
  have hplace : ∀ ci ∈ u.groupChunks g, ci * u.chunkSize < u.totalSize := by
    intro ci hci
    exact (u.lt_dataChunks_iff ci).mp (mem_groupChunks.mp hci).2
  have hfold : ((u.groupChunks g).filter fun ci => !skip ci).foldl
      (fun p ci => acc ci (u.padded temp ci) p) p
      = ((u.groupChunks g).filter fun ci => !skip ci).foldl
        (fun p ci => acc ci (u.padded orig ci) p) p := by
    apply List.foldl_ext
    intro q ci hci
    rcases List.mem_filter.mp hci with ⟨hmem, hs⟩
    rw [hskip ci hmem, Bool.not_not] at hs
    rw [(held ci hmem hs).padded_eq]
  rw [← hfold]
  exact subtractPresent_cases hplace p

theorem subtractPresent_group_of_read {skip : Nat → Bool} (hread : ∀ ci, io.readOk ci = true)
    (hskip : ∀ ci ∈ u.groupChunks g, skip ci = !bitmap ci)
    (held : ∀ ci ∈ u.groupChunks g, bitmap ci = true → u.HoldsChunk orig temp ci) (p : P) :
    u.subtractPresent io temp skip acc
        (List.range' (g * 6) (min (g * 6 + 6) u.dataChunks - g * 6)) p
      = some (((u.groupChunks g).filter fun ci => !skip ci).foldl
          (fun p ci => acc ci (u.padded orig ci) p) p) := by
  rw [subtractPresent_group hskip held, if_pos fun ci _ _ => hread ci]

variable (hio : io.Ok u)
  (held : ∀ ci ∈ u.groupChunks g, bitmap ci = true → u.HoldsChunk orig temp ci) {a k : Nat}
include hio held

theorem performXorRecovery_restores (hm : u.missingData bitmap g = [a])
    (hp : parity (k - u.dataChunks)
      = some ((List.range u.chunkSize).map (u.generateXorParityBuffer orig g))) :
    let r := u.performXorRecovery parity io temp (g * 6) (min (g * 6 + 6) u.dataChunks) a k
    r.2 = true ∧ u.HoldsChunk orig r.1 a := by
  rcases hio with ⟨halloc, hopen, hread, hwrite⟩
  simp only [performXorRecovery, halloc, hopen, readParity_map hp, Bool.not_true,
    Bool.false_eq_true, if_false, subtractPresent_group_of_read hread (skip_one hm) held]
  apply pwriteChunk_holds (hwrite a)
  intro i hi
  have hcs : i < u.chunkSize := Nat.lt_of_lt_of_le hi (u.chunkLen_le a)
  rw [foldl_buf_apply _ (fun ci i => u.padded orig ci i) fun _ _ _ => rfl, if_pos hcs,
    generateXorParityBuffer_eq, sum_remaining _ (skip_one hm), hm]
  exact UInt8.xor_zero

theorem performRsRecovery_restores_one (k' : Nat) (hm : u.missingData bitmap g = [a])
    (hp : parity (k - u.dataChunks)
      = some ((List.range u.chunkSize).map (u.generateRsParityBuffers orig g).1)) :
    let r := u.performRsRecovery parity io temp (g * 6) (min (g * 6 + 6) u.dataChunks) a none k k'
    r.2 = true ∧ u.HoldsChunk orig r.1 a := by
  rcases hio with ⟨halloc, hopen, hread, hwrite⟩
  have hskip : ∀ ci ∈ u.groupChunks g, decide (ci = a ∨ some ci = none) = !bitmap ci := by
    intro ci hci
    rw [← skip_one hm ci hci]
    simp
  have ha : a ∈ u.groupChunks g := (mem_missingData.mp (hm ▸ List.mem_singleton_self a)).1
  simp only [performRsRecovery, halloc, hopen, readParity_map hp, Bool.not_true,
    Bool.false_eq_true, if_false, subtractPresent_group_of_read hread hskip held, foldl_prod_eq]
  apply pwriteChunk_holds (hwrite a)
  intro i hi
  have hcs : i < u.chunkSize := Nat.lt_of_lt_of_le hi (u.chunkLen_le a)
  rw [foldl_mulInto, if_pos hcs, (generateRsParityBuffers_eq orig g i).1, sum_remaining _ hskip, hm]
  have hsum : gf.sum (fun ci => gfMul (coeff (g * 6) ci) (u.padded orig ci i)) [a]
      = gfMul (coeff (g * 6) a) (u.padded orig a i) := UInt8.xor_zero
  rw [hsum, gfMul_eq, gfDiv_eq]
  exact gf.mul_div_cancel (coeff_ne_zero ha) _

theorem performRsRecovery_restores_two {a b k k' : Nat} (hm : u.missingData bitmap g = [a, b])
    (hp : parity (k - u.dataChunks)
      = some ((List.range u.chunkSize).map (u.generateRsParityBuffers orig g).1))
    (hp' : parity (k' - u.dataChunks)
      = some ((List.range u.chunkSize).map (u.generateRsParityBuffers orig g).2)) :
    let r := u.performRsRecovery parity io temp (g * 6) (min (g * 6 + 6) u.dataChunks) a (some b)
      k k'
    r.2 = true ∧ u.HoldsChunk orig r.1 a ∧ u.HoldsChunk orig r.1 b := by
  rcases hio with ⟨halloc, hopen, hread, hwrite⟩
  have ha : a ∈ u.groupChunks g := (mem_missingData.mp (by rw [hm]; simp)).1
  have hb : b ∈ u.groupChunks g := (mem_missingData.mp (by rw [hm]; simp)).1
  have hab : a ≠ b := by
    have hnodup := u.missingData_nodup bitmap g
    rw [hm] at hnodup
    simpa using hnodup
  -- each row is down to the terms of the two missing chunks
  have hrow : ∀ (c : Nat → UInt8) (buf : Buf), ∀ i < u.chunkSize,
      buf i = gf.sum (fun ci => gfMul (c ci) (u.padded orig ci i)) (u.groupChunks g) →
      ((u.groupChunks g).filter fun ci => !decide (ci = a ∨ some ci = some b)).foldl
          (fun p ci => mulInto (c ci) (u.padded orig ci) p)
          (fun i => if i < u.chunkSize then buf i else 0) i
        = gf.add (gf.mul (c a) (u.padded orig a i)) (gf.mul (c b) (u.padded orig b i)) := by
    intro c buf i hi hbuf
    rw [foldl_mulInto, if_pos hi, hbuf, sum_remaining _ (skip_two hm), hm, ← gfMul_eq, ← gfMul_eq]
    show _ ^^^ (_ ^^^ 0) = _ ^^^ _
    rw [UInt8.xor_zero]
  simp only [performRsRecovery, halloc, hopen, readParity_map hp, readParity_map hp', Bool.not_true,
    Bool.false_eq_true, if_false, subtractPresent_group_of_read hread (skip_two hm) held, foldl_prod_eq]
  refine pwriteTwo_holds hwrite hab fun i hi => solveTwo_eq (coeff_ne_zero ha) (coeff_ne_zero hb)
    (fun h => hab (coeff_injective ha hb h)) ?_ ?_
  · exact hrow (coeff (g * 6)) _ i hi (generateRsParityBuffers_eq orig g i).1
  · refine (hrow (fun ci => gfMul (coeff (g * 6) ci) (coeff (g * 6) ci)) _ i hi
      (generateRsParityBuffers_eq orig g i).2).trans ?_
    rw [gfMul_eq, gfMul_eq]
    rfl

end Recovery

/-! ## The loop over the groups -/

theorem dataChunks_pos (u : Session) : 0 < u.dataChunks := by
  apply (u.lt_dataChunks_iff 0).mpr
  rw [Nat.zero_mul]
  exact u.totalSize_pos

theorem fecRs2_chunkCount (mode : FecMode) :
    u.fecRs2 (u.chunkCount mode) = decide (mode = .rs2) := by
  have hpos := u.dataChunks_pos
  cases mode
  · have hne : (u.dataChunks + 5) / 6 ≠ 2 * ((u.dataChunks + 5) / 6) := by omega
    simp [fecRs2, chunkCount, fbParityChunkCount, groups, hne]
  · simp [fecRs2, chunkCount, fbParityChunkCount, groups]

def ParityStored (u : Session) (mode : FecMode) (orig : File) (parity : ParityFiles)
    (bitmap : Nat → Bool) : Prop :=
  ∀ idx < u.chunkCount mode, u.dataChunks ≤ idx → bitmap idx = true →
    parity (idx - u.dataChunks) = some (u.generateParityChunkBuffer mode orig idx)

section Group

variable {mode : FecMode} {orig temp : File} {bitmap : Nat → Bool} {parity : ParityFiles} {g : Nat}

theorem ParityStored.xor1 (h : u.ParityStored .xor1 orig parity bitmap) (hg : g < u.groups)
    (hb : bitmap (u.dataChunks + g) = true) :
    parity (u.dataChunks + g - u.dataChunks)
      = some ((List.range u.chunkSize).map (u.generateXorParityBuffer orig g)) := by
  rw [h _ (Nat.add_lt_add_left hg _) (Nat.le_add_right _ _) hb]
  simp [generateParityChunkBuffer, fbParityGroupRow]

theorem ParityStored.rs2_row0 (h : u.ParityStored .rs2 orig parity bitmap) (hg : g < u.groups)
    (hb : bitmap (u.dataChunks + 2 * g) = true) :
    parity (u.dataChunks + 2 * g - u.dataChunks)
      = some ((List.range u.chunkSize).map (u.generateRsParityBuffers orig g).1) := by
  have hlt : u.dataChunks + 2 * g < u.chunkCount .rs2 :=
    Nat.add_lt_add_left (Nat.mul_lt_mul_of_pos_left hg (by decide)) _
  rw [h _ hlt (Nat.le_add_right _ _) hb]
  simp [generateParityChunkBuffer, fbParityGroupRow]

theorem ParityStored.rs2_row1 (h : u.ParityStored .rs2 orig parity bitmap) (hg : g < u.groups)
    (hb : bitmap (u.dataChunks + 2 * g + 1) = true) :
    parity (u.dataChunks + 2 * g + 1 - u.dataChunks)
      = some ((List.range u.chunkSize).map (u.generateRsParityBuffers orig g).2) := by
  have hlt : u.dataChunks + 2 * g + 1 < u.chunkCount .rs2 := by
    have : 2 * g + 1 < 2 * u.groups := by omega
    exact Nat.add_lt_add_left this _
  have hoff : u.dataChunks + 2 * g + 1 - u.dataChunks = 2 * g + 1 := by omega
  rw [h _ hlt (by omega) hb]
  simp only [generateParityChunkBuffer, fbParityGroupRow, hoff]
  rw [show (2 * g + 1) / 2 = g by omega, show (2 * g + 1) % 2 = 1 by omega]
  rfl

theorem performXorRecovery_frame {start stop target k i : Nat}
    (h : (u.performXorRecovery parity io temp start stop target k).1 i ≠ temp i) :
    u.InChunk target i := by
  unfold performXorRecovery at h
  split at h
  · exact absurd rfl h
  split at h
  · exact absurd rfl h
  split at h
  · exact absurd rfl h
  split at h
  · exact absurd rfl h
  · exact pwriteChunk_frame h

theorem performRsRecovery_frame {start stop a k k' i : Nat} {b : Option Nat}
    (h : (u.performRsRecovery parity io temp start stop a b k k').1 i ≠ temp i) :
    u.InChunk a i ∨ ∃ c, b = some c ∧ u.InChunk c i := by
  unfold performRsRecovery at h
  split at h
  · exact absurd rfl h
  dsimp only at h
  split at h
  · split at h
    · exact absurd rfl h
    split at h
    · exact absurd rfl h
    · exact Or.inl (pwriteChunk_frame h)
    · rcases pwriteTwo_frame h with ha | hc
      · exact Or.inl ha
      · exact Or.inr ⟨_, rfl, hc⟩
  · exact absurd rfl h

theorem recoverGroup_frame {count : Nat} {missing : List Nat} (hne : missing ≠ []) {i : Nat}
    (h : (u.recoverGroup count parity io temp missing g).1 i ≠ temp i) :
    ∃ ci ∈ missing, u.InChunk ci i := by
  rcases List.exists_cons_of_ne_nil hne with ⟨a, rest, rfl⟩
  unfold recoverGroup at h
  dsimp only at h
  split at h
  · rcases performRsRecovery_frame h with ha | ⟨c, hc, hin⟩
    · exact ⟨a, List.mem_cons_self, ha⟩
    · exact ⟨c, List.mem_of_getElem? hc, hin⟩
  · exact ⟨a, List.mem_cons_self, performXorRecovery_frame h⟩

theorem recoverGroup_restores (hio : io.Ok u) (hg : g < u.groups)
    (hs : u.solvable (u.chunkCount mode) bitmap g = true)
    (hparity : u.ParityStored mode orig parity bitmap)
    (held : ∀ ci ∈ u.groupChunks g, bitmap ci = true → u.HoldsChunk orig temp ci) :
    let r := u.recoverGroup (u.chunkCount mode) parity io temp (u.missingData bitmap g) g
    r.2 = true ∧ ∀ ci ∈ u.missingData bitmap g, u.HoldsChunk orig r.1 ci := by
  unfold solvable at hs
  simp only [fecRs2_chunkCount] at hs
  simp only [recoverGroup, fecRs2_chunkCount]
  cases mode with
  | xor1 =>
    simp only [reduceCtorEq, decide_false, Bool.false_eq_true, if_false, Bool.and_eq_true,
      decide_eq_true_eq] at hs ⊢
    rcases List.length_eq_one_iff.mp hs.1 with ⟨a, hm⟩
    have hr := performXorRecovery_restores hio held hm (hparity.xor1 hg hs.2)
    rw [hm]
    refine ⟨hr.1, fun ci hci => ?_⟩
    rw [List.mem_singleton.mp hci]
    exact hr.2
  | rs2 =>
    simp only [decide_true, if_true] at hs ⊢
    by_cases h1 : (u.missingData bitmap g).length = 1
    · rw [if_pos h1, Bool.and_eq_true] at hs
      rcases List.length_eq_one_iff.mp h1 with ⟨a, hm⟩
      have hr := performRsRecovery_restores_one hio held (u.dataChunks + 2 * g + 1) hm
        (hparity.rs2_row0 hg hs.2)
      rw [hm]
      refine ⟨hr.1, fun ci hci => ?_⟩
      rw [List.mem_singleton.mp hci]
      exact hr.2
    · rw [if_neg h1] at hs
      simp only [Bool.and_eq_true, decide_eq_true_eq] at hs
      rcases List.length_eq_two.mp hs.1.1 with ⟨a, b, hm⟩
      have hr := performRsRecovery_restores_two hio held hm (hparity.rs2_row0 hg hs.1.2.2)
        (hparity.rs2_row1 hg hs.2.2)
      rw [hm]
      refine ⟨hr.1, fun ci hci => ?_⟩
      rcases List.mem_pair.mp hci with rfl | rfl
      · exact hr.2.1
      · exact hr.2.2

end Group

section Loop

variable {mode : FecMode} {orig : File} {parity : ParityFiles} {io : Nat → RecoveryIo} {g : Nat}
  {b b' : Nat → Bool} {s t : FecState} {k : Nat}

theorem solvable_missing_ne_nil {count : Nat} {bitmap : Nat → Bool}
    (h : u.solvable count bitmap g = true) : u.missingData bitmap g ≠ [] := by
  intro hnil
  simp [solvable, hnil] at h

/-- What is decided about a group depends on the bits of its own chunks and on those
of the parity chunks. -/
theorem missingData_congr
    (h : ∀ ci ∈ u.groupChunks g, b ci = b' ci) : u.missingData b g = u.missingData b' g := by
  apply List.filter_congr
  intro ci hci
  rw [h ci hci]

theorem solvable_congr {count : Nat} (h : ∀ ci ∈ u.groupChunks g, b ci = b' ci)
    (hparity : ∀ idx, u.dataChunks ≤ idx → b idx = b' idx) :
    u.solvable count b g = u.solvable count b' g := by
  unfold solvable
  rw [missingData_congr h, hparity (u.dataChunks + 2 * g) (by omega),
    hparity (u.dataChunks + 2 * g + 1) (by omega), hparity (u.dataChunks + g) (by omega)]

/-- The state of the loop after the first `k` groups. -/
structure Reconstructed (u : Session) (mode : FecMode) (orig : File) (io : Nat → RecoveryIo)
    (s : FecState) (k : Nat) (t : FecState) : Prop where
  bitmap_eq : ∀ ci, (ci / 6 < k → u.dataChunks ≤ ci) → t.bitmap ci = s.bitmap ci
  temp_eq : ∀ i, t.temp i ≠ s.temp i → ∃ g < k, u.solvable (u.chunkCount mode) s.bitmap g = true ∧
    ∃ ci ∈ u.missingData s.bitmap g, u.InChunk ci i
  restored : ∀ g < k, u.solvable (u.chunkCount mode) s.bitmap g = true → (io g).Ok u →
    ∀ ci ∈ u.missingData s.bitmap g, t.bitmap ci = true ∧ u.HoldsChunk orig t.temp ci

theorem Reconstructed.temp_eq_of_group {k ci : Nat}
    (h : u.Reconstructed mode orig io s k t) (hci : ci ∈ u.groupChunks k) :
    ∀ i, u.InChunk ci i → t.temp i = s.temp i := by
  intro i hi
  by_contra hne
  rcases h.temp_eq i hne with ⟨g, hg, _, cj, hcj, hin⟩
  have heq := hi.eq hin
  have h1 := (mem_groupChunks.mp hci).1
  have h2 := (mem_groupChunks.mp (mem_missingData.mp hcj).1).1
  omega

theorem Reconstructed.recover {r : File × Bool} (h : u.Reconstructed mode orig io s k t)
    (hs : u.solvable (u.chunkCount mode) s.bitmap k = true)
    (hframe : ∀ i, r.1 i ≠ t.temp i → ∃ ci ∈ u.missingData s.bitmap k, u.InChunk ci i)
    (hrest : (io k).Ok u →
      r.2 = true ∧ ∀ ci ∈ u.missingData s.bitmap k, u.HoldsChunk orig r.1 ci) :
    u.Reconstructed mode orig io s (k + 1) ⟨r.1, if r.2 = true
      then fun ci => t.bitmap ci || (u.missingData s.bitmap k).contains ci else t.bitmap⟩ := by
  have hgroup : ∀ ci ∈ u.missingData s.bitmap k, ci / 6 = k ∧ ci < u.dataChunks :=
    fun ci hci => mem_groupChunks.mp (mem_missingData.mp hci).1
  refine ⟨fun ci hci => ?_, fun i hi => ?_, fun g hg hsg hio ci hci => ?_⟩
  · have hnot : ci ∉ u.missingData s.bitmap k := by
      intro hmem
      have := hgroup ci hmem
      have := hci (by omega)
      omega
    have hold := h.bitmap_eq ci fun hlt => hci (by omega)
    dsimp only
    split
    · simp [hold, hnot]
    · exact hold
  · by_cases hold : t.temp i = s.temp i
    · rcases hframe i (by rwa [hold]) with ⟨ci, hci, hin⟩
      exact ⟨k, Nat.lt_succ_self k, hs, ci, hci, hin⟩
    · rcases h.temp_eq i hold with ⟨g, hg, hsg, hin⟩
      exact ⟨g, by omega, hsg, hin⟩
  · rcases Nat.lt_succ_iff_lt_or_eq.mp hg with hlt | rfl
    · -- an earlier group: its bits stay set and this round does not write into it
      rcases h.restored g hlt hsg hio ci hci with ⟨hbit, hheld⟩
      refine ⟨?_, hheld.of_frame fun i hi => ?_⟩
      · dsimp only
        split
        · simp [hbit]
        · exact hbit
      · by_contra hne
        rcases hframe i hne with ⟨cj, hcj, hin⟩
        have heq := hi.eq hin
        have h1 := (mem_groupChunks.mp (mem_missingData.mp hci).1).1
        have h2 := (hgroup cj hcj).1
        omega
    · rcases hrest hio with ⟨hok, hheld⟩
      refine ⟨?_, hheld ci hci⟩
      dsimp only
      rw [if_pos hok]
      simp [hci]

theorem Reconstructed.step
    (hdata : ∀ ci < u.dataChunks, s.bitmap ci = true → u.HoldsChunk orig s.temp ci)
    (hparity : u.ParityStored mode orig parity s.bitmap) (hk : k < u.groups)
    (h : u.Reconstructed mode orig io s k t) :
    u.Reconstructed mode orig io s (k + 1) (u.fecGroup (u.chunkCount mode) parity io t k) := by
  -- the earlier rounds left the bits of this group and of the parity chunks alone
  have hgroup : ∀ ci ∈ u.groupChunks k, t.bitmap ci = s.bitmap ci := by
    intro ci hci
    have := (mem_groupChunks.mp hci).1
    exact h.bitmap_eq ci fun hlt => by omega
  have hbits : ∀ idx, u.dataChunks ≤ idx → t.bitmap idx = s.bitmap idx :=
    fun idx hidx => h.bitmap_eq idx fun _ => hidx
  have hmiss := missingData_congr hgroup
  have hsolv : u.solvable (u.chunkCount mode) t.bitmap k
      = u.solvable (u.chunkCount mode) s.bitmap k := solvable_congr hgroup hbits
  unfold fecGroup
  rw [hmiss, hsolv]
  by_cases hs : u.solvable (u.chunkCount mode) s.bitmap k = true
  · rw [if_pos hs]
    have held : ∀ ci ∈ u.groupChunks k, s.bitmap ci = true → u.HoldsChunk orig t.temp ci := by
      intro ci hci hb
      exact (hdata ci (mem_groupChunks.mp hci).2 hb).of_frame (h.temp_eq_of_group hci)
    exact h.recover hs (fun i hi => recoverGroup_frame (solvable_missing_ne_nil hs) hi)
      fun hio => recoverGroup_restores hio hk hs hparity held
  · rw [if_neg hs]
    refine ⟨fun ci hci => h.bitmap_eq ci fun hlt => hci (by omega), ?_, ?_⟩
    · intro i hi
      rcases h.temp_eq i hi with ⟨g, hg, hsg, hin⟩
      exact ⟨g, by omega, hsg, hin⟩
    · intro g hg hsg
      rcases Nat.lt_succ_iff_lt_or_eq.mp hg with hlt | rfl
      · exact h.restored g hlt hsg
      · exact absurd hsg hs

/-- FEC reconstruction restores every erased chunk of every group it deems
solvable, and writes nowhere else. -/
theorem fecReconstruct_restores (io : Nat → RecoveryIo) (s : FecState)
    (hdata : ∀ ci < u.dataChunks, s.bitmap ci = true → u.HoldsChunk orig s.temp ci)
    (hparity : u.ParityStored mode orig parity s.bitmap) :
    let r := u.fecReconstruct (u.chunkCount mode) parity io s
    (∀ g < u.groups, u.solvable (u.chunkCount mode) s.bitmap g = true → (io g).Ok u →
      ∀ ci ∈ u.missingData s.bitmap g, r.bitmap ci = true ∧ u.HoldsChunk orig r.temp ci) ∧
    ∀ i, r.temp i ≠ s.temp i → ∃ g < u.groups, u.solvable (u.chunkCount mode) s.bitmap g = true ∧
      ∃ ci ∈ u.missingData s.bitmap g, u.InChunk ci i := by
  intro r
  have hloop : ∀ k ≤ u.groups, u.Reconstructed mode orig io s k
      ((List.range k).foldl (u.fecGroup (u.chunkCount mode) parity io) s) := by
    intro k
    induction k with
    | zero =>
      intro _
      exact ⟨fun _ _ => rfl, fun i hi => absurd rfl hi, fun g hg => absurd hg (Nat.not_lt_zero g)⟩
    | succ k ih =>
      intro hk
      rw [List.range_succ, List.foldl_append]
      exact (ih (by omega)).step hdata hparity (by omega)
  by_cases hall : (List.range (u.chunkCount mode)).all s.bitmap = true
  · -- nothing is missing, so no group is solvable
    have hr : r = s := if_pos hall
    rw [hr]
    refine ⟨fun g _ _ _ ci hci => ?_, fun i hi => absurd rfl hi⟩
    rcases mem_missingData.mp hci with ⟨hmem, hb⟩
    have hlt : ci < u.chunkCount mode := by
      have := (mem_groupChunks.mp hmem).2
      unfold chunkCount
      omega
    rw [List.all_eq_true.mp hall ci (List.mem_range.mpr hlt)] at hb
    exact absurd hb (by decide)
  · have hr : r = (List.range u.groups).foldl (u.fecGroup (u.chunkCount mode) parity io) s :=
      if_neg hall
    rw [hr]
    exact ⟨(hloop u.groups le_rfl).restored, (hloop u.groups le_rfl).temp_eq⟩

end Loop

/-- Fifteen bytes in chunks of two: eight data chunks, the last one short, and in
`rs2` two parity chunks for each of the two groups. Chunks 1, 4 and 7 are missing. -/
def tail15 : Session := ⟨2, 15, Nat.two_pos, by decide⟩

def tail15File : File := fun i => UInt8.ofNat (37 * i + 11)

def tail15Stored : FecState where
  temp i := if i / 2 ∈ [1, 4, 7] then 0 else tail15File i
  bitmap ci := decide (ci ∉ [1, 4, 7])

/-- System calls that never fail. -/
def soundIo : RecoveryIo := ⟨true, true, fun _ => true, fun _ => 2⟩

theorem fecReconstruct_tail15 :
    let r := tail15.fecReconstruct (tail15.chunkCount .rs2)
      (fun k => some (tail15.generateParityChunkBuffer .rs2 tail15File (8 + k)))
      (fun _ => soundIo) tail15Stored
    tail15.HoldsChunk tail15File r.temp 1 ∧ tail15.HoldsChunk tail15File r.temp 4 ∧
      tail15.HoldsChunk tail15File r.temp 7 := by
  intro r
  have hio : soundIo.Ok tail15 := ⟨rfl, rfl, fun _ => rfl, fun ci => tail15.chunkLen_le ci⟩
  have hdata : ∀ ci < tail15.dataChunks, tail15Stored.bitmap ci = true →
      ∀ i < tail15.chunkLen ci, tail15Stored.temp (ci * tail15.chunkSize + i)
        = tail15File (ci * tail15.chunkSize + i) := by decide
  have hparity : tail15.ParityStored .rs2 tail15File
      (fun k => some (tail15.generateParityChunkBuffer .rs2 tail15File (8 + k)))
      tail15Stored.bitmap := by
    intro idx _ hle _
    rw [show tail15.dataChunks = 8 from by decide] at hle ⊢
    dsimp only
    rw [Nat.add_sub_cancel' hle]
  have h := (fecReconstruct_restores (fun _ => soundIo) tail15Stored hdata hparity).1
  exact ⟨(h 0 (by decide) (by decide) hio 1 (by decide)).2,
    (h 0 (by decide) (by decide) hio 4 (by decide)).2,
    (h 1 (by decide) (by decide) hio 7 (by decide)).2⟩

end Session

end FlyBoard.Tasfa

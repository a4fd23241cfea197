import FlyBoard.Tasfa.Htp

/-!
# Peeling (`src/handlers/tasfa/upload.c`)

With every chunk received, `tasfa_finalize_session_process` hands the suspects of
the verification to a peeling loop, which rewrites one suspect of a group from the
parity chunk at `data_chunks + g`; what is left over is asked for again.
-/

namespace FlyBoard.Tasfa

/-- The temp file and the suspects while they are peeled, and the chunks rewritten
so far, the last one first. -/
structure PeelState where
  temp : File
  suspects : List Suspect
  rewritten : List Nat

/-- The suspects among the chunks from `start` to `stop`. -/
def inGroup (start stop : Nat) (suspects : List Suspect) : List Suspect :=
  suspects.filter fun s => start ≤ s.chunk ∧ s.chunk < stop

def bestSuspect (l : List Suspect) : Option Nat × ℚ :=
  l.foldl (fun b s => if s.score > b.2 then (some s.chunk, s.score) else b) (none, -1)

/-- The chunk to rewrite in a group: its one suspect, or the dominant one of two. -/
def peelCandidate (start stop : Nat) (suspects : List Suspect) : Option Nat :=
  let l := inGroup start stop suspects
  let best := bestSuspect l
  if l.length = 1 ∨ (l.length = 2 ∧ best.2 ≥ 1) then best.1 else none

inductive HtpVerdict
  /-- Go on to store the file. -/
  | proceed
  /-- 409 `needs_retry` with the targets and the contraction level. -/
  | needsRetry (targets : List Suspect) (level : Nat)
  /-- 409 after the chunks of a group were reset (sessions without `htp.bin`). -/
  | reset (group : Nat)

structure HtpResult where
  temp : File
  htp : HtpRecords
  rewritten : List Nat
  verdict : HtpVerdict

/-- `compare_suspect_desc` -/
def compareSuspectDesc (a b : Suspect) : Bool :=
  decide (b.score < a.score ∨ (a.score = b.score ∧ a.chunk ≤ b.chunk))

namespace Session

variable (u : Session)

def groupEnd (g : Nat) : Nat := min (g * 6 + 6) u.dataChunks

/-- One scan over the groups: it stops after the first successful recovery. -/
def peelScan (parity : ParityFiles) (bitmap : Nat → Bool) (io : Nat → RecoveryIo) :
    List Nat → PeelState → PeelState × Bool
  | [], st => (st, false)
  | g :: gs, st =>
    match peelCandidate (g * 6) (u.groupEnd g) st.suspects with
    | none => peelScan parity bitmap io gs st
    | some t =>
      if bitmap (u.dataChunks + g) then
        let r := u.performXorRecovery parity (io g) st.temp (g * 6) (u.groupEnd g) t
          (u.dataChunks + g)
        if r.2 then
          (⟨r.1, st.suspects.filter fun s => !decide (g * 6 ≤ s.chunk ∧ s.chunk < u.groupEnd g),
            t :: st.rewritten⟩, true)
        else peelScan parity bitmap io gs { st with temp := r.1 }
      else peelScan parity bitmap io gs st

/-- At most `n` more scans, as long as they make progress; `io n` is the I/O of a scan. -/
def peelPasses (parity : ParityFiles) (bitmap : Nat → Bool) (io : Nat → Nat → RecoveryIo) :
    Nat → PeelState → PeelState
  | 0, st => st
  | n + 1, st =>
    if st.suspects = [] then st
    else
      let r := u.peelScan parity bitmap (io n) (List.range u.groups) st
      if r.2 then peelPasses parity bitmap io n r.1 else r.1

/-- The peeling decoder, with `max_peel_passes` 6. -/
def peel (parity : ParityFiles) (bitmap : Nat → Bool) (io : Nat → Nat → RecoveryIo) (temp : File)
    (suspects : List Suspect) : PeelState :=
  u.peelPasses parity bitmap io 6 ⟨temp, suspects, []⟩

/-- The line sum check of a session without `htp.bin`, on `magic_scalars`. -/
def legacyMismatch (modulus : UInt64) (magic : List Nat) : Option Nat :=
  if magic.all (· = 0) then none
  else (List.range (u.dataChunks / 6)).find? fun g =>
    !(htpLineSums (fun v => UInt64.ofNat (magic.getD (g * 6 + v) 0)) modulus).agree

/-- The suspects that are peeled; without `htp.bin` there are none. -/
def peelSuspects (rnd : ℚ → ℚ) (mode : FecMode) (loaded : Option HtpRecords) (modulus : UInt64)
    (rtt : ℚ) : List Suspect :=
  match loaded with
  | none => []
  | some htp => (u.htpSuspects rnd mode ⟨htp, modulus, rtt⟩).1

/-- The HTP verification and peeling phase. `loaded` is `htp.bin`, `magic` the
`magic_scalars` and `level` the stored `htp_contraction_level`. -/
def finalizeHtp (rnd : ℚ → ℚ) (mode : FecMode) (loaded : Option HtpRecords) (magic : List Nat)
    (modulus : UInt64) (rtt : ℚ) (level : Nat) (parity : ParityFiles) (bitmap : Nat → Bool)
    (io : Nat → Nat → RecoveryIo) (temp : File) : HtpResult :=
  match loaded with
  | none =>
    let m := if modulus = 0 then 1 else modulus
    match u.legacyMismatch m magic with
    | some g => ⟨temp, fun _ => ⟨[], 0, 0⟩, [], .reset g⟩
    | none => ⟨temp, fun _ => ⟨[], 0, 0⟩, [], .proceed⟩
  | some htp =>
    let x : HtpInput := ⟨htp, modulus, rtt⟩
    let s := u.htpSuspects rnd mode x
    let st := u.peel parity bitmap io temp s.1
    ⟨st.temp, (u.htpVerify rnd mode x).1, st.rewritten,
      if st.suspects = [] then .proceed
      else .needsRetry (st.suspects.mergeSort compareSuspectDesc) (level + s.2)⟩

end Session

/-! ## Candidates -/

theorem bestSuspect_mem {l : List Suspect} {t : Nat} (h : (bestSuspect l).1 = some t) :
    ∃ s ∈ l, s.chunk = t := by
  have hfold : ∀ (l : List Suspect) (b : Option Nat × ℚ),
      (l.foldl (fun b s => if s.score > b.2 then (some s.chunk, s.score) else b) b).1 = some t →
      b.1 = some t ∨ ∃ s ∈ l, s.chunk = t := by
    intro l
    induction l with
    | nil => exact fun b hb => Or.inl hb
    | cons s l ih =>
      intro b hb
      rcases ih _ hb with hb | ⟨r, hr, hrt⟩
      · dsimp only at hb
        split at hb
        · exact Or.inr ⟨s, List.mem_cons_self, Option.some.inj hb⟩
        · exact Or.inl hb
      · exact Or.inr ⟨r, List.mem_cons_of_mem _ hr, hrt⟩
  rcases hfold l _ h with hnone | hmem
  · exact absurd hnone (by simp)
  · exact hmem

variable {suspects : List Suspect}

theorem mem_inGroup {start stop : Nat} {s : Suspect} :
    s ∈ inGroup start stop suspects ↔ s ∈ suspects ∧ start ≤ s.chunk ∧ s.chunk < stop := by
  simp [inGroup, List.mem_filter]

theorem peelCandidate_mem {start stop t : Nat} (h : peelCandidate start stop suspects = some t) :
    t ∈ suspects.map Suspect.chunk ∧ start ≤ t ∧ t < stop := by
  unfold peelCandidate at h
  dsimp only at h
  split at h
  · rcases bestSuspect_mem h with ⟨s, hs, rfl⟩
    have hin := mem_inGroup.mp hs
    exact ⟨List.mem_map_of_mem hin.1, hin.2⟩
  · exact absurd h (by simp)

namespace Session

variable {u : Session}

theorem mem_groupChunks_of_candidate {g t : Nat}
    (h : peelCandidate (g * 6) (u.groupEnd g) suspects = some t) : t ∈ u.groupChunks g := by
  have hin := (peelCandidate_mem h).2
  rw [groupEnd] at hin
  rw [mem_groupChunks]
  omega

/-- The suspects that a successful recovery in group `g` leaves. -/
theorem candidate_of_removed {g g' t : Nat}
    (h : peelCandidate (g' * 6) (u.groupEnd g') (suspects.filter fun s =>
      !decide (g * 6 ≤ s.chunk ∧ s.chunk < u.groupEnd g)) = some t) :
    g' ≠ g ∧ peelCandidate (g' * 6) (u.groupEnd g') suspects = some t := by
  have hne : g' ≠ g := by
    rintro rfl
    rcases peelCandidate_mem h with ⟨hmem, hin⟩
    rcases List.mem_map.mp hmem with ⟨s, hs, rfl⟩
    have hout := (List.mem_filter.mp hs).2
    simp only [Bool.not_eq_true', decide_eq_false_iff_not] at hout
    exact hout hin
  refine ⟨hne, ?_⟩
  have hgroup : inGroup (g' * 6) (u.groupEnd g') (suspects.filter fun s =>
      !decide (g * 6 ≤ s.chunk ∧ s.chunk < u.groupEnd g))
      = inGroup (g' * 6) (u.groupEnd g') suspects := by
    unfold inGroup
    rw [List.filter_filter]
    apply List.filter_congr
    intro s _
    -- a suspect of the other group is not removed
    have hother : (g' * 6 ≤ s.chunk ∧ s.chunk < u.groupEnd g') →
        ¬(g * 6 ≤ s.chunk ∧ s.chunk < u.groupEnd g) := by
      simp only [groupEnd]
      omega
    by_cases hs : g' * 6 ≤ s.chunk ∧ s.chunk < u.groupEnd g' <;> simp [hs, hother]
  rw [← h]
  unfold peelCandidate
  rw [hgroup]

/-! ## Scans and passes -/

section Passes

variable {parity : ParityFiles} {bitmap : Nat → Bool} {gs : List Nat} {io : Nat → RecoveryIo}
  {st : PeelState}

theorem peelPasses_invariant (inv : PeelState → Prop) {io : Nat → Nat → RecoveryIo}
    (hscan : ∀ n st, inv st → inv (u.peelScan parity bitmap (io n) (List.range u.groups) st).1)
    (n : Nat) (h0 : inv st) : inv (u.peelPasses parity bitmap io n st) := by
  induction n generalizing st with
  | zero => exact h0
  | succ n ih =>
    unfold peelPasses
    dsimp only
    split_ifs
    · exact h0
    · exact ih (hscan n st h0)
    · exact hscan n st h0

/-- What the attempts of a scan preserve, the scan preserves: an attempt that fails
may have changed the file, one that succeeds clears its group. -/
theorem peelScan_invariant (inv : PeelState → Prop) (hattempt : ∀ g ∈ gs, ∀ t st, inv st →
      peelCandidate (g * 6) (u.groupEnd g) st.suspects = some t →
      bitmap (u.dataChunks + g) = true →
      let r := u.performXorRecovery parity (io g) st.temp (g * 6) (u.groupEnd g) t
        (u.dataChunks + g)
      inv (if r.2 = true then ⟨r.1, st.suspects.filter fun s =>
          !decide (g * 6 ≤ s.chunk ∧ s.chunk < u.groupEnd g), t :: st.rewritten⟩
        else { st with temp := r.1 }))
    (h0 : inv st) : inv (u.peelScan parity bitmap io gs st).1 := by
  induction gs generalizing st with
  | nil => exact h0
  | cons g gs ih =>
    have hrest : ∀ st, inv st → inv (u.peelScan parity bitmap io gs st).1 :=
      fun st h => ih (fun g' hg' => hattempt g' (List.mem_cons_of_mem _ hg')) h
    unfold peelScan
    cases hc : peelCandidate (g * 6) (u.groupEnd g) st.suspects with
    | none => exact hrest st h0
    | some t =>
      dsimp only
      by_cases hb : bitmap (u.dataChunks + g) = true
      · have hstep := hattempt g List.mem_cons_self t st h0 hc hb
        dsimp only at hstep
        rw [if_pos hb]
        split_ifs with hr
        · rw [if_pos hr] at hstep
          exact hstep
        · rw [if_neg hr] at hstep
          exact hrest _ hstep
      · rw [if_neg hb]
        exact hrest st h0

def Passed (u : Session) (parity : ParityFiles) (bitmap : Nat → Bool) (io : Nat → RecoveryIo)
    (st : PeelState) (g : Nat) : Prop :=
  ∀ t, peelCandidate (g * 6) (u.groupEnd g) st.suspects = some t →
    bitmap (u.dataChunks + g) = true →
    u.performXorRecovery parity (io g) st.temp (g * 6) (u.groupEnd g) t (u.dataChunks + g)
      = (st.temp, false)

theorem peelScan_append_of_passed {pre : List Nat} (gs : List Nat)
    (hpass : ∀ g ∈ pre, u.Passed parity bitmap io st g) :
    u.peelScan parity bitmap io (pre ++ gs) st = u.peelScan parity bitmap io gs st := by
  induction pre with
  | nil => rfl
  | cons g pre ih =>
    have hrest := ih fun g' hg' => hpass g' (List.mem_cons_of_mem _ hg')
    have hg := hpass g List.mem_cons_self
    rw [List.cons_append, peelScan]
    cases hc : peelCandidate (g * 6) (u.groupEnd g) st.suspects with
    | none => exact hrest
    | some t =>
      dsimp only
      by_cases hb : bitmap (u.dataChunks + g) = true
      · rw [if_pos hb, hg t hc hb, if_neg (by simp)]
        exact hrest
      · rw [if_neg hb]
        exact hrest

theorem peelScan_of_passed (hpass : ∀ g ∈ gs, u.Passed parity bitmap io st g) :
    u.peelScan parity bitmap io gs st = (st, false) := by
  have happ := peelScan_append_of_passed [] hpass
  rwa [List.append_nil] at happ

theorem peelScan_first {g t : Nat} (hg : g < u.groups)
    (hpass : ∀ g' < g, u.Passed parity bitmap io st g')
    (hc : peelCandidate (g * 6) (u.groupEnd g) st.suspects = some t)
    (hb : bitmap (u.dataChunks + g) = true)
    (hr : (u.performXorRecovery parity (io g) st.temp (g * 6) (u.groupEnd g) t
      (u.dataChunks + g)).2 = true) :
    u.peelScan parity bitmap io (List.range u.groups) st
      = (⟨(u.performXorRecovery parity (io g) st.temp (g * 6) (u.groupEnd g) t
            (u.dataChunks + g)).1,
          st.suspects.filter fun s => !decide (g * 6 ≤ s.chunk ∧ s.chunk < u.groupEnd g),
          t :: st.rewritten⟩, true) := by
  have hsplit : List.range u.groups
      = List.range g ++ g :: List.range' (g + 1) (u.groups - (g + 1)) := by
    have happ : List.range' 0 g ++ List.range' (0 + 1 * g) (u.groups - (g + 1) + 1)
        = List.range' 0 (g + (u.groups - (g + 1) + 1)) := List.range'_append
    rw [List.range'_succ, show g + (u.groups - (g + 1) + 1) = u.groups by omega, Nat.one_mul,
      Nat.zero_add] at happ
    rw [List.range_eq_range', List.range_eq_range', happ]
  rw [hsplit, peelScan_append_of_passed _ fun g' hg' => hpass g' (List.mem_range.mp hg'), peelScan]
  simp only [hc, if_pos hb, if_pos hr]

theorem peelPasses_of_passed {io : Nat → Nat → RecoveryIo} (n : Nat)
    (hpass : ∀ n, ∀ g < u.groups, u.Passed parity bitmap (io n) st g) :
    u.peelPasses parity bitmap io n st = st := by
  cases n with
  | zero => rfl
  | succ n =>
    unfold peelPasses
    rw [peelScan_of_passed fun g hg => hpass n g (List.mem_range.mp hg)]
    split_ifs <;> rfl

theorem performXorRecovery_of_alloc {io : RecoveryIo} (h : io.allocOk = false) (temp : File)
    (start stop t k : Nat) :
    u.performXorRecovery parity io temp start stop t k = (temp, false) := by
  rw [performXorRecovery, h]
  rfl

theorem peel_suspects (u : Session) (parity : ParityFiles) (bitmap : Nat → Bool) (io : Nat → Nat → RecoveryIo)
    (temp : File) (suspects : List Suspect) :
    (∀ s ∈ suspects, s ∈ (u.peel parity bitmap io temp suspects).suspects ∨
        ∃ t ∈ (u.peel parity bitmap io temp suspects).rewritten, t / 6 = s.chunk / 6) := by
  unfold peel
  let inv (st : PeelState) : Prop :=
    ∀ s ∈ suspects, s ∈ st.suspects ∨ ∃ t ∈ st.rewritten, t / 6 = s.chunk / 6
  refine peelPasses_invariant inv (fun n st h => ?_) 6 fun s hs => Or.inl hs
  refine peelScan_invariant inv ?_ h
  intro g _ t st h hc _ r s hs
  have htg := (mem_groupChunks.mp (mem_groupChunks_of_candidate hc)).1
  rcases h s hs with hleft | ⟨w, hw, hws⟩
  · by_cases hin : g * 6 ≤ s.chunk ∧ s.chunk < u.groupEnd g
    · split_ifs
      · refine Or.inr ⟨t, List.mem_cons_self, ?_⟩
        have := hin.2
        rw [groupEnd] at this
        omega
      · exact Or.inl hleft
    · left
      split_ifs
      · exact List.mem_filter.mpr ⟨hleft, by rw [decide_eq_false hin]; rfl⟩
      · exact hleft
  · right
    split_ifs
    · exact ⟨w, List.mem_cons_of_mem _ hw, hws⟩
    · exact ⟨w, hw, hws⟩

end Passes

/-! ## What a recovery writes -/

section Writes

variable {mode : FecMode} {orig temp : File} {parity : ParityFiles} {bitmap : Nat → Bool} {g t : Nat}

/-- The parity that the client stores at `data_chunks + g`: in `rs2` a row of group
`g / 2`. -/
def parityRow (u : Session) (mode : FecMode) (orig : File) (g : Nat) : Buf :=
  match mode with
  | .xor1 => u.generateXorParityBuffer orig g
  | .rs2 =>
    if g % 2 = 0 then (u.generateRsParityBuffers orig (g / 2)).1
    else (u.generateRsParityBuffers orig (g / 2)).2

theorem add_lt_chunkCount (hg : g < u.groups) : u.dataChunks + g < u.chunkCount mode := by
  unfold chunkCount
  cases mode with
  | xor1 => exact Nat.add_lt_add_left hg _
  | rs2 =>
    have : g < 2 * u.groups := by omega
    exact Nat.add_lt_add_left this _

theorem ParityStored.parityRow (h : u.ParityStored mode orig parity bitmap) (hg : g < u.groups)
    (hb : bitmap (u.dataChunks + g) = true) :
    parity (u.dataChunks + g - u.dataChunks)
      = some ((List.range u.chunkSize).map (u.parityRow mode orig g)) := by
  rw [h _ (add_lt_chunkCount hg) (Nat.le_add_right _ _) hb]
  cases mode <;> simp [generateParityChunkBuffer, fbParityGroupRow, Session.parityRow]

theorem sum_others (ht : t ∈ u.groupChunks g) (i : Nat) :
    gf.sum (fun ci => u.padded orig ci i)
        ((u.groupChunks g).filter fun ci => !decide (ci = t))
      = u.generateXorParityBuffer orig g i ^^^ u.padded orig t i := by
  have hone : (u.groupChunks g).filter (fun ci => decide (ci = t)) = [t] := by
    have hnodup : (u.groupChunks g).Nodup := List.nodup_range'
    rw [List.filter_eq, List.count_eq_one_of_mem hnodup ht]
    rfl
  have hsum := gf.sum_add_sum_filter (fun ci => u.padded orig ci i)
    (fun ci => decide (ci = t)) (u.groupChunks g)
  have hterm : gf.sum (fun ci => u.padded orig ci i) [t] = u.padded orig t i := UInt8.xor_zero
  rw [hone, hterm, gf_add, ← generateXorParityBuffer_eq] at hsum
  exact hsum.symm

variable (held : ∀ ci ∈ u.groupChunks g, u.HoldsChunk orig temp ci) (ht : t ∈ u.groupChunks g)
  {buf : Buf} {k : Nat}
include held ht

/-- A recovery fails before it writes, or writes the stored parity plus the other
chunks of the group. -/
theorem performXorRecovery_cases (io : RecoveryIo)
    (hp : parity (k - u.dataChunks) = some ((List.range u.chunkSize).map buf)) :
    let r := u.performXorRecovery parity io temp (g * 6) (u.groupEnd g) t k
    (r = (temp, false) ∧ ¬io.Ok u) ∨ ∃ q, r = u.pwriteChunk io temp t q ∧ ∀ i < u.chunkSize,
      q i = buf i ^^^ (u.generateXorParityBuffer orig g i ^^^ u.padded orig t i) := by
  intro r
  have hskip : ∀ ci ∈ u.groupChunks g, decide (ci = t) = !decide (ci ≠ t) := by
    intro ci _
    by_cases h : ci = t <;> simp [h]
  -- the loop skips the target and takes the other chunks out of the parity
  have hloop : u.subtractPresent io temp (fun ci => decide (ci = t))
      (fun _ data (p : Buf) i => p i ^^^ data i)
      (List.range' (g * 6) (min (g * 6 + 6) u.dataChunks - g * 6))
      (fun i => if i < u.chunkSize then buf i else 0) = _ :=
    subtractPresent_group hskip (fun ci hci _ => held ci hci) _
  have hr : r = u.performXorRecovery parity io temp (g * 6) (min (g * 6 + 6) u.dataChunks) t k := rfl
  rw [hr, performXorRecovery, readParity_map hp]
  dsimp only
  rw [hloop]
  by_cases halloc : io.allocOk = true
  · by_cases hopen : io.openOk = true
    · rw [halloc, hopen]
      simp only [Bool.not_true, Bool.false_eq_true, if_false]
      split_ifs with hread
      · refine Or.inr ⟨_, rfl, fun i hi => ?_⟩
        rw [foldl_buf_apply _ (fun ci i => u.padded orig ci i) fun _ _ _ => rfl, if_pos hi,
          sum_others ht]
      · exact Or.inl ⟨rfl, fun hok => hread fun ci _ _ => hok.2.2.1 ci⟩
    · rw [halloc, Bool.eq_false_iff.mpr hopen]
      exact Or.inl ⟨rfl, fun hok => hopen hok.2.1⟩
  · rw [Bool.eq_false_iff.mpr halloc]
    exact Or.inl ⟨rfl, fun hok => halloc hok.1⟩

theorem performXorRecovery_temp (io : RecoveryIo)
    (hp : parity (k - u.dataChunks) = some ((List.range u.chunkSize).map buf))
    (hbuf : ∀ i < u.chunkLen t, buf i = u.generateXorParityBuffer orig g i) :
    (u.performXorRecovery parity io temp (g * 6) (u.groupEnd g) t k).1 = temp := by
  rcases performXorRecovery_cases held ht io hp with ⟨hr, _⟩ | ⟨q, hr, hq⟩
  · rw [hr]
  · rw [hr]
    funext i
    by_contra hne
    have hin := pwriteChunk_frame hne
    have hlen : i - t * u.chunkSize < u.chunkLen t := by
      have h1 := hin.1
      have h2 := hin.2
      omega
    -- the byte written is the one that was there
    have hbyte : q (i - t * u.chunkSize) = temp i := by
      rw [hq _ (Nat.lt_of_lt_of_le hlen (u.chunkLen_le t)), hbuf _ hlen,
        ← UInt8.xor_assoc, UInt8.xor_self, UInt8.zero_xor, padded, if_pos hlen,
        ← held t ht _ hlen, Nat.add_sub_cancel' hin.1]
    apply hne
    unfold pwriteChunk
    dsimp only
    rw [hbyte, ite_self]

/-- With another parity a recovery that does not fail changes the chunk. -/
theorem performXorRecovery_damage {k i : Nat} {io : RecoveryIo} (hio : io.Ok u)
    (hp : parity (k - u.dataChunks) = some ((List.range u.chunkSize).map buf))
    (hi : i < u.chunkLen t) (hbuf : buf i ≠ u.generateXorParityBuffer orig g i) :
    let r := u.performXorRecovery parity io temp (g * 6) (u.groupEnd g) t k
    r.2 = true ∧ r.1 (t * u.chunkSize + i) ≠ temp (t * u.chunkSize + i) := by
  intro r
  rcases performXorRecovery_cases held ht io hp with ⟨_, hbad⟩ | ⟨q, hr, hq⟩
  · exact absurd hio hbad
  have hlen := hio.2.2.2 t
  have hin : t * u.chunkSize ≤ t * u.chunkSize + i ∧
      t * u.chunkSize + i < t * u.chunkSize + u.chunkLen t := inChunk_add hi
  have hdef : r = u.pwriteChunk io temp t q := hr
  rw [hdef]
  refine ⟨decide_eq_true hlen, ?_⟩
  rw [pwriteChunk, Nat.min_eq_left hlen]
  dsimp only
  rw [if_pos hin, Nat.add_sub_cancel_left, hq i (Nat.lt_of_lt_of_le hi (u.chunkLen_le t)),
    padded, if_pos hi, held t ht i hi, ← UInt8.xor_assoc]
  intro h
  apply hbuf
  -- `b ⊕ x ⊕ d = d` only for `b = x`
  have hzero : buf i ^^^ u.generateXorParityBuffer orig g i = 0 := by
    calc buf i ^^^ u.generateXorParityBuffer orig g i
        = (buf i ^^^ u.generateXorParityBuffer orig g i ^^^ orig (t * u.chunkSize + i))
            ^^^ orig (t * u.chunkSize + i) := by
          rw [UInt8.xor_assoc _ (orig _), UInt8.xor_self, UInt8.xor_zero]
      _ = 0 := by rw [h, UInt8.xor_self]
  exact UInt8.xor_eq_zero_iff.mp hzero

end Writes

/-! ## Good data -/

section Keeps

variable {mode : FecMode} {orig temp : File} {parity : ParityFiles} {bitmap : Nat → Bool}

def ioFor (u : Session) (g : Nat) : Nat → RecoveryIo :=
  fun g' => ⟨decide (g' = g), true, fun _ => true, fun _ => u.chunkSize⟩

theorem ioFor_ok (g : Nat) : (u.ioFor g g).Ok u :=
  ⟨decide_eq_true rfl, rfl, fun _ => rfl, fun ci => u.chunkLen_le ci⟩

/-- Peeling with I/O for group `g` only: its candidate is rewritten, and nothing else. -/
theorem peel_ioFor {g t : Nat} (hg : g < u.groups)
    (hc : peelCandidate (g * 6) (u.groupEnd g) suspects = some t)
    (hb : bitmap (u.dataChunks + g) = true)
    (hr : (u.performXorRecovery parity (u.ioFor g g) temp (g * 6) (u.groupEnd g) t
      (u.dataChunks + g)).2 = true) :
    (u.peel parity bitmap (fun _ => u.ioFor g) temp suspects).temp
      = (u.performXorRecovery parity (u.ioFor g g) temp (g * 6) (u.groupEnd g) t
          (u.dataChunks + g)).1 := by
  have hother : ∀ st : PeelState, ∀ g', g' ≠ g → u.Passed parity bitmap (u.ioFor g) st g' :=
    fun st g' hne _ _ _ => performXorRecovery_of_alloc (decide_eq_false hne) _ _ _ _ _
  have hne : suspects ≠ [] := by
    rintro rfl
    rcases peelCandidate_mem hc with ⟨hmem, _⟩
    exact absurd hmem (by simp)
  have hscan : u.peelScan parity bitmap (u.ioFor g) (List.range u.groups) ⟨temp, suspects, []⟩
      = _ := peelScan_first hg (fun g' hg' => hother _ g' (Nat.ne_of_lt hg')) hc hb hr
  unfold peel peelPasses
  dsimp only
  rw [if_neg hne, hscan]
  dsimp only
  rw [if_pos rfl, peelPasses_of_passed]
  -- no later scan finds anything: the group is cleared and the others fail
  intro _ g' _
  by_cases hg' : g' = g
  · intro t' ht'
    exact absurd hg' (candidate_of_removed ht').1
  · exact hother _ g' hg'

theorem peel_keeps_iff (held : ∀ ci < u.dataChunks, u.HoldsChunk orig temp ci)
    (hall : ∀ idx < u.chunkCount mode, bitmap idx = true)
    (hparity : u.ParityStored mode orig parity bitmap) :
    (∀ io, (u.peel parity bitmap io temp suspects).temp = temp) ↔
      ∀ g < u.groups, ∀ t, peelCandidate (g * 6) (u.groupEnd g) suspects = some t →
        ∀ i < u.chunkLen t, u.parityRow mode orig g i = u.generateXorParityBuffer orig g i := by
  have hheld : ∀ g, ∀ ci ∈ u.groupChunks g, u.HoldsChunk orig temp ci :=
    fun g ci hci => held ci (mem_groupChunks.mp hci).2
  have hrow : ∀ g < u.groups, parity (u.dataChunks + g - u.dataChunks)
      = some ((List.range u.chunkSize).map (u.parityRow mode orig g)) :=
    fun g hg => hparity.parityRow hg (hall _ (add_lt_chunkCount hg))
  constructor
  · -- a wrong parity row is found by the reads that make its recovery succeed
    intro hkeeps g hg t hc i hi
    by_contra hbuf
    have hdamage := performXorRecovery_damage (hheld g) (mem_groupChunks_of_candidate hc)
      (ioFor_ok g) (hrow g hg) hi hbuf
    have hpeel := peel_ioFor hg hc (hall _ (add_lt_chunkCount hg)) hdamage.1
    rw [hkeeps] at hpeel
    exact hdamage.2 (congrFun hpeel.symm _)
  · -- passes only take suspects away, so every candidate was one at the start
    intro hsame io
    let inv (st : PeelState) : Prop := st.temp = temp ∧
      ∀ g t, peelCandidate (g * 6) (u.groupEnd g) st.suspects = some t →
        peelCandidate (g * 6) (u.groupEnd g) suspects = some t
    suffices hinv : inv (u.peel parity bitmap io temp suspects) from hinv.1
    refine peelPasses_invariant inv (fun n st h => ?_) 6 ⟨rfl, fun _ _ h => h⟩
    refine peelScan_invariant inv ?_ h
    intro g hg t st hst hc _ r
    have hg' := List.mem_range.mp hg
    have htemp : r.1 = temp := by
      have hcongr : r = u.performXorRecovery parity (io n g) temp (g * 6) (u.groupEnd g) t
          (u.dataChunks + g) := by rw [← hst.1]
      rw [hcongr]
      exact performXorRecovery_temp (hheld g) (mem_groupChunks_of_candidate hc) (io n g)
        (hrow g hg') (hsame g hg' t (hst.2 g t hc))
    split_ifs
    · exact ⟨htemp, fun g' t' h' => hst.2 g' t' (candidate_of_removed h').2⟩
    · exact ⟨htemp, hst.2⟩

end Keeps

/-! ## The phase as a whole -/

section Phase

variable {rnd : ℚ → ℚ} {mode : FecMode} {magic : List Nat} {modulus : UInt64} {rtt : ℚ}
  {level : Nat} {parity : ParityFiles} {bitmap : Nat → Bool} {orig temp : File}

theorem finalizeHtp_temp (loaded : Option HtpRecords) (io : Nat → Nat → RecoveryIo) :
    (u.finalizeHtp rnd mode loaded magic modulus rtt level parity bitmap io temp).temp
      = (u.peel parity bitmap io temp (u.peelSuspects rnd mode loaded modulus rtt)).temp := by
  cases loaded with
  | none =>
    have hpeel : u.peel parity bitmap io temp [] = ⟨temp, [], []⟩ := rfl
    unfold finalizeHtp peelSuspects
    dsimp only
    rw [hpeel]
    split <;> rfl
  | some htp => rfl

theorem finalizeHtp_rewritten (htp : HtpRecords) (io : Nat → Nat → RecoveryIo) :
    (u.finalizeHtp rnd mode (some htp) magic modulus rtt level parity bitmap io temp).rewritten
      = (u.peel parity bitmap io temp
          (u.htpSuspects rnd mode ⟨htp, modulus, rtt⟩).1).rewritten := rfl

theorem finalizeHtp_htp (htp : HtpRecords) (io : Nat → Nat → RecoveryIo) :
    (u.finalizeHtp rnd mode (some htp) magic modulus rtt level parity bitmap io temp).htp
      = (u.htpVerify rnd mode ⟨htp, modulus, rtt⟩).1 := rfl

theorem finalizeHtp_verdict_iff (htp : HtpRecords) (io : Nat → Nat → RecoveryIo) :
    (u.finalizeHtp rnd mode (some htp) magic modulus rtt level parity bitmap io temp).verdict
        = .proceed ↔
      (u.peel parity bitmap io temp (u.htpSuspects rnd mode ⟨htp, modulus, rtt⟩).1).suspects
        = [] := by
  unfold finalizeHtp
  dsimp only
  by_cases h : (u.peel parity bitmap io temp
      (u.htpSuspects rnd mode ⟨htp, modulus, rtt⟩).1).suspects = []
  · rw [if_pos h]
    exact iff_of_true rfl h
  · rw [if_neg h]
    exact iff_of_false (by simp) h

/-- The phase keeps good data for every outcome of its I/O exactly in `xor1`, or when
the parity chunk that it takes for each group to be peeled happens to be the xor of
the group on the chunk it rewrites. -/
theorem finalizeHtp_keeps_iff (loaded : Option HtpRecords)
    (held : ∀ ci < u.dataChunks, u.HoldsChunk orig temp ci)
    (hall : ∀ idx < u.chunkCount mode, bitmap idx = true)
    (hparity : u.ParityStored mode orig parity bitmap) :
    (∀ io, (u.finalizeHtp rnd mode loaded magic modulus rtt level parity bitmap io temp).temp
        = temp) ↔
      mode = .xor1 ∨ ∀ g < u.groups, ∀ t,
        peelCandidate (g * 6) (u.groupEnd g) (u.peelSuspects rnd mode loaded modulus rtt) = some t →
        ∀ i < u.chunkLen t, u.parityRow .rs2 orig g i = u.generateXorParityBuffer orig g i := by
  simp only [finalizeHtp_temp]
  rw [peel_keeps_iff held hall hparity]
  cases mode with
  | xor1 =>
    -- in `xor1` the stored parity is the xor of the group
    exact iff_of_true (fun _ _ _ _ _ _ => rfl) (Or.inl rfl)
  | rs2 => simp

/-- With `htp.bin` loaded: no file with an inconsistent group that nothing was done
about is stored, and no suspect is dropped, exactly when the contraction spares the
suspects. -/
theorem finalizeHtp_accepts_iff (htp : HtpRecords) :
    ((∀ io, (u.finalizeHtp rnd mode (some htp) magic modulus rtt level parity bitmap io
          temp).verdict = .proceed →
        ∀ g < u.dataChunks / 6, htp.complete (g * 6) = true →
          (htpLineSums ((u.finalizeHtp rnd mode (some htp) magic modulus rtt level parity bitmap io
            temp).htp.scalars (g * 6)) (HtpInput.modulusM ⟨htp, modulus, rtt⟩)).agree = true ∨
          ∃ t ∈ (u.finalizeHtp rnd mode (some htp) magic modulus rtt level parity bitmap io
            temp).rewritten, t / 6 = g) ∧
      ∀ s ∈ (u.htpVerify rnd mode ⟨htp, modulus, rtt⟩).2,
        s.chunk ∈ (u.htpSuspects rnd mode ⟨htp, modulus, rtt⟩).1.map Suspect.chunk) ↔
      u.ContractionSpares rnd mode ⟨htp, modulus, rtt⟩ := by
  rw [htpSuspects_keeps_iff]
  refine ⟨fun h => h.2, fun hspares => ⟨fun io haccept g hg hc => ?_, hspares⟩⟩
  set x : HtpInput := ⟨htp, modulus, rtt⟩ with hx
  have hver := u.verified rnd mode x
  by_cases hnil : groupSuspects rnd htp x.modulusM g = []
  · exact Or.inl (hver.balanced g hg hc hnil)
  right
  -- a suspect of the group reaches the peeling, which leaves none over
  rcases List.exists_mem_of_ne_nil _ hnil with ⟨s, hs⟩
  have hsg := (groupSuspects_chunks rnd htp x.modulusM g).1 s hs
  have hlisted : s ∈ (u.htpVerify rnd mode x).2 := by
    rw [hver.suspects_eq]
    exact List.mem_flatMap.mpr ⟨g, List.mem_range.mpr hg, hs⟩
  rcases List.mem_map.mp (htpSuspects_keeps_iff.mpr hspares s hlisted) with ⟨r, hr, hrs⟩
  have hdone : (u.peel parity bitmap io temp (u.htpSuspects rnd mode x).1).suspects = [] :=
    (finalizeHtp_verdict_iff htp io).mp haccept
  rcases u.peel_suspects parity bitmap io temp (u.htpSuspects rnd mode x).1 r hr with
    hleft | ⟨t, ht, htr⟩
  · rw [hdone] at hleft
    exact absurd hleft List.not_mem_nil
  · exact ⟨t, ht, by omega⟩

end Phase

/-! ## Two sessions that go wrong -/

/-- Records in which the chunks of a list have scalar one and the others zero. -/
def spikes (chunks : List Nat) : HtpRecords :=
  fun ci => ⟨[49], 0, if ci ∈ chunks then 1 else 0⟩

theorem searchPermutation_spike {v : Nat → UInt64} {k : Nat} (hk : k < 6)
    (hv : ∀ i < 6, v i = if i = k then 1 else 0) (n : Nat) :
    searchPermutation v 4294967291 n [0, 1, 2, 3, 4, 5] = none := by
  cases h : searchPermutation v 4294967291 n [0, 1, 2, 3, 4, 5] with
  | none => rfl
  | some b =>
    rcases searchPermutation_spec h with ⟨hperm, hagree⟩
    have hlen : b.length = 6 := hperm.length_eq
    rcases List.getElem_of_mem (hperm.mem_iff.mpr (List.mem_range.mpr hk)) with ⟨j, hj, hbj⟩
    have hnodup : b.Nodup := hperm.nodup_iff.mpr (by decide)
    -- the permuted scalars are one at `j` and zero elsewhere
    have hval : ∀ i < 6, v (b.getD i 0) = if i = j then 1 else 0 := by
      intro i hi
      have hi' : i < b.length := by omega
      rw [List.getD_eq_getElem _ _ hi']
      have hlt : b[i] < 6 := List.mem_range.mp (hperm.mem_iff.mp (List.getElem_mem hi'))
      rw [hv _ hlt]
      congr 1
      rw [eq_iff_iff, ← hbj]
      exact hnodup.getElem_inj_iff
    rw [htpLineSums_congr hval] at hagree
    have hnone : ∀ j < 6, (htpLineSums (fun i => if i = j then 1 else 0) 4294967291).agree
        = false := by decide +kernel
    rw [hnone j (by omega)] at hagree
    exact absurd hagree (by decide)

theorem htpTrySwapRepair_spike {htp : HtpRecords} {start k : Nat} (hk : k < 6)
    (hv : ∀ i < 6, htp.scalars start i = if i = k then 1 else 0) :
    htpTrySwapRepair htp start 4294967291 = none := by
  rw [htpTrySwapRepair, searchPermutation_spike hk hv]
  split <;> rfl

/-- When nothing can be repaired the records stay as they were loaded. -/
theorem htpVerify_fst (u : Session) (rnd : ℚ → ℚ) (mode : FecMode) (x : HtpInput)
    (h : ∀ g, htpTrySwapRepair x.htp (g * 6) x.modulusM = none) :
    (u.htpVerify rnd mode x).1 = x.htp := by
  have hfold : ∀ (l : List Nat) (st : HtpRecords × List Suspect), st.1 = x.htp →
      (l.foldl (verifyGroup rnd (u.chunkCount mode) x.modulusM) st).1 = x.htp := by
    intro l
    induction l with
    | nil => exact fun st hst => hst
    | cons g l ih =>
      intro st hst
      apply ih
      unfold verifyGroup
      rw [hst, h g]
      split <;> first | rfl | exact hst
  exact hfold _ _ rfl

section Spikes

variable {l : List Nat} (hl : ∀ c ∈ l, c % 6 = 3)
include hl

/-- The line sums of a group in which at most the scalar of slot 3 differs. -/
theorem lineSums_spikes (g : Nat) :
    (g * 6 + 3 ∈ l ∧ ∀ i < 6, (spikes l).scalars (g * 6) i = if i = 3 then 1 else 0) ∨
      (g * 6 + 3 ∉ l ∧ ∀ i < 6, (spikes l).scalars (g * 6) i = 0) := by
  have hslot : ∀ i < 6, g * 6 + i ∈ l → i = 3 := by
    intro i hi hmem
    have := hl _ hmem
    omega
  by_cases hmem : g * 6 + 3 ∈ l
  · refine Or.inl ⟨hmem, fun i hi => if_congr ⟨hslot i hi, ?_⟩ rfl rfl⟩
    rintro rfl
    exact hmem
  · refine Or.inr ⟨hmem, fun i hi => if_neg fun h => hmem ?_⟩
    rwa [hslot i hi h] at h

theorem htpTrySwapRepair_spikes (g : Nat) :
    htpTrySwapRepair (spikes l) (g * 6) 4294967291 = none := by
  rcases lineSums_spikes hl g with ⟨_, hv⟩ | ⟨_, hv⟩
  · exact htpTrySwapRepair_spike (by decide) hv
  · rw [htpTrySwapRepair, htpLineSums_congr hv]
    exact if_pos (by decide)

theorem groupSuspects_spikes (g : Nat) : groupSuspects id (spikes l) 4294967291 g
    = if g * 6 + 3 ∈ l then [⟨g * 6 + 3, 1⟩, ⟨g * 6 + 0, 1 / 2⟩] else [] := by
  have hcomplete : (spikes l).complete (g * 6) = true := by
    simp [HtpRecords.complete, spikes]
  rw [groupSuspects, htpTrySwapRepair_spikes hl, if_pos ⟨hcomplete, rfl⟩, htpAnalyzeGroup]
  rcases lineSums_spikes hl g with ⟨hmem, hv⟩ | ⟨hmem, hv⟩
  · have hsums : htpLineSums ((spikes l).scalars (g * 6)) 4294967291 = ⟨0, 1, 0⟩ := by
      rw [htpLineSums_congr hv]
      decide
    rw [if_pos hmem, hsums]
    rfl
  · have hsums : htpLineSums ((spikes l).scalars (g * 6)) 4294967291 = ⟨0, 0, 0⟩ := by
      rw [htpLineSums_congr hv]
      decide
    rw [if_neg hmem, hsums]
    rfl

theorem htpVerify_spikes (u : Session) (mode : FecMode) (rtt : ℚ) :
    u.htpVerify id mode ⟨spikes l, 4294967291, rtt⟩ = (spikes l,
      (List.range (u.dataChunks / 6)).flatMap fun g =>
        if g * 6 + 3 ∈ l then [⟨g * 6 + 3, 1⟩, ⟨g * 6 + 0, 1 / 2⟩] else []) := by
  have hm : HtpInput.modulusM ⟨spikes l, 4294967291, rtt⟩ = 4294967291 := by
    have hpos : (4294967291 : UInt64) ≠ 0 := by decide
    exact if_neg hpos
  refine Prod.ext ?_ ?_
  · apply htpVerify_fst
    intro g
    rw [hm]
    exact htpTrySwapRepair_spikes hl g
  · rw [(u.verified id mode _).suspects_eq, hm]
    congr 1
    funext g
    exact groupSuspects_spikes hl g

end Spikes

/-- Six chunks of two MiB sent in `rs2`, all zero but for one byte of chunk 1. -/
def rs2Session : Session := ⟨2097152, 12582912, by decide, by decide⟩

def rs2File : File := fun i => if i = 2097152 then 1 else 0

def rs2Parity : ParityFiles :=
  fun k => some (rs2Session.generateParityChunkBuffer .rs2 rs2File (6 + k))

theorem rs2_suspects : rs2Session.peelSuspects id .rs2 (some (spikes [3])) 4294967291 0
    = [⟨3, 1⟩, ⟨0, 1 / 2⟩] := by
  have hv := htpVerify_spikes (l := [3]) (by decide) rs2Session .rs2 0
  have htried : rs2Session.contracts id .rs2 ⟨spikes [3], 4294967291, 0⟩ = false := by
    rw [contracts, hv]
    decide
  rw [peelSuspects, htpSuspects, htried, hv]
  decide +kernel

/-- Good data, and yet the phase writes into chunk 3. -/
theorem finalizeHtp_rs2_damage :
    (∀ ci < rs2Session.dataChunks, rs2Session.HoldsChunk rs2File rs2File ci) ∧
    rs2Session.ParityStored .rs2 rs2File rs2Parity (fun _ => true) ∧
    ¬∀ io, (rs2Session.finalizeHtp id .rs2 (some (spikes [3])) [] 4294967291 0 0 rs2Parity
      (fun _ => true) io rs2File).temp = rs2File := by
  have held : ∀ ci < rs2Session.dataChunks, rs2Session.HoldsChunk rs2File rs2File ci :=
    fun _ _ _ _ => rfl
  have hparity : rs2Session.ParityStored .rs2 rs2File rs2Parity (fun _ => true) := by
    intro idx _ hle _
    rw [show rs2Session.dataChunks = 6 from by decide] at hle ⊢
    rw [rs2Parity, Nat.add_sub_cancel' hle]
  refine ⟨held, hparity, fun hkeeps => ?_⟩
  simp only [finalizeHtp_temp, rs2_suspects] at hkeeps
  have hrow := (peel_keeps_iff held (fun _ _ => rfl) hparity).mp hkeeps 0 (by decide) 3
    (by decide +kernel) 0 (by decide)
  exact absurd hrow (by decide +kernel)

/-- In `xor1` the same data are kept. -/
theorem finalizeHtp_xor1_keeps :
    (rs2Session.finalizeHtp id .xor1 (some (spikes [3])) [] 4294967291 0 0
      (fun k => some (rs2Session.generateParityChunkBuffer .xor1 rs2File (6 + k))) (fun _ => true)
      (fun _ => rs2Session.ioFor 0) rs2File).temp = rs2File := by
  have hparity : rs2Session.ParityStored .xor1 rs2File
      (fun k => some (rs2Session.generateParityChunkBuffer .xor1 rs2File (6 + k)))
      (fun _ => true) := by
    intro idx _ hle _
    rw [show rs2Session.dataChunks = 6 from by decide] at hle ⊢
    dsimp only
    rw [Nat.add_sub_cancel' hle]
  exact (finalizeHtp_keeps_iff (some (spikes [3])) (fun _ _ _ _ => rfl) (fun _ _ => rfl)
    hparity).mpr (Or.inl rfl) _

/-- Forty-two chunks of two MiB in `xor1`: seven groups. One chunk of each of the
groups 0 to 4 and 6 has a scalar that differs. -/
def xor1Session : Session := ⟨2097152, 88080384, by decide, by decide⟩

def sixSpikes : List Nat := [3, 9, 15, 21, 27, 39]

def xor1Parity : ParityFiles :=
  fun _ => some ((List.range xor1Session.chunkSize).map fun _ => 0)

/-- The suspects of the groups from `k` to 4, as the contraction lists them. -/
def pairsFrom (k : Nat) : List Suspect :=
  (List.range' k (5 - k)).flatMap fun g => [⟨g * 6, 1 / 2⟩, ⟨g * 6 + 3, 1⟩]

/-- The contraction drops the suspects of group 6: its super-group has two groups. -/
theorem xor1_suspects :
    (xor1Session.htpSuspects id .xor1 ⟨spikes sixSpikes, 4294967291, 0⟩).1 = pairsFrom 0 := by
  have hv := htpVerify_spikes (l := sixSpikes) (by decide) xor1Session .xor1 0
  have htried : xor1Session.contracts id .xor1 ⟨spikes sixSpikes, 4294967291, 0⟩ = true := by
    rw [contracts, hv]
    decide +kernel
  rw [htpSuspects, htried, hv]
  decide +kernel

theorem performXorRecovery_succeeds {parity : ParityFiles} {io : RecoveryIo} {buf : Buf}
    {temp : File} {g t k : Nat} (ht : t ∈ u.groupChunks g) (hio : io.Ok u)
    (hp : parity (k - u.dataChunks) = some ((List.range u.chunkSize).map buf)) :
    (u.performXorRecovery parity io temp (g * 6) (u.groupEnd g) t k).2 = true := by
  have held : ∀ ci ∈ u.groupChunks g, u.HoldsChunk temp temp ci := fun _ _ _ _ => rfl
  rcases performXorRecovery_cases held ht io hp with
    ⟨_, hbad⟩ | ⟨q, hr, _⟩
  · exact absurd hio hbad
  · rw [hr]
    exact decide_eq_true (hio.2.2.2 t)

/-- Enough passes peel the groups from `k` to 4 and rewrite nothing else. -/
theorem peelPasses_pairs (k n : Nat) (hn : 5 ≤ k + n) (st : PeelState)
    (hst : st.suspects = pairsFrom k) :
    (xor1Session.peelPasses xor1Parity (fun _ => true) (fun _ g => xor1Session.ioFor g g) n
        st).suspects = [] ∧
      ∀ t ∈ (xor1Session.peelPasses xor1Parity (fun _ => true) (fun _ g => xor1Session.ioFor g g) n
        st).rewritten, t ∈ st.rewritten ∨ t / 6 ≠ 6 := by
  induction n generalizing k st with
  | zero =>
    have hnil : pairsFrom k = [] := by
      rw [pairsFrom, show 5 - k = 0 by omega]
      rfl
    exact ⟨hst.trans hnil, fun t ht => Or.inl ht⟩
  | succ n ih =>
    by_cases hk : 5 ≤ k
    · have hnil : st.suspects = [] := by
        rw [hst, pairsFrom, show 5 - k = 0 by omega]
        rfl
      rw [peelPasses, if_pos hnil]
      exact ⟨hnil, fun t ht => Or.inl ht⟩
    · -- groups before `k` are peeled, so the scan stops at group `k`
      have hlt : k < 5 := by omega
      have hcand : ∀ k < 5, (∀ g < k,
            peelCandidate (g * 6) (xor1Session.groupEnd g) (pairsFrom k) = none) ∧
          peelCandidate (k * 6) (xor1Session.groupEnd k) (pairsFrom k) = some (k * 6 + 3) ∧
          ((pairsFrom k).filter fun s =>
            !decide (k * 6 ≤ s.chunk ∧ s.chunk < xor1Session.groupEnd k)) = pairsFrom (k + 1) ∧
          pairsFrom k ≠ [] := by decide +kernel
      rcases hcand k hlt with ⟨hbefore, hhere, hfilter, hne⟩
      rw [← hst] at hbefore hhere hfilter hne
      have hscan : xor1Session.peelScan xor1Parity (fun _ => true)
          (fun g => xor1Session.ioFor g g) (List.range xor1Session.groups) st = _ :=
        peelScan_first (Nat.lt_of_lt_of_le hlt (by decide))
        (fun g hg t ht => absurd ((hbefore g hg).symm.trans ht) (by simp)) hhere rfl
        (performXorRecovery_succeeds (mem_groupChunks_of_candidate hhere) (ioFor_ok k) rfl)
      rw [peelPasses, if_neg hne, hscan]
      dsimp only
      rw [if_pos rfl]
      rcases ih (k + 1) (by omega) ⟨_, st.suspects.filter fun s =>
        !decide (k * 6 ≤ s.chunk ∧ s.chunk < xor1Session.groupEnd k),
        (k * 6 + 3) :: st.rewritten⟩ hfilter with ⟨hdone, hrew⟩
      refine ⟨hdone, fun t ht => ?_⟩
      rcases hrew t ht with hold | hnew
      · rcases List.mem_cons.mp hold with rfl | hold
        · right
          omega
        · exact Or.inl hold
      · exact Or.inr hnew

theorem peel_pairs :
    (xor1Session.peel xor1Parity (fun _ => true) (fun _ g => xor1Session.ioFor g g) (fun _ => 0)
        (pairsFrom 0)).suspects = [] ∧
      ∀ t ∈ (xor1Session.peel xor1Parity (fun _ => true) (fun _ g => xor1Session.ioFor g g)
        (fun _ => 0) (pairsFrom 0)).rewritten, t / 6 ≠ 6 := by
  rcases peelPasses_pairs 0 6 (by decide) ⟨fun _ => 0, pairsFrom 0, []⟩ rfl with ⟨hdone, hrew⟩
  exact ⟨hdone, fun t ht => (hrew t ht).resolve_left List.not_mem_nil⟩

/-- The phase goes on to store the file although the lines of group 6 disagree and
none of its chunks was rewritten. -/
theorem finalizeHtp_accepts_inconsistent :
    let r := xor1Session.finalizeHtp id .xor1 (some (spikes sixSpikes)) [] 4294967291 0 0 xor1Parity
      (fun _ => true) (fun _ g => xor1Session.ioFor g g) fun _ => 0
    r.verdict = .proceed ∧ (spikes sixSpikes).complete (6 * 6) = true ∧
      (htpLineSums (r.htp.scalars (6 * 6)) 4294967291).agree = false ∧
      ∀ t ∈ r.rewritten, t / 6 ≠ 6 := by
  intro r
  have hv := htpVerify_spikes (l := sixSpikes) (by decide) xor1Session .xor1 0
  have hpeel := peel_pairs
  refine ⟨(finalizeHtp_verdict_iff _ _).mpr ?_, by decide, ?_, fun t ht => ?_⟩
  · rw [xor1_suspects]
    exact hpeel.1
  · rw [finalizeHtp_htp, hv]
    decide +kernel
  · rw [finalizeHtp_rewritten, xor1_suspects] at ht
    exact hpeel.2 t ht

end Session

end FlyBoard.Tasfa

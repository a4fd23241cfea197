import FlyBoard.Tasfa.Fec
import Mathlib.Data.Rat.Defs
import Mathlib.Algebra.Order.Ring.Rat

/-!
# The HTP verification of an upload (`src/handlers/tasfa/htp.c`, `src/handlers/tasfa/upload.c`)

Every data chunk carries a tag and a scalar. Six chunks in a group lie on three
lines of three; `tasfa_finalize_session_process` compares the line sums, tries to
repair a disagreement by permuting the stored records, lists the suspect chunks
of the groups it could not repair, and contracts the list when it is long.

Doubles are rationals here and `rnd` rounds the result of each operation. What
the verification decides rests on the stored scalars; `raw` scalars and tags are
only moved along.
-/

namespace FlyBoard.Tasfa

/-- A record of `htp.bin`; a tag without a first character is empty. -/
structure HtpRecord where
  tag : Bytes
  raw : UInt64
  balanced : UInt64
deriving DecidableEq

abbrev HtpRecords := Nat → HtpRecord

/-- `htp_line_sums_t` -/
structure LineSums where
  l1 : UInt64
  l2 : UInt64
  l3 : UInt64
deriving DecidableEq

/-- `htp_line_sums` -/
def htpLineSums (v : Nat → UInt64) (modulus : UInt64) : LineSums :=
  let m := if modulus = 0 then 1 else modulus
  ⟨(v 0 + v 1 + v 2) % m, (v 2 + v 3 + v 4) % m, (v 4 + v 5 + v 0) % m⟩

/-- `L1 == L2 && L2 == L3` -/
def LineSums.agree (s : LineSums) : Bool := decide (s.l1 = s.l2 ∧ s.l2 = s.l3)

def HtpRecords.scalars (htp : HtpRecords) (start : Nat) : Nat → UInt64 :=
  fun i => (htp (start + i)).balanced

/-- `htp_suspect_t` -/
structure Suspect where
  chunk : Nat
  score : ℚ
deriving DecidableEq

/-! ## One group -/

section Analysis

variable (rnd : ℚ → ℚ)

def absDiff (a b : UInt64) : ℚ := rnd (if a > b then (a - b).toNat else (b - a).toNat)

/-- `htp_analyze_group`: the suspects of one group, most of the time the two slots
that explain the line that differs. -/
def htpAnalyzeGroup (v : Nat → UInt64) (modulus : UInt64) (start : Nat) : List Suspect :=
  let s := htpLineSums v modulus
  if s.l1 = s.l2 ∧ s.l2 = s.l3 then []
  else if s.l2 = s.l3 ∧ s.l1 ≠ s.l2 then [⟨start + 1, 1⟩, ⟨start + 4, 1 / 2⟩]
  else if s.l1 = s.l3 ∧ s.l2 ≠ s.l1 then [⟨start + 3, 1⟩, ⟨start + 0, 1 / 2⟩]
  else if s.l1 = s.l2 ∧ s.l3 ≠ s.l1 then [⟨start + 5, 1⟩, ⟨start + 2, 1 / 2⟩]
  else
    let d12 := absDiff rnd s.l1 s.l2
    let d23 := absDiff rnd s.l2 s.l3
    let d31 := absDiff rnd s.l3 s.l1
    let total := rnd (rnd (d12 + d23) + d31)
    let total := if total ≤ 0 then 1 else total
    let weight (d : ℚ) := rnd (d / rnd (2 * total))
    [⟨start + 0, weight (rnd (d31 + d12))⟩, ⟨start + 1, weight d12⟩,
      ⟨start + 2, weight (rnd (d12 + d23))⟩, ⟨start + 3, weight d23⟩,
      ⟨start + 4, weight (rnd (d23 + d31))⟩, ⟨start + 5, weight d31⟩]

/-- `htp_repair_worthwhile`; `rtt` is `link_rtt_ms`. -/
def htpRepairWorthwhile (suspectCount totalChunks chunkSize : Nat) (rtt : ℚ) : Bool :=
  if suspectCount < 12 then false
  else
    let rttFactor := if rtt ≤ 0 then 1 else rnd (rtt / 100)
    let retryCost := rnd (rnd (suspectCount * chunkSize : Nat) * rttFactor)
    let repairCost := rnd (rnd ((suspectCount : ℚ) * 2048) + rnd ((totalChunks / 6 : Nat) * 512))
    decide (retryCost > repairCost)

end Analysis

/-- `next_permutation_int`: the next permutation in lexicographic order. -/
def nextPermutationInt (a : List Nat) : Option (List Nat) :=
  match (List.range (a.length - 1)).reverse.find? fun i => a.getD i 0 < a.getD (i + 1) 0 with
  | none => none
  | some i =>
    match (List.range a.length).reverse.find? fun j => a.getD i 0 < a.getD j 0 with
    | none => none
    | some j =>
      let swapped := (a.set i (a.getD j 0)).set j (a.getD i 0)
      some (swapped.take (i + 1) ++ (swapped.drop (i + 1)).reverse)

/-- The first of the next `n` permutations that makes the line sums agree. -/
def searchPermutation (v : Nat → UInt64) (modulus : UInt64) : Nat → List Nat → Option (List Nat)
  | 0, _ => none
  | n + 1, perm =>
    match nextPermutationInt perm with
    | none => none
    | some next =>
      if (htpLineSums (fun i => v (next.getD i 0)) modulus).agree then some next
      else searchPermutation v modulus n next

/-- Moves the records of a group, in memory and in `htp.bin`. -/
def HtpRecords.permute (htp : HtpRecords) (start : Nat) (perm : List Nat) : HtpRecords :=
  fun ci => if start ≤ ci ∧ ci < start + 6 then htp (start + perm.getD (ci - start) 0) else htp ci

/-- `htp_try_swap_repair`: the records after a repair. Six slots have 720 permutations. -/
def htpTrySwapRepair (htp : HtpRecords) (start : Nat) (modulus : UInt64) : Option HtpRecords :=
  if (htpLineSums (htp.scalars start) modulus).agree then none
  else (searchPermutation (htp.scalars start) modulus 720 [0, 1, 2, 3, 4, 5]).map
    (htp.permute start)

def HtpRecords.complete (htp : HtpRecords) (start : Nat) : Bool :=
  (List.range 6).all fun v => decide ((htp (start + v)).tag ≠ [])

def raiseSuspect (s : Suspect) : List Suspect → Option (List Suspect)
  | [] => none
  | x :: xs =>
    if x.chunk = s.chunk then
      some ((if x.score < s.score then { x with score := s.score } else x) :: xs)
    else (raiseSuspect s xs).map (x :: ·)

/-- One round of the merge, which stops when `cap` suspects are listed. -/
def addSuspect (cap : Nat) (suspects : List Suspect) (s : Suspect) : List Suspect :=
  if cap ≤ suspects.length then suspects
  else match raiseSuspect s suspects with
    | some raised => raised
    | none => suspects ++ [s]

def verifyGroup (rnd : ℚ → ℚ) (cap : Nat) (modulus : UInt64) (st : HtpRecords × List Suspect)
    (g : Nat) : HtpRecords × List Suspect :=
  if st.1.complete (g * 6) then
    match htpTrySwapRepair st.1 (g * 6) modulus with
    | some repaired => (repaired, st.2)
    | none =>
      (st.1, (htpAnalyzeGroup rnd (st.1.scalars (g * 6)) modulus (g * 6)).foldl
        (addSuspect cap) st.2)
  else st

/-! ## Contraction -/

def groupAgg (htp : HtpRecords) (modulus : UInt64) (g : Nat) : UInt64 :=
  let s := htpLineSums (htp.scalars (g * 6)) modulus
  let r12 := (s.l1 + modulus - s.l2) % modulus
  let r23 := (s.l2 + modulus - s.l3) % modulus
  r12 * r23 % modulus

/-- Whether the suspects of a super-group of six groups are kept: it has at least
three groups and its line sums over the aggregates disagree. -/
def superFails (htp : HtpRecords) (modulus : UInt64) (groupCount lg : Nat) : Bool :=
  let lgs := min (groupCount - lg * 6) 6
  let s := htpLineSums
    (fun v => if lg * 6 + v < groupCount then groupAgg htp modulus (lg * 6 + v) else 0) modulus
  let l2 := if 3 < lgs then s.l2 else s.l1
  let l3 := if 5 < lgs then s.l3 else s.l1
  decide (3 ≤ lgs ∧ ¬(s.l1 = l2 ∧ l2 = l3))

def slotSuspects (suspects : List Suspect) (g : Nat) : List Suspect :=
  (List.range 6).filterMap fun s => suspects.find? fun x => x.chunk = g * 6 + s

/-- `htp_contract_groups` -/
def htpContractGroups (htp : HtpRecords) (chunkCount : Nat) (modulus : UInt64)
    (suspects : List Suspect) : List Suspect :=
  let groupCount := chunkCount / 6
  if groupCount < 1 ∨ suspects = [] then suspects
  else (List.range ((groupCount + 5) / 6)).flatMap fun lg =>
    if superFails htp modulus groupCount lg then
      (List.range' (lg * 6) (min (groupCount - lg * 6) 6)).flatMap (slotSuspects suspects)
    else []

/-! ## The verification -/

/-- What the verification reads: the records of `htp.bin`, `modulus_M` (zero is
read as one) and `link_rtt_ms`. -/
structure HtpInput where
  htp : HtpRecords
  modulus : UInt64
  rtt : ℚ

/-- `modulus_M` as the code uses it. -/
def HtpInput.modulusM (x : HtpInput) : UInt64 := if x.modulus = 0 then 1 else x.modulus

namespace Session

variable (u : Session) (rnd : ℚ → ℚ) (mode : FecMode) (x : HtpInput)

/-- The loop over the full groups: the records after the repairs and the suspects. -/
def htpVerify : HtpRecords × List Suspect :=
  (List.range (u.dataChunks / 6)).foldl (verifyGroup rnd (u.chunkCount mode) x.modulusM) (x.htp, [])

def contracts : Bool :=
  let suspects := (u.htpVerify rnd mode x).2
  decide (0 < suspects.length) &&
    htpRepairWorthwhile rnd suspects.length (u.chunkCount mode) u.chunkSize x.rtt

/-- The suspects after the contraction, which counts only when it keeps some and
not all of them; the second component is the increment of `htp_contraction_level`. -/
def htpSuspects : List Suspect × Nat :=
  let v := u.htpVerify rnd mode x
  if u.contracts rnd mode x then
    let next := htpContractGroups v.1 (u.chunkCount mode) x.modulusM v.2
    if 0 < next.length ∧ next.length < v.2.length then (next, 1) else (v.2, 0)
  else (v.2, 0)

end Session

/-! ## Swap repair -/

theorem htpLineSums_congr {v w : Nat → UInt64} (h : ∀ i < 6, v i = w i) (modulus : UInt64) :
    htpLineSums v modulus = htpLineSums w modulus := by
  simp only [htpLineSums, h 0 (by decide), h 1 (by decide), h 2 (by decide), h 3 (by decide),
    h 4 (by decide), h 5 (by decide)]

namespace HtpRecords

variable {htp : HtpRecords} {perm : List Nat}

theorem permute_of_outside {start ci : Nat} (h : ci < start ∨ start + 6 ≤ ci) :
    htp.permute start perm ci = htp ci := by
  apply if_neg
  omega

theorem permute_scalars {start i : Nat} (h : i < 6) :
    (htp.permute start perm).scalars start i = htp.scalars start (perm.getD i 0) := by
  unfold scalars permute
  rw [if_pos (by omega), Nat.add_sub_cancel_left]

theorem permute_scalars_of_ne {g g' i : Nat} (hg : g ≠ g') (h : i < 6) :
    (htp.permute (g * 6) perm).scalars (g' * 6) i = htp.scalars (g' * 6) i := by
  unfold scalars
  rw [permute_of_outside (by omega)]

theorem complete_congr {htp' : HtpRecords} {start : Nat}
    (h : ∀ i < 6, htp (start + i) = htp' (start + i)) : htp.complete start = htp'.complete start := by
  unfold complete
  rw [Bool.eq_iff_iff, List.all_eq_true, List.all_eq_true]
  constructor
  · intro hall i hi
    rw [← h i (List.mem_range.mp hi)]
    exact hall i hi
  · intro hall i hi
    rw [h i (List.mem_range.mp hi)]
    exact hall i hi

end HtpRecords

theorem nextPermutationInt_perm {a b : List Nat} (h : nextPermutationInt a = some b) :
    b.Perm a := by
  unfold nextPermutationInt at h
  split at h
  · exact absurd h (by simp)
  · rename_i i hi
    split at h
    · exact absurd h (by simp)
    · rename_i j hj
      have hi' : i < a.length := by
        have := List.mem_range.mp (List.mem_reverse.mp (List.mem_of_find?_eq_some hi))
        omega
      have hj' : j < a.length :=
        List.mem_range.mp (List.mem_reverse.mp (List.mem_of_find?_eq_some hj))
      have hswap : ((a.set i (a.getD j 0)).set j (a.getD i 0)).Perm a := by
        rw [List.getD_eq_getElem _ _ hj', List.getD_eq_getElem _ _ hi']
        exact List.set_set_perm hi' hj'
      simp only [Option.some.injEq] at h
      rw [← h]
      -- reversing the tail keeps the elements
      refine ((List.reverse_perm _).append_left _).trans ?_
      rw [List.take_append_drop]
      exact hswap

variable {modulus : UInt64}

theorem searchPermutation_spec {v : Nat → UInt64} {n : Nat} {a b : List Nat}
    (h : searchPermutation v modulus n a = some b) :
    b.Perm a ∧ (htpLineSums (fun i => v (b.getD i 0)) modulus).agree = true := by
  induction n generalizing a with
  | zero => exact absurd h (by simp [searchPermutation])
  | succ n ih =>
    unfold searchPermutation at h
    split at h
    · exact absurd h (by simp)
    · rename_i next hnext
      have hperm := nextPermutationInt_perm hnext
      split at h
      · rename_i hagree
        rw [← Option.some.inj h]
        exact ⟨hperm, hagree⟩
      · rcases ih h with ⟨hb, hagree⟩
        exact ⟨hb.trans hperm, hagree⟩

theorem htpTrySwapRepair_spec {htp repaired : HtpRecords} {start : Nat}
    (h : htpTrySwapRepair htp start modulus = some repaired) :
    (∃ perm, repaired = htp.permute start perm) ∧
      (htpLineSums (repaired.scalars start) modulus).agree = true := by
  unfold htpTrySwapRepair at h
  split at h
  · exact absurd h (by simp)
  · rcases Option.map_eq_some_iff.mp h with ⟨perm, hsearch, rfl⟩
    refine ⟨⟨perm, rfl⟩, ?_⟩
    rw [htpLineSums_congr fun i hi => HtpRecords.permute_scalars hi]
    exact (searchPermutation_spec hsearch).2

/-! ## The suspects of one group -/

section Suspects

variable {rnd : ℚ → ℚ} {htp : HtpRecords} {g : Nat} {cap : Nat}

theorem htpAnalyzeGroup_chunks (rnd : ℚ → ℚ) (v : Nat → UInt64) (modulus : UInt64) (g : Nat) :
    (∀ s ∈ htpAnalyzeGroup rnd v modulus (g * 6), s.chunk / 6 = g) ∧
      ((htpAnalyzeGroup rnd v modulus (g * 6)).map Suspect.chunk).Nodup := by
  unfold htpAnalyzeGroup
  dsimp only
  split
  · simp
  all_goals
    repeat' split
    all_goals
      constructor
      · intro s hs
        simp only [List.mem_cons, List.not_mem_nil, or_false] at hs
        rcases hs with rfl | rfl | rfl | rfl | rfl | rfl <;> dsimp only <;> omega
      · simp

theorem length_htpAnalyzeGroup_le (rnd : ℚ → ℚ) (v : Nat → UInt64) (modulus : UInt64)
    (start : Nat) : (htpAnalyzeGroup rnd v modulus start).length ≤ 6 := by
  unfold htpAnalyzeGroup
  dsimp only
  split_ifs <;> simp

theorem htpAnalyzeGroup_eq_nil (v : Nat → UInt64) (start : Nat) :
    htpAnalyzeGroup rnd v modulus start = [] ↔ (htpLineSums v modulus).agree = true := by
  unfold htpAnalyzeGroup LineSums.agree
  dsimp only
  rw [decide_eq_true_iff]
  by_cases h : (htpLineSums v modulus).l1 = (htpLineSums v modulus).l2 ∧
      (htpLineSums v modulus).l2 = (htpLineSums v modulus).l3
  · rw [if_pos h]
    exact iff_of_true rfl h
  · rw [if_neg h]
    refine iff_of_false ?_ h
    split_ifs <;> simp

def groupSuspects (rnd : ℚ → ℚ) (htp : HtpRecords) (modulus : UInt64) (g : Nat) : List Suspect :=
  if htp.complete (g * 6) = true ∧ (htpTrySwapRepair htp (g * 6) modulus).isNone = true then
    htpAnalyzeGroup rnd (htp.scalars (g * 6)) modulus (g * 6)
  else []

theorem groupSuspects_congr (rnd : ℚ → ℚ) (modulus : UInt64) {htp' : HtpRecords}
    (h : ∀ ci, g * 6 ≤ ci → htp ci = htp' ci) :
    htp.complete (g * 6) = htp'.complete (g * 6) ∧
      htp.scalars (g * 6) = htp'.scalars (g * 6) ∧
      groupSuspects rnd htp modulus g = groupSuspects rnd htp' modulus g := by
  have hscalars : htp.scalars (g * 6) = htp'.scalars (g * 6) := by
    funext i
    unfold HtpRecords.scalars
    rw [h _ (Nat.le_add_right _ _)]
  have hcomplete : htp.complete (g * 6) = htp'.complete (g * 6) :=
    HtpRecords.complete_congr fun i _ => h _ (Nat.le_add_right _ _)
  refine ⟨hcomplete, hscalars, ?_⟩
  unfold groupSuspects htpTrySwapRepair
  rw [hcomplete, hscalars]
  split_ifs <;> simp_all

theorem groupSuspects_chunks (rnd : ℚ → ℚ) (htp : HtpRecords) (modulus : UInt64) (g : Nat) :
    (∀ s ∈ groupSuspects rnd htp modulus g, s.chunk / 6 = g) ∧
      ((groupSuspects rnd htp modulus g).map Suspect.chunk).Nodup := by
  unfold groupSuspects
  split
  · exact htpAnalyzeGroup_chunks _ _ _ _
  · simp

theorem addSuspect_of_new {suspects : List Suspect} {s : Suspect}
    (hcap : suspects.length < cap) (hnew : s.chunk ∉ suspects.map Suspect.chunk) :
    addSuspect cap suspects s = suspects ++ [s] := by
  have hraise : raiseSuspect s suspects = none := by
    clear hcap
    induction suspects with
    | nil => rfl
    | cons x xs ih =>
      rw [List.map_cons, List.mem_cons, not_or] at hnew
      rw [raiseSuspect, if_neg (Ne.symm hnew.1), ih hnew.2]
      rfl
  rw [addSuspect, if_neg (Nat.not_le.mpr hcap), hraise]

theorem foldl_addSuspect (new suspects : List Suspect) (hcap : suspects.length + new.length ≤ cap)
    (hnodup : ((suspects ++ new).map Suspect.chunk).Nodup) :
    new.foldl (addSuspect cap) suspects = suspects ++ new := by
  induction new generalizing suspects with
  | nil => simp
  | cons s new ih =>
    have hnew : s.chunk ∉ suspects.map Suspect.chunk := by
      rw [List.map_append, List.map_cons] at hnodup
      intro hmem
      exact (List.nodup_append.mp hnodup).2.2 _ hmem _ List.mem_cons_self rfl
    rw [List.length_cons] at hcap
    rw [List.foldl_cons, addSuspect_of_new (by omega) hnew, ih]
    · simp
    · simp only [List.length_append, List.length_singleton]
      omega
    · rwa [List.append_assoc, List.singleton_append]

end Suspects

/-! ## The whole verification -/

namespace Session

variable {u : Session} {rnd : ℚ → ℚ} {mode : FecMode} {x : HtpInput} {suspects : List Suspect}
  {htp : HtpRecords}

theorem dataChunks_le_chunkCount (u : Session) (mode : FecMode) :
    u.dataChunks ≤ u.chunkCount mode := Nat.le_add_right _ _

/-- The state of the verification loop after the first `k` groups. -/
structure Verified (rnd : ℚ → ℚ) (x : HtpInput) (k : Nat) (st : HtpRecords × List Suspect) :
    Prop where
  later : ∀ ci, k * 6 ≤ ci → st.1 ci = x.htp ci
  suspects_eq : st.2 = (List.range k).flatMap (groupSuspects rnd x.htp x.modulusM)
  length_le : st.2.length ≤ k * 6
  balanced : ∀ g < k, x.htp.complete (g * 6) = true →
    groupSuspects rnd x.htp x.modulusM g = [] →
    (htpLineSums (st.1.scalars (g * 6)) x.modulusM).agree = true
  unbalanced : ∀ g < k, groupSuspects rnd x.htp x.modulusM g ≠ [] →
    (htpLineSums (st.1.scalars (g * 6)) x.modulusM).agree = false

/-- The chunks that the first `k` groups list. -/
theorem flatMap_groupSuspects (rnd : ℚ → ℚ) (htp : HtpRecords) (modulus : UInt64) (k : Nat) :
    (∀ s ∈ (List.range k).flatMap (groupSuspects rnd htp modulus), s.chunk / 6 < k) ∧
      (((List.range k).flatMap (groupSuspects rnd htp modulus)).map Suspect.chunk).Nodup := by
  induction k with
  | zero => simp
  | succ k ih =>
    rcases groupSuspects_chunks rnd htp modulus k with ⟨hin, hnodup⟩
    rw [List.range_succ, List.flatMap_append, List.flatMap_singleton, List.map_append]
    constructor
    · intro s hs
      rcases List.mem_append.mp hs with hs | hs
      · exact Nat.lt_succ_of_lt (ih.1 s hs)
      · exact Nat.lt_succ_of_le (hin s hs).le
    · refine List.nodup_append.mpr ⟨ih.2, hnodup, ?_⟩
      -- the new chunks are in a later group
      rintro c hc d hd rfl
      rcases List.mem_map.mp hc with ⟨s, hs, rfl⟩
      rcases List.mem_map.mp hd with ⟨t, ht, heq⟩
      have h1 := ih.1 s hs
      have h2 := hin t ht
      omega

theorem Verified.step {k cap : Nat} {st : HtpRecords × List Suspect}
    (h : Verified rnd x k st) (hcap : (k + 1) * 6 ≤ cap) :
    Verified rnd x (k + 1) (verifyGroup rnd cap x.modulusM st k) := by
  rcases groupSuspects_congr rnd x.modulusM h.later with
    ⟨hcomplete, hscalars, hsuspects⟩
  have hrange : ∀ l, groupSuspects rnd st.1 x.modulusM k = l →
      (List.range (k + 1)).flatMap (groupSuspects rnd x.htp x.modulusM) = st.2 ++ l := by
    intro l hl
    rw [List.range_succ, List.flatMap_append, List.flatMap_singleton, ← hsuspects, hl,
      ← h.suspects_eq]
  unfold verifyGroup
  by_cases hc : st.1.complete (k * 6) = true
  · rw [if_pos hc]
    cases hswap : htpTrySwapRepair st.1 (k * 6) x.modulusM with
    | some repaired =>
      -- the repair makes the sums of this group agree and lists nothing
      rcases htpTrySwapRepair_spec hswap with ⟨⟨perm, rfl⟩, hagree⟩
      have hnil : groupSuspects rnd st.1 x.modulusM k = [] := by simp [groupSuspects, hswap]
      have hother : ∀ g < k, htpLineSums ((st.1.permute (k * 6) perm).scalars (g * 6)) x.modulusM
          = htpLineSums (st.1.scalars (g * 6)) x.modulusM := by
        intro g hg
        exact htpLineSums_congr (fun i hi => HtpRecords.permute_scalars_of_ne (by omega) hi) _
      dsimp only
      refine ⟨fun ci hci => ?_, by rw [hrange _ hnil, List.append_nil], ?_, ?_, ?_⟩
      · have hout : st.1.permute (k * 6) perm ci = st.1 ci :=
          HtpRecords.permute_of_outside (by omega)
        exact hout.trans (h.later ci (by omega))
      · exact h.length_le.trans (Nat.mul_le_mul_right 6 (Nat.le_succ k))
      · intro g hg hcg hng
        rcases Nat.lt_succ_iff_lt_or_eq.mp hg with hlt | rfl
        · rw [hother g hlt]
          exact h.balanced g hlt hcg hng
        · exact hagree
      · intro g hg hng
        rcases Nat.lt_succ_iff_lt_or_eq.mp hg with hlt | rfl
        · rw [hother g hlt]
          exact h.unbalanced g hlt hng
        · exact absurd (hsuspects ▸ hnil) hng
    | none =>
      have hlist : groupSuspects rnd st.1 x.modulusM k
          = htpAnalyzeGroup rnd (st.1.scalars (k * 6)) x.modulusM (k * 6) := by
        simp [groupSuspects, hswap, hc]
      have hlen := length_htpAnalyzeGroup_le rnd (st.1.scalars (k * 6)) x.modulusM (k * 6)
      have hold := h.length_le
      have hfold : (htpAnalyzeGroup rnd (st.1.scalars (k * 6)) x.modulusM (k * 6)).foldl
          (addSuspect cap) st.2
          = st.2 ++ htpAnalyzeGroup rnd (st.1.scalars (k * 6)) x.modulusM (k * 6) := by
        refine foldl_addSuspect _ _ (by omega) ?_
        rw [← hrange _ hlist]
        exact (flatMap_groupSuspects rnd x.htp x.modulusM (k + 1)).2
      have hempty : groupSuspects rnd x.htp x.modulusM k = []
          ↔ (htpLineSums (st.1.scalars (k * 6)) x.modulusM).agree = true := by
        rw [← hsuspects, hlist]
        exact htpAnalyzeGroup_eq_nil _ _
      dsimp only
      rw [hfold]
      refine ⟨fun ci hci => h.later ci (by omega), (hrange _ hlist).symm, ?_, ?_, ?_⟩
      · rw [List.length_append]
        omega
      · intro g hg hcg hng
        rcases Nat.lt_succ_iff_lt_or_eq.mp hg with hlt | rfl
        · exact h.balanced g hlt hcg hng
        · exact hempty.mp hng
      · intro g hg hng
        rcases Nat.lt_succ_iff_lt_or_eq.mp hg with hlt | rfl
        · exact h.unbalanced g hlt hng
        · exact Bool.eq_false_iff.mpr fun hagree => hng (hempty.mpr hagree)
  · -- a group without all its tags is passed over
    have hnil : groupSuspects rnd st.1 x.modulusM k = [] := by simp [groupSuspects, hc]
    rw [if_neg hc]
    refine ⟨fun ci hci => h.later ci (by omega), by rw [hrange _ hnil, List.append_nil], ?_, ?_, ?_⟩
    · have := h.length_le
      omega
    · intro g hg hcg hng
      rcases Nat.lt_succ_iff_lt_or_eq.mp hg with hlt | rfl
      · exact h.balanced g hlt hcg hng
      · exact absurd (hcomplete ▸ hcg) hc
    · intro g hg hng
      rcases Nat.lt_succ_iff_lt_or_eq.mp hg with hlt | rfl
      · exact h.unbalanced g hlt hng
      · exact absurd (hsuspects ▸ hnil) hng

theorem verified (u : Session) (rnd : ℚ → ℚ) (mode : FecMode) (x : HtpInput) :
    Verified rnd x (u.dataChunks / 6) (u.htpVerify rnd mode x) := by
  have hloop : ∀ k ≤ u.dataChunks / 6, Verified rnd x k
      ((List.range k).foldl (verifyGroup rnd (u.chunkCount mode) x.modulusM) (x.htp, [])) := by
    intro k
    induction k with
    | zero =>
      intro _
      exact ⟨fun _ _ => rfl, rfl, Nat.le_refl _, fun g hg => absurd hg (Nat.not_lt_zero g),
        fun g hg => absurd hg (Nat.not_lt_zero g)⟩
    | succ k ih =>
      intro hk
      rw [List.range_succ, List.foldl_append]
      refine (ih (by omega)).step ?_
      have := u.dataChunks_le_chunkCount mode
      omega
  exact hloop _ le_rfl

/-! ## What the contraction keeps -/

/-- Whether the contraction keeps the suspects of the group of a chunk. -/
def superKept (u : Session) (rnd : ℚ → ℚ) (mode : FecMode) (x : HtpInput) (chunk : Nat) : Bool :=
  superFails (u.htpVerify rnd mode x).1 x.modulusM (u.chunkCount mode / 6) (chunk / 6 / 6)

theorem mem_slotSuspects {g c : Nat} :
    c ∈ (slotSuspects suspects g).map Suspect.chunk ↔
      c / 6 = g ∧ c ∈ suspects.map Suspect.chunk := by
  unfold slotSuspects
  simp only [List.mem_map, List.mem_filterMap, List.mem_range]
  constructor
  · rintro ⟨s, ⟨v, hv, hfind⟩, rfl⟩
    have hchunk := List.find?_some hfind
    simp only [decide_eq_true_eq] at hchunk
    exact ⟨by omega, s, List.mem_of_find?_eq_some hfind, rfl⟩
  · rintro ⟨hg, s, hs, rfl⟩
    have hsome : (suspects.find? fun y => y.chunk = g * 6 + s.chunk % 6).isSome = true := by
      rw [List.find?_isSome]
      exact ⟨s, hs, by simp only [decide_eq_true_eq]; omega⟩
    rcases Option.isSome_iff_exists.mp hsome with ⟨t, ht⟩
    have hchunk := List.find?_some ht
    simp only [decide_eq_true_eq] at hchunk
    exact ⟨t, ⟨s.chunk % 6, Nat.mod_lt _ (by decide), ht⟩, by omega⟩

theorem mem_htpContractGroups {chunkCount : Nat}
    (hin : ∀ s ∈ suspects, s.chunk / 6 < chunkCount / 6) {c : Nat} :
    c ∈ (htpContractGroups htp chunkCount modulus suspects).map Suspect.chunk ↔
      c ∈ suspects.map Suspect.chunk ∧
        superFails htp modulus (chunkCount / 6) (c / 6 / 6) = true := by
  unfold htpContractGroups
  dsimp only
  by_cases hempty : chunkCount / 6 < 1 ∨ suspects = []
  · have hnil : suspects = [] := by
      rcases hempty with h0 | hnil
      · apply List.eq_nil_iff_forall_not_mem.mpr
        intro s hs
        have := hin s hs
        omega
      · exact hnil
    simp [hnil]
  rw [if_neg hempty]
  constructor
  · intro h
    rcases List.mem_map.mp h with ⟨s, hs, rfl⟩
    rcases List.mem_flatMap.mp hs with ⟨lg, -, hs⟩
    by_cases hf : superFails htp modulus (chunkCount / 6) lg = true
    · -- a failing super group lists the suspects of its groups
      rw [if_pos hf] at hs
      rcases List.mem_flatMap.mp hs with ⟨g, hg, hs⟩
      have hslot := mem_slotSuspects.mp (List.mem_map_of_mem hs)
      have hlg : s.chunk / 6 / 6 = lg := by
        have := List.mem_range'_1.mp hg
        omega
      exact ⟨hslot.2, by rw [hlg]; exact hf⟩
    · rw [if_neg hf] at hs
      exact absurd hs List.not_mem_nil
  · rintro ⟨hc, hf⟩
    rcases List.mem_map.mp hc with ⟨s, hs, rfl⟩
    have hlt := hin s hs
    rcases List.mem_map.mp (mem_slotSuspects.mpr ⟨rfl, hc⟩) with ⟨t, ht, heq⟩
    refine List.mem_map.mpr ⟨t, List.mem_flatMap.mpr ⟨s.chunk / 6 / 6, ?_, ?_⟩, heq⟩
    · rw [List.mem_range]
      omega
    · rw [if_pos hf]
      refine List.mem_flatMap.mpr ⟨s.chunk / 6, ?_, ht⟩
      rw [List.mem_range'_1]
      omega

theorem htpContractGroups_nodup {chunkCount : Nat} (hnodup : (suspects.map Suspect.chunk).Nodup) :
    ((htpContractGroups htp chunkCount modulus suspects).map Suspect.chunk).Nodup := by
  have hslots : ∀ g, (slotSuspects suspects g).Pairwise fun s t => s.chunk < t.chunk := by
    intro g
    refine List.pairwise_filterMap.mpr (List.pairwise_lt_range.imp ?_)
    intro v w hvw s hs t ht
    have h1 := List.find?_some hs
    have h2 := List.find?_some ht
    simp only [decide_eq_true_eq] at h1 h2
    omega
  have hgroup : ∀ {g s}, s ∈ slotSuspects suspects g → s.chunk / 6 = g :=
    fun hs => (mem_slotSuspects.mp (List.mem_map_of_mem hs)).1
  unfold htpContractGroups
  dsimp only
  split
  · exact hnodup
  refine List.Pairwise.map _ (fun s t h => Nat.ne_of_lt h) (List.pairwise_flatMap.mpr ⟨?_, ?_⟩)
  · intro lg _
    split
    · refine List.pairwise_flatMap.mpr ⟨fun g _ => hslots g, ?_⟩
      refine (List.pairwise_lt_range' _ Nat.one_pos).imp ?_
      intro g g' hlt s hs t ht
      have h1 := hgroup hs
      have h2 := hgroup ht
      omega
    · exact List.Pairwise.nil
  · refine List.pairwise_lt_range.imp ?_
    intro lg lg' hlt s hs t ht
    -- a kept suspect lies in its super-group
    have hsuper : ∀ {l s}, s ∈ (if superFails htp modulus (chunkCount / 6) l = true then
        (List.range' (l * 6) (min (chunkCount / 6 - l * 6) 6)).flatMap (slotSuspects suspects)
        else []) → s.chunk / 6 / 6 = l := by
      intro l s hs
      split at hs
      · rcases List.mem_flatMap.mp hs with ⟨g, hg, hs⟩
        have h1 := hgroup hs
        have h2 := List.mem_range'_1.mp hg
        omega
      · exact absurd hs List.not_mem_nil
    have h1 := hsuper hs
    have h2 := hsuper ht
    omega

/-- The contraction is not tried, or the suspects all lie in super-groups that it
keeps, or all in super-groups that it skips. -/
def ContractionSpares (u : Session) (rnd : ℚ → ℚ) (mode : FecMode) (x : HtpInput) : Prop :=
  u.contracts rnd mode x = true →
    (∀ s ∈ (u.htpVerify rnd mode x).2, u.superKept rnd mode x s.chunk = true) ∨
    ∀ s ∈ (u.htpVerify rnd mode x).2, u.superKept rnd mode x s.chunk = false

theorem htpVerify_suspects (u : Session) (rnd : ℚ → ℚ) (mode : FecMode) (x : HtpInput) :
    (∀ s ∈ (u.htpVerify rnd mode x).2, s.chunk / 6 < u.dataChunks / 6) ∧
      ((u.htpVerify rnd mode x).2.map Suspect.chunk).Nodup := by
  rw [(u.verified rnd mode x).suspects_eq]
  exact flatMap_groupSuspects _ _ _ _

theorem mem_contracted {c : Nat} :
    c ∈ (htpContractGroups (u.htpVerify rnd mode x).1 (u.chunkCount mode) x.modulusM
        (u.htpVerify rnd mode x).2).map Suspect.chunk ↔
      c ∈ (u.htpVerify rnd mode x).2.map Suspect.chunk ∧ u.superKept rnd mode x c = true := by
  apply mem_htpContractGroups
  intro s hs
  have h1 := (u.htpVerify_suspects rnd mode x).1 s hs
  have h2 := u.dataChunks_le_chunkCount mode
  omega

theorem htpSuspects_keeps_iff :
    (∀ s ∈ (u.htpVerify rnd mode x).2, s.chunk ∈ (u.htpSuspects rnd mode x).1.map Suspect.chunk) ↔
      u.ContractionSpares rnd mode x := by
  set v := u.htpVerify rnd mode x with hv
  set next := htpContractGroups v.1 (u.chunkCount mode) x.modulusM v.2 with hnext
  have hmem : ∀ {c}, c ∈ next.map Suspect.chunk ↔
      c ∈ v.2.map Suspect.chunk ∧ u.superKept rnd mode x c = true := mem_contracted
  constructor
  · intro hkeeps htried
    by_contra hmixed
    rw [not_or] at hmixed
    simp only [not_forall] at hmixed
    rcases hmixed with ⟨⟨s, hs, hskip⟩, t, ht, hkeep⟩
    have hkept : t.chunk ∈ next.map Suspect.chunk :=
      hmem.mpr ⟨List.mem_map_of_mem ht, by simpa using hkeep⟩
    have hdropped : s.chunk ∉ next.map Suspect.chunk := fun h => hskip (hmem.mp h).2
    -- it keeps some and fewer than all, so its result is taken
    have hlt : next.length < v.2.length := by
      have hsub : (s.chunk :: next.map Suspect.chunk) ⊆ v.2.map Suspect.chunk := by
        intro c hc
        rcases List.mem_cons.mp hc with rfl | hc
        · exact List.mem_map_of_mem hs
        · exact (hmem.mp hc).1
      have hnodup : (s.chunk :: next.map Suspect.chunk).Nodup :=
        List.nodup_cons.mpr ⟨hdropped,
          htpContractGroups_nodup (u.htpVerify_suspects rnd mode x).2⟩
      have hle := (hnodup.subperm hsub).length_le
      simp only [List.length_cons, List.length_map] at hle
      exact hle
    have hpos : 0 < next.length := by
      have := List.length_pos_of_mem hkept
      simpa using this
    have htaken : (u.htpSuspects rnd mode x).1 = next := by
      rw [htpSuspects]
      dsimp only
      rw [if_pos htried, if_pos ⟨hpos, hlt⟩]
    exact hdropped (htaken ▸ hkeeps s hs)
  · intro hspares s hs
    unfold htpSuspects
    dsimp only
    split_ifs with htried htaken
    · rcases hspares htried with hall | hnone
      · exact hmem.mpr ⟨List.mem_map_of_mem hs, hall s hs⟩
      · -- with every super-group skipped nothing would be left
        rcases List.exists_mem_of_length_pos htaken.1 with ⟨t, ht⟩
        have hkept := hmem.mp (List.mem_map_of_mem ht)
        rcases List.mem_map.mp hkept.1 with ⟨w, hw, heq⟩
        rw [← heq, hnone w hw] at hkept
        exact absurd hkept.2 (by decide)
    · exact List.mem_map_of_mem hs
    · exact List.mem_map_of_mem hs

end Session

end FlyBoard.Tasfa

import FlyBoard.Render.ProtectMath
import Mathlib.Data.List.Forall2

/-!
# Fenced code (`src/render/render_md.c`)

`protect_math` keeps what stands in fenced blocks and code spans as it is and masks the dollars.
It tracks the blocks by the lengths of their fences.

In Markdown a fenced block begins with a fence line and ends with a fence of the same character
that is at least as long and has nothing behind it. `fencedCode` reads the blocks off the lines,
at any indentation; TikZ blocks are not code. The loop keeps the blocks literal where it takes the
same lines for their fences and no part that it captures has a fence inside.
-/

namespace FlyBoard.Render

open Bytes

/-! ## The fenced blocks of Markdown -/

def behindFence (fence : Fence) (line : Bytes) : Bytes :=
  ((line.dropWhile isBlank).drop fence.length).takeWhile (· != 10)

/-- A fence of backticks has none behind it: such a line holds a code span. -/
def markdownOpens (line : Bytes) : Option Fence :=
  (isCodeFenceLine line).filter fun f => f.char != 96 || !(behindFence f line).contains 96

def markdownEnds (fence : Fence) (line : Bytes) : Bool :=
  (isCodeFenceLine line).any fun f =>
    f.char == fence.char && fence.length ≤ f.length && (behindFence f line).all isLineBlank

/-- Whether the line is code, the block that is open behind it, and the bytes that are left of a
TikZ block. -/
structure LineState where
  here : Bool
  after : Option Fence
  skip : ℕ

def enterLine (fence : Option Fence) (cur : Cursor) : LineState :=
  match fence with
  | some f => ⟨true, if markdownEnds f cur.rest then none else some f, 0⟩
  | none =>
    match tikzFence cur with
    | some r => ⟨false, none, r.length⟩
    | none =>
      match markdownOpens cur.rest with
      | some f => ⟨true, some f, 0⟩
      | none => ⟨false, none, 0⟩

def LineState.next (st : LineState) (c : UInt8) (cur : Cursor) : LineState :=
  if 1 < st.skip then { st with skip := st.skip - 1 }
  else if c = 10 then enterLine st.after cur
  else { st with skip := 0 }

def codeFrom : LineState → Bytes → Bytes → List Bool
  | _, _, [] => []
  | st, before, c :: s => st.here :: codeFrom (st.next c ⟨c :: before, s⟩) (c :: before) s

def fencedCode (md : Bytes) : List Bool := codeFrom (enterLine none ⟨[], md⟩) [] md

/-! ## What the loop reads as code -/

/-- Which bytes of the source a part copies from code, and which it copies or masks. -/
def Part.inCode : Part → List Bool
  | .text _ code => [code]
  | .dollar => [true]
  | .capture _ source _ _ => source.map fun _ => false
  | .dropped source => source.map fun _ => false

def Part.isLiteral : Part → List Bool
  | .text _ _ => [true]
  | .dollar => [true]
  | .capture _ source _ _ => source.map fun _ => false
  | .dropped source => source.map fun _ => false

def visits : ℕ → Loop → List Loop
  | 0, _ => []
  | n + 1, l => if l.cur.rest = [] then [] else l :: visits n l.step

/-- The loop stands where the lines of Markdown have it. In a block it ends the block with the
line that does, and takes no TikZ; outside of one it begins a block with the line that does, and
reads on over no fence. -/
def InStep (l : Loop) : Prop :=
  match l.fence with
  | some fence => (tikzFence l.cur).isNone = true ∧
      (l.cur.isLineStart = true → endsBlock fence l.cur.rest = markdownEnds fence l.cur.rest)
  | none => (tikzFence l.cur).isSome = true ∨
      (l.cur.isLineStart = true → isCodeFenceLine l.cur.rest = markdownOpens l.cur.rest) ∧
        ∀ k ∈ List.range (round l).1.length, 0 < k → (l.cur.forward k).isLineStart = true →
          (tikzFence (l.cur.forward k)).isNone = true ∧
            (markdownOpens (l.cur.forward k).rest).isNone = true

instance (l : Loop) : Decidable (InStep l) := by
  unfold InStep
  cases l.fence <;> exact inferInstance

def FencesKept (md : Bytes) : Prop := ∀ l ∈ visits md.length ⟨⟨[], md⟩, none⟩, InStep l

instance (md : Bytes) : Decidable (FencesKept md) :=
  inferInstanceAs (Decidable (∀ l ∈ visits md.length ⟨⟨[], md⟩, none⟩, InStep l))

/-! ## In step, the blocks are literal -/

def Loop.lines (l : Loop) : LineState :=
  if l.cur.isLineStart then enterLine l.fence l.cur else ⟨l.fence.isSome, l.fence, 0⟩

def Loop.codeFrom (l : Loop) : List Bool := Render.codeFrom l.lines l.cur.before l.cur.rest

theorem forward_succ (before : Bytes) (c : UInt8) (s : Bytes) (k : ℕ) :
    Cursor.forward ⟨before, c :: s⟩ (k + 1) = Cursor.forward ⟨c :: before, s⟩ k := by
  simp only [Cursor.forward, List.take_succ_cons, List.drop_succ_cons, List.reverse_cons,
    List.append_assoc, List.cons_append, List.nil_append]

variable {l : Loop}

theorem codeFrom_nil (h : l.cur.rest = []) : l.codeFrom = [] := by
  unfold Loop.codeFrom
  rw [h]
  rfl

/-- The last byte of a stretch: the state behind it is the state of the place. -/
theorem next_eq (fence : Option Fence) {skip : ℕ} (hskip : skip ≤ 1) (before : Bytes) (c : UInt8)
    (s : Bytes) : LineState.next ⟨fence.isSome, fence, skip⟩ c ⟨c :: before, s⟩ =
      Loop.lines ⟨⟨c :: before, s⟩, fence⟩ := by
  have hstart : Cursor.isLineStart ⟨c :: before, s⟩ = (c == 10) := rfl
  unfold LineState.next Loop.lines
  rw [if_neg (by simpa using hskip)]
  simp only [hstart, beq_iff_eq]

theorem codeFrom_cons (fence : Option Fence) {skip : ℕ} (hskip : skip ≤ 1) (before : Bytes)
    (c : UInt8) (s : Bytes) : codeFrom ⟨fence.isSome, fence, skip⟩ before (c :: s) =
      fence.isSome :: Loop.codeFrom ⟨⟨c :: before, s⟩, fence⟩ := by
  rw [codeFrom, next_eq fence hskip]
  rfl

theorem codeFrom_skip (k : ℕ) (before s : Bytes) :
    codeFrom ⟨false, none, k + 1⟩ before s = (s.take (k + 1)).map (fun _ => false) ++
      Loop.codeFrom ⟨Cursor.forward ⟨before, s⟩ (k + 1), none⟩ := by
  induction k generalizing before s with
  | zero =>
    cases s with
    | nil => rfl
    | cons c s => exact codeFrom_cons none le_rfl before c s
  | succ k ih =>
    cases s with
    | nil => rfl
    | cons c s =>
      have hnext : LineState.next ⟨false, none, k + 2⟩ c ⟨c :: before, s⟩ = ⟨false, none, k + 1⟩ :=
        if_pos (by simp)
      rw [codeFrom, hnext, ih, forward_succ, List.take_succ_cons, List.map_cons, List.cons_append]

theorem codeFrom_open (k : ℕ) (before s : Bytes)
    (h : ∀ j, 0 < j → j < k + 1 → (Cursor.forward ⟨before, s⟩ j).isLineStart = true →
      enterLine none (Cursor.forward ⟨before, s⟩ j) = ⟨false, none, 0⟩) :
    codeFrom ⟨false, none, 0⟩ before s = (s.take (k + 1)).map (fun _ => false) ++
      Loop.codeFrom ⟨Cursor.forward ⟨before, s⟩ (k + 1), none⟩ := by
  induction k generalizing before s with
  | zero =>
    cases s with
    | nil => rfl
    | cons c s => exact codeFrom_cons none (Nat.zero_le 1) before c s
  | succ k ih =>
    cases s with
    | nil => rfl
    | cons c s =>
      have hone : Cursor.forward ⟨before, c :: s⟩ 1 = ⟨c :: before, s⟩ := forward_succ before c s 0
      have hnext : LineState.next ⟨false, none, 0⟩ c ⟨c :: before, s⟩ = ⟨false, none, 0⟩ := by
        refine (next_eq none (Nat.zero_le 1) before c s).trans ?_
        unfold Loop.lines
        split_ifs with hstart
        · have henter := h 1 Nat.one_pos (by omega)
          rw [hone] at henter
          exact henter hstart
        · rfl
      rw [codeFrom, hnext, ih, forward_succ, List.take_succ_cons, List.map_cons, List.cons_append]
      intro j hpos hlt hstart
      have hlater := h (j + 1) (Nat.succ_pos j) (by omega)
      rw [forward_succ] at hlater
      exact hlater hstart

theorem codeFrom_closing (before s : Bytes) :
    codeFrom ⟨true, none, 0⟩ before s =
      (s.takeWhile (· != 10) ++ (s.dropWhile (· != 10)).take 1).map (fun _ => true) ++
        Loop.codeFrom ⟨Cursor.forward ⟨before, s⟩
          (s.takeWhile (· != 10) ++ (s.dropWhile (· != 10)).take 1).length, none⟩ := by
  induction s generalizing before with
  | nil => rfl
  | cons c s ih =>
    by_cases hc : c = 10
    · subst hc
      rfl
    · have htake : (c :: s).takeWhile (· != 10) = c :: s.takeWhile (· != 10) :=
        List.takeWhile_cons_of_pos (bne_iff_ne.mpr hc)
      have hdrop : (c :: s).dropWhile (· != 10) = s.dropWhile (· != 10) :=
        List.dropWhile_cons_of_pos (bne_iff_ne.mpr hc)
      have hnext : LineState.next ⟨true, none, 0⟩ c ⟨c :: before, s⟩ = ⟨true, none, 0⟩ := by
        unfold LineState.next
        rw [if_neg (by simp), if_neg hc]
      rw [codeFrom, hnext, ih, htake, hdrop, List.cons_append, List.map_cons, List.length_cons,
        forward_succ, List.cons_append]

/-- What is code is literal, byte by byte. -/
def Covered : List Bool → List Bool → Prop := List.Forall₂ fun c l => c = true → l = true

variable {cs ls : List Bool}

theorem covered_of_not_code (hlength : cs.length = ls.length)
    (h : ∀ c ∈ cs, c = false) : Covered cs ls := by
  induction cs generalizing ls with
  | nil =>
    rw [List.eq_nil_of_length_eq_zero hlength.symm]
    exact .nil
  | cons c cs ih =>
    cases ls with
    | nil => cases hlength
    | cons b ls =>
      obtain ⟨hc, hcs⟩ := List.forall_mem_cons.mp h
      exact .cons (fun ht => nomatch hc.symm.trans ht) (ih (Nat.succ.inj hlength) hcs)

theorem covered_of_literal (hlength : cs.length = ls.length)
    (h : ∀ b ∈ ls, b = true) : Covered cs ls := by
  induction cs generalizing ls with
  | nil =>
    rw [List.eq_nil_of_length_eq_zero hlength.symm]
    exact .nil
  | cons c cs ih =>
    cases ls with
    | nil => cases hlength
    | cons b ls =>
      obtain ⟨hb, hls⟩ := List.forall_mem_cons.mp h
      exact .cons (fun _ => hb) (ih (Nat.succ.inj hlength) hls)

variable {i : ℕ}

theorem Covered.getElem? (h : Covered cs ls) (hi : cs[i]? = some true) : ls[i]? = some true := by
  induction h generalizing i with
  | nil => exact hi
  | cons hhead htail ih =>
    cases i with
    | zero => exact congrArg some (hhead (Option.some.inj hi))
    | succ i => exact ih hi

theorem length_isLiteral (parts : List Part) :
    (parts.flatMap Part.isLiteral).length = (parts.flatMap Part.source).length := by
  induction parts with
  | nil => rfl
  | cons p parts ih =>
    have hp : p.isLiteral.length = p.source.length := by
      cases p with
      | text c code => rfl
      | dollar => rfl
      | capture r source expr place => exact List.length_map _
      | dropped source => exact List.length_map _
    rw [List.flatMap_cons, List.flatMap_cons, List.length_append, List.length_append, ih, hp]

/-- A round that reads `k` bytes of which none is code. -/
theorem covered_round (hrest : l.cur.rest ≠ []) :
    Covered ((l.cur.rest.take (round l).1.length).map fun _ => false)
      ((round l).1.parts.flatMap Part.isLiteral) := by
  refine covered_of_not_code ?_ fun c hc => ?_
  · rw [length_isLiteral, (round_reads hrest).sources, List.length_map]
  · obtain ⟨_, -, rfl⟩ := List.mem_map.mp hc
    rfl

theorem isLineStart_of_tikzFence {cur : Cursor} {r : Round} (h : tikzFence cur = some r) :
    cur.isLineStart = true := by
  unfold tikzFence at h
  split at h
  · cases h
  · rename_i hopen
    unfold Cursor.tikzFenceOpen at hopen
    split_ifs at hopen with hstart
    exact hstart

variable {fence : Fence}

theorem codeFrom_codeByte (hrest : l.cur.rest ≠ [])
    (hlines : l.lines = ⟨true, some fence, 0⟩) (hround : round l = (codeByte l.cur, some fence)) :
    ∃ cs, l.codeFrom = cs ++ l.step.codeFrom ∧
      Covered cs ((round l).1.parts.flatMap Part.isLiteral) := by
  obtain ⟨⟨before, rest⟩, state⟩ := l
  obtain ⟨c, s, rfl⟩ := List.exists_cons_of_ne_nil hrest
  have hstep : Loop.step ⟨⟨before, c :: s⟩, state⟩ = ⟨⟨c :: before, s⟩, some fence⟩ := by
    unfold Loop.step
    rw [hround]
    rfl
  refine ⟨[true], ?_, ?_⟩
  · unfold Loop.codeFrom
    rw [hlines, hstep]
    exact codeFrom_cons (some fence) (Nat.zero_le 1) before c s
  · rw [hround]
    refine covered_of_literal ?_ ?_
    · rw [length_isLiteral, codeByte_reads.sources]
      rfl
    · intro b hb
      obtain ⟨p, hp, hb⟩ := List.mem_flatMap.mp hb
      obtain ⟨d, -, rfl⟩ := List.mem_map.mp hp
      unfold codePart at hb
      split_ifs at hb <;> exact List.mem_singleton.mp hb

theorem codeFrom_step_closing (hfence : l.fence = some fence)
    (h : InStep l) (hend : (l.cur.isLineStart && endsBlock fence l.cur.rest) = true) :
    ∃ cs, l.codeFrom = cs ++ l.step.codeFrom ∧
      Covered cs ((round l).1.parts.flatMap Part.isLiteral) := by
  unfold InStep at h
  rw [hfence] at h
  obtain ⟨htikz, hends⟩ := h
  have hnone : tikzFence l.cur = none := Option.isNone_iff_eq_none.mp htikz
  have hround : round l = (closingLine l.cur, none) := by
    unfold round
    rw [hnone, hfence]
    exact if_pos hend
  obtain ⟨hstart, hcloses⟩ := Bool.and_eq_true_iff.mp hend
  have hlines : l.lines = ⟨true, none, 0⟩ := by
    unfold Loop.lines
    rw [if_pos hstart, hfence, enterLine, ← hends hstart, hcloses]
    rfl
  refine ⟨(l.cur.rest.takeWhile (· != 10) ++ (l.cur.rest.dropWhile (· != 10)).take 1).map
    fun _ => true, ?_, ?_⟩
  · have hclosing := codeFrom_closing l.cur.before l.cur.rest
    unfold Loop.codeFrom Loop.step
    rw [hlines, hround]
    exact hclosing
  · rw [hround]
    refine covered_of_literal ?_ ?_
    · rw [length_isLiteral, closingLine, flatMap_source_map fun _ => rfl, List.length_map]
    · intro b hb
      obtain ⟨p, hp, hb⟩ := List.mem_flatMap.mp hb
      obtain ⟨d, -, rfl⟩ := List.mem_map.mp hp
      exact List.mem_singleton.mp hb

theorem codeFrom_step_inside (hrest : l.cur.rest ≠ [])
    (hfence : l.fence = some fence) (h : InStep l) :
    ∃ cs, l.codeFrom = cs ++ l.step.codeFrom ∧
      Covered cs ((round l).1.parts.flatMap Part.isLiteral) := by
  by_cases hend : (l.cur.isLineStart && endsBlock fence l.cur.rest) = true
  · exact codeFrom_step_closing hfence h hend
  · unfold InStep at h
    rw [hfence] at h
    obtain ⟨htikz, hends⟩ := h
    have hnone : tikzFence l.cur = none := Option.isNone_iff_eq_none.mp htikz
    have hround : round l = (codeByte l.cur, some fence) := by
      unfold round
      rw [hnone, hfence]
      exact if_neg hend
    refine codeFrom_codeByte hrest ?_ hround
    unfold Loop.lines
    rw [hfence]
    split_ifs with hstart
    · have hopen : endsBlock fence l.cur.rest = false := by
        rw [hstart, Bool.true_and] at hend
        exact Bool.eq_false_iff.mpr hend
      rw [enterLine, ← hends hstart, hopen]
      rfl
    · rfl

theorem codeFrom_step_outside (hrest : l.cur.rest ≠ []) (hfence : l.fence = none) (h : InStep l) :
    ∃ cs, l.codeFrom = cs ++ l.step.codeFrom ∧
      Covered cs ((round l).1.parts.flatMap Part.isLiteral) := by
  unfold InStep at h
  rw [hfence] at h
  cases htikz : tikzFence l.cur with
  | some r =>
    have hround : round l = (r, none) := by
      unfold round
      rw [htikz, hfence]
    have hlines : l.lines = ⟨false, none, r.length⟩ := by
      unfold Loop.lines
      rw [if_pos (isLineStart_of_tikzFence htikz), hfence, enterLine, htikz]
    obtain ⟨k, hk⟩ := Nat.exists_eq_succ_of_ne_zero (tikzFence_reads htikz).advances.ne'
    have hskip := codeFrom_skip k l.cur.before l.cur.rest
    refine ⟨_, ?_, covered_round hrest⟩
    unfold Loop.codeFrom Loop.step
    rw [hlines, hround, hk]
    exact hskip
  | none =>
    rw [htikz] at h
    obtain ⟨hopen, hinner⟩ := h.resolve_left Bool.false_ne_true
    cases hline : (if l.cur.isLineStart then isCodeFenceLine l.cur.rest else none) with
    | some fence =>
      have hround : round l = (codeByte l.cur, some fence) := by
        unfold round
        rw [htikz, hfence]
        simp only [hline]
      refine codeFrom_codeByte hrest ?_ hround
      split_ifs at hline with hstart
      unfold Loop.lines
      rw [if_pos hstart, hfence, enterLine, htikz, ← hopen hstart, hline]
    | none =>
      have hround : round l = (openRound l.cur, none) := by
        unfold round
        rw [htikz, hfence]
        simp only [hline]
      have hlines : l.lines = ⟨false, none, 0⟩ := by
        unfold Loop.lines
        rw [hfence]
        split_ifs with hstart
        · rw [if_pos hstart] at hline
          rw [enterLine, htikz, ← hopen hstart, hline]
        · rfl
      obtain ⟨k, hk⟩ := Nat.exists_eq_succ_of_ne_zero (openRound_reads hrest).advances.ne'
      have hover := codeFrom_open k l.cur.before l.cur.rest fun j hpos hlt hstart => by
        have hlength : (round l).1.length = k + 1 := by
          rw [hround]
          exact hk
        obtain ⟨hnotikz, hnocode⟩ :=
          hinner j (List.mem_range.mpr (hlength ▸ hlt)) hpos hstart
        unfold enterLine
        simp only [Option.isNone_iff_eq_none.mp hnotikz, Option.isNone_iff_eq_none.mp hnocode]
      refine ⟨_, ?_, covered_round hrest⟩
      unfold Loop.codeFrom Loop.step
      rw [hlines, hround, hk]
      exact hover

theorem codeFrom_step (hrest : l.cur.rest ≠ []) (h : InStep l) :
    ∃ cs, l.codeFrom = cs ++ l.step.codeFrom ∧
      Covered cs ((round l).1.parts.flatMap Part.isLiteral) := by
  cases hfence : l.fence with
  | some fence => exact codeFrom_step_inside hrest hfence h
  | none => exact codeFrom_step_outside hrest hfence h

theorem literal_of_fencedCode {md : Bytes} (h : FencesKept md)
    (hi : (fencedCode md)[i]? = some true) :
    ((division md).flatMap Part.isLiteral)[i]? = some true := by
  have hcovered : ∀ n l, l.cur.rest.length ≤ n → (∀ l' ∈ visits n l, InStep l') →
      Covered l.codeFrom ((divide n l).flatMap Part.isLiteral) := by
    intro n
    induction n with
    | zero =>
      intro l hl _
      rw [codeFrom_nil (List.eq_nil_of_length_eq_zero (Nat.le_zero.mp hl))]
      exact .nil
    | succ n ih =>
      intro l hl hvisits
      unfold divide
      unfold visits at hvisits
      split_ifs with hrest
      · rw [codeFrom_nil hrest]
        exact .nil
      · rw [if_neg hrest] at hvisits
        have hpos : 0 < l.cur.rest.length := List.length_pos_iff.mpr hrest
        have hlength : l.step.cur.rest.length ≤ n := by
          have hadvances := (round_reads hrest).advances
          have hdrop : l.step.cur.rest = l.cur.rest.drop (round l).1.length := rfl
          rw [hdrop, List.length_drop]
          omega
        obtain ⟨cs, hcs, hround⟩ := codeFrom_step hrest (hvisits l List.mem_cons_self)
        have hlater := ih l.step hlength fun l' hl' => hvisits l' (List.mem_cons_of_mem _ hl')
        rw [hcs, List.flatMap_append]
        exact List.rel_append hround hlater
  exact (hcovered md.length ⟨⟨[], md⟩, none⟩ le_rfl h).getElem? hi

end FlyBoard.Render

import FlyBoard.Handlers.Autosave
import FlyBoard.Lib.Json
import Mathlib.Data.List.Chain

/-!
# Tag names (`src/db/tag.c`)

`tidy` says what `tag_normalize` is for: the words of the text, folded and without the
characters that mean something in a path, joined by single spaces. The function cuts this
twice, at `DB_TAG_MAX_BYTES` and before an incomplete character, and a name that ends where
the second cut was made need not be a normal one.
-/

namespace FlyBoard.TagNames

open Bytes Json
open Autosave (tagBytes tagMaxBytes charLength wholeChars tagNormalize)

variable {c : UInt8} {s t u v out : Bytes} {space : Bool}

/-! ## Tidy names -/

def isGap (c : UInt8) : Bool := c == 32 || c == 9 || c == 13 || c == 10

def isDropped (c : UInt8) : Bool := c < 32 || (bytes "/?#%&<>\"'\\`").contains c

def clean (word : Bytes) : Bytes := (word.filter fun c => !isDropped c).map toLower

/-- The words that are not empty, with single spaces between them. -/
def joined (ws : List Bytes) : Bytes := [32].intercalate (ws.filter (· ≠ []))

def words (s : Bytes) : List Bytes := (s.splitOnP isGap).map clean

def tidy (s : Bytes) : Bytes := joined (words s)

/-- `t` without a space at its end. -/
def trimEnd (t : Bytes) : Bytes := if t.getLast? = some 32 then t.dropLast else t

def cutName (t : Bytes) : Bytes := trimEnd (t.take (tagMaxBytes - 1))

/-- The text ends within a character, and `u` is what stands before it. -/
def EndsShort (t u : Bytes) : Prop :=
  ∃ lead tail, t = u ++ lead :: tail ∧ tail.length + 1 < charLength lead ∧
    ∀ c ∈ tail, c &&& 0xC0 = 0x80

/-- Cut before its incomplete character, the name is empty or a normal one. -/
def CutsWell (t : Bytes) : Prop :=
  ∀ u, EndsShort t u → u = [] ∨ (u.getLast? ≠ some 32 ∧ ∀ v, ¬EndsShort u v)

/-! ## The loop of `tag_normalize` -/

def tidyBytes : Bytes → Bytes → Bool → Bytes
  | [], out, _ => out
  | c :: rest, out, space =>
    if isGap c then tidyBytes rest out (space || out ≠ [])
    else if isDropped c then tidyBytes rest out space
    else tidyBytes rest (out ++ (if space then [32] else []) ++ [toLower c]) false

theorem joined_nil_cons (ws : List Bytes) : joined ([] :: ws) = joined ws := by
  simp [joined]

theorem joined_cons_nil (w : Bytes) (ws : List Bytes) :
    joined (w :: [] :: ws) = joined (w :: ws) := by
  by_cases hw : w = [] <;> simp [joined, hw]

theorem joined_cons_append (w : Bytes) (x : UInt8) (y : Bytes) (ws : List Bytes) (hw : w ≠ []) :
    joined (w :: (x :: y) :: ws) = joined ((w ++ 32 :: x :: y) :: ws) := by
  simp only [joined, List.filter_cons, ne_eq, hw, List.append_eq_nil_iff, reduceCtorEq,
    not_false_eq_true, and_false, decide_true, if_true, List.intercalate_cons_cons]
  rcases ws.filter (fun w => decide (¬w = [])) with _ | ⟨a, rest⟩
  · simp
  · simp

theorem words_gap (h : isGap c = true) (s : Bytes) : words (c :: s) = [] :: words s := by
  rw [words, List.splitOnP_cons_eq_if_modifyHead, if_pos h, List.map_cons]
  rfl

theorem words_dropped (hgap : isGap c = false) (h : isDropped c = true) (s : Bytes) :
    words (c :: s) = words s := by
  rw [words, words, List.splitOnP_cons_eq_if_modifyHead, hgap, if_neg Bool.false_ne_true]
  rcases hs : s.splitOnP isGap with _ | ⟨w, ws⟩
  · exact absurd hs (List.splitOnP_ne_nil isGap s)
  · simp [clean, h]

theorem words_kept (hgap : isGap c = false) (h : isDropped c = false) (s : Bytes) :
    words (c :: s) = (words s).modifyHead (toLower c :: ·) := by
  rw [words, words, List.splitOnP_cons_eq_if_modifyHead, hgap, if_neg Bool.false_ne_true]
  rcases hs : s.splitOnP isGap with _ | ⟨w, ws⟩
  · exact absurd hs (List.splitOnP_ne_nil isGap s)
  · simp [clean, h]

theorem words_ne_nil (s : Bytes) : words s ≠ [] := by
  rw [words, ne_eq, List.map_eq_nil_iff]
  exact List.splitOnP_ne_nil isGap s

/-- What is written is the first word under way, or a text to which the next word is joined
by the space that is due. -/
theorem tidyBytes_eq (hspace : space = true → out ≠ []) :
    tidyBytes s out space =
      joined (if space then out :: words s else (words s).modifyHead (out ++ ·)) := by
  induction s generalizing out space with
  | nil =>
    have hwords : words [] = [[]] := rfl
    rw [hwords, tidyBytes]
    by_cases hout : out = []
    · subst hout
      cases space <;> rfl
    · cases space <;> simp [joined, hout]
  | cons c s ih =>
    rw [tidyBytes]
    rcases hws : words s with _ | ⟨w, ws⟩
    · exact absurd hws (words_ne_nil s)
    by_cases hgap : isGap c = true
    · rw [if_pos hgap, words_gap hgap, hws]
      by_cases hout : out = []
      · subst hout
        have hno : space = false := by
          cases space
          · rfl
          · exact absurd rfl (hspace rfl)
        subst hno
        rw [ih (by decide), hws]
        exact (joined_nil_cons _).symm
      · rw [ih (fun _ => hout), hws]
        cases space with
        | false => simp [hout]
        | true => exact (joined_cons_nil out (w :: ws)).symm
    · have hgap : isGap c = false := Bool.eq_false_iff.mpr hgap
      rw [hgap, if_neg Bool.false_ne_true]
      by_cases hdrop : isDropped c = true
      · rw [if_pos hdrop, words_dropped hgap hdrop, ih hspace]
      · have hdrop : isDropped c = false := Bool.eq_false_iff.mpr hdrop
        rw [hdrop, if_neg Bool.false_ne_true, words_kept hgap hdrop,
          ih (fun h => absurd h Bool.false_ne_true), hws]
        cases space with
        | false => simp
        | true =>
          have hjoin := joined_cons_append out (toLower c) w ws (hspace rfl)
          simpa using hjoin.symm

theorem tidyBytes_nil (s : Bytes) : tidyBytes s [] false = tidy s := by
  rw [tidyBytes_eq (by decide), tidy]
  rcases words s with _ | ⟨w, ws⟩ <;> rfl

theorem trimEnd_of_last (h : t.getLast? ≠ some 32) : trimEnd t = t := if_neg h

theorem trimEnd_concat_space (t : Bytes) : trimEnd (t ++ [32]) = t := by
  rw [trimEnd, if_pos List.getLast?_concat, List.dropLast_concat]

theorem cutName_of_le (hlen : t.length ≤ 47) (h : t.getLast? ≠ some 32) : cutName t = t := by
  have hroom : t.length ≤ tagMaxBytes - 1 := hlen
  rw [cutName, List.take_of_length_le hroom, trimEnd_of_last h]

theorem isPrefix_tidyBytes (s out : Bytes) (space : Bool) : out <+: tidyBytes s out space := by
  induction s generalizing out space with
  | nil => exact List.prefix_rfl
  | cons c s ih =>
    rw [tidyBytes]
    split
    · exact ih out _
    split
    · exact ih out _
    · rw [List.append_assoc]
      exact (List.prefix_append out _).trans (ih _ _)

theorem getLast?_kept (hgap : isGap c = false) : (out ++ [toLower c]).getLast? ≠ some 32 := by
  rw [List.getLast?_concat]
  intro h
  have hlower : ∀ b, isGap b = false → toLower b ≠ 32 := Bytes.forall_byte (by decide +kernel)
  exact hlower c hgap (Option.some.inj h)

theorem tagBytes_eq (hlen : out.length ≤ 47) (hlast : out.getLast? ≠ some 32) :
    tagBytes s out space = cutName (tidyBytes s out space) := by
  induction s generalizing out space with
  | nil => exact (cutName_of_le hlen hlast).symm
  | cons c s ih =>
    rw [tagBytes]
    by_cases hfull : tagMaxBytes ≤ out.length + 1
    · rw [if_pos hfull]
      have hout : out.length = tagMaxBytes - 1 := by
        rw [tagMaxBytes] at hfull ⊢
        omega
      obtain ⟨rest, hrest⟩ := isPrefix_tidyBytes (c :: s) out space
      rw [cutName, ← hrest, ← hout, List.take_left, trimEnd_of_last hlast]
    rw [if_neg hfull, tidyBytes]
    rw [tagMaxBytes] at hfull
    by_cases hgap : isGap c = true
    · rw [if_pos hgap]
      exact (if_pos hgap).trans (ih hlen hlast)
    have hgap : isGap c = false := Bool.eq_false_iff.mpr hgap
    refine (if_neg (Bool.eq_false_iff.mp hgap)).trans ?_
    rw [hgap, if_neg Bool.false_ne_true]
    by_cases hdrop : isDropped c = true
    · rw [if_pos hdrop]
      exact (if_pos hdrop).trans (ih hlen hlast)
    have hdrop : isDropped c = false := Bool.eq_false_iff.mpr hdrop
    refine (if_neg (Bool.eq_false_iff.mp hdrop)).trans ?_
    rw [hdrop, if_neg Bool.false_ne_true]
    cases space with
    | false =>
      have hnext : (out ++ [toLower c]).length ≤ 47 := by
        rw [List.length_append, List.length_singleton]
        omega
      simp only [Bool.false_eq_true, if_false, List.append_nil]
      exact ih hnext (getLast?_kept hgap)
    | true =>
      simp only [if_true, List.append_assoc, List.singleton_append]
      by_cases hroom : tagMaxBytes ≤ out.length + 2
      · -- the space would be the last byte
        rw [if_pos hroom]
        have hout : (out ++ [32]).length = tagMaxBytes - 1 := by
          rw [List.length_append, List.length_singleton]
          rw [tagMaxBytes] at hroom ⊢
          omega
        obtain ⟨rest, hrest⟩ := isPrefix_tidyBytes s (out ++ [32, toLower c]) false
        have hsplit : out ++ [32, toLower c] ++ rest = (out ++ [32]) ++ (toLower c :: rest) := by
          simp
        rw [cutName, ← hrest, hsplit, ← hout, List.take_left, trimEnd_concat_space]
      · rw [if_neg hroom]
        rw [tagMaxBytes] at hroom
        have hnext : (out ++ [32, toLower c]).length ≤ 47 := by
          rw [List.length_append, List.length_cons, List.length_singleton]
          omega
        have hlast' : (out ++ [32, toLower c]).getLast? ≠ some 32 := by
          rw [List.append_cons]
          exact getLast?_kept hgap
        exact ih hnext hlast'

theorem tagBytes_dropWhile (s : Bytes) :
    tagBytes (s.dropWhile fun c => c == 35 || c == 32 || c == 9) [] false =
      tagBytes s [] false := by
  induction s with
  | nil => rfl
  | cons c s ih =>
    rw [List.dropWhile_cons]
    split
    · next hc =>
      rw [ih, tagBytes, if_neg (by decide)]
      simp only [Bool.or_eq_true, beq_iff_eq] at hc
      rcases hc with (rfl | rfl) | rfl <;> rfl
    · rfl

theorem tagNormalize_eq (s : Bytes) : tagNormalize s = wholeChars (cutName (tidy s)) := by
  have hnil : ([] : Bytes).length ≤ 47 := Nat.zero_le 47
  rw [tagNormalize, tagBytes_dropWhile, tagBytes_eq hnil (by decide), tidyBytes_nil]

/-! ## Normal names -/

def Kept (c : UInt8) : Prop := isGap c = false ∧ isDropped c = false ∧ toLower c = c

/-- Words of kept bytes with single spaces between them, the last one perhaps still empty. -/
structure Tidy (t : Bytes) : Prop where
  kept : ∀ c ∈ t, c = 32 ∨ Kept c
  start : t.head? ≠ some 32
  single : t.IsChain fun a b => a = 32 → b ≠ 32

theorem kept_toLower (hgap : isGap c = false) (hdrop : isDropped c = false) :
    Kept (toLower c) := by
  have hbyte : ∀ b, isGap b = false → isDropped b = false →
      isGap (toLower b) = false ∧ isDropped (toLower b) = false ∧
        toLower (toLower b) = toLower b := Bytes.forall_byte (by decide +kernel)
  exact hbyte c hgap hdrop

theorem Kept.ne_space (h : Kept c) : c ≠ 32 := by
  rintro rfl
  exact absurd h.1 (by decide)

theorem Tidy.isPrefix (ht : Tidy t) (hu : u <+: t) : Tidy u := by
  obtain ⟨rest, rfl⟩ := hu
  refine ⟨fun c hc => ht.kept c (List.mem_append_left _ hc), ?_, ht.single.left_of_append⟩
  intro hspace
  apply ht.start
  rw [List.head?_append, hspace, Option.some_or]

theorem Tidy.concat (ht : Tidy t) (hc : Kept c) : Tidy (t ++ [c]) := by
  refine ⟨?_, ?_, ?_⟩
  · intro b hb
    rcases List.mem_append.mp hb with hb | hb
    · exact ht.kept b hb
    · exact .inr (List.mem_singleton.mp hb ▸ hc)
  · rcases t with _ | ⟨a, t⟩
    · exact fun h => hc.ne_space (Option.some.inj h)
    · exact ht.start
  · refine List.isChain_append.mpr ⟨ht.single, List.isChain_singleton c, ?_⟩
    intro a _ b hb _
    rw [List.head?_singleton, Option.mem_some_iff] at hb
    exact hb ▸ hc.ne_space

theorem Tidy.concat_space (ht : Tidy t) (hne : t ≠ []) (hlast : t.getLast? ≠ some 32) :
    Tidy (t ++ [32]) := by
  refine ⟨?_, ?_, ?_⟩
  · intro b hb
    rcases List.mem_append.mp hb with hb | hb
    · exact ht.kept b hb
    · exact .inl (List.mem_singleton.mp hb)
  · rcases t with _ | ⟨a, t⟩
    · exact absurd rfl hne
    · exact ht.start
  · refine List.isChain_append.mpr ⟨ht.single, List.isChain_singleton 32, ?_⟩
    intro a ha b _ hspace
    subst hspace
    exact absurd ha hlast

theorem tidy_tidyBytes (ht : Tidy out) (hlast : out.getLast? ≠ some 32)
    (hspace : space = true → out ≠ []) : Tidy (tidyBytes s out space) := by
  induction s generalizing out space with
  | nil => exact ht
  | cons c s ih =>
    rw [tidyBytes]
    by_cases hgap : isGap c = true
    · rw [if_pos hgap]
      refine ih ht hlast fun h => ?_
      rcases Bool.or_eq_true_iff.mp h with h | h
      · exact hspace h
      · exact of_decide_eq_true h
    have hgap : isGap c = false := Bool.eq_false_iff.mpr hgap
    rw [hgap, if_neg Bool.false_ne_true]
    by_cases hdrop : isDropped c = true
    · rw [if_pos hdrop]
      exact ih ht hlast hspace
    have hdrop : isDropped c = false := Bool.eq_false_iff.mpr hdrop
    rw [hdrop, if_neg Bool.false_ne_true]
    have hout : Tidy (out ++ if space then [32] else []) := by
      cases space with
      | false => simpa using ht
      | true => exact ht.concat_space (hspace rfl) hlast
    exact ih (hout.concat (kept_toLower hgap hdrop)) (getLast?_kept hgap)
      (fun h => absurd h Bool.false_ne_true)

theorem Tidy.getLast?_trimEnd (ht : Tidy t) : (trimEnd t).getLast? ≠ some 32 := by
  by_cases hlast : t.getLast? = some 32
  · obtain ⟨u, rfl⟩ := List.getLast?_eq_some_iff.mp hlast
    rw [trimEnd_concat_space]
    intro hspace
    exact (List.isChain_append.mp ht.single).2.2 32 hspace 32 rfl rfl rfl
  · rwa [trimEnd_of_last hlast]

theorem tidy_tidy (s : Bytes) : Tidy (tidy s) := by
  have hnil : Tidy [] := ⟨List.forall_mem_nil _, by decide, .nil⟩
  have htidy : Tidy (tidyBytes s [] false) := tidy_tidyBytes hnil (by decide) (by decide)
  rwa [tidyBytes_nil] at htidy

theorem tidy_cutName (s : Bytes) : Tidy (cutName (tidy s)) := by
  have htidy := tidy_tidy s
  rw [cutName, trimEnd]
  split
  · exact htidy.isPrefix ((List.dropLast_prefix _).trans (List.take_prefix _ _))
  · exact htidy.isPrefix (List.take_prefix _ _)

theorem length_cutName (t : Bytes) : (cutName t).length < tagMaxBytes := by
  have htake : (t.take (tagMaxBytes - 1)).length ≤ tagMaxBytes - 1 := List.length_take_le _ _
  have hone : tagMaxBytes - 1 < tagMaxBytes := by decide
  rw [cutName, trimEnd]
  split
  · rw [List.length_dropLast]
    omega
  · omega

theorem tagBytes_tidy (ht : Tidy (out ++ (if space then [32] else []) ++ s))
    (hspace : space = true → out ≠ []) (hlast : out.getLast? ≠ some 32)
    (hlen : (out ++ (if space then [32] else []) ++ s).length < tagMaxBytes) :
    tagBytes s out space = trimEnd (out ++ (if space then [32] else []) ++ s) := by
  induction s generalizing out space with
  | nil =>
    cases space with
    | false => simp [tagBytes, trimEnd_of_last hlast]
    | true =>
      simp only [if_true, List.append_nil]
      exact (trimEnd_concat_space out).symm
  | cons c s ih =>
    have hroom : ¬tagMaxBytes ≤ out.length + 1 := by
      rw [List.length_append, List.length_append, List.length_cons] at hlen
      omega
    rw [tagBytes, if_neg hroom]
    rcases ht.kept c (List.mem_append_right _ List.mem_cons_self) with rfl | hc
    · rw [if_pos (by decide)]
      cases space with
      | true =>
        -- two spaces in a row
        have hpair := (List.isChain_append.mp ht.single).2.2 32 (by simp) 32 rfl rfl
        exact absurd rfl hpair
      | false =>
        have hout : out ≠ [] := by
          rintro rfl
          exact ht.start rfl
        have hsame : out ++ (if false then [32] else []) ++ 32 :: s =
            out ++ (if true then [32] else []) ++ s := by simp
        rw [hsame] at ht hlen ⊢
        rw [decide_eq_true hout, Bool.or_true]
        exact ih ht (fun _ => hout) hlast hlen
    · obtain ⟨hgap, hdrop, hlower⟩ := hc
      have hlast' : (out ++ (if space then [32] else []) ++ [toLower c]).getLast? ≠ some 32 :=
        getLast?_kept hgap
      refine (if_neg (Bool.eq_false_iff.mp hgap)).trans ?_
      refine (if_neg (Bool.eq_false_iff.mp hdrop)).trans ?_
      rw [hlower] at hlast' ⊢
      have hsame : out ++ (if space then [32] else []) ++ c :: s =
          out ++ (if space then [32] else []) ++ [c] ++ (if false then [32] else []) ++ s := by
        simp
      rw [hsame] at ht hlen ⊢
      have hrest := ih ht (fun h => absurd h Bool.false_ne_true) hlast' hlen
      rw [← hrest]
      cases space with
      | false => simp
      | true =>
        have hsecond : ¬tagMaxBytes ≤ out.length + 2 := by
          simp only [List.length_append, if_true, List.length_singleton] at hlen
          omega
        rw [if_pos rfl, if_neg hsecond]
        simp

theorem tagNormalize_tidy (ht : Tidy t) (hlen : t.length < tagMaxBytes) :
    tagNormalize t = wholeChars (trimEnd t) := by
  have hall : [] ++ (if false then [32] else []) ++ t = t := by simp
  rw [tagNormalize, tagBytes_dropWhile, tagBytes_tidy (by rwa [hall]) (by decide) (by decide)
    (by rwa [hall]), hall]

/-! ## Incomplete characters -/

theorem wholeChars_split {lead : UInt8} {tail : Bytes} (hlead : lead &&& 0xC0 ≠ 0x80)
    (htail : ∀ c ∈ tail, c &&& 0xC0 = 0x80) :
    wholeChars (u ++ lead :: tail) =
      if tail.length + 1 < charLength lead then u else u ++ lead :: tail := by
  have hreverse : (u ++ lead :: tail).reverse = tail.reverse ++ (lead :: u.reverse) := by simp
  have htake : (tail.reverse ++ (lead :: u.reverse)).takeWhile
      (fun c => decide (c &&& 0xC0 = 0x80)) = tail.reverse := by
    rw [List.takeWhile_append_of_pos fun c hc =>
        decide_eq_true (htail c (List.mem_reverse.mp hc)),
      List.takeWhile_cons_of_neg (by simpa using hlead), List.append_nil]
  rw [wholeChars, hreverse, htake, List.drop_left]
  change (if tail.reverse.length + 1 < charLength lead then u.reverse.reverse else _) = _
  rw [List.length_reverse, List.reverse_reverse]

theorem not_tail_of_charLength {lead : UInt8} (h : 1 < charLength lead) :
    lead &&& 0xC0 ≠ 0x80 := by
  have hbyte : ∀ b, 1 < charLength b → b &&& 0xC0 ≠ 0x80 :=
    Bytes.forall_byte (by decide +kernel)
  exact hbyte lead h

theorem EndsShort.wholeChars (h : EndsShort t u) : wholeChars t = u := by
  obtain ⟨lead, tail, rfl, hlen, htail⟩ := h
  have hlead : 1 < charLength lead := by omega
  rw [wholeChars_split (not_tail_of_charLength hlead) htail, if_pos hlen]

theorem EndsShort.ne (h : EndsShort t u) : u ≠ t := by
  obtain ⟨lead, tail, rfl, -, -⟩ := h
  intro hsame
  exact absurd (List.append_right_eq_self.mp hsame.symm) (List.cons_ne_nil _ _)

theorem EndsShort.isPrefix (h : EndsShort t u) : u <+: t := by
  obtain ⟨lead, tail, rfl, -, -⟩ := h
  exact List.prefix_append _ _

/-- A text is bytes that continue a character, or has a last byte that begins one. -/
theorem last_lead (t : Bytes) :
    (∀ c ∈ t, c &&& 0xC0 = 0x80) ∨ ∃ u lead tail, t = u ++ lead :: tail ∧
      lead &&& 0xC0 ≠ 0x80 ∧ ∀ c ∈ tail, c &&& 0xC0 = 0x80 := by
  induction t with
  | nil => exact .inl (List.forall_mem_nil _)
  | cons b t ih =>
    rcases ih with htail | ⟨u, lead, tail, rfl, hlead, htail⟩
    · by_cases hb : b &&& 0xC0 = 0x80
      · left
        exact List.forall_mem_cons.mpr ⟨hb, htail⟩
      · exact .inr ⟨[], b, t, rfl, hb, htail⟩
    · exact .inr ⟨b :: u, lead, tail, rfl, hlead, htail⟩

theorem wholeChars_of_whole (h : ∀ u, ¬EndsShort t u) : wholeChars t = t := by
  rcases last_lead t with htail | ⟨u, lead, tail, rfl, hlead, htail⟩
  · have htake : t.reverse.takeWhile (fun c => decide (c &&& 0xC0 = 0x80)) = t.reverse :=
      List.takeWhile_eq_self_iff.mpr fun c hc =>
        decide_eq_true (htail c (List.mem_reverse.mp hc))
    rw [wholeChars, htake, List.drop_length]
  · rw [wholeChars_split hlead htail, if_neg]
    intro hlen
    exact h u ⟨lead, tail, rfl, hlen, htail⟩

theorem wholeChars_eq_self_iff : wholeChars t = t ↔ ∀ u, ¬EndsShort t u := by
  refine ⟨fun h u hu => ?_, wholeChars_of_whole⟩
  exact hu.ne (hu.wholeChars.symm.trans h)

theorem wholeChars_cases (t : Bytes) :
    EndsShort t (wholeChars t) ∨ ((∀ u, ¬EndsShort t u) ∧ wholeChars t = t) := by
  by_cases h : ∃ u, EndsShort t u
  · obtain ⟨u, hu⟩ := h
    left
    rwa [hu.wholeChars]
  · rw [not_exists] at h
    exact .inr ⟨h, wholeChars_of_whole h⟩

theorem length_wholeChars_le (t : Bytes) : (wholeChars t).length ≤ t.length := by
  rcases wholeChars_cases t with h | ⟨-, h⟩
  · exact h.isPrefix.length_le
  · rw [h]

theorem tagNormalize_fixed_iff (ht : Tidy t) (hlen : t.length < tagMaxBytes) :
    tagNormalize t = t ↔ t.getLast? ≠ some 32 ∧ ∀ v, ¬EndsShort t v := by
  rw [tagNormalize_tidy ht hlen]
  by_cases hlast : t.getLast? = some 32
  · refine ⟨fun h => ?_, fun h => absurd hlast h.1⟩
    have hne : t ≠ [] := by
      rintro rfl
      exact nomatch hlast
    have hshort : (wholeChars t.dropLast).length ≤ t.dropLast.length := length_wholeChars_le _
    rw [trimEnd, if_pos hlast] at h
    rw [h, List.length_dropLast] at hshort
    have hpos : 0 < t.length := List.length_pos_iff.mpr hne
    omega
  · rw [trimEnd_of_last hlast, wholeChars_eq_self_iff]
    exact ⟨fun h => ⟨hlast, h⟩, fun h => h.2⟩

/-- `db_tag_name_valid` -/
def dbTagNameValid (name : Bytes) : Bool :=
  if name.isEmpty then false
  else if tagMaxBytes ≤ name.length then false
  else (tagNormalize name).length == name.length && tagNormalize name == name

theorem dbTagNameValid_iff (hne : t ≠ []) (hlen : t.length < tagMaxBytes) :
    dbTagNameValid t = true ↔ tagNormalize t = t := by
  rw [dbTagNameValid, if_neg (by simpa using hne), if_neg (Nat.not_le.mpr hlen),
    Bool.and_eq_true, beq_iff_eq, beq_iff_eq]
  exact ⟨fun h => h.2, fun h => ⟨congrArg List.length h, h⟩⟩

/-- The name of a piece is empty or usable exactly where the piece is cut well. -/
theorem usable_iff (s : Bytes) :
    (tagNormalize s ≠ [] → dbTagNameValid (tagNormalize s) = true) ↔
      CutsWell (cutName (tidy s)) := by
  have htidy := tidy_cutName s
  have hlen := length_cutName (tidy s)
  rw [tagNormalize_eq]
  constructor
  · intro h u hu
    rw [hu.wholeChars] at h
    by_cases hne : u = []
    · exact .inl hne
    · have hshort : u.length < tagMaxBytes := Nat.lt_of_le_of_lt hu.isPrefix.length_le hlen
      have hfixed := (dbTagNameValid_iff hne hshort).mp (h hne)
      exact .inr ((tagNormalize_fixed_iff (htidy.isPrefix hu.isPrefix) hshort).mp hfixed)
  · intro h hne
    rcases wholeChars_cases (cutName (tidy s)) with hcut | ⟨hwhole, hsame⟩
    · have hshort : (wholeChars (cutName (tidy s))).length < tagMaxBytes :=
        Nat.lt_of_le_of_lt hcut.isPrefix.length_le hlen
      rw [dbTagNameValid_iff hne hshort,
        tagNormalize_fixed_iff (htidy.isPrefix hcut.isPrefix) hshort]
      exact (h _ hcut).resolve_left hne
    · rw [hsame] at hne ⊢
      rw [dbTagNameValid_iff hne hlen, tagNormalize_fixed_iff htidy hlen]
      exact ⟨((tidy_tidy s).isPrefix (List.take_prefix _ _)).getLast?_trimEnd, hwhole⟩

/-! ## Names in UTF-8 -/

theorem ascii_of_gap (h : isGap c = true) : c < 128 := by
  have hbyte : ∀ b, isGap b = true → b < 128 := Bytes.forall_byte (by decide +kernel)
  exact hbyte c h

theorem ascii_of_dropped (h : isDropped c = true) : c < 128 := by
  have hbyte : ∀ b, isDropped b = true → b < 128 := Bytes.forall_byte (by decide +kernel)
  exact hbyte c h

theorem toLower_cases (c : UInt8) : toLower c = c ∨ (c < 128 ∧ toLower c < 128) := by
  have hbyte : ∀ b, toLower b = b ∨ (b < 128 ∧ toLower b < 128) :=
    Bytes.forall_byte (by decide +kernel)
  exact hbyte c

theorem after_tagBytes {q q' : Utf8} (hout : Utf8.start.after out = some q)
    (hs : q.after s = some q') (hspace : space = true → q = Utf8.start) :
    ∃ r, Utf8.start.after (tagBytes s out space) = some r := by
  induction s generalizing out space q with
  | nil => exact ⟨q, hout⟩
  | cons c s ih =>
    have hsound := Utf8.sound_start.after hout
    obtain ⟨v, hv, hrest⟩ := Option.bind_eq_some_iff.mp hs
    have hascii : c < 128 → q = Utf8.start ∧ v = Utf8.start := by
      intro hc
      obtain ⟨howed, hstart⟩ := Utf8.of_next_ascii hsound.low hc hv
      exact ⟨hsound.rest howed, hstart⟩
    have hskip : c < 128 → ∀ space', ∃ r, Utf8.start.after (tagBytes s out space') = some r := by
      intro hc space'
      obtain ⟨rfl, rfl⟩ := hascii hc
      exact ih hout hrest fun _ => rfl
    have hlower : q.next (toLower c) = some v := by
      rcases toLower_cases c with h | ⟨hc, hlow⟩
      · rwa [h]
      · obtain ⟨rfl, rfl⟩ := hascii hc
        exact Utf8.next_ascii rfl hlow
    rw [tagBytes]
    split
    · exact ⟨q, hout⟩
    split
    · next hgap => exact hskip (ascii_of_gap hgap) _
    split
    · next hdrop => exact hskip (ascii_of_dropped hdrop) _
    split
    · next hsp =>
      split
      · exact ⟨q, hout⟩
      · have hq := hspace hsp
        subst hq
        have hnext : Utf8.start.after (out ++ [32, toLower c]) = some v := by
          rw [Utf8.after_append, hout]
          change (Utf8.start.next (toLower c)).bind some = some v
          rw [hlower, Option.bind_some]
        exact ih hnext hrest (fun h => absurd h Bool.false_ne_true)
    · have hnext : Utf8.start.after (out ++ [toLower c]) = some v := by
        rw [Utf8.after_append, hout]
        change (q.next (toLower c)).bind some = some v
        rw [hlower, Option.bind_some]
      exact ih hnext hrest (fun h => absurd h Bool.false_ne_true)

theorem charLength_first {lead : UInt8} {w : Utf8} (h : Utf8.first lead = some w) :
    charLength lead = w.owed + 1 ∧ lead &&& 0xC0 ≠ 0x80 := by
  have hbyte : ∀ b, (Utf8.first b).all (fun w => decide
      (charLength b = w.owed + 1 ∧ b &&& 0xC0 ≠ 0x80)) = true :=
    Bytes.forall_byte (by decide +kernel)
  have hlead := hbyte lead
  rw [h] at hlead
  exact of_decide_eq_true hlead

/-- What is cut off a text that may go on is the character that it stops in. -/
theorem validUtf8_wholeChars {w : Utf8} (h : Utf8.start.after t = some w) :
    ValidUtf8 (wholeChars t) := by
  have hsound := Utf8.sound_start.after h
  rcases Utf8.after_cases h with rfl | ⟨u, lead, tail, v, rfl, hu, hlead, howed, htail⟩
  · rfl
  · obtain ⟨hlength, hfirst⟩ := charLength_first hlead
    have hbyte : ∀ b : UInt8, 128 ≤ b ∧ b ≤ 191 → b &&& 0xC0 = 0x80 :=
      Bytes.forall_byte (by decide +kernel)
    rw [wholeChars_split hfirst (fun c hc => hbyte c (htail c hc)), hlength, howed]
    split
    · exact hu
    · have hrest : w = Utf8.start := hsound.rest (by omega)
      rw [ValidUtf8, h, hrest]

theorem validUtf8_tagNormalize {q : Utf8} (h : Utf8.start.after s = some q) :
    ValidUtf8 (tagNormalize s) := by
  have hnil : Utf8.start.after [] = some Utf8.start := rfl
  obtain ⟨r, hr⟩ := after_tagBytes hnil h (fun h => absurd h Bool.false_ne_true)
  rw [tagNormalize, tagBytes_dropWhile]
  exact validUtf8_wholeChars hr

theorem after_splitOn {q : Utf8} (hq : q.Sound) (h : q.after s = some Utf8.start) :
    ∃ p ps, s.splitOn 44 = p :: ps ∧ q.after p = some Utf8.start ∧ ∀ p ∈ ps, ValidUtf8 p := by
  induction s generalizing q with
  | nil => exact ⟨[], [], rfl, h, List.forall_mem_nil _⟩
  | cons c s ih =>
    obtain ⟨v, hv, hrest⟩ := Option.bind_eq_some_iff.mp h
    obtain ⟨p, ps, hsplit, hp, hps⟩ := ih (Utf8.Sound.next hv) hrest
    rw [List.splitOn_cons_eq_if_modifyHead, hsplit]
    by_cases hc : (c == 44) = true
    · rw [if_pos hc]
      rw [beq_iff_eq] at hc
      obtain ⟨howed, rfl⟩ := Utf8.of_next_ascii hq.low (by rw [hc]; decide) hv
      exact ⟨[], p :: ps, rfl, congrArg some (hq.rest howed), List.forall_mem_cons.mpr ⟨hp, hps⟩⟩
    · rw [if_neg hc]
      refine ⟨c :: p, ps, rfl, ?_, hps⟩
      rw [Utf8.after, hv]
      exact hp

theorem validUtf8_pieces (h : ValidUtf8 s) : ∀ p ∈ s.splitOn 44, ValidUtf8 p := by
  obtain ⟨p, ps, hsplit, hp, hps⟩ := after_splitOn Utf8.sound_start h
  rw [hsplit]
  exact List.forall_mem_cons.mpr ⟨hp, hps⟩

end FlyBoard.TagNames

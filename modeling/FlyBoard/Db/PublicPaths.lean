import FlyBoard.Db.FileStore

/-!
# Public paths (`src/utils/strutil_pure.h`)

`fb_is_safe_public_path` looks for `..` where `strchr` finds a part to begin. A resolver goes
through the parts between slashes, leaves empty ones and `.` out and takes a part back for each
`..`. What is accepted resolves to its directory or to something below it, and no part of the
directory is ever taken back.
-/

namespace FlyBoard.PublicPaths

open Bytes FileStore

variable {path seg rest : Bytes} {dir segs names : List Bytes} {pre : Bytes} {s p : Bytes}

/-! ## The check -/

/-- `p[0] == '.' && p[1] == '.' && (p[2] == '/' || p[2] == '\0')` -/
def isDots (p : Bytes) : Bool :=
  startsWith p (bytes "..") && ((p.drop 2).isEmpty || (p.drop 2).head? == some 47)

/-- The loop: `..` is not where a part begins. -/
def walk (p : Bytes) : Bool :=
  if p.isEmpty then true
  else if isDots p then false
  else
    match _h : p.dropWhile (· != 47) with
    | [] => true
    | _ :: rest => walk rest
termination_by p.length
decreasing_by
  have hlen := (List.dropWhile_suffix (l := p) (· != 47)).length_le
  rw [_h, List.length_cons] at hlen
  exact hlen

/-- `fb_is_safe_public_path` -/
def fbIsSafePublicPath (path : Option Bytes) : Bool :=
  match path with
  | none => false
  | some path =>
    if path.isEmpty then false
    else if startsWith path (bytes "/") then false
    else if startsWith path (bytes "..") then false
    else if allowedPrefixes.any (startsWith path) then walk path
    else false

/-! ## Resolving -/

def resolveStep (acc : List Bytes) (seg : Bytes) : List Bytes :=
  if seg = [] ∨ seg = bytes "." then acc
  else if seg = bytes ".." then acc.dropLast
  else acc ++ [seg]

def resolveFrom (acc segs : List Bytes) : List Bytes := segs.foldl resolveStep acc

def resolveSegs (segs : List Bytes) : List Bytes := resolveFrom [] segs

def resolve (path : Bytes) : List Bytes := resolveSegs (path.splitOn 47)

def isName (seg : Bytes) : Bool := seg != [] && seg != bytes "."

/-- Without `..` nothing is taken back. -/
theorem resolveFrom_eq (acc : List Bytes) (h : bytes ".." ∉ segs) :
    resolveFrom acc segs = acc ++ segs.filter isName := by
  induction segs generalizing acc with
  | nil => exact (List.append_nil acc).symm
  | cons seg segs ih =>
    rw [List.mem_cons, not_or] at h
    rw [resolveFrom, List.foldl_cons, resolveStep]
    by_cases hskip : seg = [] ∨ seg = bytes "."
    · have hname : isName seg = false := by
        rcases hskip with rfl | rfl <;> decide
      rw [if_pos hskip, List.filter_cons_of_neg (by simp [hname])]
      exact ih acc h.2
    · have hname : isName seg = true := by
        rw [not_or] at hskip
        simp [isName, hskip]
      have hcons : acc ++ seg :: segs.filter isName = acc ++ [seg] ++ segs.filter isName :=
        List.append_cons _ _ _
      rw [if_neg hskip, if_neg (Ne.symm h.1), List.filter_cons_of_pos hname, hcons]
      exact ih _ h.2

/-! ## The walk -/

/-- Where a part begins, `..` is the part. -/
theorem isDots_append (hseg : 47 ∉ seg) (hrest : rest = [] ∨ rest.head? = some 47) :
    isDots (seg ++ rest) = decide (seg = bytes "..") := by
  have htwo : bytes ".." = [46, 46] := rfl
  rw [isDots, htwo]
  rcases seg with _ | ⟨a, _ | ⟨b, _ | ⟨c, seg⟩⟩⟩
  · rcases rest with _ | ⟨d, rest⟩
    · rfl
    · rcases hrest with hnil | hhead
      · exact nomatch hnil
      · cases hhead
        simp [startsWith]
  · rcases rest with _ | ⟨d, rest⟩
    · simp [startsWith]
    · rcases hrest with hnil | hhead
      · exact nomatch hnil
      · cases hhead
        simp [startsWith]
  · have hpair : ([a, b] == [46, 46]) = decide ([a, b] = [46, 46]) := (Bool.beq_eq_decide_eq _ _)
    rcases hrest with rfl | hhead
    · simpa [startsWith] using hpair
    · simpa [startsWith, hhead] using hpair
  · have hc : c ≠ 47 := by
      rintro rfl
      exact hseg (by simp)
    simp [startsWith, hc]

theorem walk_last (hseg : 47 ∉ seg) : walk seg = decide (seg ≠ bytes "..") := by
  have hdots := isDots_append hseg (.inl rfl)
  rw [List.append_nil] at hdots
  have hend : seg.dropWhile (· != 47) = [] :=
    List.dropWhile_eq_nil_iff.mpr (bne_of_not_mem hseg)
  rw [walk, hdots]
  by_cases hempty : seg.isEmpty = true
  · rw [if_pos hempty, List.isEmpty_iff.mp hempty]
    decide
  rw [if_neg hempty]
  by_cases heq : seg = bytes ".."
  · simp [heq]
  · rw [if_neg (by simpa using heq), decide_eq_true heq]
    split
    · rfl
    · next hsome => exact nomatch hend.symm.trans hsome

theorem walk_cons (hseg : 47 ∉ seg) (rest : Bytes) :
    walk (seg ++ 47 :: rest) = (decide (seg ≠ bytes "..") && walk rest) := by
  have hdots : isDots (seg ++ 47 :: rest) = decide (seg = bytes "..") :=
    isDots_append hseg (.inr rfl)
  have hnext : (seg ++ 47 :: rest).dropWhile (· != 47) = 47 :: rest := by
    rw [List.dropWhile_append_of_pos (bne_of_not_mem hseg), List.dropWhile_cons_of_neg (by decide)]
  have hempty : (seg ++ 47 :: rest).isEmpty = false := by simp
  rw [walk, hdots, hempty, if_neg Bool.false_ne_true]
  by_cases heq : seg = bytes ".."
  · simp [heq]
  · rw [if_neg (by simpa using heq), decide_eq_true heq, Bool.true_and]
    split
    · next hnone => exact nomatch hnext.symm.trans hnone
    · next c rest' hsome =>
      rw [(List.cons.inj (hnext.symm.trans hsome)).2]

theorem walk_iff (p : Bytes) : walk p = true ↔ bytes ".." ∉ p.splitOn 47 := by
  induction hn : p.length using Nat.strong_induction_on generalizing p with
  | _ n ih =>
    subst hn
    by_cases hslash : 47 ∈ p
    · obtain ⟨seg, rest, rfl, hseg⟩ := List.eq_append_cons_of_mem hslash
      have hshort : rest.length < (seg ++ 47 :: rest).length := by
        rw [List.length_append, List.length_cons]
        omega
      rw [walk_cons hseg, Bool.and_eq_true, decide_eq_true_eq, ih _ hshort rest rfl,
        List.splitOn_append_cons_self_of_not_mem hseg, List.mem_cons, not_or, ne_comm]
    · rw [walk_last hslash, decide_eq_true_eq, List.splitOn_eq_singleton hslash,
        List.mem_singleton, ne_comm]

theorem fbIsSafePublicPath_eq (path : Bytes) :
    fbIsSafePublicPath (some path) = isSafePublicPath path := by
  have hwalk : walk path = !(path.splitOn 47).contains (bytes "..") := by
    rw [Bool.eq_iff_iff, walk_iff]
    simp
  rw [fbIsSafePublicPath, isSafePublicPath, hwalk]
  cases path.isEmpty
  · cases startsWith path (bytes "/")
    · cases startsWith path (bytes "..")
      · cases allowedPrefixes.any (startsWith path) <;> rfl
      · rfl
    · rfl
  · rfl

/-! ## Accepted paths -/

theorem allowedPrefixes_split : ∀ pre ∈ allowedPrefixes, pre.getLast? = some 47 ∧
    (∀ seg ∈ pre.dropLast.splitOn 47, isName seg = true) ∧
    bytes ".." ∉ pre.dropLast.splitOn 47 ∧ 2 ≤ pre.length ∧
    startsWith pre (bytes "/") = false ∧ startsWith pre (bytes "..") = false := by
  decide +kernel

theorem splitOn_below (hpre : pre ∈ allowedPrefixes) (rest : Bytes) :
    (pre ++ rest).splitOn 47 = pre.dropLast.splitOn 47 ++ rest.splitOn 47 := by
  obtain ⟨dir, hdir⟩ := List.getLast?_eq_some_iff.mp (allowedPrefixes_split pre hpre).1
  rw [hdir, List.dropLast_concat, List.append_assoc, List.singleton_append,
    List.splitOn_append_cons_self]

theorem resolve_allowed (hpre : pre ∈ allowedPrefixes) :
    resolve pre = pre.dropLast.splitOn 47 := by
  obtain ⟨-, hnames, hdots, -⟩ := allowedPrefixes_split pre hpre
  have hsplit := splitOn_below hpre []
  rw [List.append_nil] at hsplit
  have hall : bytes ".." ∉ pre.dropLast.splitOn 47 ++ ([] : Bytes).splitOn 47 := by
    rw [List.mem_append, not_or]
    exact ⟨hdots, by decide⟩
  rw [resolve, hsplit, resolveSegs, resolveFrom_eq [] hall, List.nil_append, List.filter_append,
    List.filter_eq_self.mpr hnames]
  exact List.append_nil _

theorem startsWith_iff : startsWith s p = true ↔ ∃ rest, s = p ++ rest := by
  rw [startsWith, beq_iff_eq]
  constructor
  · intro h
    refine ⟨s.drop p.length, ?_⟩
    have hsplit := List.take_append_drop p.length s
    rw [h] at hsplit
    exact hsplit.symm
  · rintro ⟨rest, rfl⟩
    exact List.take_left

theorem startsWith_append (h : p.length ≤ s.length) :
    startsWith (s ++ rest) p = startsWith s p := by
  rw [startsWith, startsWith, List.take_append_of_le_length h]

/-- The names of the directory stay, however far a resolver has come. -/
theorem isPrefix_resolveSegs (hpre : pre ∈ allowedPrefixes)
    (hrest : bytes ".." ∉ rest.splitOn 47) (n : ℕ) :
    (resolve pre).take n <+: resolveSegs (((pre ++ rest).splitOn 47).take n) := by
  obtain ⟨-, hnames, hdots, -⟩ := allowedPrefixes_split pre hpre
  have hall : bytes ".." ∉ ((pre ++ rest).splitOn 47).take n := by
    intro hmem
    rw [splitOn_below hpre] at hmem
    rcases List.mem_append.mp (List.mem_of_mem_take hmem) with hdir | hmem
    · exact hdots hdir
    · exact hrest hmem
  rw [resolveSegs, resolveFrom_eq [] hall, List.nil_append, splitOn_below hpre,
    List.take_append, List.filter_append, resolve_allowed hpre,
    List.filter_eq_self.mpr fun seg hseg => hnames seg (List.mem_of_mem_take hseg)]
  exact List.prefix_append _ _

structure PlainName (name : Bytes) : Prop where
  ne_nil : name ≠ []
  ne_dot : name ≠ bytes "."
  ne_dots : name ≠ bytes ".."
  no_slash : 47 ∉ name

/-- An accepted path begins with an allowed directory, of which no name is taken back on the
way, and ends there or below; names below an allowed directory are accepted. -/
theorem safe_paths :
    (∀ path, fbIsSafePublicPath (some path) = true →
      ∃ pre ∈ allowedPrefixes, pre <+: path ∧ resolve pre <+: resolve path ∧
        ∀ n, (resolve pre).take n <+: resolveSegs ((path.splitOn 47).take n)) ∧
    ∀ pre ∈ allowedPrefixes, ∀ names, (∀ name ∈ names, PlainName name) →
      fbIsSafePublicPath (some (pre ++ [47].intercalate names)) = true := by
  constructor
  · intro path h
    rw [fbIsSafePublicPath_eq, isSafePublicPath, Bool.and_eq_true, Bool.and_eq_true,
      List.any_eq_true] at h
    obtain ⟨⟨-, pre, hpre, hstart⟩, hdots⟩ := h
    obtain ⟨rest, rfl⟩ := startsWith_iff.mp hstart
    have hrest : bytes ".." ∉ rest.splitOn 47 := by
      intro hmem
      rw [splitOn_below hpre] at hdots
      simp [hmem] at hdots
    have hall := isPrefix_resolveSegs hpre hrest
    refine ⟨pre, hpre, List.prefix_append _ _, ?_, hall⟩
    have hlast := hall ((resolve pre).length + ((pre ++ rest).splitOn 47).length)
    rwa [List.take_of_length_le (by omega), List.take_of_length_le (by omega)] at hlast
  · intro pre hpre names hnames
    obtain ⟨-, -, hdots, hlen, hslash, htwo⟩ := allowedPrefixes_split pre hpre
    have hrest : bytes ".." ∉ ([47].intercalate names).splitOn 47 := by
      rcases eq_or_ne names [] with rfl | hne
      · decide
      · rw [List.splitOn_intercalate 47 (fun name hmem => (hnames name hmem).no_slash) hne]
        exact fun hmem => (hnames _ hmem).ne_dots rfl
    have hall : bytes ".." ∉ (pre ++ [47].intercalate names).splitOn 47 := by
      rw [splitOn_below hpre, List.mem_append, not_or]
      exact ⟨hdots, hrest⟩
    have hempty : (pre ++ [47].intercalate names).isEmpty = false := by
      rw [List.isEmpty_eq_false_iff]
      rintro hnil
      rw [(List.append_eq_nil_iff.mp hnil).1] at hlen
      exact absurd hlen (by decide)
    have hany : allowedPrefixes.any (startsWith (pre ++ [47].intercalate names)) = true :=
      List.any_eq_true.mpr ⟨pre, hpre, startsWith_iff.mpr ⟨_, rfl⟩⟩
    have hone : (bytes "/").length ≤ pre.length := Nat.le_of_succ_le hlen
    have hpair : (bytes "..").length ≤ pre.length := hlen
    rw [fbIsSafePublicPath_eq, isSafePublicPath, hempty, startsWith_append hone,
      startsWith_append hpair, hslash, htwo, hany]
    simpa using hall

end FlyBoard.PublicPaths

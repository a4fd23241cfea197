import Mathlib.Data.List.Infix
import Mathlib.Logic.Function.Basic

/-!
# Trees of files

A tree says of every path, a list of names from the root, what is there: a file, a directory
or nothing. What is in a tree is in a directory of it, and there is an end to it. `mkdir`,
`write`, `unlink` and `rename` are what POSIX has them do where there are no links; `none` is
an error. A directory takes what is below it along when it is renamed.
-/

namespace FlyBoard.FileTree

variable {N C : Type*}

inductive Node (C : Type*) where
  | file (c : C)
  | dir

def Node.file? : Node C → Option C
  | file c => some c
  | dir => none

structure Tree (N C : Type*) where
  node : List N → Option (Node C)
  root : node [] = some .dir
  parent : ∀ p x, node (p ++ [x]) ≠ none → node p = some .dir
  names : List (List N)
  finite : ∀ p, node p ≠ none → p ∈ names

namespace Tree

def empty [DecidableEq N] : Tree N C where
  node := fun p => if p = [] then some .dir else none
  root := rfl
  parent := by
    intro p x h
    rw [if_neg (List.append_ne_nil_of_right_ne_nil p (List.cons_ne_nil x []))] at h
    exact absurd rfl h
  names := [[]]
  finite := by
    intro p h
    by_cases hp : p = []
    · rw [hp]
      exact List.mem_singleton_self _
    · rw [if_neg hp] at h
      exact absurd rfl h

def file? (t : Tree N C) (p : List N) : Option C := (t.node p).bind Node.file?

def Exists (t : Tree N C) (p : List N) : Prop := t.node p ≠ none

def IsDir (t : Tree N C) (p : List N) : Prop := t.node p = some .dir

instance (t : Tree N C) (p : List N) : Decidable (t.Exists p) :=
  match h : t.node p with
  | none => isFalse fun hex => hex h
  | some _ => isTrue fun hno => nomatch h.symm.trans hno

instance (t : Tree N C) (p : List N) : Decidable (t.IsDir p) :=
  match h : t.node p with
  | none => isFalse fun hdir => nomatch h.symm.trans hdir
  | some (.file _) => isFalse fun hdir => nomatch h.symm.trans hdir
  | some .dir => isTrue h

variable {c : C} {p : List N}

theorem file?_eq_some {t : Tree N C} :
    t.file? p = some c ↔ t.node p = some (.file c) := by
  rw [file?, Option.bind_eq_some_iff]
  constructor
  · rintro ⟨n, hn, hc⟩
    cases n with
    | file c' =>
      cases hc
      exact hn
    | dir => exact nomatch hc
  · exact fun h => ⟨.file c, h, rfl⟩

theorem isDir_above {t : Tree N C} {p q : List N} (hq : t.Exists q) (hpq : p <+: q)
    (hne : p ≠ q) : t.IsDir p := by
  rcases hpq with ⟨s, rfl⟩
  induction s using List.reverseRecOn with
  | nil => exact absurd (List.append_nil p).symm hne
  | append_singleton s x ih =>
    rw [Exists, ← List.append_assoc] at hq
    have hdir := t.parent (p ++ s) x hq
    by_cases hs : s = []
    · rw [hs, List.append_nil] at hdir
      exact hdir
    · refine ih ?_ ?_
      · rw [Exists, hdir]
        exact Option.some_ne_none _
      · intro heq
        exact hs (List.append_right_eq_self.mp heq.symm)

theorem isDir_of_below {t : Tree N C} {p q : List N} (hq : t.IsDir q) (hpq : p <+: q) :
    t.IsDir p := by
  by_cases heq : p = q
  · rw [heq]
    exact hq
  · refine isDir_above ?_ hpq heq
    rw [Exists, hq]
    exact Option.some_ne_none _

theorem exists_of_file? {t : Tree N C} (h : t.file? p = some c) :
    t.Exists p := by
  rw [Exists, file?_eq_some.mp h]
  exact Option.some_ne_none _

theorem not_isDir_of_file? {t : Tree N C} (h : t.file? p = some c) :
    ¬ t.IsDir p := by
  intro hdir
  exact nomatch (file?_eq_some.mp h).symm.trans hdir

theorem eq_of_file?_above {t : Tree N C} {p q : List N} (h : t.file? p = some c)
    (hq : t.Exists q) (hpq : p <+: q) : p = q := by
  by_contra hne
  exact not_isDir_of_file? h (isDir_above hq hpq hne)

variable [DecidableEq N] {t t' : Tree N C}

/-! ## Making and removing -/

/-- A place where a file or a directory may be put. -/
def Free (t : Tree N C) (p : List N) : Prop := p ≠ [] ∧ t.IsDir p.dropLast ∧ ¬ t.IsDir p

instance (t : Tree N C) (p : List N) : Decidable (t.Free p) :=
  inferInstanceAs (Decidable (_ ∧ _ ∧ _))

/-- With `n` at `p`. -/
def put (t : Tree N C) (p : List N) (n : Node C) (h : t.Free p) : Tree N C where
  node := Function.update t.node p (some n)
  root := by
    rw [Function.update_of_ne (Ne.symm h.1)]
    exact t.root
  parent := by
    intro q x hq
    have hdir : t.IsDir q := by
      by_cases hp : q ++ [x] = p
      · have hlast := h.2.1
        rw [← hp, List.dropLast_concat] at hlast
        exact hlast
      · rw [Function.update_of_ne hp] at hq
        exact t.parent q x hq
    have hne : q ≠ p := by
      rintro rfl
      exact h.2.2 hdir
    rw [Function.update_of_ne hne]
    exact hdir
  names := p :: t.names
  finite := by
    intro q hq
    by_cases hp : q = p
    · rw [hp]
      exact List.mem_cons_self
    · rw [Function.update_of_ne hp] at hq
      exact List.mem_cons_of_mem _ (t.finite q hq)

/-- `mkdir`, where it is no error that there is something already. -/
def mkdir (t : Tree N C) (p : List N) : Option (Tree N C) :=
  if t.Exists p then some t
  else if h : t.Free p then some (t.put p .dir h)
  else none

def write (t : Tree N C) (p : List N) (c : C) : Option (Tree N C) :=
  if h : t.Free p then some (t.put p (.file c) h) else none

theorem node_put (t : Tree N C) (n : Node C) (h : t.Free p) (q : List N) :
    (t.put p n h).node q = if q = p then some n else t.node q := by
  show Function.update t.node p (some n) q = _
  split
  · rename_i heq
    rw [heq, Function.update_self]
  · rename_i hne
    rw [Function.update_of_ne hne]

theorem file?_put (t : Tree N C) (n : Node C) (h : t.Free p) (q : List N) :
    (t.put p n h).file? q = if q = p then n.file? else t.file? q := by
  rw [file?, node_put]
  split
  · rfl
  · rfl

theorem file?_mkdir (h : t.mkdir p = some t') (q : List N) :
    t'.file? q = t.file? q := by
  rw [mkdir] at h
  split_ifs at h with hex hfree
  · cases h
    rfl
  · cases h
    rw [file?_put]
    split
    · rename_i heq
      rw [heq, file?, not_not.mp hex]
      rfl
    · rfl

theorem file?_write (h : t.write p c = some t')
    (q : List N) : t'.file? q = if q = p then some c else t.file? q := by
  rw [write] at h
  split_ifs at h
  cases h
  exact file?_put ..

/-- `unlink` of a file. -/
def unlink (t : Tree N C) (p : List N) : Tree N C :=
  if h : ¬ t.IsDir p then
    { node := Function.update t.node p none
      root := by
        have hne : [] ≠ p := by
          rintro rfl
          exact h t.root
        rw [Function.update_of_ne hne]
        exact t.root
      parent := by
        intro q x hq
        have hdir : t.IsDir q := by
          by_cases hp : q ++ [x] = p
          · rw [hp, Function.update_self] at hq
            exact absurd rfl hq
          · rw [Function.update_of_ne hp] at hq
            exact t.parent q x hq
        have hne : q ≠ p := by
          rintro rfl
          exact h hdir
        rw [Function.update_of_ne hne]
        exact hdir
      names := t.names
      finite := by
        intro q hq
        by_cases hp : q = p
        · rw [hp, Function.update_self] at hq
          exact absurd rfl hq
        · rw [Function.update_of_ne hp] at hq
          exact t.finite q hq }
  else t

theorem node_unlink (t : Tree N C) (p q : List N) :
    (t.unlink p).node q = if ¬ t.IsDir p ∧ q = p then none else t.node q := by
  rw [unlink]
  split
  · rename_i hdir
    show Function.update t.node p none q = _
    by_cases hq : q = p
    · rw [hq, Function.update_self, if_pos ⟨hdir, rfl⟩]
    · rw [Function.update_of_ne hq, if_neg fun hboth => hq hboth.2]
  · rename_i hdir
    rw [if_neg fun hboth => hdir hboth.1]

theorem file?_unlink_of_ne (t : Tree N C) {p q : List N} (h : q ≠ p) :
    (t.unlink p).file? q = t.file? q := by
  rw [file?, node_unlink, if_neg fun hboth => h hboth.2]
  rfl

/-! ## Laying a tree out -/

/-- Everything in `t` may be there when the files of `u` are put into it. -/
structure LaidOut (u t : Tree N C) : Prop where
  files : ∀ p, (t.file? p).isSome → (u.file? p).isSome
  dirs : ∀ p, t.IsDir p → u.file? p = none

theorem laidOut_empty (u : Tree N C) : LaidOut u empty := by
  constructor
  · intro p hp
    rw [file?, empty] at hp
    dsimp only at hp
    split at hp
    · cases hp
    · cases hp
  · intro p hp
    rw [IsDir, empty] at hp
    dsimp only at hp
    split at hp
    · rename_i heq
      rw [heq, file?, u.root]
      rfl
    · cases hp

namespace LaidOut

variable {u t : Tree N C} (h : LaidOut u t)
include h

/-- A directory of `u` can be made. -/
theorem mkdir (hne : p ≠ []) (hdir : u.IsDir p) (hparent : t.IsDir p.dropLast) :
    ∃ t', t.mkdir p = some t' ∧ LaidOut u t' ∧ t'.IsDir p := by
  have hfile : u.file? p = none := by
    rw [file?, hdir]
    rfl
  by_cases hex : t.Exists p
  · refine ⟨t, if_pos hex, h, ?_⟩
    obtain ⟨n, hn⟩ := Option.ne_none_iff_exists'.mp hex
    cases n with
    | dir => exact hn
    | file c =>
      -- a file would be one of `u`
      have hsome := h.files p (by rw [file?_eq_some.mpr hn]; rfl)
      rw [hfile] at hsome
      exact nomatch hsome
  · have hfree : t.Free p := by
      refine ⟨hne, hparent, fun hdir' => hex ?_⟩
      rw [Exists, hdir']
      exact Option.some_ne_none _
    have hmade : t.mkdir p = some (t.put p .dir hfree) := by
      rw [Tree.mkdir, if_neg hex, dif_pos hfree]
    refine ⟨_, hmade, ⟨fun q hq => ?_, fun q hq => ?_⟩, ?_⟩
    · rw [file?_mkdir hmade] at hq
      exact h.files q hq
    · rw [IsDir, node_put] at hq
      split at hq
      · rename_i heq
        rw [heq, hfile]
      · exact h.dirs q hq
    · rw [IsDir, node_put, if_pos rfl]

/-- A file of `u` can be written. -/
theorem write (hp : (u.file? p).isSome) (hparent : t.IsDir p.dropLast) (c : C) :
    ∃ t', t.write p c = some t' ∧ LaidOut u t' := by
  have hfree : t.Free p := by
    refine ⟨?_, hparent, fun hdir => ?_⟩
    · rintro rfl
      rw [file?, u.root] at hp
      exact nomatch hp
    · rw [h.dirs p hdir] at hp
      exact nomatch hp
  refine ⟨t.put p (.file c) hfree, dif_pos hfree, ⟨fun q hq => ?_, fun q hq => ?_⟩⟩
  · rw [file?_put] at hq
    split at hq
    · rename_i heq
      rw [heq]
      exact hp
    · exact h.files q hq
  · rw [IsDir, node_put] at hq
    split at hq
    · exact nomatch hq
    · exact h.dirs q hq

theorem unlink (p : List N) : LaidOut u (t.unlink p) := by
  constructor
  · intro q hq
    rw [file?, node_unlink] at hq
    split at hq
    · cases hq
    · exact h.files q hq
  · intro q hq
    rw [IsDir, node_unlink] at hq
    split at hq
    · cases hq
    · exact h.dirs q hq

end LaidOut

/-! ## Renaming -/

def Bare (t : Tree N C) (p : List N) : Prop :=
  ∀ q ∈ t.names, p <+: q → q ≠ p → ¬ t.Exists q

instance (t : Tree N C) (p : List N) : Decidable (t.Bare p) :=
  inferInstanceAs (Decidable (∀ q ∈ t.names, _))

/-- `p` may be renamed to `q`, another name: a file takes the place of a file, and a directory
that of an empty one. -/
def Renames (t : Tree N C) (p q : List N) : Prop :=
  t.Exists p ∧ t.IsDir q.dropLast ∧ ¬ p <+: q ∧ ¬ q <+: p ∧
    (t.IsDir p ∧ t.Exists q → t.IsDir q ∧ t.Bare q) ∧ (t.IsDir q → t.IsDir p)

instance (t : Tree N C) (p q : List N) : Decidable (t.Renames p q) :=
  inferInstanceAs (Decidable (_ ∧ _ ∧ _ ∧ _ ∧ (_ → _) ∧ (_ → _)))

/-- What is at a path after `p` is renamed to `q`. -/
def renamed (t : Tree N C) (p q r : List N) : Option (Node C) :=
  if q <+: r then t.node (p ++ r.drop q.length)
  else if p <+: r then none
  else t.node r

theorem renamed_append (t : Tree N C) (p q s : List N) : t.renamed p q (q ++ s) = t.node (p ++ s) := by
  rw [renamed, if_pos (List.prefix_append q s), List.drop_left]

def rename (t : Tree N C) (p q : List N) : Option (Tree N C) :=
  if h : t.Renames p q then
    some
      { node := t.renamed p q
        root := by
          have hq : ¬ q <+: [] := by
            intro hnil
            rw [List.prefix_nil.mp hnil] at h
            exact h.2.2.2.1 List.nil_prefix
          have hp : ¬ p <+: [] := by
            intro hnil
            rw [List.prefix_nil.mp hnil] at h
            exact h.2.2.1 List.nil_prefix
          rw [renamed, if_neg hq, if_neg hp]
          exact t.root
        parent := by
          intro r x hr
          by_cases hqr : q <+: r
          · rcases hqr with ⟨s, rfl⟩
            rw [List.append_assoc, renamed_append, ← List.append_assoc] at hr
            rw [renamed_append]
            exact t.parent _ x hr
          · by_cases hqx : q <+: r ++ [x]
            · -- `r` is the directory of `q`
              have heq : q = r ++ [x] := by
                rcases List.prefix_concat_iff.mp hqx with heq | hlt
                · exact heq
                · exact absurd hlt hqr
              have hdir := h.2.1
              rw [heq, List.dropLast_concat] at hdir
              have hp : ¬ p <+: r := by
                intro hpr
                exact h.2.2.1 (heq ▸ hpr.trans (List.prefix_append r [x]))
              rw [renamed, if_neg hqr, if_neg hp]
              exact hdir
            · have hpx : ¬ p <+: r ++ [x] := by
                intro hpx
                rw [renamed, if_neg hqx, if_pos hpx] at hr
                exact absurd rfl hr
              have hp : ¬ p <+: r := fun hpr => hpx (hpr.trans (List.prefix_append r [x]))
              rw [renamed, if_neg hqx, if_neg hpx] at hr
              rw [renamed, if_neg hqr, if_neg hp]
              exact t.parent r x hr
        names := t.names.map (fun r => q ++ r.drop p.length) ++ t.names
        finite := by
          intro r hr
          rw [List.mem_append, List.mem_map]
          by_cases hqr : q <+: r
          · rcases hqr with ⟨s, rfl⟩
            rw [renamed_append] at hr
            exact .inl ⟨p ++ s, t.finite _ hr, by rw [List.drop_left]⟩
          · rw [renamed, if_neg hqr] at hr
            split at hr
            · exact absurd rfl hr
            · exact .inr (t.finite r hr) }
  else none

theorem node_rename_outside {p q r : List N} (h : t.rename p q = some t')
    (hp : ¬ p <+: r) (hq : ¬ q <+: r) : t'.node r = t.node r := by
  rw [rename] at h
  split at h
  · cases h
    exact (if_neg hq).trans (if_neg hp)
  · exact nomatch h

theorem node_rename_append {p q : List N} (h : t.rename p q = some t')
    (s : List N) : t'.node (q ++ s) = t.node (p ++ s) := by
  rw [rename] at h
  split at h
  · cases h
    exact t.renamed_append p q s
  · exact nomatch h

theorem renames_of_rename {p q : List N} (h : t.rename p q = some t') :
    t.Renames p q := by
  rw [rename] at h
  split at h
  · assumption
  · exact nomatch h

/-- A file that is renamed takes nothing along, and replaces one file at most. -/
theorem file?_rename_file {p q r : List N}
    (h : t.rename p q = some t') (hp : t.file? p = some c) (hrp : r ≠ p) (hrq : r ≠ q) :
    t'.file? r = t.file? r := by
  have hren := renames_of_rename h
  by_cases hq : q <+: r
  · -- there is nothing below a file
    have hnew : t'.file? q = some c := by
      have hnode := node_rename_append h []
      rw [List.append_nil, List.append_nil] at hnode
      rw [file?, hnode]
      exact hp
    have hbelow : ∀ u : Tree N C, ¬ u.IsDir q → u.file? r = none := by
      intro u hu
      cases hr : u.file? r with
      | none => rfl
      | some c' => exact absurd (isDir_above (exists_of_file? hr) hq (Ne.symm hrq)) hu
    have hdir : ¬ t.IsDir q := fun hdir => not_isDir_of_file? hp (hren.2.2.2.2.2 hdir)
    rw [hbelow t' (not_isDir_of_file? hnew), hbelow t hdir]
  · by_cases hpr : p <+: r
    · have hnone : t.file? r = none := by
        cases hr : t.file? r with
        | none => rfl
        | some c' => exact absurd (eq_of_file?_above hp (exists_of_file? hr) hpr) (Ne.symm hrp)
      rw [hnone]
      rw [rename, dif_pos hren] at h
      cases h
      rw [file?]
      show (t.renamed p q r).bind Node.file? = none
      rw [renamed, if_neg hq, if_pos hpr]
      rfl
    · rw [file?, node_rename_outside h hpr hq, file?]

end Tree

end FlyBoard.FileTree

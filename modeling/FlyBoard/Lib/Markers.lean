import Mathlib.Data.List.Basic
import Mathlib.Data.List.Forall2
import Mathlib.Data.Set.Basic

/-!
# Texts joined by markers

A text is a first part followed by pairs of a marker and a part, where each marker is one
of a set of its own. Such a text can be read back in one way only exactly when every marker
is alone: in the part before it, itself and the part after it, no marker of its set stands
anywhere but in its place. It is enough to look at neighbouring parts, although another
reading may move several markers at once.
-/

namespace FlyBoard.Markers

variable {α : Type*} {ps : List (Set (List α))} {rs : List (List α × List α)}

def join (a : List α) : List (List α × List α) → List α
  | [] => a
  | (m, b) :: rest => a ++ m ++ join b rest

def Marked (ps : List (Set (List α))) (rs : List (List α × List α)) : Prop :=
  List.Forall₂ (fun p r => r.1 ∈ p) ps rs

/-- Between two parts the marker stands in its place only. -/
def Lone (p : Set (List α)) (a m b : List α) : Prop :=
  ∀ a' m' b', m' ∈ p → a' ++ m' ++ b' = a ++ m ++ b → a' = a ∧ m' = m

def AllLone : List (Set (List α)) → List α → List (List α × List α) → Prop
  | p :: ps, a, (m, b) :: rest => Lone p a m b ∧ AllLone ps b rest
  | _, _, _ => True

/-- The end of a text that another ends with: a suffix as long as the rest, or longer. -/
theorem eq_append_of_append_eq {x y c z : List α} (h : x ++ y = c ++ z)
    (hlen : x.length ≤ c.length) : ∃ d, c = x ++ d ∧ y = d ++ z := by
  rcases List.append_eq_append_iff.mp h with ⟨d, hc, hy⟩ | ⟨d, hx, hz⟩
  · exact ⟨d, hc, hy⟩
  · have hd : d = [] := by
      rw [hx, List.length_append] at hlen
      exact List.length_eq_zero_iff.mp (by omega)
    subst hd
    exact ⟨[], by simpa using hx.symm, by simpa using hz.symm⟩

theorem prefix_join (a : List α) (rs : List (List α × List α)) : a <+: join a rs := by
  cases rs with
  | nil => exact List.prefix_refl _
  | cons r rest =>
    rw [join, List.append_assoc]
    exact List.prefix_append _ _

/-- What begins a text and ends before its second marker lies in the first two parts. -/
theorem prefix_of_join_eq {a m b c z : List α} {rest : List (List α × List α)}
    (h : a ++ m ++ join b rest = c ++ z) (hcut : c.length ≤ (a ++ m ++ b).length) :
    c <+: a ++ m ++ b := by
  have hleft : c <+: a ++ m ++ join b rest := by
    rw [h]
    exact List.prefix_append _ _
  have hright : a ++ m ++ b <+: a ++ m ++ join b rest :=
    (List.prefix_append_right_inj _).mpr (prefix_join b rest)
  exact List.prefix_of_prefix_length_le hleft hright hcut

/-- No reading of what follows starts later than the text does: its markers would have to
move right, up to the last. -/
theorem not_join_append {b b' c : List α}
    {rest rest' : List (List α × List α)} (hmarked' : Marked ps rest')
    (hmarked : Marked ps rest) (hlone : AllLone ps b rest) (hlen : b.length < c.length) :
    join b rest ≠ c ++ join b' rest' := by
  induction ps generalizing b b' c rest rest' with
  | nil =>
    cases hmarked
    intro h
    have hle := congrArg List.length h
    simp only [join, List.length_append] at hle
    omega
  | cons p ps ih =>
    cases hmarked with
    | @cons _ r _ rest _ hrest =>
    cases hmarked' with
    | @cons _ r' _ rest' hr' hrest' =>
    rcases r with ⟨m, b₂⟩
    rcases r' with ⟨m', b₂'⟩
    rcases hlone with ⟨hfirst, hlone⟩
    intro h
    have heq : b ++ m ++ join b₂ rest = (c ++ b' ++ m') ++ join b₂' rest' := by
      simpa [join, List.append_assoc] using h
    by_cases hcut : (c ++ b' ++ m').length ≤ (b ++ m ++ b₂).length
    · -- the marker stands in the next part
      rcases prefix_of_join_eq heq hcut with ⟨tail, htail⟩
      have hplace := (hfirst (c ++ b') m' tail hr' htail).1
      have hle := congrArg List.length hplace
      rw [List.length_append] at hle
      omega
    · rcases eq_append_of_append_eq heq (by
        simp only [List.length_append] at hcut ⊢
        omega) with ⟨d, hd, hrestEq⟩
      refine ih hrest' hrest hlone ?_ hrestEq
      have hlength := congrArg List.length hd
      simp only [List.length_append] at hcut hlength
      omega

theorem join_inj {a a' : List α} {rs rs' : List (List α × List α)}
    (hmarked : Marked ps rs) (hmarked' : Marked ps rs') (hlone : AllLone ps a rs)
    (h : join a rs = join a' rs') : a = a' ∧ rs = rs' := by
  induction ps generalizing a a' rs rs' with
  | nil =>
    cases hmarked
    cases hmarked'
    exact ⟨h, rfl⟩
  | cons p ps ih =>
    cases hmarked with
    | @cons _ r _ rest hr hrest =>
    cases hmarked' with
    | @cons _ r' _ rest' hr' hrest' =>
    rcases r with ⟨m, b⟩
    rcases r' with ⟨m', b'⟩
    rcases hlone with ⟨hfirst, hlone⟩
    have heq : a ++ m ++ join b rest = (a' ++ m') ++ join b' rest' := by
      simpa [join, List.append_assoc] using h
    by_cases hcut : (a' ++ m').length ≤ (a ++ m ++ b).length
    · rcases prefix_of_join_eq heq hcut with ⟨tail, htail⟩
      rcases hfirst a' m' tail hr' htail with ⟨rfl, rfl⟩
      rcases ih hrest hrest' hlone (List.append_cancel_left heq) with ⟨rfl, rfl⟩
      exact ⟨rfl, rfl⟩
    · rcases eq_append_of_append_eq heq (by
        simp only [List.length_append] at hcut ⊢
        omega) with ⟨d, hd, hrestEq⟩
      refine absurd hrestEq (not_join_append hrest' hrest hlone ?_)
      have hlength := congrArg List.length hd
      simp only [List.length_append] at hcut hlength
      omega

theorem exists_join_of_not_allLone {a : List α} (hmarked : Marked ps rs) (h : ¬ AllLone ps a rs) :
    ∃ a' rs', Marked ps rs' ∧ join a' rs' = join a rs ∧ (a', rs') ≠ (a, rs) := by
  induction ps generalizing a rs with
  | nil =>
    cases hmarked
    exact absurd trivial h
  | cons p ps ih =>
    cases hmarked with
    | @cons _ r _ rest hr hrest =>
    rcases r with ⟨m, b⟩
    by_cases hlone : AllLone ps b rest
    · have hfirst : ¬ Lone p a m b := fun hfirst => h ⟨hfirst, hlone⟩
      simp only [Lone, not_forall] at hfirst
      rcases hfirst with ⟨a', m', b', hm', heq, hne⟩
      -- the text from the moved marker on: the part after it ends where the next marker is
      cases rest with
      | nil =>
        refine ⟨a', [(m', b')], .cons hm' hrest, heq, ?_⟩
        intro hsame
        simp only [Prod.mk.injEq, List.cons.injEq] at hsame
        exact hne ⟨hsame.1, hsame.2.1.1⟩
      | cons r rest =>
        refine ⟨a', (m', b') :: r :: rest, .cons hm' hrest, ?_, ?_⟩
        · simp only [join]
          rw [← List.append_assoc, ← List.append_assoc, ← List.append_assoc, heq]
          simp only [List.append_assoc]
        · intro hsame
          simp only [Prod.mk.injEq, List.cons.injEq] at hsame
          exact hne ⟨hsame.1, hsame.2.1.1⟩
    · rcases ih hrest hlone with ⟨b', rs', hmarked', heq, hne⟩
      refine ⟨a, (m, b') :: rs', .cons hr hmarked', ?_, ?_⟩
      · simp only [join, heq]
      · intro hsame
        simp only [Prod.mk.injEq, List.cons.injEq] at hsame
        exact hne (by rw [hsame.2.1.2, hsame.2.2])

theorem allLone_iff {a : List α} (hmarked : Marked ps rs) :
    AllLone ps a rs ↔
      ∀ a' rs', Marked ps rs' → join a' rs' = join a rs → a' = a ∧ rs' = rs := by
  constructor
  · intro hlone a' rs' hmarked' h
    rcases join_inj hmarked hmarked' hlone h.symm with ⟨rfl, rfl⟩
    exact ⟨rfl, rfl⟩
  · intro honly
    by_contra hlone
    rcases exists_join_of_not_allLone hmarked hlone with ⟨a', rs', hmarked', h, hne⟩
    rcases honly a' rs' hmarked' h with ⟨rfl, rfl⟩
    exact hne rfl

end FlyBoard.Markers

import FlyBoard.Handlers.PostAddresses

/-!
# The post that a slug names (`src/db/post.c`)

`db_post_get_by_slug` selects the rows whose slug is the text or whose id is the number that
the text begins with, and takes the one that comes first. Both conditions can hold of
different rows: the automatic slugs `post1`, `post2`, … all read as ids.
-/

namespace FlyBoard.PostAddresses

open Bytes

variable {posts : List PostRow} {p q : PostRow} {s : Bytes}

/-- In whichever order the rows come, the post with the slug is returned, and another one
only when no post has it. -/
def NamesItsOwn (posts : List PostRow) (s : Bytes) : Prop :=
  ∀ order : List PostRow, order.Perm posts →
    (∀ p ∈ posts, p.slug = s → dbPostGetBySlug order s = some p) ∧
      ∀ q, dbPostGetBySlug order s = some q → q.slug ≠ s → ∀ p ∈ posts, p.slug ≠ s

theorem eq_of_slug (h : (posts.map PostRow.slug).Nodup) (hp : p ∈ posts) (hq : q ∈ posts)
    (hslug : p.slug = q.slug) : p = q :=
  List.inj_on_of_nodup_map h hp hq hslug

theorem dbPostGetBySlug_mem (h : dbPostGetBySlug posts s = some p) :
    p ∈ posts ∧ (p.slug = s ∨ p.id = extractPostIdFromSlug s) := by
  unfold dbPostGetBySlug at h
  split at h
  · exact nomatch h
  · have hfound := List.find?_some h
    rw [Bool.or_eq_true, beq_iff_eq, beq_iff_eq] at hfound
    exact ⟨List.mem_of_find?_eq_some h, hfound⟩

/-- A row that meets one of the conditions is found, or another one in its place. -/
theorem dbPostGetBySlug_isSome (hne : s ≠ []) (hp : p ∈ posts) (hslug : p.slug = s) :
    ∃ q, dbPostGetBySlug posts s = some q := by
  have hsome : (posts.find? fun p => p.slug == s || p.id == extractPostIdFromSlug s).isSome := by
    rw [List.find?_isSome]
    exact ⟨p, hp, by rw [hslug, beq_self_eq_true, Bool.true_or]⟩
  rw [dbPostGetBySlug, List.isEmpty_eq_false_iff.mpr hne, if_neg Bool.false_ne_true]
  exact Option.isSome_iff_exists.mp hsome

/-- A slug names its own post exactly if it is not empty and does not begin with the id of
another post. -/
theorem namesItsOwn_iff (hslugs : (posts.map PostRow.slug).Nodup) (s : Bytes) :
    NamesItsOwn posts s ↔
      ∀ p ∈ posts, p.slug = s → s ≠ [] ∧ ∀ q ∈ posts, q.id = extractPostIdFromSlug s → q = p := by
  constructor
  · intro h p hp hslug
    have hne : s ≠ [] := by
      rintro rfl
      exact nomatch (h posts (List.Perm.refl posts)).1 p hp hslug
    refine ⟨hne, ?_⟩
    intro q hq hid
    -- The row with the id may come first.
    have horder : (q :: posts.erase q).Perm posts := (List.perm_cons_erase hq).symm
    have hfirst : dbPostGetBySlug (q :: posts.erase q) s = some q := by
      rw [dbPostGetBySlug, List.isEmpty_eq_false_iff.mpr hne, if_neg Bool.false_ne_true]
      exact List.find?_cons_of_pos (by rw [hid, beq_self_eq_true, Bool.or_true])
    have hsame := (h _ horder).1 p hp hslug
    rw [hfirst] at hsame
    exact Option.some_inj.mp hsame
  · intro h order horder
    have hfinds : ∀ p ∈ posts, p.slug = s → dbPostGetBySlug order s = some p := by
      intro p hp hslug
      rcases h p hp hslug with ⟨hne, hother⟩
      rcases dbPostGetBySlug_isSome hne (horder.mem_iff.mpr hp) hslug with ⟨q, hq⟩
      rcases dbPostGetBySlug_mem hq with ⟨hmem, hrow | hrow⟩
      · rw [hq, eq_of_slug hslugs (horder.mem_iff.mp hmem) hp (hrow.trans hslug.symm)]
      · rw [hq, hother q (horder.mem_iff.mp hmem) hrow]
    refine ⟨hfinds, ?_⟩
    intro q hq hslug p hp hpslug
    have hfound := hfinds p hp hpslug
    rw [hq, Option.some_inj] at hfound
    exact hslug (hfound ▸ hpslug)

/-- Two posts whose titles have no letter or digit: the automatic slugs `post` and `post1`. -/
def untitledPosts : List PostRow := [⟨1, bytes "post"⟩, ⟨2, bytes "post1"⟩]

/-- The slug of the first one is its own. -/
theorem untitled_named : NamesItsOwn untitledPosts (bytes "post") :=
  (namesItsOwn_iff (by decide) _).mpr (by decide)

/-- The slug of the second one leads to the first one. -/
theorem untitled_confused : ¬ NamesItsOwn untitledPosts (bytes "post1") := by
  intro h
  have hsecond := (h untitledPosts (List.Perm.refl _)).1 ⟨2, bytes "post1"⟩
    (List.mem_cons_of_mem _ List.mem_cons_self) rfl
  exact absurd hsecond (by decide)

end FlyBoard.PostAddresses

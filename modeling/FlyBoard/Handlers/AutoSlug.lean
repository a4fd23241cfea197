import FlyBoard.Handlers.PostAddresses
import FlyBoard.Lib.Glob
import FlyBoard.Utils.StrUtil
import Mathlib.Data.Set.Finite.Range
import Mathlib.Order.Bounds.Basic

/-!
# Automatic slugs (`src/db/board.c`)

A new post takes its slug from its title; a number behind it keeps slugs apart.
`db_post_create_with_auto_slug` and `db_post_refresh_auto_slug` let SQLite find the number:
the numbers that slugs with this base end in are `used`, the candidates are 0 and the
successors of used numbers, and the least candidate that is not used is taken. The result
is read as an `int`.
-/

namespace FlyBoard.AutoSlug

open Bytes PostAddresses Glob StrUtil
open Autosave (generateSlug slugSuffix)

/-! ## The query -/

/-- `CAST(s AS INTEGER)`: 64 bits, out-of-range values saturate. -/
def castInteger (s : Bytes) : ℤ := strtol s

section

variable (posts : List PostRow) (base : Bytes)

/-- The number that a slug contributes to `used`. -/
def usedNumber (slug : Bytes) : Option ℤ :=
  let sub := substr slug (base.length + 1)
  let n := castInteger sub
  if glob (base ++ bytes "[0-9]*") slug && !glob (bytes "*[^0-9]*") sub && 0 < n &&
      sub == decimalInt n then
    some n
  else none

/-- `used(n)` -/
def used : List ℤ :=
  ((posts.filter fun p => p.slug == base).map fun _ => 0) ++
    posts.filterMap fun p => usedNumber base p.slug

/-- `candidate(n)`. The successor of the greatest integer is a real number, of the same
value. -/
def candidate : List ℤ := 0 :: (used posts base).map (· + 1)

/-- `SELECT MIN(n) FROM candidate WHERE n NOT IN (SELECT n FROM used)` -/
def minFree : Option ℤ := ((candidate posts base).filter (· ∉ used posts base)).min?

/-- `sqlite3_column_int`: the low 32 bits of the 64-bit value, 0 for NULL. -/
def columnInt : Option ℤ → ℤ
  | none => 0
  | some v => (BitVec.ofInt 32 (min v (2 ^ 63 - 1))).toInt

/-- `final_slug`, unless `next_suffix` is negative. -/
def finalSlug : Option Bytes :=
  let nextSuffix := columnInt (minFree posts base)
  if nextSuffix < 0 then none
  else some (base ++ if 0 < nextSuffix then snprintfS 32 (decimalInt nextSuffix) else [])

/-- `db_post_create_with_auto_slug`, where the row gets the id `id`: the rows and the slug
that it leaves. The column is unique. -/
def dbPostCreateWithAutoSlug (id : ℤ) : Option (List PostRow × Bytes) :=
  if base.isEmpty then none
  else
    (finalSlug posts base).bind fun slug =>
      if posts.any (·.slug == slug) then none else some (posts ++ [⟨id, slug⟩], slug)

def others (id : ℤ) : List PostRow := posts.filter (·.id ≠ id)

/-- `UPDATE posts SET slug=? WHERE id=?` -/
def setSlug (id : ℤ) (slug : Bytes) : List PostRow :=
  posts.map fun p => if p.id = id then { p with slug := slug } else p

/-- `db_post_refresh_auto_slug` -/
def dbPostRefreshAutoSlug (id : ℤ) : Option (List PostRow × Bytes) :=
  if id ≤ 0 ∨ base.isEmpty then none
  else
    (finalSlug (others posts id) base).bind fun slug =>
      if posts.any (·.id == id) && (others posts id).any (·.slug == slug) then none
      else some (setSlug posts id slug, slug)

end

/-! ## The least free number -/

/-- What `fb_generate_slug` returns of a title. -/
structure SlugBase (s : Bytes) : Prop where
  text : SlugText s
  nonempty : s ≠ []
  last : s.getLast? ≠ some 45

theorem slugBase_generateSlug (title : Bytes) : SlugBase (generateSlug title) := by
  rcases slugText_generateSlug title with ⟨hne, htext, hlast⟩
  exact ⟨htext, hne, hlast⟩

def numbered (base : Bytes) (n : ℕ) : Bytes := base ++ slugSuffix n

def Free (posts : List PostRow) (base : Bytes) (n : ℕ) : Prop :=
  ∀ p ∈ posts, p.slug ≠ numbered base n

instance (posts : List PostRow) (base : Bytes) (n : ℕ) : Decidable (Free posts base n) :=
  inferInstanceAs (Decidable (∀ p ∈ posts, _))

variable {posts : List PostRow} {base s : Bytes} {n m : ℕ} {id : ℤ}

theorem numbered_injective (base : Bytes) : Function.Injective (numbered base) := by
  intro n m h
  have htail := List.append_cancel_left h
  unfold slugSuffix at htail
  by_cases hn : n = 0
  · by_cases hm : m = 0
    · rw [hn, hm]
    · rw [if_pos hn, if_neg hm] at htail
      exact absurd htail.symm (decimal_ne_nil m)
  · by_cases hm : m = 0
    · rw [if_neg hn, if_pos hm] at htail
      exact absurd htail (decimal_ne_nil n)
    · rw [if_neg hn, if_neg hm] at htail
      exact decimal_injective htail

theorem exists_free (posts : List PostRow) (base : Bytes) : ∃ n, Free posts base n := by
  have hinfinite : (Set.range (numbered base)).Infinite :=
    Set.infinite_range_of_injective (numbered_injective base)
  rcases hinfinite.exists_notMem_finset (posts.map PostRow.slug).toFinset with
    ⟨slug, ⟨n, rfl⟩, hslug⟩
  refine ⟨n, ?_⟩
  intro p hp heq
  exact hslug (List.mem_toFinset.mpr (heq ▸ List.mem_map_of_mem hp))

def leastFree (posts : List PostRow) (base : Bytes) : ℕ := Nat.find (exists_free posts base)

theorem leastFree_isLeast (posts : List PostRow) (base : Bytes) :
    IsLeast {n | Free posts base n} (leastFree posts base) :=
  ⟨Nat.find_spec _, fun _ hn => Nat.find_min' _ hn⟩

/-! ## What the query finds -/

theorem SlugBase.ascii (h : SlugBase base) : ∀ c ∈ base, c < 128 ∧ plain c.toNat = true := by
  intro c hc
  have hcases : (45 ≤ c.toNat ∧ c.toNat ≤ 57) ∨ (97 ≤ c.toNat ∧ c.toNat ≤ 122) := by
    rcases h.text.chars c hc with hlower | hdigit | rfl
    · rw [isLower, Bool.and_eq_true, decide_eq_true_eq, decide_eq_true_eq,
        UInt8.le_iff_toNat_le, UInt8.le_iff_toNat_le] at hlower
      exact .inr hlower
    · have hrange := isDigit_iff.mp hdigit
      omega
    · exact .inl (by decide)
  constructor
  · rw [UInt8.lt_iff_toNat_lt]
    change c.toNat < 128
    omega
  · simp only [plain, Bool.and_eq_true, bne_iff_ne, ne_eq]
    omega

theorem usedNumber_eq_some (hbase : SlugBase base) {k : ℤ} :
    usedNumber base s = some k ↔ ∃ n : ℕ, k = n ∧ 0 < n ∧ n < 2 ^ 63 ∧ s = base ++ decimal n := by
  have hascii : ∀ c ∈ base, c < 128 := fun c hc => (hbase.ascii c hc).1
  have hglob := glob_numbered (s := s) hascii fun c hc => (hbase.ascii c hc).2
  rw [usedNumber, Option.ite_none_right_eq_some, Option.some_inj, Bool.and_eq_true, Bool.and_eq_true,
    Bool.and_eq_true, Bool.not_eq_true', decide_eq_true_eq, beq_iff_eq, hglob, not_glob_other]
  unfold castInteger
  constructor
  · rintro ⟨⟨⟨⟨⟨d, t, rfl, hd⟩, hdigits⟩, hpos⟩, hprint⟩, rfl⟩
    rw [substr_append hascii] at hdigits hpos hprint ⊢
    have hvalue := strtol_digits (List.cons_ne_nil d t) hdigits
    refine ⟨(strtol (d :: t)).toNat, by omega, by omega, by omega, ?_⟩
    have hnat : (strtol (d :: t)).natAbs = (strtol (d :: t)).toNat := by omega
    rw [decimalInt, if_neg (by omega), hnat] at hprint
    rw [← hprint]
  · rintro ⟨n, rfl, hpos, hlt, rfl⟩
    have hdigits : ∀ c ∈ decimal n, isDigit c = true := fun c => isDigit_of_mem_decimal
    have hvalue : strtol (decimal n) = n := by
      rw [strtol_digits (decimal_ne_nil n) hdigits, digitsValue_decimal]
      omega
    have hprint : decimalInt n = decimal n := by
      rw [decimalInt, if_neg (by omega), Int.natAbs_natCast]
    rw [substr_append hascii, hvalue]
    refine ⟨⟨⟨⟨?_, hdigits⟩, by omega⟩, hprint.symm⟩, rfl⟩
    cases hn : decimal n with
    | nil => exact absurd hn (decimal_ne_nil n)
    | cons d t => exact ⟨d, t, rfl, hdigits d (hn ▸ List.mem_cons_self)⟩

theorem mem_used (hbase : SlugBase base) {k : ℤ} :
    k ∈ used posts base ↔ ∃ n : ℕ, k = n ∧ n < 2 ^ 63 ∧ ¬ Free posts base n := by
  have htaken : ∀ n, ¬ Free posts base n ↔ ∃ p ∈ posts, p.slug = base ++ slugSuffix n := by
    intro n
    unfold Free numbered
    simp only [ne_eq, not_forall, not_not, exists_prop]
  rw [used, List.mem_append, List.mem_map, List.mem_filterMap]
  constructor
  · rintro (⟨p, hp, rfl⟩ | ⟨p, hp, hk⟩)
    · rw [List.mem_filter, beq_iff_eq] at hp
      refine ⟨0, rfl, by decide, (htaken 0).mpr ⟨p, hp.1, ?_⟩⟩
      rw [slugSuffix, if_pos rfl, List.append_nil, hp.2]
    · rcases (usedNumber_eq_some hbase).mp hk with ⟨n, rfl, hpos, hlt, hslug⟩
      refine ⟨n, rfl, hlt, (htaken n).mpr ⟨p, hp, ?_⟩⟩
      rw [slugSuffix, if_neg (Nat.pos_iff_ne_zero.mp hpos), hslug]
  · rintro ⟨n, rfl, hlt, hn⟩
    rcases (htaken n).mp hn with ⟨p, hp, hslug⟩
    rcases Nat.eq_zero_or_pos n with rfl | hpos
    · rw [slugSuffix, if_pos rfl, List.append_nil] at hslug
      exact .inl ⟨p, List.mem_filter.mpr ⟨hp, beq_iff_eq.mpr hslug⟩, rfl⟩
    · rw [slugSuffix, if_neg (Nat.pos_iff_ne_zero.mp hpos)] at hslug
      exact .inr ⟨p, hp, (usedNumber_eq_some hbase).mpr ⟨n, rfl, hpos, hlt, hslug⟩⟩

theorem minFree_eq (posts : List PostRow) (hbase : SlugBase base) :
    minFree posts base = some (min (leastFree posts base : ℤ) (2 ^ 63)) := by
  rcases leastFree_isLeast posts base with ⟨hfree, hleast⟩
  have hbelow : ∀ n < leastFree posts base, ¬ Free posts base n :=
    fun n hn hfree => absurd (hleast hfree) (Nat.not_le.mpr hn)
  rw [minFree, List.min?_eq_some_iff]
  simp only [List.mem_filter, decide_eq_true_eq, candidate, List.mem_cons, List.mem_map,
    mem_used hbase]
  constructor
  · constructor
    · rcases Nat.eq_zero_or_pos (leastFree posts base) with hzero | hpos
      · left
        omega
      · -- The number before it is used: it is the successor.
        right
        refine ⟨min (leastFree posts base : ℤ) (2 ^ 63) - 1, ?_, by omega⟩
        refine ⟨min (leastFree posts base - 1) (2 ^ 63 - 1), by omega, by omega, hbelow _ ?_⟩
        omega
    · rintro ⟨n, hn, hlt, htaken⟩
      have hsame : n = leastFree posts base := by omega
      exact htaken (hsame ▸ hfree)
  · rintro b ⟨hb, hnot⟩
    have hnat : ∃ n : ℕ, b = n ∧ n ≤ 2 ^ 63 := by
      rcases hb with rfl | ⟨u, ⟨n, rfl, hlt, -⟩, rfl⟩
      · exact ⟨0, rfl, by decide⟩
      · exact ⟨n + 1, rfl, hlt⟩
    rcases hnat with ⟨n, rfl, hle⟩
    by_cases hlt : n < 2 ^ 63
    · have hn : Free posts base n := by
        by_contra htaken
        exact hnot ⟨n, rfl, hlt, htaken⟩
      have hge := hleast hn
      omega
    · omega

/-- Slugs with a number behind the base, as they are printed of an `int`. -/
theorem numbered_int {k : ℤ} (hk : 0 ≤ k) (hlt : k < 2 ^ 31) :
    (base ++ if 0 < k then snprintfS 32 (decimalInt k) else []) = numbered base k.toNat := by
  rw [numbered, slugSuffix]
  split
  · rename_i hpos
    have hnat : k.natAbs = k.toNat := by omega
    have hshort : (decimal k.toNat).length ≤ 10 := length_decimal_le (by decide) (by omega)
    have hwhole : snprintfS 32 (decimal k.toNat) = decimal k.toNat :=
      List.take_of_length_le (by omega)
    rw [decimalInt, if_neg (by omega), hnat, hwhole, if_neg (by omega)]
  · rw [if_pos (by omega)]

/-- The least free slug is taken exactly if its number is an `int`. -/
theorem finalSlug_eq_iff (posts : List PostRow) (hbase : SlugBase base) :
    finalSlug posts base = some (numbered base (leastFree posts base)) ↔
      leastFree posts base < 2 ^ 31 := by
  have hcolumn : columnInt (minFree posts base) =
      (min (min (leastFree posts base : ℤ) (2 ^ 63)) (2 ^ 63 - 1)).bmod (2 ^ 32) := by
    rw [minFree_eq posts hbase, columnInt, BitVec.toInt_ofInt]
  have hlow : -2 ^ 31 ≤ columnInt (minFree posts base) := by
    have hbmod := Int.le_bmod (x := min (min (leastFree posts base : ℤ) (2 ^ 63)) (2 ^ 63 - 1))
      (m := 2 ^ 32) (by decide)
    rw [hcolumn]
    exact hbmod
  have hhigh : columnInt (minFree posts base) < 2 ^ 31 := by
    have hbmod := Int.bmod_lt (x := min (min (leastFree posts base : ℤ) (2 ^ 63)) (2 ^ 63 - 1))
      (m := 2 ^ 32) (by decide)
    rw [hcolumn]
    exact hbmod
  constructor
  · intro h
    rw [finalSlug] at h
    split at h
    · exact nomatch h
    · rename_i hneg
      rw [numbered_int (by omega) hhigh, Option.some_inj] at h
      have hsame := numbered_injective base h
      omega
  · intro hlt
    have hint : columnInt (minFree posts base) = leastFree posts base := by
      have hsmall : min (min (leastFree posts base : ℤ) (2 ^ 63)) (2 ^ 63 - 1) =
          leastFree posts base := by omega
      rw [hcolumn, hsmall]
      exact Int.bmod_eq_of_le (by omega) (by omega)
    rw [finalSlug, hint, if_neg (by omega), numbered_int (by omega) (by omega), Int.toNat_natCast]

/-! ## The two functions -/

def CreateTakesLeast (posts : List PostRow) (base : Bytes) : Prop :=
  ∀ id, ∃ n, IsLeast {n | Free posts base n} n ∧
    ∃ posts', dbPostCreateWithAutoSlug posts base id = some (posts', numbered base n) ∧
      posts' = posts ++ [⟨id, numbered base n⟩] ∧ (posts'.map PostRow.slug).Nodup

/-- A post takes the least slug that no other post has, and the slugs stay different; if it
has that slug, nothing changes. -/
def RefreshTakesLeast (posts : List PostRow) (base : Bytes) (id : ℤ) : Prop :=
  ∃ n, IsLeast {n | Free (others posts id) base n} n ∧
    ∃ posts', dbPostRefreshAutoSlug posts base id = some (posts', numbered base n) ∧
      posts' = setSlug posts id (numbered base n) ∧ (posts'.map PostRow.slug).Nodup ∧
        ((∀ p ∈ posts, p.id = id → p.slug = numbered base n) → posts' = posts)

theorem any_slug_of_free (h : Free posts base n) :
    (posts.any (·.slug == numbered base n)) = false := by
  rw [List.any_eq_false]
  intro p hp heq
  exact h p hp (beq_iff_eq.mp heq)

theorem nodup_append_slug (h : (posts.map PostRow.slug).Nodup) (hfree : Free posts base n) :
    ((posts ++ [(⟨id, numbered base n⟩ : PostRow)]).map PostRow.slug).Nodup := by
  rw [List.map_append, List.map_singleton, List.nodup_append]
  refine ⟨h, List.nodup_singleton _, ?_⟩
  intro slug hslug slug' hslug'
  rcases List.mem_map.mp hslug with ⟨p, hp, rfl⟩
  rw [List.mem_singleton.mp hslug']
  exact hfree p hp

theorem nodup_setSlug (hids : (posts.map PostRow.id).Nodup)
    (hslugs : (posts.map PostRow.slug).Nodup) (hfree : Free (others posts id) base n) :
    ((setSlug posts id (numbered base n)).map PostRow.slug).Nodup := by
  have hother : ∀ p ∈ posts, p.id ≠ id → p.slug ≠ numbered base n := by
    intro p hp hid
    exact hfree p (List.mem_filter.mpr ⟨hp, decide_eq_true hid⟩)
  rw [setSlug, List.map_map]
  refine List.Nodup.map_on ?_ (hslugs.of_map _)
  intro p hp q hq heq
  have hinj : p.slug = q.slug → p = q := List.inj_on_of_nodup_map hslugs hp hq
  have hinjId : p.id = q.id → p = q := List.inj_on_of_nodup_map hids hp hq
  by_cases hpid : p.id = id
  · by_cases hqid : q.id = id
    · exact hinjId (hpid.trans hqid.symm)
    · simp only [Function.comp_apply, if_pos hpid, if_neg hqid] at heq
      exact absurd heq.symm (hother q hq hqid)
  · by_cases hqid : q.id = id
    · simp only [Function.comp_apply, if_neg hpid, if_pos hqid] at heq
      exact absurd heq (hother p hp hpid)
    · simp only [Function.comp_apply, if_neg hpid, if_neg hqid] at heq
      exact hinj heq

theorem setSlug_self {slug : Bytes} (h : ∀ p ∈ posts, p.id = id → p.slug = slug) :
    setSlug posts id slug = posts := by
  rw [setSlug]
  conv_rhs => rw [← List.map_id posts]
  apply List.map_congr_left
  intro p hp
  split
  · rename_i hid
    rw [← h p hp hid]
    rfl
  · rfl

theorem dbPostCreateWithAutoSlug_eq (hbase : SlugBase base) (hlt : leastFree posts base < 2 ^ 31)
    (id : ℤ) : dbPostCreateWithAutoSlug posts base id =
      some (posts ++ [⟨id, numbered base (leastFree posts base)⟩],
        numbered base (leastFree posts base)) := by
  have hne : base.isEmpty = false := List.isEmpty_eq_false_iff.mpr hbase.nonempty
  have hfree := any_slug_of_free (leastFree_isLeast posts base).1
  rw [dbPostCreateWithAutoSlug, hne, if_neg Bool.false_ne_true,
    (finalSlug_eq_iff posts hbase).mpr hlt, Option.bind_some, hfree, if_neg Bool.false_ne_true]

theorem dbPostRefreshAutoSlug_eq (hbase : SlugBase base) (hid : 0 < id)
    (hlt : leastFree (others posts id) base < 2 ^ 31) :
    dbPostRefreshAutoSlug posts base id =
      some (setSlug posts id (numbered base (leastFree (others posts id) base)),
        numbered base (leastFree (others posts id) base)) := by
  have hgo : ¬ (id ≤ 0 ∨ base.isEmpty = true) := by
    rw [not_or, List.isEmpty_iff]
    exact ⟨by omega, hbase.nonempty⟩
  have hfree := any_slug_of_free (leastFree_isLeast (others posts id) base).1
  rw [dbPostRefreshAutoSlug, if_neg hgo, (finalSlug_eq_iff _ hbase).mpr hlt, Option.bind_some,
    hfree, Bool.and_false, if_neg Bool.false_ne_true]

theorem createTakesLeast_iff (hslugs : (posts.map PostRow.slug).Nodup) (hbase : SlugBase base) :
    CreateTakesLeast posts base ↔ leastFree posts base < 2 ^ 31 := by
  constructor
  · intro h
    rcases h 0 with ⟨n, hn, posts', hcall, -⟩
    have hsame : n = leastFree posts base := hn.unique (leastFree_isLeast posts base)
    rw [dbPostCreateWithAutoSlug] at hcall
    rcases (Option.ite_none_left_eq_some.mp hcall) with ⟨-, hcall⟩
    rcases Option.bind_eq_some_iff.mp hcall with ⟨slug, hslug, hcall⟩
    rw [Option.ite_none_left_eq_some, Option.some_inj, Prod.mk.injEq] at hcall
    rw [← finalSlug_eq_iff posts hbase, hslug, hcall.2.2, hsame]
  · intro hlt id
    have hleast := leastFree_isLeast posts base
    exact ⟨_, hleast, _, dbPostCreateWithAutoSlug_eq hbase hlt id, rfl,
      nodup_append_slug hslugs hleast.1⟩

theorem refreshTakesLeast_iff (hids : (posts.map PostRow.id).Nodup)
    (hslugs : (posts.map PostRow.slug).Nodup) (hbase : SlugBase base) (hid : 0 < id) :
    RefreshTakesLeast posts base id ↔ leastFree (others posts id) base < 2 ^ 31 := by
  constructor
  · rintro ⟨n, hn, posts', hcall, -⟩
    have hsame : n = leastFree (others posts id) base := hn.unique (leastFree_isLeast _ base)
    rw [dbPostRefreshAutoSlug] at hcall
    rcases (Option.ite_none_left_eq_some.mp hcall) with ⟨-, hcall⟩
    rcases Option.bind_eq_some_iff.mp hcall with ⟨slug, hslug, hcall⟩
    rw [Option.ite_none_left_eq_some, Option.some_inj, Prod.mk.injEq] at hcall
    rw [← finalSlug_eq_iff _ hbase, hslug, hcall.2.2, hsame]
  · intro hlt
    have hleast := leastFree_isLeast (others posts id) base
    exact ⟨_, hleast, _, dbPostRefreshAutoSlug_eq hbase hid hlt, rfl,
      nodup_setSlug hids hslugs hleast.1, setSlug_self⟩

/-- The two functions take the least free slug exactly if its number is below 2³¹. -/
theorem takesLeast_iff (hids : (posts.map PostRow.id).Nodup)
    (hslugs : (posts.map PostRow.slug).Nodup) (hbase : SlugBase base) (hid : 0 < id) :
    (CreateTakesLeast posts base ↔ leastFree posts base < 2 ^ 31) ∧
      (RefreshTakesLeast posts base id ↔ leastFree (others posts id) base < 2 ^ 31) :=
  ⟨createTakesLeast_iff hslugs hbase, refreshTakesLeast_iff hids hslugs hbase hid⟩

def twins : List PostRow := [⟨1, bytes "note"⟩, ⟨2, bytes "note1"⟩]

theorem slugBase_note : SlugBase (bytes "note") := slugBase_generateSlug (bytes "Note")

/-- A third one gets the next number, and the first of them keeps its slug. -/
theorem twins_takeLeast :
    CreateTakesLeast twins (bytes "note") ∧ RefreshTakesLeast twins (bytes "note") 1 := by
  have hids : (twins.map PostRow.id).Nodup := by decide
  have hslugs : (twins.map PostRow.slug).Nodup := by decide
  have hcreate : leastFree twins (bytes "note") < 2 ^ 31 :=
    (Nat.find_min' _ (by decide : Free twins (bytes "note") 2)).trans_lt (by decide)
  have hrefresh : leastFree (others twins 1) (bytes "note") < 2 ^ 31 :=
    (Nat.find_min' _ (by decide : Free (others twins 1) (bytes "note") 0)).trans_lt (by decide)
  have htakes := takesLeast_iff hids hslugs slugBase_note (by decide : (0 : ℤ) < 1)
  exact ⟨htakes.1.mpr hcreate, htakes.2.mpr hrefresh⟩

/-! ## So many posts of one title -/

def crowd (base : Bytes) (k : ℕ) : List PostRow :=
  (List.range k).map fun n : ℕ => ⟨n + 1, numbered base n⟩

theorem mem_crowd {base : Bytes} {k : ℕ} {p : PostRow} :
    p ∈ crowd base k ↔ ∃ n < k, p = ⟨n + 1, numbered base n⟩ := by
  rw [crowd, List.mem_map]
  constructor
  · rintro ⟨n, hn, rfl⟩
    exact ⟨n, List.mem_range.mp hn, rfl⟩
  · rintro ⟨n, hn, rfl⟩
    exact ⟨n, List.mem_range.mpr hn, rfl⟩

theorem leastFree_crowd (base : Bytes) (k : ℕ) : leastFree (crowd base k) base = k := by
  refine (leastFree_isLeast (crowd base k) base).unique ⟨?_, ?_⟩
  · intro p hp heq
    rcases mem_crowd.mp hp with ⟨n, hn, rfl⟩
    have hsame : n = k := numbered_injective base heq
    omega
  · intro n hn
    by_contra hlt
    exact hn _ (mem_crowd.mpr ⟨n, Nat.not_le.mp hlt, rfl⟩) rfl

theorem nodup_crowd (base : Bytes) (k : ℕ) :
    ((crowd base k).map PostRow.id).Nodup ∧ ((crowd base k).map PostRow.slug).Nodup := by
  have hids : Function.Injective fun n : ℕ => (n : ℤ) + 1 := fun n m h => by
    have hnm : (n : ℤ) + 1 = m + 1 := h
    omega
  rw [crowd, List.map_map, List.map_map]
  exact ⟨List.nodup_range.map hids, List.nodup_range.map (numbered_injective base)⟩

theorem crowd_not_takeLeast {k : ℕ} (hbase : SlugBase base) (hk : 2 ^ 31 ≤ k) :
    ¬ CreateTakesLeast (crowd base k) base := by
  rw [createTakesLeast_iff (nodup_crowd base k).2 hbase, leastFree_crowd]
  exact Nat.not_lt.mpr hk

/-- Behind 2³¹ posts of one title the next one does not get its number. -/
theorem crowd_of_notes :
    ((crowd (bytes "note") (2 ^ 31)).map PostRow.id).Nodup ∧
      ((crowd (bytes "note") (2 ^ 31)).map PostRow.slug).Nodup ∧
      ¬ CreateTakesLeast (crowd (bytes "note") (2 ^ 31)) (bytes "note") :=
  ⟨(nodup_crowd _ _).1, (nodup_crowd _ _).2, crowd_not_takeLeast slugBase_note (le_refl _)⟩

end FlyBoard.AutoSlug

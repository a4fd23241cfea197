import Mathlib.Data.Fintype.Basic
import Mathlib.Data.List.MinMax
import Mathlib.Data.List.Nodup

/-!
# Tables with a primary key

A table is a list of rows with distinct keys. `insertOrIgnore` is SQL's
`INSERT OR IGNORE`: a row whose key is taken is dropped. A family of tables that
copy rows from one another is `Consistent` when no two of them hold different rows
under one key; that is what makes the union of the tables well defined, and what
every insertion has to keep.
-/

namespace FlyBoard.Keyed

variable {α κ ι : Type*} {key : α → κ} {a : α} {j : ι}

structure Table (key : α → κ) where
  rows : List α
  keyed : (rows.map key).Nodup

namespace Table

def empty : Table key := ⟨[], List.nodup_nil⟩

theorem ext_rows {t u : Table key} (h : t.rows = u.rows) : t = u := by
  cases t
  cases u
  cases h
  rfl

variable {a b : α}

theorem eq_of_key_eq (t : Table key) (ha : a ∈ t.rows) (hb : b ∈ t.rows)
    (h : key a = key b) : a = b :=
  List.inj_on_of_nodup_map t.keyed ha hb h

variable [DecidableEq κ] {t : Table key} {k : κ} {κ' : Type*}

/-- `INSERT OR IGNORE`. -/
def insertOrIgnore (t : Table key) (a : α) : Table key :=
  if h : key a ∈ t.rows.map key then t
  else
    { rows := t.rows ++ [a]
      keyed := by
        rw [List.map_append, List.nodup_append]
        refine ⟨t.keyed, List.nodup_singleton _, ?_⟩
        rintro x hx y hy rfl
        rw [List.map_singleton, List.mem_singleton] at hy
        exact h (hy ▸ hx) }

theorem mem_insertOrIgnore :
    b ∈ (t.insertOrIgnore a).rows ↔ b ∈ t.rows ∨ b = a ∧ key a ∉ t.rows.map key := by
  rw [insertOrIgnore]
  split
  · rename_i h
    simp [h]
  · rename_i h
    simp [h]

theorem mem_insertOrIgnore_of_mem (h : b ∈ t.rows) :
    b ∈ (t.insertOrIgnore a).rows :=
  mem_insertOrIgnore.mpr (.inl h)

def find? (t : Table key) (k : κ) : Option α := t.rows.find? fun a => key a = k

/-- UPDATE: `f` changes no key. -/
def update (t : Table key) (f : α → α) (hf : ∀ a, key (f a) = key a) : Table key where
  rows := t.rows.map f
  keyed := by
    have hkeys : (t.rows.map f).map key = t.rows.map key := by
      rw [List.map_map]
      apply List.map_congr_left
      intro a _
      exact hf a
    rw [hkeys]
    exact t.keyed

def remove (t : Table key) (k : κ) : Table key where
  rows := t.rows.filter fun a => key a ≠ k
  keyed := (List.filter_sublist.map key).nodup t.keyed

/-- DELETE of the rows that do not satisfy `p`. -/
def keep (t : Table key) (p : α → Bool) : Table key where
  rows := t.rows.filter p
  keyed := (List.filter_sublist.map key).nodup t.keyed

/-- INSERT … ON CONFLICT DO UPDATE of a whole row. -/
def upsert (t : Table key) (a : α) : Table key where
  rows := (t.remove (key a)).rows ++ [a]
  keyed := by
    rw [List.map_append, List.nodup_append]
    refine ⟨(t.remove (key a)).keyed, List.nodup_singleton _, ?_⟩
    rintro x hx y hy rfl
    rw [List.map_singleton, List.mem_singleton] at hy
    rcases List.mem_map.mp hx with ⟨b, hb, hbx⟩
    have hne : key b ≠ key a := of_decide_eq_true (List.mem_filter.mp hb).2
    exact hne (hbx.trans hy)

theorem mem_upsert :
    b ∈ (t.upsert a).rows ↔ b = a ∨ b ∈ t.rows ∧ key b ≠ key a := by
  simp only [upsert, remove, List.mem_append, List.mem_filter, decide_eq_true_eq,
    List.mem_singleton]
  exact or_comm

theorem find?_eq_some {a : α} :
    t.find? k = some a ↔ a ∈ t.rows ∧ key a = k := by
  constructor
  · intro h
    have hkey := List.find?_some h
    exact ⟨List.mem_of_find?_eq_some h, of_decide_eq_true hkey⟩
  · rintro ⟨ha, rfl⟩
    have hsome : (t.find? (key a)).isSome := by
      rw [find?, List.find?_isSome]
      exact ⟨a, ha, decide_eq_true rfl⟩
    rcases Option.isSome_iff_exists.mp hsome with ⟨b, hb⟩
    have hkey := List.find?_some hb
    rw [hb, t.eq_of_key_eq (List.mem_of_find?_eq_some hb) ha (of_decide_eq_true hkey)]

theorem find?_update (t : Table key) (f : α → α) (hf : ∀ a, key (f a) = key a) (k : κ) :
    (t.update f hf).find? k = (t.find? k).map f := by
  have hpred : ((fun a => decide (key a = k)) ∘ f) = fun a => decide (key a = k) := by
    funext a
    simp only [Function.comp_apply, hf]
  rw [find?, find?, update, List.find?_map, hpred]

theorem find?_remove (t : Table key) (k k' : κ) :
    (t.remove k).find? k' = if k' = k then none else t.find? k' := by
  apply Option.ext
  intro a
  rw [find?_eq_some]
  split
  · rename_i h
    subst h
    simp [remove]
  · rename_i h
    rw [find?_eq_some]
    simp only [remove, List.mem_filter, decide_eq_true_eq]
    constructor
    · rintro ⟨⟨ha, -⟩, hk⟩
      exact ⟨ha, hk⟩
    · rintro ⟨ha, hk⟩
      exact ⟨⟨ha, fun heq => h (hk.symm.trans heq)⟩, hk⟩

theorem find?_upsert (t : Table key) (a : α) (k : κ) :
    (t.upsert a).find? k = if k = key a then some a else t.find? k := by
  apply Option.ext
  intro b
  rw [find?_eq_some, mem_upsert]
  split
  · rename_i h
    subst h
    constructor
    · rintro ⟨rfl | ⟨-, hne⟩, hk⟩
      · rfl
      · exact absurd hk hne
    · intro hb
      rw [← Option.some.inj hb]
      exact ⟨.inl rfl, rfl⟩
  · rename_i h
    rw [find?_eq_some]
    constructor
    · rintro ⟨rfl | ⟨hb, -⟩, hk⟩
      · exact absurd hk.symm h
      · exact ⟨hb, hk⟩
    · rintro ⟨hb, hk⟩
      exact ⟨.inr ⟨hb, fun heq => h (hk.symm.trans heq)⟩, hk⟩

theorem find?_keep (t : Table key) (p : α → Bool) (k : κ) :
    (t.keep p).find? k = (t.find? k).filter p := by
  apply Option.ext
  intro a
  rw [Option.filter_eq_some_iff, find?_eq_some, find?_eq_some]
  simp only [keep, List.mem_filter]
  exact and_right_comm

theorem rows_insertOrIgnore_of_free {a : α} (hfree : key a ∉ t.rows.map key) :
    (t.insertOrIgnore a).rows = t.rows ++ [a] := by
  rw [insertOrIgnore, dif_neg hfree]

theorem find?_insertOrIgnore_of_free {a : α} (hfree : key a ∉ t.rows.map key)
    (k : κ) : (t.insertOrIgnore a).find? k = if k = key a then some a else t.find? k := by
  apply Option.ext
  intro b
  rw [find?_eq_some, mem_insertOrIgnore]
  split
  · rename_i h
    subst h
    constructor
    · rintro ⟨hold | ⟨rfl, -⟩, hk⟩
      · exact absurd (List.mem_map.mpr ⟨b, hold, hk⟩) hfree
      · rfl
    · intro hb
      rw [← Option.some.inj hb]
      exact ⟨.inr ⟨rfl, hfree⟩, rfl⟩
  · rename_i h
    rw [find?_eq_some]
    constructor
    · rintro ⟨hold | ⟨rfl, -⟩, hk⟩
      · exact ⟨hold, hk⟩
      · exact absurd hk.symm h
    · rintro ⟨hold, hk⟩
      exact ⟨.inl hold, hk⟩

def rekey {κ' : Type*} (t : Table key) {f : κ → κ'} (hf : Function.Injective f) :
    Table fun a => f (key a) where
  rows := t.rows
  keyed := by
    have hkeys : (t.rows.map fun a => f (key a)) = (t.rows.map key).map f := by
      rw [List.map_map]
      rfl
    rw [hkeys]
    exact t.keyed.map hf

variable {f : κ → κ'}

theorem find?_rekey [DecidableEq κ'] (t : Table key)
    (hf : Function.Injective f) (k : κ) : (t.rekey hf).find? (f k) = t.find? k := by
  apply Option.ext
  intro a
  rw [find?_eq_some, find?_eq_some, hf.eq_iff]
  rfl

theorem find?_rekey_eq [DecidableEq κ'] {t t' : Table key}
    (hf : Function.Injective f) {left : Option α}
    (h : ∀ k', t'.find? k' = if k' = k then left else t.find? k') (x : κ') :
    (t'.rekey hf).find? x = if x = f k then left else (t.rekey hf).find? x := by
  by_cases hx : ∃ k', f k' = x
  · rcases hx with ⟨k', rfl⟩
    rw [find?_rekey, find?_rekey, h]
    simp only [hf.eq_iff]
  · have hnone : ∀ u : Table key, (u.rekey hf).find? x = none := by
      intro u
      rw [Option.eq_none_iff_forall_ne_some]
      intro a ha
      exact hx ⟨key a, (find?_eq_some.mp ha).2⟩
    rw [hnone, hnone, if_neg fun heq => hx ⟨k, heq.symm⟩]

end Table

/-! ## Families of tables -/

/-- No two tables hold different rows under one key. -/
def Consistent (ts : ι → Table key) : Prop :=
  ∀ i j, ∀ a ∈ (ts i).rows, ∀ b ∈ (ts j).rows, key a = key b → a = b

/-- `a` can be put into table `i`: its key is taken there, or every other table that
has the key has `a` under it. -/
def Fits (ts : ι → Table key) (i : ι) (a : α) : Prop :=
  key a ∉ (ts i).rows.map key → ∀ j, ∀ b ∈ (ts j).rows, key b = key a → b = a

instance [Fintype ι] [DecidableEq κ] [DecidableEq α] (ts : ι → Table key) (i : ι) (a : α) :
    Decidable (Fits ts i a) :=
  inferInstanceAs (Decidable (_ → _))

variable {ts : ι → Table key}

theorem Consistent.insertOrIgnore [DecidableEq κ] [DecidableEq ι]
    (h : Consistent ts) {i : ι} (ha : Fits ts i a) :
    Consistent (Function.update ts i ((ts i).insertOrIgnore a)) := by
  by_cases hkey : key a ∈ (ts i).rows.map key
  · -- nothing is inserted
    have hsame : (ts i).insertOrIgnore a = ts i := dif_pos hkey
    rw [hsame, Function.update_eq_self]
    exact h
  · -- a row of the new family is an old row or `a`
    have hsplit : ∀ j, ∀ b ∈ (Function.update ts i ((ts i).insertOrIgnore a) j).rows,
        b ∈ (ts j).rows ∨ b = a := by
      intro j b hb
      by_cases hij : j = i
      · subst hij
        rw [Function.update_self] at hb
        rcases Table.mem_insertOrIgnore.mp hb with hold | ⟨hnew, -⟩
        · exact .inl hold
        · exact .inr hnew
      · rw [Function.update_of_ne hij] at hb
        exact .inl hb
    intro j k b hb c hc hbc
    rcases hsplit j b hb with hbold | rfl
    · rcases hsplit k c hc with hcold | rfl
      · exact h j k b hbold c hcold hbc
      · exact ha hkey j b hbold hbc
    · rcases hsplit k c hc with hcold | rfl
      · exact (ha hkey k c hcold hbc.symm).symm
      · rfl

/-- A row that some table holds fits into every table of a consistent family. -/
theorem Consistent.fits (h : Consistent ts) (ha : a ∈ (ts j).rows) (i : ι) : Fits ts i a := by
  intro _ k b hb hkey
  exact h k j b hb a ha hkey

/-- After the insertion of a row that fits everywhere, the row is there. -/
theorem Consistent.mem_insertOrIgnore [DecidableEq κ] (h : Consistent ts)
    (ha : a ∈ (ts j).rows) (i : ι) : a ∈ ((ts i).insertOrIgnore a).rows := by
  by_cases hkey : key a ∈ (ts i).rows.map key
  · rcases List.mem_map.mp hkey with ⟨b, hb, hba⟩
    have heq : b = a := h i j b hb a ha hba
    exact Table.mem_insertOrIgnore_of_mem (heq ▸ hb)
  · exact Table.mem_insertOrIgnore.mpr (.inr ⟨rfl, hkey⟩)

/-! ## The greatest row -/

/-- The greatest element is found in any list of the same elements, when no two of
them are equally great. -/
theorem argmax_eq_of_mem_iff {β : Type*} [LinearOrder β] {f : α → β} {l l' : List α}
    (hinj : ∀ a ∈ l, ∀ b ∈ l, f a = f b → a = b) (h : ∀ a, a ∈ l ↔ a ∈ l') :
    l.argmax f = l'.argmax f := by
  cases hmax : l.argmax f with
  | none =>
    have hnil : l = [] := List.argmax_eq_none.mp hmax
    subst hnil
    symm
    rw [List.argmax_eq_none, List.eq_nil_iff_forall_not_mem]
    intro a ha
    exact List.not_mem_nil ((h a).mpr ha)
  | some m =>
    -- each of the two is at least as great as the other
    have hm : m ∈ l := List.argmax_mem hmax
    cases hmax' : l'.argmax f with
    | none =>
      rw [List.argmax_eq_none] at hmax'
      subst hmax'
      exact absurd ((h m).mp hm) List.not_mem_nil
    | some m' =>
      have hm' : m' ∈ l := (h m').mpr (List.argmax_mem hmax')
      have hle : f m ≤ f m' := List.le_of_mem_argmax ((h m).mp hm) hmax'
      have hge : f m' ≤ f m := List.le_of_mem_argmax hm' hmax
      rw [hinj m hm m' hm' (le_antisymm hle hge)]

end FlyBoard.Keyed

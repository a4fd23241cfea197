import FlyBoard.Db.TagNames

/-!
# The tags of a post (`src/db/tag.c`)

`db_tag_set_for_post` splits the list of tags at commas, normalises every piece and links the
tags with these names to the post. Every statement may fail, so any piece may be the first
whose name is stored.
-/

namespace FlyBoard.Tags

open Bytes Json TagNames
open Autosave (tagMaxBytes tagMaxPerPost charLength wholeChars tagNormalize tagsOf)

/-! ## The tables -/

/-- A row of `tags`. -/
structure TagRow where
  id : ℕ
  name : Bytes

/-- `tags` and `post_tags`; `sequence` is the largest id that AUTOINCREMENT has given. Names and
ids are unique, and a link refers to a tag that there was. -/
structure Tables where
  tags : List TagRow
  links : List (ℤ × ℕ)
  sequence : ℕ
  id_range : ∀ t ∈ tags, 0 < t.id ∧ t.id ≤ sequence
  link_range : ∀ l ∈ links, l.2 ≤ sequence
  ids : (tags.map TagRow.id).Nodup
  names : (tags.map TagRow.name).Nodup

/-- Which of the statements for one tag succeed. -/
structure Luck where
  select : Bool
  insert : Bool
  link : Bool

namespace Tables

variable {db : Tables} {post : ℤ} {name n : Bytes} {id : ℕ}

/-- The names that `db_tag_list_by_post` lists. -/
def namesOf (db : Tables) (post : ℤ) : List Bytes :=
  (db.tags.filter fun t => db.links.contains (post, t.id)).map TagRow.name

/-- `INSERT INTO tags`, of a name that no row has. -/
def addTag (db : Tables) (name : Bytes) (h : name ∉ db.tags.map TagRow.name) : Tables where
  tags := db.tags ++ [⟨db.sequence + 1, name⟩]
  links := db.links
  sequence := db.sequence + 1
  id_range := by
    intro t ht
    rcases List.mem_append.mp ht with ht | ht
    · have hrange := db.id_range t ht
      omega
    · rw [List.mem_singleton.mp ht]
      exact ⟨Nat.succ_pos _, Nat.le_refl _⟩
  link_range := fun l hl => Nat.le_succ_of_le (db.link_range l hl)
  ids := by
    rw [List.map_append, List.map_singleton, ← List.concat_eq_append, List.nodup_concat]
    refine ⟨?_, db.ids⟩
    intro hmem
    obtain ⟨t, ht, hid⟩ := List.mem_map.mp hmem
    have hrange := db.id_range t ht
    rw [hid] at hrange
    exact Nat.not_succ_le_self db.sequence hrange.2
  names := by
    rw [List.map_append, List.map_singleton, ← List.concat_eq_append, List.nodup_concat]
    exact ⟨h, db.names⟩

/-- `INSERT OR IGNORE INTO post_tags`, of a tag that is there. -/
def addLink (db : Tables) (post : ℤ) (id : ℕ) (h : id ∈ db.tags.map TagRow.id) : Tables :=
  { db with
    links := db.links.insert (post, id)
    link_range := by
      intro l hl
      rcases List.mem_insert_iff.mp hl with rfl | hl
      · obtain ⟨t, ht, rfl⟩ := List.mem_map.mp h
        exact (db.id_range t ht).2
      · exact db.link_range l hl }

/-- `db_tag_link`; the id is a foreign key. -/
def dbTagLink (luck : Luck) (db : Tables) (post : ℤ) (id : ℕ) : Tables × Bool :=
  if h : luck.link ∧ id ∈ db.tags.map TagRow.id then (db.addLink post id h.2, true)
  else (db, false)

/-- `db_tag_clear_by_post` -/
def dbTagClearByPost (db : Tables) (post : ℤ) : Tables :=
  { db with
    links := db.links.filter fun l => l.1 ≠ post
    link_range := fun l hl => db.link_range l (List.mem_filter.mp hl).1 }

/-- `db_tag_get_or_create`; a name that is there violates the UNIQUE of the column. -/
def dbTagGetOrCreate (luck : Luck) (db : Tables) (name : Bytes) : Tables × ℕ :=
  match if luck.select then db.tags.find? (·.name == name) else none with
  | some t => (db, t.id)
  | none =>
    if h : luck.insert ∧ name ∉ db.tags.map TagRow.name then
      (db.addTag name h.2, db.sequence + 1)
    else (db, 0)

theorem mem_namesOf : n ∈ db.namesOf post ↔
    ∃ t ∈ db.tags, (post, t.id) ∈ db.links ∧ t.name = n := by
  simp [namesOf, and_assoc]

theorem nodup_namesOf (db : Tables) (post : ℤ) : (db.namesOf post).Nodup :=
  db.names.sublist (List.filter_sublist.map _)

theorem namesOf_dbTagClearByPost (db : Tables) (post : ℤ) :
    (db.dbTagClearByPost post).namesOf post = [] := by
  simp [namesOf, dbTagClearByPost]

theorem mem_namesOf_addTag (h : name ∉ db.tags.map TagRow.name) :
    n ∈ (db.addTag name h).namesOf post ↔ n ∈ db.namesOf post := by
  rw [mem_namesOf, mem_namesOf]
  constructor
  · rintro ⟨t, ht, hlink, rfl⟩
    rcases List.mem_append.mp ht with ht | ht
    · exact ⟨t, ht, hlink, rfl⟩
    · rw [List.mem_singleton.mp ht] at hlink
      exact absurd (db.link_range _ hlink) (Nat.not_succ_le_self db.sequence)
  · rintro ⟨t, ht, hlink, rfl⟩
    exact ⟨t, List.mem_append_left _ ht, hlink, rfl⟩

/-- No statement of `db_tag_get_or_create` links a tag; the id that it returns is that of the
row with this name. -/
theorem dbTagGetOrCreate_cases (luck : Luck) (db : Tables) (name : Bytes) :
    (∀ post n, n ∈ (dbTagGetOrCreate luck db name).1.namesOf post ↔ n ∈ db.namesOf post) ∧
      ((dbTagGetOrCreate luck db name).2 = 0 ∨
        ⟨(dbTagGetOrCreate luck db name).2, name⟩ ∈ (dbTagGetOrCreate luck db name).1.tags) := by
  rw [dbTagGetOrCreate]
  split
  · next t ht =>
    refine ⟨fun _ _ => Iff.rfl, .inr ?_⟩
    split at ht
    · have hname : t.name = name := by simpa using List.find?_some ht
      rw [← hname]
      exact List.mem_of_find?_eq_some ht
    · exact nomatch ht
  · split
    · next h => exact ⟨fun _ _ => mem_namesOf_addTag h.2, .inr (List.mem_append_right _ (by simp))⟩
    · exact ⟨fun _ _ => Iff.rfl, .inl rfl⟩

theorem dbTagGetOrCreate_ok (db : Tables) (name : Bytes) :
    (dbTagGetOrCreate ⟨true, true, true⟩ db name).2 ≠ 0 := by
  rw [dbTagGetOrCreate]
  split
  · next t ht => exact (db.id_range t (List.mem_of_find?_eq_some ht)).1.ne'
  · next hnone =>
    rw [if_pos rfl] at hnone
    have hfree : name ∉ db.tags.map TagRow.name := by
      intro hmem
      obtain ⟨t, ht, hname⟩ := List.mem_map.mp hmem
      exact List.find?_eq_none.mp hnone t ht (beq_iff_eq.mpr hname)
    rw [dif_pos ⟨rfl, hfree⟩]
    exact Nat.succ_ne_zero _

theorem mem_namesOf_addLink (ht : ⟨id, name⟩ ∈ db.tags) (h : id ∈ db.tags.map TagRow.id) :
    n ∈ (db.addLink post id h).namesOf post ↔ n = name ∨ n ∈ db.namesOf post := by
  rw [mem_namesOf, mem_namesOf]
  constructor
  · rintro ⟨t, ht', hlink, rfl⟩
    rcases List.mem_insert_iff.mp hlink with hnew | hlink
    · left
      have hsame : t = ⟨id, name⟩ :=
        List.inj_on_of_nodup_map db.ids ht' ht (congrArg Prod.snd hnew)
      rw [hsame]
    · exact .inr ⟨t, ht', hlink, rfl⟩
  · rintro (rfl | ⟨t, ht', hlink, rfl⟩)
    · exact ⟨_, ht, List.mem_insert_iff.mpr (.inl rfl), rfl⟩
    · exact ⟨t, ht', List.mem_insert_iff.mpr (.inr hlink), rfl⟩

end Tables

open Tables

/-! ## `db_tag_set_for_post` -/

variable {db : Tables} {post : ℤ} {name n : Bytes} {seen : List Bytes} {luck : ℕ → Luck} {k : ℕ}
  {pieces : List Bytes} {csv : Bytes}

def take (luck : Luck) (db : Tables) (post : ℤ) (name : Bytes) : Tables × Bool :=
  let r := dbTagGetOrCreate luck db name
  if 0 < r.2 then dbTagLink luck r.1 post r.2 else (r.1, false)

/-- The loop over the pieces; `k` counts them. -/
def setPieces (luck : ℕ → Luck) (post : ℤ) :
    ℕ → List Bytes → Tables → List Bytes → Tables × List Bytes
  | _, [], db, seen => (db, seen)
  | k, piece :: rest, db, seen =>
    if seen.length < tagMaxPerPost then
      let name := tagNormalize piece
      if name = [] ∨ name ∈ seen then setPieces luck post (k + 1) rest db seen
      else
        let r := take (luck k) db post name
        setPieces luck post (k + 1) rest r.1 (if r.2 then seen ++ [name] else seen)
    else (db, seen)

/-- `db_tag_set_for_post`: the tables and what it returns. `cleared` says whether the old
links could be deleted, `luck` which statements succeed for each piece. -/
def dbTagSetForPost (cleared : Bool) (luck : ℕ → Luck) (db : Tables) (post : ℤ)
    (csv : Option Bytes) : Tables × ℤ :=
  if post ≤ 0 then (db, 0)
  else if cleared then
    match csv with
    | none => (db.dbTagClearByPost post, 0)
    | some csv =>
      let r := setPieces luck post 0 (csv.splitOn 44) (db.dbTagClearByPost post) []
      (r.1, r.2.length)
  else (db, -1)

theorem take_cases (luck : Luck) (db : Tables) (post : ℤ) (name : Bytes) :
    (∀ n, n ∈ (take luck db post name).1.namesOf post ↔
      (n = name ∧ (take luck db post name).2 = true) ∨ n ∈ db.namesOf post) := by
  obtain ⟨hsame, hid⟩ := dbTagGetOrCreate_cases luck db name
  intro n
  rw [take]
  split
  · next hpos =>
    have ht := hid.resolve_left hpos.ne'
    rw [dbTagLink]
    split
    · next h => simp [mem_namesOf_addLink ht h.2, hsame]
    · simp [hsame]
  · simp [hsame]

theorem take_ok (db : Tables) (post : ℤ) (name : Bytes) :
    (take ⟨true, true, true⟩ db post name).2 = true := by
  have hid := (dbTagGetOrCreate_cases ⟨true, true, true⟩ db name).2
  have hne := dbTagGetOrCreate_ok db name
  have hmem := List.mem_map_of_mem (f := TagRow.id) (hid.resolve_left hne)
  rw [take, if_pos (Nat.pos_of_ne_zero hne), dbTagLink, dif_pos ⟨rfl, hmem⟩]

theorem take_failed (db : Tables) (post : ℤ) (name : Bytes) :
    take ⟨false, false, false⟩ db post name = (db, false) := by
  rfl

theorem namesOf_setPieces (h : ∀ n ∈ db.namesOf post, n ∈ seen) :
    ∀ n ∈ (setPieces luck post k pieces db seen).1.namesOf post,
      n ∈ (setPieces luck post k pieces db seen).2 := by
  induction pieces generalizing k db seen with
  | nil => exact h
  | cons piece rest ih =>
    rw [setPieces]
    split
    · dsimp only
      split
      · exact ih h
      · refine ih fun n hn => ?_
        rcases (take_cases (luck k) db post (tagNormalize piece) n).mp hn with ⟨rfl, hlinked⟩ | hn
        · rw [hlinked, if_pos rfl]
          exact List.mem_append_right _ (List.mem_singleton.mpr rfl)
        · split
          · exact List.mem_append_left _ (h n hn)
          · exact h n hn
    · exact h

theorem length_setPieces (h : seen.length ≤ tagMaxPerPost) :
    (setPieces luck post k pieces db seen).2.length ≤ tagMaxPerPost := by
  induction pieces generalizing k db seen with
  | nil => exact h
  | cons piece rest ih =>
    rw [setPieces]
    split
    · next hroom =>
      dsimp only
      split
      · exact ih h
      · apply ih
        split
        · rw [List.length_append, List.length_singleton]
          exact hroom
        · exact h
    · exact h

theorem mem_setPieces (h : n ∈ (setPieces luck post k pieces db seen).2) :
    n ∈ seen ∨ ∃ piece ∈ pieces, n = tagNormalize piece ∧ n ≠ [] := by
  induction pieces generalizing k db seen with
  | nil => exact .inl h
  | cons piece rest ih =>
    rw [setPieces] at h
    split at h
    · dsimp only at h
      split at h
      · rcases ih h with hseen | ⟨p, hp, hn⟩
        · exact .inl hseen
        · exact .inr ⟨p, List.mem_cons_of_mem _ hp, hn⟩
      · next hnew =>
        rw [not_or] at hnew
        rcases ih h with hseen | ⟨p, hp, hn⟩
        · split at hseen
          · rcases List.mem_append.mp hseen with hseen | hlast
            · exact .inl hseen
            · rw [List.mem_singleton.mp hlast]
              exact .inr ⟨piece, List.mem_cons_self, rfl, hnew.1⟩
          · exact .inl hseen
        · exact .inr ⟨p, List.mem_cons_of_mem _ hp, hn⟩
    · exact .inl h

theorem namesOf_setPieces_of_mem (h : n ∈ db.namesOf post) :
    n ∈ (setPieces luck post k pieces db seen).1.namesOf post := by
  induction pieces generalizing k db seen with
  | nil => exact h
  | cons piece rest ih =>
    rw [setPieces]
    split
    · dsimp only
      split
      · exact ih h
      · exact ih ((take_cases (luck k) db post (tagNormalize piece) n).mpr (.inr h))
    · exact h

def onlyFor (j k : ℕ) : Luck :=
  if k = j then ⟨true, true, true⟩ else ⟨false, false, false⟩

theorem namesOf_onlyFor (xs ys : List Bytes) (piece : Bytes) (hne : tagNormalize piece ≠ []) :
    tagNormalize piece ∈
      (setPieces (onlyFor (k + xs.length)) post k (xs ++ piece :: ys) db []).1.namesOf post := by
  have hroom : ([] : List Bytes).length < tagMaxPerPost := by decide
  induction xs generalizing k with
  | nil =>
    have hluck : onlyFor (k + ([] : List Bytes).length) k = ⟨true, true, true⟩ := if_pos rfl
    rw [List.nil_append, setPieces, if_pos hroom]
    dsimp only
    rw [if_neg (by simpa using hne), hluck, take_ok]
    apply namesOf_setPieces_of_mem
    exact (take_cases _ db post _ _).mpr (.inl ⟨rfl, take_ok db post _⟩)
  | cons x xs ih =>
    have hluck : onlyFor (k + (x :: xs).length) k = ⟨false, false, false⟩ := by
      rw [onlyFor, if_neg]
      rw [List.length_cons]
      omega
    have hindex : k + (x :: xs).length = k + 1 + xs.length := by
      rw [List.length_cons]
      omega
    have hrest := ih (k := k + 1)
    rw [List.cons_append, setPieces, if_pos hroom]
    dsimp only
    rw [hluck, take_failed, if_neg Bool.false_ne_true, hindex, ite_self]
    exact hrest

/-! ## Without failures -/

def noFailure (_ : ℕ) : Luck := ⟨true, true, true⟩

def note (seen : List Bytes) (name : Bytes) : List Bytes :=
  if seen.contains name then seen else seen ++ [name]

theorem isPrefix_note (names seen : List Bytes) : seen <+: names.foldl note seen := by
  induction names generalizing seen with
  | nil => exact List.prefix_rfl
  | cons name names ih =>
    refine List.IsPrefix.trans ?_ (ih (note seen name))
    rw [note]
    split
    · exact List.prefix_rfl
    · exact List.prefix_append _ _

theorem setPieces_noFailure (hlen : seen.length ≤ tagMaxPerPost)
    (h : ∀ n, n ∈ db.namesOf post ↔ n ∈ seen) :
    ∀ n, n ∈ (setPieces noFailure post k pieces db seen).1.namesOf post ↔
      n ∈ (((pieces.map tagNormalize).filter (· ≠ [])).foldl note seen).take tagMaxPerPost := by
  induction pieces generalizing k db seen with
  | nil =>
    have htake : seen.take tagMaxPerPost = seen := List.take_of_length_le hlen
    intro n
    rw [setPieces, h, List.map_nil, List.filter_nil, List.foldl_nil, htake]
  | cons piece rest ih =>
    rw [setPieces]
    split
    · next hroom =>
      dsimp only
      rw [List.map_cons]
      by_cases hnil : tagNormalize piece = []
      · rw [if_pos (.inl hnil), List.filter_cons_of_neg (by simpa using hnil)]
        exact ih hlen h
      · rw [List.filter_cons_of_pos (by simpa using hnil), List.foldl_cons, note]
        by_cases hmem : tagNormalize piece ∈ seen
        · rw [if_pos (.inr hmem), if_pos (List.contains_iff_mem.mpr hmem)]
          exact ih hlen h
        · have hnew : ¬(tagNormalize piece = [] ∨ tagNormalize piece ∈ seen) := by
            rw [not_or]
            exact ⟨hnil, hmem⟩
          have hlinked : (take (noFailure k) db post (tagNormalize piece)).2 = true :=
            take_ok db post _
          rw [if_neg hnew, if_neg (mt List.contains_iff_mem.mp hmem), hlinked, if_pos rfl]
          apply ih
          · rw [List.length_append, List.length_singleton]
            exact hroom
          · intro n
            rw [take_cases, h, hlinked, List.mem_append, List.mem_singleton]
            simp [or_comm]
    · next hfull =>
      have hlast : seen.length = tagMaxPerPost := Nat.le_antisymm hlen (Nat.not_lt.mp hfull)
      obtain ⟨more, hmore⟩ :=
        isPrefix_note (((piece :: rest).map tagNormalize).filter (· ≠ [])) seen
      intro n
      rw [← hmore, ← hlast, List.take_left]
      exact h n

theorem dbTagSetForPost_some {cleared : Bool} (hpost : 0 < post) :
    dbTagSetForPost cleared luck db post (some csv) =
      if cleared then
        ((setPieces luck post 0 (csv.splitOn 44) (db.dbTagClearByPost post) []).1,
          ((setPieces luck post 0 (csv.splitOn 44) (db.dbTagClearByPost post) []).2.length : ℤ))
      else (db, -1) := by
  rw [dbTagSetForPost, if_neg (Int.not_le.mpr hpost)]

theorem mem_namesOf_noFailure (hpost : 0 < post) (csv : Bytes) :
    n ∈ (dbTagSetForPost true noFailure db post (some csv)).1.namesOf post ↔ n ∈ tagsOf csv := by
  rw [dbTagSetForPost_some hpost, if_pos rfl]
  refine setPieces_noFailure (Nat.zero_le _) ?_ n
  intro n
  rw [namesOf_dbTagClearByPost]

/-! ## Stored tags can be looked up -/

/-- Whichever statements fail: the names that a call leaves with the post are accepted by
`db_tag_name_valid`, differ, are not too many, and are valid UTF-8 where the list was. -/
def StoredUsable (post : ℤ) (csv : Bytes) : Prop :=
  ∀ cleared luck db, 0 ≤ (dbTagSetForPost cleared luck db post (some csv)).2 →
    let names := (dbTagSetForPost cleared luck db post (some csv)).1.namesOf post
    (∀ name ∈ names, dbTagNameValid name = true) ∧ names.Nodup ∧
      names.length ≤ tagMaxPerPost ∧ (ValidUtf8 csv → ∀ name ∈ names, ValidUtf8 name)

theorem storedUsable_of_cutsWell (hpost : 0 < post)
    (h : ∀ piece ∈ csv.splitOn 44, CutsWell (cutName (tidy piece))) : StoredUsable post csv := by
  intro cleared luck db hdone names
  have hcleared : cleared = true := by
    cases cleared with
    | true => rfl
    | false =>
      rw [dbTagSetForPost_some hpost, if_neg Bool.false_ne_true] at hdone
      exact absurd hdone (show ¬(0 : ℤ) ≤ -1 by decide)
  have hnames : names = (setPieces luck post 0 (csv.splitOn 44) (db.dbTagClearByPost post)
      []).1.namesOf post := by
    change (dbTagSetForPost cleared luck db post (some csv)).1.namesOf post = _
    rw [dbTagSetForPost_some hpost, if_pos hcleared]
  have hnoted : ∀ n ∈ names, n ∈ (setPieces luck post 0 (csv.splitOn 44)
      (db.dbTagClearByPost post) []).2 := by
    rw [hnames]
    apply namesOf_setPieces
    rw [namesOf_dbTagClearByPost]
    exact List.forall_mem_nil _
  have hpiece : ∀ n ∈ names, ∃ piece ∈ csv.splitOn 44, n = tagNormalize piece ∧ n ≠ [] :=
    fun n hn => (mem_setPieces (hnoted n hn)).resolve_left List.not_mem_nil
  have hnodup : names.Nodup := nodup_namesOf _ post
  refine ⟨?_, hnodup, ?_, ?_⟩
  · intro n hn
    obtain ⟨piece, hmem, rfl, hne⟩ := hpiece n hn
    exact (usable_iff piece).mpr (h piece hmem) hne
  · exact (hnodup.subperm hnoted).length_le.trans (length_setPieces (Nat.zero_le _))
  · intro hvalid n hn
    obtain ⟨piece, hmem, rfl, -⟩ := hpiece n hn
    exact validUtf8_tagNormalize (validUtf8_pieces hvalid piece hmem)

theorem cutsWell_of_storedUsable (hpost : 0 < post) (h : StoredUsable post csv) :
    ∀ piece ∈ csv.splitOn 44, CutsWell (cutName (tidy piece)) := by
  intro piece hmem
  rw [← usable_iff]
  intro hne
  obtain ⟨xs, ys, hpieces⟩ := List.append_of_mem hmem
  let db : Tables := ⟨[], [], 0, List.forall_mem_nil _, List.forall_mem_nil _, .nil, .nil⟩
  have hstored : tagNormalize piece ∈ (setPieces (onlyFor (0 + xs.length)) post 0
      (xs ++ piece :: ys) (db.dbTagClearByPost post) []).1.namesOf post :=
    namesOf_onlyFor xs ys piece hne
  have hall := h true (onlyFor (0 + xs.length)) db
  rw [dbTagSetForPost_some hpost, if_pos rfl, hpieces] at hall
  exact (hall (Int.natCast_nonneg _)).1 _ hstored

theorem cutsWell_of_whole (h : wholeChars t = t) : CutsWell t :=
  fun u hu => absurd hu (wholeChars_eq_self_iff.mp h u)

/-- Every name that can be stored for this list is usable exactly where every piece is cut
well: cut at `DB_TAG_MAX_BYTES`, it does not end within a character, or what stands before
that character is empty, or neither ends in a space nor within a character itself. -/
theorem storedUsable_iff {csv : Bytes} (hpost : 0 < post) :
    StoredUsable post csv ↔ ∀ piece ∈ csv.splitOn 44, CutsWell (cutName (tidy piece)) :=
  ⟨cutsWell_of_storedUsable hpost, storedUsable_of_cutsWell hpost⟩

/-- Two tags, the second one in Hangul. -/
theorem twoTags_usable :
    StoredUsable 1 (bytes "Formal  Verification, #" ++ [0xED, 0x95, 0x9C, 0xEA, 0xB5, 0xAD]) := by
  refine (storedUsable_iff (by decide)).mpr fun piece hmem => ?_
  have hwhole : ∀ piece ∈ (bytes "Formal  Verification, #" ++
      [0xED, 0x95, 0x9C, 0xEA, 0xB5, 0xAD]).splitOn 44,
      wholeChars (cutName (tidy piece)) = cutName (tidy piece) := by decide +kernel
  exact cutsWell_of_whole (hwhole piece hmem)

/-- Fifteen syllables of Hangul, a space and a sixteenth one. -/
def longTag : Bytes :=
  (List.replicate 15 [0xED, 0x95, 0x9C]).flatten ++ [32] ++ [0xEA, 0xB5, 0xAD]

/-- The sixteenth syllable does not fit, and the space before it stays. -/
theorem longTag_unusable : ¬∀ post csv, 0 < post → 0 ∉ csv → StoredUsable post csv := by
  intro h
  have hwell := cutsWell_of_storedUsable Int.one_pos (h 1 longTag (by decide) (by decide +kernel))
  have hspace : EndsShort (cutName (tidy longTag))
      ((List.replicate 15 [0xED, 0x95, 0x9C]).flatten ++ [32]) :=
    ⟨0xEA, [], by decide +kernel, by decide, List.forall_mem_nil _⟩
  rcases hwell longTag (by decide +kernel) _ hspace with hnil | ⟨hlast, -⟩
  · exact absurd hnil (by decide)
  · exact absurd hlast (by decide)

end FlyBoard.Tags

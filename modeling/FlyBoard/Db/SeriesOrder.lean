import FlyBoard.Lib.Ranking
import FlyBoard.Db.Series
import Mathlib.Data.Prod.Lex

/-!
# The order of a series after a move (`src/db/series.c`)

`db_post_set_series` numbers the series that a post joins and the one that it leaves, keeps the
order of the other posts, and puts the post where it is asked to stand. A post that stays in its
series and names no place is put back at its old number, which need not be its old place.
-/

namespace FlyBoard.SeriesDb

open Bytes Keyed

/-! ## The reading order -/

/-- What `ORDER BY series_pos, created_at, id` compares. -/
def readingKey (q : Post) : Int ×ₗ List ℕ ×ₗ Int :=
  toLex (q.seriesPos, toLex (textKey q.createdAt, q.id))

variable {a b : Post}

theorem before_iff : before a b = true ↔ readingKey a < readingKey b := by
  rw [readingKey, readingKey, Prod.Lex.toLex_lt_toLex, Prod.Lex.toLex_lt_toLex, before]
  simp only [Bool.or_eq_true, Bool.and_eq_true, decide_eq_true_eq, beq_iff_eq,
    textKey_injective.eq_iff]

theorem before_of_pos_lt (h : a.seriesPos < b.seriesPos) : before a b = true := by
  rw [before, decide_eq_true h, Bool.true_or]

theorem before_asymm (h : before a b = true) : before b a = false :=
  Bool.eq_false_iff.mpr fun h' => lt_irrefl _ ((before_iff.mp h).trans (before_iff.mp h'))

theorem before_irrefl (a : Post) : before a a = false :=
  Bool.eq_false_iff.mpr fun h => lt_irrefl _ (before_iff.mp h)

def members (posts : Posts) (seriesId except : Int) : List Post :=
  posts.rows.filter (isMember seriesId except)

theorem mem_members {posts : Posts} {seriesId except : Int} {q : Post} :
    q ∈ members posts seriesId except ↔
      q ∈ posts.rows ∧ q.seriesId = some seriesId ∧ q.id ≠ except := by
  rw [members, List.mem_filter, isMember_iff]

theorem count_eq (posts : Posts) (seriesId except : Int) :
    count posts seriesId except = (members posts seriesId except).length := by
  rw [count, members, List.countP_eq_length_filter]

theorem rank_eq (posts : Posts) (seriesId except : Int) (q : Post) :
    rank posts seriesId except q =
      1 + Ranking.rank readingKey (members posts seriesId except) q := by
  have hcount : posts.rows.countP (fun r => isMember seriesId except r && before r q) =
      Ranking.rank readingKey (members posts seriesId except) q := by
    rw [Ranking.rank, members, List.countP_filter]
    refine List.countP_congr fun r _ => ?_
    rw [Bool.and_eq_true, Bool.and_eq_true, decide_eq_true_iff, before_iff, and_comm]
  rw [rank, hcount]

section Ranks

variable {posts : Posts} {seriesId except : Int} {q r : Post}

theorem nodup_members (posts : Posts) (seriesId except : Int) :
    (members posts seriesId except).Nodup :=
  (List.Nodup.of_map _ posts.keyed).filter _

theorem rank_lt_rank_iff (hq : q ∈ members posts seriesId except) :
    rank posts seriesId except q < rank posts seriesId except r ↔ before q r = true := by
  rw [rank_eq, rank_eq, before_iff, ← Ranking.rank_lt_rank_iff hq]
  omega

theorem rank_le_rank (h : before q r = true) :
    rank posts seriesId except q ≤ rank posts seriesId except r := by
  rw [rank_eq, rank_eq]
  have hle := Ranking.rank_le_rank (l := members posts seriesId except) (before_iff.mp h).le
  omega

theorem rank_le (q : Post) :
    1 ≤ rank posts seriesId except q ∧
      rank posts seriesId except q ≤ count posts seriesId except + 1 := by
  rw [rank_eq, count_eq]
  have hle : Ranking.rank readingKey (members posts seriesId except) q ≤
      (members posts seriesId except).length := List.countP_le_length
  omega

theorem rank_bounds (hq : q ∈ members posts seriesId except) :
    1 ≤ rank posts seriesId except q ∧
      rank posts seriesId except q ≤ count posts seriesId except := by
  rw [rank_eq, count_eq]
  have hlt := Ranking.rank_lt_length (f := readingKey) hq
  omega

theorem rank_inj (hq : q ∈ members posts seriesId except) (hr : r ∈ members posts seriesId except)
    (h : rank posts seriesId except q = rank posts seriesId except r) : q = r := by
  have hnot : ¬ readingKey q < readingKey r := by
    rw [← before_iff, ← rank_lt_rank_iff hq]
    omega
  have hnot' : ¬ readingKey r < readingKey q := by
    rw [← before_iff, ← rank_lt_rank_iff hr]
    omega
  have hkey : readingKey q = readingKey r := le_antisymm (not_lt.mp hnot') (not_lt.mp hnot)
  have hid : q.id = r.id := congrArg (fun k => (ofLex (ofLex k).2).2) hkey
  exact posts.eq_of_key_eq (mem_members.mp hq).1 (mem_members.mp hr).1 hid

theorem exists_rank {k : Int} (h1 : 1 ≤ k) (hk : k ≤ count posts seriesId except) :
    ∃ q ∈ members posts seriesId except, rank posts seriesId except q = k := by
  rw [count_eq] at hk
  refine Ranking.exists_of_injOn (nodup_members _ _ _) (fun _ hq _ hr => rank_inj hq hr)
    (fun _ hq => ?_) h1 hk
  rw [← count_eq]
  exact rank_bounds hq

end Ranks

/-! ## The rows after a move -/

section Rows

variable {posts : Posts} {p : Post} {seriesId pos : Int} {q : Post}

def landed (posts : Posts) (p : Post) (seriesId pos : Int) : Int :=
  askedPlace pos (p.seriesId.getD 0) p.seriesPos seriesId (count posts seriesId p.id)

/-- What becomes of a row when `p` moves into a series. -/
def after (posts : Posts) (p : Post) (seriesId pos : Int) (q : Post) : Post :=
  if q.id = p.id then
    { q with seriesId := some seriesId, seriesPos := landed posts p seriesId pos }
  else { q with seriesPos := newPos posts p seriesId pos q }

def Mapped (posts posts' : Posts) : Prop :=
  ∃ f : Post → Post, (∀ q, (f q).id = q.id) ∧ posts'.rows = posts.rows.map f

theorem Mapped.update {posts' : Posts} (h : Mapped posts posts') {f : Post → Post}
    (hf : ∀ q, (f q).id = q.id) : Mapped posts (posts'.update f hf) := by
  rcases h with ⟨g, hg, hrows⟩
  refine ⟨f ∘ g, fun q => (hf _).trans (hg q), ?_⟩
  rw [← List.map_map, ← hrows]
  rfl

theorem Mapped.refl (posts : Posts) : Mapped posts posts :=
  ⟨id, fun _ => rfl, (List.map_id _).symm⟩

theorem mapped_moved : Mapped posts (moved posts p seriesId pos) := by
  have hplace (sid : Option Int) (n : Int) : Mapped posts (place posts p.id sid n) :=
    (Mapped.refl posts).update _
  have hset {t : Posts} (h : Mapped posts t) (series except : Int) (f : Post → Int) :
      Mapped posts (setPositions t series except f) := h.update _
  rw [moved]
  dsimp only
  split_ifs
  · exact hset (hplace ..) ..
  · exact hplace ..
  · exact (hset (hset (hset (hplace ..) ..) ..) ..).update _
  · exact (hset (hset (hplace ..) ..) ..).update _

theorem find?_moved_self (hp : p ∈ posts.rows) (hs : 0 < seriesId) :
    (moved posts p seriesId pos).find? p.id = some
      { p with seriesId := some seriesId, seriesPos := landed posts p seriesId pos } := by
  have hfind : posts.find? p.id = some p := Table.find?_eq_some.mpr ⟨hp, rfl⟩
  generalize hq : ({ p with seriesId := some seriesId, seriesPos := 0 } : Post) = q
  have hid : q.id = p.id := by rw [← hq]
  have hplace : (place posts p.id (some seriesId) 0).find? q.id = some q := by
    rw [find?_place, hid, hfind, Option.map_some, if_pos rfl, hq]
  -- no renumbering counts it among the members
  have hself : isMember seriesId p.id q = false := by
    rw [isMember, hid, bne_self_eq_false, Bool.and_false]
  have hjoined {t : Posts} (ht : t.find? q.id = some q) (f : Post → Int) (n : Int) :
      (place (setPositions (renumber t seriesId p.id) seriesId p.id f) p.id (some seriesId)
        n).find? p.id = some { p with seriesId := some seriesId, seriesPos := n } := by
    have hkeep := find?_renumber ht seriesId p.id
    rw [hself, if_neg Bool.false_ne_true, hid] at hkeep
    rw [find?_place, find?_setPositions, hkeep, Option.map_some, hself, if_neg Bool.false_ne_true,
      Option.map_some, if_pos hid, ← hq]
  rw [moved]
  dsimp only
  rw [if_neg (by omega), landed]
  split_ifs with hold
  · have hother : isMember (p.seriesId.getD 0) 0 q = false := by
      refine Bool.eq_false_iff.mpr fun h => hold.2 ?_
      have hseries := (isMember_iff.mp h).1
      rw [← hq] at hseries
      exact (Option.some.inj hseries).symm
    have hleft := find?_renumber hplace (p.seriesId.getD 0) 0
    rw [hother, if_neg Bool.false_ne_true] at hleft
    rw [hjoined hleft, count_renumber, count_renumber, count_place]
  · rw [hjoined hplace, count_renumber, count_place]

theorem rows_moved (hp : p ∈ posts.rows) (hs : 0 < seriesId) :
    (moved posts p seriesId pos).rows = posts.rows.map (after posts p seriesId pos) := by
  have hmapped : Mapped posts (moved posts p seriesId pos) := mapped_moved
  rcases hmapped with ⟨f, hf, hrows⟩
  rw [hrows]
  refine List.map_congr_left fun q hq => ?_
  have hfound : (moved posts p seriesId pos).find? q.id = some (f q) := by
    refine Table.find?_eq_some.mpr ⟨?_, hf q⟩
    rw [hrows]
    exact List.mem_map_of_mem hq
  rw [after]
  split
  · rename_i hid
    have heq : q = p := posts.eq_of_key_eq hq hp hid
    rw [heq, find?_moved_self hp hs] at hfound
    rw [heq]
    exact (Option.some.inj hfound).symm
  · rename_i hid
    rw [find?_moved (Table.find?_eq_some.mpr ⟨hq, rfl⟩) hid] at hfound
    exact (Option.some.inj hfound).symm

theorem find?_after (hp : p ∈ posts.rows) (hs : 0 < seriesId) (hq : q ∈ posts.rows) :
    (moved posts p seriesId pos).find? q.id = some (after posts p seriesId pos q) := by
  refine Table.find?_eq_some.mpr ⟨?_, ?_⟩
  · rw [rows_moved hp hs]
    exact List.mem_map_of_mem hq
  · rw [after]
    split <;> rfl

theorem after_self : after posts p seriesId pos p =
    { p with seriesId := some seriesId, seriesPos := landed posts p seriesId pos } := if_pos rfl

theorem after_of_ne (hq : q.id ≠ p.id) : after posts p seriesId pos q =
    { q with seriesPos := newPos posts p seriesId pos q } := if_neg hq

theorem landed_bounds (posts : Posts) (p : Post) (seriesId pos : Int) :
    1 ≤ landed posts p seriesId pos ∧
      landed posts p seriesId pos ≤ count posts seriesId p.id + 1 := by
  have hcount : 0 ≤ count posts seriesId p.id := by
    rw [count_eq]
    omega
  rw [landed, askedPlace]
  split_ifs <;> omega

theorem newPos_joined (hs : 0 < seriesId) (hq : q.seriesId = some seriesId) :
    newPos posts p seriesId pos q =
      if landed posts p seriesId pos ≤ rank posts seriesId p.id q then
        rank posts seriesId p.id q + 1
      else rank posts seriesId p.id q := by
  have hstay : ¬ (0 < p.seriesId.getD 0 ∧ p.seriesId.getD 0 ≠ seriesId ∧
      q.seriesId = some (p.seriesId.getD 0)) :=
    fun h => h.2.1 (Option.some.inj (h.2.2.symm.trans hq))
  rw [newPos, if_neg hstay, if_pos ⟨hs, hq⟩, landed]

theorem newPos_left {old : Int} (hold : 0 < old) (hne : old ≠ seriesId)
    (hp : p.seriesId = some old) (hq : q.seriesId = some old) :
    newPos posts p seriesId pos q = rank posts old p.id q := by
  have hgetD : p.seriesId.getD 0 = old := by rw [hp, Option.getD_some]
  rw [newPos, hgetD, if_pos ⟨hold, hne, hq⟩]

end Rows

/-! ## What a move is for -/

/-- The posts of a series stand at 1, 2, … without gaps. -/
structure Numbered (posts : Posts) (seriesId : Int) : Prop where
  range : ∀ q ∈ posts.rows, q.seriesId = some seriesId →
    1 ≤ q.seriesPos ∧ q.seriesPos ≤ count posts seriesId 0
  place : ∀ k, 1 ≤ k → k ≤ count posts seriesId 0 →
    ∃! q, q ∈ posts.rows ∧ q.seriesId = some seriesId ∧ q.seriesPos = k

def KeepsOrder (posts posts' : Posts) (seriesId except : Int) : Prop :=
  ∀ q ∈ members posts seriesId except, ∀ r ∈ members posts seriesId except,
    ∃ q' r', posts'.find? q.id = some q' ∧ posts'.find? r.id = some r' ∧
      q'.seriesId = some seriesId ∧ r'.seriesId = some seriesId ∧ before q' r' = before q r

/-- Post `p` is moved into a series, to a place or (`pos ≤ 0`) to no place in particular. -/
structure Moves (posts posts' : Posts) (p : Post) (seriesId pos : Int) : Prop where
  numbered : Numbered posts' seriesId
  place : ∃ p', posts'.find? p.id = some p' ∧ p'.seriesId = some seriesId ∧
    (0 < pos → p'.seriesPos = min (max pos 1) (count posts' seriesId 0)) ∧
    (p.seriesId ≠ some seriesId → pos ≤ 0 → p'.seriesPos = count posts' seriesId 0)
  others : KeepsOrder posts posts' seriesId p.id
  left : ∀ old, 0 < old → p.seriesId = some old → old ≠ seriesId →
    Numbered posts' old ∧ KeepsOrder posts posts' old p.id
  stays : p.seriesId = some seriesId → pos ≤ 0 → KeepsOrder posts posts' seriesId 0

/-- The place of a post that stays in its series and names none: its old number, in the series as
it is numbered now. -/
def keptPlace (posts : Posts) (p : Post) (seriesId : Int) : Int :=
  let n := count posts seriesId p.id + 1
  if 0 < p.seriesPos then min p.seriesPos n else n

/-! ## The numbers -/

section Numbers

variable {posts posts' : Posts} {p : Post} {seriesId pos : Int} {f : Post → Post} {q r : Post}

theorem numbered_of_map {l : List Post} (hl : l.Nodup) (hkey : ∀ q ∈ l, ∀ r ∈ l, f q = f r → q = r)
    (hmem : ∀ x, x ∈ members posts' seriesId 0 ↔ ∃ q ∈ l, f q = x)
    (hinj : ∀ q ∈ l, ∀ r ∈ l, (f q).seriesPos = (f r).seriesPos → q = r)
    (hrange : ∀ q ∈ l, 1 ≤ (f q).seriesPos ∧ (f q).seriesPos ≤ l.length) :
    count posts' seriesId 0 = l.length ∧ Numbered posts' seriesId := by
  have hperm : (members posts' seriesId 0).Perm (l.map f) := by
    refine (List.perm_ext_iff_of_nodup (nodup_members _ _ _) (hl.map_on hkey)).mpr fun x => ?_
    rw [hmem, List.mem_map]
  have hcount : count posts' seriesId 0 = l.length := by
    rw [count_eq, hperm.length_eq, List.length_map]
  have hmember : ∀ x ∈ posts'.rows, x.seriesId = some seriesId → ∃ q ∈ l, f q = x := by
    intro x hx hseries
    have hpos := x.id_pos
    exact (hmem x).mp (mem_members.mpr ⟨hx, hseries, by omega⟩)
  refine ⟨hcount, fun x hx hseries => ?_, fun k h1 hk => ?_⟩
  · rcases hmember x hx hseries with ⟨q, hq, rfl⟩
    rw [hcount]
    exact hrange q hq
  · rw [hcount] at hk
    rcases Ranking.exists_of_injOn hl hinj hrange h1 hk with ⟨q, hq, hqk⟩
    have hin := mem_members.mp ((hmem (f q)).mpr ⟨q, hq, rfl⟩)
    refine ⟨f q, ⟨hin.1, hin.2.1, hqk⟩, ?_⟩
    rintro x ⟨hx, hseries, hxk⟩
    rcases hmember x hx hseries with ⟨r, hr, rfl⟩
    rw [hinj r hr q hq (hxk.trans hqk.symm)]

theorem after_inj (hq : q ∈ posts.rows) (hr : r ∈ posts.rows)
    (h : after posts p seriesId pos q = after posts p seriesId pos r) : q = r := by
  have hid (a : Post) : (after posts p seriesId pos a).id = a.id := by
    rw [after]
    split <;> rfl
  exact posts.eq_of_key_eq hq hr ((hid q).symm.trans ((congrArg Post.id h).trans (hid r)))

variable (hp : p ∈ posts.rows) (hs : 0 < seriesId) {old : Int} {sid except : Int}
include hp hs

theorem mem_members_moved {sid : Int} {x : Post} :
    x ∈ members (moved posts p seriesId pos) sid 0 ↔
      ∃ q ∈ posts.rows, (after posts p seriesId pos q).seriesId = some sid ∧
        after posts p seriesId pos q = x := by
  rw [mem_members, rows_moved hp hs, List.mem_map]
  constructor
  · rintro ⟨⟨q, hq, rfl⟩, hseries, -⟩
    exact ⟨q, hq, hseries, rfl⟩
  · rintro ⟨q, hq, hseries, rfl⟩
    have hpos := (after posts p seriesId pos q).id_pos
    exact ⟨⟨q, hq, rfl⟩, hseries, by omega⟩

theorem numbered_joined : count (moved posts p seriesId pos) seriesId 0 =
    count posts seriesId p.id + 1 ∧ Numbered (moved posts p seriesId pos) seriesId := by
  have hself : p ∉ members posts seriesId p.id := fun h => (mem_members.mp h).2.2 rfl
  have hrows : ∀ q ∈ p :: members posts seriesId p.id, q ∈ posts.rows := by
    intro q hq
    rcases List.mem_cons.mp hq with rfl | hq
    · exact hp
    · exact (mem_members.mp hq).1
  have hother : ∀ q ∈ members posts seriesId p.id,
      (after posts p seriesId pos q).seriesPos = newPos posts p seriesId pos q ∧
        newPos posts p seriesId pos q =
          if landed posts p seriesId pos ≤ rank posts seriesId p.id q then
            rank posts seriesId p.id q + 1
          else rank posts seriesId p.id q := by
    intro q hq
    rcases mem_members.mp hq with ⟨-, hseries, hne⟩
    rw [after_of_ne hne]
    exact ⟨rfl, newPos_joined hs hseries⟩
  have hlanded : (after posts p seriesId pos p).seriesPos = landed posts p seriesId pos := by
    rw [after_self]
  have hlength : ((p :: members posts seriesId p.id).length : Int) =
      count posts seriesId p.id + 1 := by
    rw [count_eq, List.length_cons]
    omega
  have hbounds := landed_bounds posts p seriesId pos
  rw [← hlength]
  refine numbered_of_map (f := after posts p seriesId pos)
    (List.nodup_cons.mpr ⟨hself, nodup_members _ _ _⟩)
    (fun q hq r hr => after_inj (hrows q hq) (hrows r hr)) (fun x => ?_) ?_ ?_
  · rw [mem_members_moved hp hs]
    constructor
    · rintro ⟨q, hq, hseries, hx⟩
      refine ⟨q, ?_, hx⟩
      by_cases hid : q.id = p.id
      · rw [posts.eq_of_key_eq hq hp hid]
        exact List.mem_cons_self
      · rw [after_of_ne hid] at hseries
        exact List.mem_cons_of_mem _ (mem_members.mpr ⟨hq, hseries, hid⟩)
    · rintro ⟨q, hq, hx⟩
      refine ⟨q, hrows q hq, ?_, hx⟩
      rcases List.mem_cons.mp hq with rfl | hq
      · rw [after_self]
      · rcases mem_members.mp hq with ⟨-, hseries, hne⟩
        rw [after_of_ne hne]
        exact hseries
  · intro q hq r hr h
    rcases List.mem_cons.mp hq with rfl | hq
    · rcases List.mem_cons.mp hr with rfl | hr
      · rfl
      · rw [hlanded, (hother r hr).1, (hother r hr).2] at h
        split_ifs at h <;> omega
    · rw [(hother q hq).1, (hother q hq).2] at h
      rcases List.mem_cons.mp hr with rfl | hr
      · rw [hlanded] at h
        split_ifs at h <;> omega
      · rw [(hother r hr).1, (hother r hr).2] at h
        refine rank_inj hq hr ?_
        split_ifs at h <;> omega
  · intro q hq
    rw [hlength]
    rcases List.mem_cons.mp hq with rfl | hq
    · rw [hlanded]
      exact hbounds
    · have hrank := rank_bounds hq
      rw [(hother q hq).1, (hother q hq).2]
      split_ifs <;> omega

theorem numbered_left (hold : 0 < old) (hne : old ≠ seriesId)
    (hleft : p.seriesId = some old) : Numbered (moved posts p seriesId pos) old := by
  have hother : ∀ q ∈ members posts old p.id,
      (after posts p seriesId pos q).seriesPos = rank posts old p.id q := by
    intro q hq
    rcases mem_members.mp hq with ⟨-, hseries, hid⟩
    rw [after_of_ne hid]
    exact newPos_left hold hne hleft hseries
  refine (numbered_of_map (l := members posts old p.id) (f := after posts p seriesId pos)
    (nodup_members _ _ _) (fun q hq r hr =>
      after_inj (mem_members.mp hq).1 (mem_members.mp hr).1) (fun x => ?_) ?_ ?_).2
  · rw [mem_members_moved hp hs]
    constructor
    · rintro ⟨q, hq, hseries, hx⟩
      refine ⟨q, ?_, hx⟩
      by_cases hid : q.id = p.id
      · rw [posts.eq_of_key_eq hq hp hid, after_self] at hseries
        exact absurd (Option.some.inj hseries).symm hne
      · rw [after_of_ne hid] at hseries
        exact mem_members.mpr ⟨hq, hseries, hid⟩
    · rintro ⟨q, hq, hx⟩
      rcases mem_members.mp hq with ⟨hrow, hseries, hid⟩
      refine ⟨q, hrow, ?_, hx⟩
      rw [after_of_ne hid]
      exact hseries
  · intro q hq r hr h
    rw [hother q hq, hother r hr] at h
    exact rank_inj hq hr h
  · intro q hq
    rw [hother q hq, ← count_eq]
    exact rank_bounds hq

omit hp hs in
/-- New numbers that compare as the posts are read keep the order. -/
theorem before_congr (hlt : ∀ a ∈ members posts sid except, ∀ b ∈ members posts sid except,
      before a b = true → (f a).seriesPos < (f b).seriesPos)
    (hq : q ∈ members posts sid except) (hr : r ∈ members posts sid except) :
    before (f q) (f r) = before q r := by
  rcases lt_trichotomy (readingKey q) (readingKey r) with h | h | h
  · have hqr := before_iff.mpr h
    rw [hqr, before_of_pos_lt (hlt q hq r hr hqr)]
  · have heq : q = r := posts.eq_of_key_eq (mem_members.mp hq).1 (mem_members.mp hr).1
      (congrArg (fun k => (ofLex (ofLex k).2).2) h)
    rw [heq, before_irrefl, before_irrefl]
  · have hrq := before_iff.mpr h
    rw [before_asymm hrq, before_asymm (before_of_pos_lt (hlt r hr q hq hrq))]

theorem keepsOrder_of_lt (hseries : ∀ q ∈ members posts sid except,
      (after posts p seriesId pos q).seriesId = some sid)
    (hlt : ∀ a ∈ members posts sid except, ∀ b ∈ members posts sid except, before a b = true →
      (after posts p seriesId pos a).seriesPos < (after posts p seriesId pos b).seriesPos) :
    KeepsOrder posts (moved posts p seriesId pos) sid except := by
  intro q hq r hr
  exact ⟨_, _, find?_after hp hs (mem_members.mp hq).1, find?_after hp hs (mem_members.mp hr).1,
    hseries q hq, hseries r hr, before_congr hlt hq hr⟩

theorem keepsOrder_of_newPos (hlt : ∀ a ∈ members posts sid p.id, ∀ b ∈ members posts sid p.id,
      rank posts sid p.id a < rank posts sid p.id b →
        newPos posts p seriesId pos a < newPos posts p seriesId pos b) :
    KeepsOrder posts (moved posts p seriesId pos) sid p.id := by
  refine keepsOrder_of_lt hp hs (fun q hq => ?_) fun a ha b hb h => ?_
  · rw [after_of_ne (mem_members.mp hq).2.2]
    exact (mem_members.mp hq).2.1
  · rw [after_of_ne (mem_members.mp ha).2.2, after_of_ne (mem_members.mp hb).2.2]
    exact hlt a ha b hb ((rank_lt_rank_iff ha).mpr h)

theorem keepsOrder_joined :
    KeepsOrder posts (moved posts p seriesId pos) seriesId p.id := by
  refine keepsOrder_of_newPos hp hs fun a ha b hb hrank => ?_
  rw [newPos_joined hs (mem_members.mp ha).2.1, newPos_joined hs (mem_members.mp hb).2.1]
  split_ifs <;> omega

theorem keepsOrder_left (hold : 0 < old) (hne : old ≠ seriesId) (hleft : p.seriesId = some old) :
    KeepsOrder posts (moved posts p seriesId pos) old p.id := by
  refine keepsOrder_of_newPos hp hs fun a ha b hb hrank => ?_
  rwa [newPos_left hold hne hleft (mem_members.mp ha).2.1,
    newPos_left hold hne hleft (mem_members.mp hb).2.1]

/-- A post that stays keeps the reading order when it is put back at its rank. -/
theorem keepsOrder_of_rank (hrank : landed posts p seriesId pos = rank posts seriesId p.id p) :
    KeepsOrder posts (moved posts p seriesId pos) seriesId 0 := by
  have hmember : ∀ q ∈ members posts seriesId 0, q.id ≠ p.id →
      q ∈ members posts seriesId p.id := by
    intro q hq hid
    rcases mem_members.mp hq with ⟨hrow, hseries, -⟩
    exact mem_members.mpr ⟨hrow, hseries, hid⟩
  have hself : ∀ q ∈ members posts seriesId 0, q.id = p.id → q = p :=
    fun q hq hid => posts.eq_of_key_eq (mem_members.mp hq).1 hp hid
  refine keepsOrder_of_lt hp hs (fun q hq => ?_) fun a ha b hb h => ?_
  · rw [after]
    split
    · rfl
    · exact (mem_members.mp hq).2.1
  · by_cases hap : a.id = p.id
    · rw [hself a ha hap] at h ⊢
      by_cases hbp : b.id = p.id
      · rw [hself b hb hbp, before_irrefl] at h
        exact nomatch h
      · have hle : rank posts seriesId p.id p ≤ rank posts seriesId p.id b := rank_le_rank h
        rw [after_self, after_of_ne hbp]
        dsimp only
        rw [newPos_joined hs (mem_members.mp hb).2.1]
        split_ifs <;> omega
    · by_cases hbp : b.id = p.id
      · rw [hself b hb hbp] at h ⊢
        have hlt := (rank_lt_rank_iff (hmember a ha hap)).mpr h
        rw [after_self, after_of_ne hap]
        dsimp only
        rw [newPos_joined hs (mem_members.mp ha).2.1]
        split_ifs <;> omega
      · have hlt := (rank_lt_rank_iff (hmember a ha hap)).mpr h
        rw [after_of_ne hap, after_of_ne hbp]
        dsimp only
        rw [newPos_joined hs (mem_members.mp ha).2.1, newPos_joined hs (mem_members.mp hb).2.1]
        split_ifs <;> omega

theorem rank_of_keepsOrder (hstay : p.seriesId = some seriesId)
    (h : KeepsOrder posts (moved posts p seriesId pos) seriesId 0) :
    landed posts p seriesId pos = rank posts seriesId p.id p := by
  have hself : p ∈ members posts seriesId 0 := by
    have hpos := p.id_pos
    exact mem_members.mpr ⟨hp, hstay, by omega⟩
  have hread : ∀ q ∈ members posts seriesId p.id, before (after posts p seriesId pos q)
      (after posts p seriesId pos p) = before q p := by
    intro q hq
    rcases mem_members.mp hq with ⟨hrow, hseries, -⟩
    have hqpos := q.id_pos
    have hq0 : q ∈ members posts seriesId 0 := mem_members.mpr ⟨hrow, hseries, by omega⟩
    rcases h q hq0 p hself with ⟨q', p', hq', hp', -, -, hbefore⟩
    rw [find?_after hp hs hrow] at hq'
    rw [find?_after hp hs hp] at hp'
    rw [Option.some.inj hq', Option.some.inj hp', hbefore]
  have hposition : ∀ q ∈ members posts seriesId p.id,
      (after posts p seriesId pos q).seriesPos =
        if landed posts p seriesId pos ≤ rank posts seriesId p.id q then
          rank posts seriesId p.id q + 1
        else rank posts seriesId p.id q := by
    intro q hq
    rw [after_of_ne (mem_members.mp hq).2.2]
    exact newPos_joined hs (mem_members.mp hq).2.1
  have hlanded : (after posts p seriesId pos p).seriesPos = landed posts p seriesId pos := by
    rw [after_self]
  have hbounds := landed_bounds posts p seriesId pos
  have hrank : 1 ≤ rank posts seriesId p.id p ∧
      rank posts seriesId p.id p ≤ count posts seriesId p.id + 1 := rank_le p
  rcases Int.lt_trichotomy (landed posts p seriesId pos) (rank posts seriesId p.id p) with
    hlt | heq | hlt
  · -- the post at the landing place came before and comes after
    have hk : landed posts p seriesId pos ≤ count posts seriesId p.id := by omega
    rcases exists_rank hbounds.1 hk with ⟨q, hq, hqr⟩
    have hbefore : before q p = true := (rank_lt_rank_iff hq).mp (by omega)
    have hafter : before (after posts p seriesId pos p) (after posts p seriesId pos q) = true := by
      refine before_of_pos_lt ?_
      rw [hlanded, hposition q hq, if_pos (by omega)]
      omega
    rw [← hread q hq, before_asymm hafter] at hbefore
    exact nomatch hbefore
  · exact heq
  · -- the post at the old rank came after and comes before
    have hk : rank posts seriesId p.id p ≤ count posts seriesId p.id := by omega
    rcases exists_rank hrank.1 hk with ⟨q, hq, hqr⟩
    have hbefore : before (after posts p seriesId pos q) (after posts p seriesId pos p) = true := by
      refine before_of_pos_lt ?_
      rw [hlanded, hposition q hq, if_neg (by omega)]
      omega
    rw [hread q hq] at hbefore
    have hrankq := (rank_lt_rank_iff hq).mpr hbefore
    omega

end Numbers

/-! ## Moves -/

/-- What is left of a series after its first parts were deleted. -/
def lateParts : Primary :=
  { twoParts with posts := ⟨[part 1 5 Int.one_pos, part 2 7 idTwo_pos], by decide⟩ }

end FlyBoard.SeriesDb

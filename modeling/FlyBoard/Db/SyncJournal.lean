import FlyBoard.Lib.Bytes

/-!
# The table `sync_journal` (`src/db/db_sync.c`, `src/engine/flywire_cluster.c`)

The rows in the order of `seq`, and the counter that AUTOINCREMENT keeps in
`sqlite_sequence`: it is never below a row's `seq`, and rows that are deleted do not
lower it. The time of a row is whatever the writer's clock said.
-/

namespace FlyBoard.Sync

/-- What a journal row says, apart from its place. -/
structure Change where
  entity : Bytes
  entityId : Int32
  op : Bytes
  payload : Bytes
deriving DecidableEq

/-- A row of `sync_journal`. -/
structure Entry where
  seq : Nat
  pos : 0 < seq
  change : Change
  createdAt : Int
deriving DecidableEq

/-- Rows in the order of `seq` are told apart by it. -/
theorem Entry.eq_of_sorted {l : List Entry} (hl : l.Pairwise fun a b => a.seq < b.seq)
    {a b : Entry} (ha : a ∈ l) (hb : b ∈ l) (h : a.seq = b.seq) : a = b := by
  induction l with
  | nil => exact absurd ha List.not_mem_nil
  | cons x l ih =>
    rcases List.pairwise_cons.mp hl with ⟨hx, hl⟩
    rcases List.mem_cons.mp ha with rfl | hal
    · rcases List.mem_cons.mp hb with rfl | hbl
      · rfl
      · exact absurd h (Nat.ne_of_lt (hx b hbl))
    · rcases List.mem_cons.mp hb with rfl | hbl
      · exact absurd h (Nat.ne_of_gt (hx a hal))
      · exact ih hl hal hbl

theorem Entry.exists_first {l : List Entry} (hl : l.Pairwise fun a b => a.seq < b.seq)
    {p : Entry → Prop} {a : Entry} (ha : a ∈ l) (hpa : p a) :
    ∃ b ∈ l, p b ∧ ∀ x ∈ l, p x → b.seq ≤ x.seq := by
  induction l with
  | nil => exact absurd ha List.not_mem_nil
  | cons x l ih =>
    rcases List.pairwise_cons.mp hl with ⟨hx, hl⟩
    by_cases hpx : p x
    · refine ⟨x, List.mem_cons_self, hpx, ?_⟩
      intro y hy _
      rcases List.mem_cons.mp hy with rfl | hy
      · exact Nat.le_refl _
      · exact Nat.le_of_lt (hx y hy)
    · -- the first one with the property is further on
      rcases List.mem_cons.mp ha with rfl | ha
      · exact absurd hpa hpx
      · rcases ih hl ha with ⟨b, hb, hpb, hmin⟩
        refine ⟨b, List.mem_cons_of_mem _ hb, hpb, ?_⟩
        intro y hy hpy
        rcases List.mem_cons.mp hy with rfl | hy
        · exact absurd hpy hpx
        · exact hmin y hy hpy

structure SyncJournal where
  rows : List Entry
  sequence : Nat
  sorted : rows.Pairwise fun a b => a.seq < b.seq
  le_sequence : ∀ r ∈ rows, r.seq ≤ sequence

namespace SyncJournal

/-- The table as `CREATE TABLE` leaves it. -/
def empty : SyncJournal := ⟨[], 0, List.Pairwise.nil, by simp⟩

/-- The row that `db_sync_journal_conn` inserts. -/
def nextEntry (j : SyncJournal) (c : Change) (now : Int) : Entry :=
  ⟨j.sequence + 1, Nat.succ_pos _, c, now⟩

/-- `db_sync_journal_conn`. -/
def append (j : SyncJournal) (c : Change) (now : Int) : SyncJournal where
  rows := j.rows ++ [j.nextEntry c now]
  sequence := j.sequence + 1
  sorted := by
    rw [List.pairwise_append]
    refine ⟨j.sorted, List.pairwise_singleton _ _, ?_⟩
    intro a ha b hb
    rw [List.mem_singleton.mp hb]
    exact Nat.lt_succ_of_le (j.le_sequence a ha)
  le_sequence := by
    intro r hr
    rcases List.mem_append.mp hr with hold | hnew
    · exact Nat.le_succ_of_le (j.le_sequence r hold)
    · rw [List.mem_singleton.mp hnew]
      exact Nat.le_refl _

/-- The rows that satisfy `p`: a DELETE of the others. -/
def keep (j : SyncJournal) (p : Entry → Bool) : SyncJournal where
  rows := j.rows.filter p
  sequence := j.sequence
  sorted := j.sorted.filter _
  le_sequence r hr := j.le_sequence r (List.mem_of_mem_filter hr)

/-- `db_sync_journal_purge` with `cutoff` for `datetime('now', '-7 days')`. -/
def purge (j : SyncJournal) (cutoff : Int) : SyncJournal :=
  j.keep fun r => cutoff ≤ r.createdAt

/-- `journal_continue_after`. -/
def continueAfter (j : SyncJournal) (base : Nat) : SyncJournal where
  rows := j.rows
  sequence := max j.sequence base
  sorted := j.sorted
  le_sequence r hr := le_trans (j.le_sequence r hr) (Nat.le_max_left _ _)

/-- `journal_truncate_after`. -/
def truncateAfter (j : SyncJournal) (base : Nat) : SyncJournal :=
  j.keep fun r => r.seq ≤ base

/-- `flywire_cluster_mirror_row`: INSERT OR REPLACE under the seq of another site. -/
def mirrorRow (j : SyncJournal) (e : Entry) : SyncJournal where
  rows := j.rows.filter (·.seq < e.seq) ++ e :: j.rows.filter (e.seq < ·.seq)
  sequence := max j.sequence e.seq
  sorted := by
    -- the rows in front, the new one, the rows behind
    rw [List.pairwise_append, List.pairwise_cons]
    refine ⟨j.sorted.filter _, ⟨?_, j.sorted.filter _⟩, ?_⟩
    · intro b hb
      simpa using (List.mem_filter.mp hb).2
    · intro a ha b hb
      have hlt : a.seq < e.seq := by simpa using (List.mem_filter.mp ha).2
      rcases List.mem_cons.mp hb with rfl | hb
      · exact hlt
      · exact hlt.trans (by simpa using (List.mem_filter.mp hb).2)
  le_sequence := by
    intro r hr
    rcases List.mem_append.mp hr with hr | hr
    · exact le_trans (j.le_sequence r (List.mem_of_mem_filter hr)) (Nat.le_max_left _ _)
    · rcases List.mem_cons.mp hr with rfl | hr
      · exact Nat.le_max_right _ _
      · exact le_trans (j.le_sequence r (List.mem_of_mem_filter hr)) (Nat.le_max_left _ _)

/-- `journal_max`: `COALESCE(MAX(seq),0)`. -/
def maxSeq (j : SyncJournal) : Nat := (j.rows.getLast?.map (·.seq)).getD 0

/-- `SELECT MIN(seq)`. -/
def minSeq (j : SyncJournal) : Option Nat := j.rows.head?.map (·.seq)

/-! ## Which rows are there -/

variable {j : SyncJournal} {r : Entry}

@[simp] theorem mem_append {c : Change} {now : Int} :
    r ∈ (j.append c now).rows ↔ r ∈ j.rows ∨ r = j.nextEntry c now := by
  simp [append]

@[simp] theorem mem_keep {p : Entry → Bool} :
    r ∈ (j.keep p).rows ↔ r ∈ j.rows ∧ p r = true := by
  simp [keep]

@[simp] theorem mem_mirrorRow {e r : Entry} :
    r ∈ (j.mirrorRow e).rows ↔ r = e ∨ r ∈ j.rows ∧ r.seq ≠ e.seq := by
  simp only [mirrorRow, List.mem_append, List.mem_cons, List.mem_filter, decide_eq_true_eq]
  constructor
  · rintro (⟨hr, hlt⟩ | rfl | ⟨hr, hlt⟩)
    · exact .inr ⟨hr, Nat.ne_of_lt hlt⟩
    · exact .inl rfl
    · exact .inr ⟨hr, Nat.ne_of_gt hlt⟩
  · rintro (rfl | ⟨hr, hne⟩)
    · exact .inr (.inl rfl)
    · rcases Nat.lt_or_gt_of_ne hne with hlt | hgt
      · exact .inl ⟨hr, hlt⟩
      · exact .inr (.inr ⟨hr, hgt⟩)

/-- `seq` is the key of the table. -/
theorem eq_of_seq_eq (j : SyncJournal) {a b : Entry} (ha : a ∈ j.rows) (hb : b ∈ j.rows)
    (h : a.seq = b.seq) : a = b :=
  Entry.eq_of_sorted j.sorted ha hb h

theorem seq_le_maxSeq (j : SyncJournal) (hr : r ∈ j.rows) : r.seq ≤ j.maxSeq := by
  have hne : j.rows ≠ [] := List.ne_nil_of_mem hr
  rw [maxSeq, List.getLast?_eq_getLast_of_ne_nil hne]
  have hsorted := j.sorted
  rw [← List.dropLast_concat_getLast hne, List.pairwise_append] at hsorted
  rw [← List.dropLast_concat_getLast hne, List.mem_append, List.mem_singleton] at hr
  rcases hr with hr | rfl
  · exact Nat.le_of_lt (hsorted.2.2 r hr _ (List.mem_singleton.mpr rfl))
  · exact Nat.le_refl _

theorem maxSeq_le_sequence (j : SyncJournal) : j.maxSeq ≤ j.sequence := by
  rw [maxSeq]
  cases h : j.rows.getLast? with
  | none => exact Nat.zero_le _
  | some r => exact j.le_sequence r (List.mem_of_getLast? h)

theorem maxSeq_append (j : SyncJournal) (c : Change) (now : Int) :
    (j.append c now).maxSeq = j.sequence + 1 := by
  rw [maxSeq, append, List.getLast?_concat]
  rfl

/-! ## What stands under a seq -/

def lookup (j : SyncJournal) (seq : Nat) : Option Change :=
  (j.rows.find? fun r => r.seq = seq).map (·.change)

variable {seq : Nat}

theorem lookup_eq_some {c : Change} :
    j.lookup seq = some c ↔ ∃ r ∈ j.rows, r.seq = seq ∧ r.change = c := by
  rw [lookup, Option.map_eq_some_iff]
  constructor
  · rintro ⟨r, hr, hc⟩
    exact ⟨r, List.mem_of_find?_eq_some hr, by simpa using List.find?_some hr, hc⟩
  · rintro ⟨r, hr, hseq, hc⟩
    have hsome : (j.rows.find? fun r => r.seq = seq).isSome := by
      rw [List.find?_isSome]
      exact ⟨r, hr, decide_eq_true hseq⟩
    -- the row that is found has the same seq, so it is the same row
    rcases Option.isSome_iff_exists.mp hsome with ⟨r', hr'⟩
    have hseq' : r'.seq = seq := by simpa using List.find?_some hr'
    have hsame : r' = r :=
      j.eq_of_seq_eq (List.mem_of_find?_eq_some hr') hr (hseq'.trans hseq.symm)
    exact ⟨r', hr', hsame ▸ hc⟩

theorem lookup_eq_none_of_maxSeq_lt (h : j.maxSeq < seq) :
    j.lookup seq = none := by
  rw [Option.eq_none_iff_forall_ne_some]
  intro c hc
  rcases lookup_eq_some.mp hc with ⟨r, hr, rfl, -⟩
  exact absurd (j.seq_le_maxSeq hr) (Nat.not_le.mpr h)

theorem maxSeq_le_of_lookup {b : Nat} (h : ∀ q, b < q → j.lookup q = none) :
    j.maxSeq ≤ b := by
  rw [maxSeq]
  cases hlast : j.rows.getLast? with
  | none => exact Nat.zero_le _
  | some r =>
    by_contra hlt
    have hnone := h r.seq (Nat.not_le.mp hlt)
    rw [lookup_eq_some.mpr ⟨r, List.mem_of_getLast? hlast, rfl, rfl⟩] at hnone
    exact nomatch hnone

theorem lookup_eq_update {j j' : SyncJournal} {e : Entry}
    (h : ∀ r, r ∈ j'.rows ↔ r = e ∨ r ∈ j.rows ∧ r.seq ≠ e.seq) :
    j'.lookup = Function.update j.lookup e.seq (some e.change) := by
  funext q
  by_cases hq : q = e.seq
  · subst hq
    rw [Function.update_self, lookup_eq_some]
    exact ⟨e, (h e).mpr (.inl rfl), rfl, rfl⟩
  · -- the rows of every other seq are the old ones
    rw [Function.update_of_ne hq]
    apply Option.ext
    intro d
    rw [lookup_eq_some, lookup_eq_some]
    constructor
    · rintro ⟨r, hr, rfl, hd⟩
      rcases (h r).mp hr with rfl | ⟨hold, -⟩
      · exact absurd rfl hq
      · exact ⟨r, hold, rfl, hd⟩
    · rintro ⟨r, hr, rfl, hd⟩
      exact ⟨r, (h r).mpr (.inr ⟨hr, hq⟩), rfl, hd⟩

theorem lookup_append (j : SyncJournal) (c : Change) (now : Int) :
    (j.append c now).lookup = Function.update j.lookup (j.sequence + 1) (some c) := by
  apply lookup_eq_update (e := j.nextEntry c now)
  intro r
  rw [mem_append]
  constructor
  · rintro (hold | rfl)
    · have hle := j.le_sequence r hold
      exact .inr ⟨hold, fun heq => absurd (heq ▸ hle) (Nat.not_succ_le_self _)⟩
    · exact .inl rfl
  · rintro (rfl | ⟨hold, -⟩)
    · exact .inr rfl
    · exact .inl hold

theorem lookup_truncateAfter (j : SyncJournal) (base q : Nat) :
    (j.truncateAfter base).lookup q = if q ≤ base then j.lookup q else none := by
  apply Option.ext
  intro d
  rw [lookup_eq_some]
  split
  · rename_i hq
    rw [lookup_eq_some]
    constructor
    · rintro ⟨r, hr, hseq, hd⟩
      exact ⟨r, (mem_keep.mp hr).1, hseq, hd⟩
    · rintro ⟨r, hr, rfl, hd⟩
      exact ⟨r, mem_keep.mpr ⟨hr, decide_eq_true hq⟩, rfl, hd⟩
  · rename_i hq
    constructor
    · rintro ⟨r, hr, rfl, -⟩
      exact absurd (of_decide_eq_true (mem_keep.mp hr).2) hq
    · exact nofun

theorem lookup_mirrorRow (j : SyncJournal) (e : Entry) :
    (j.mirrorRow e).lookup = Function.update j.lookup e.seq (some e.change) :=
  lookup_eq_update fun _ => mem_mirrorRow

end SyncJournal

end FlyBoard.Sync

import FlyBoard.Db.SyncJournal
import FlyBoard.Lib.Run

/-!
# The feed (`handler_flywire_feed` in `src/engine/flywire.c`)

A replica asks for the journal rows after its checkpoint. Rows that have been purged
cannot be served any more, and the answer should say so: the handler compares the
checkpoint with the oldest row that is left. This module asks for which histories of the
journal, and which checkpoints, that is enough.
-/

namespace FlyBoard.Feed

open Sync

/-- What the handler answers: the error `journal_purged`, or a page of rows with the
checkpoint that follows it. -/
inductive Answer where
  | journalPurged
  | page (rows : List Entry) (nextSince : Nat)
deriving DecidableEq

/-- The `limit` parameter as the handler takes it. -/
def feedLimit (limit : Int) : Nat :=
  if limit < 1 then 500 else if 5000 < limit then 5000 else limit.toNat

def feedRows (j : SyncJournal) (since : Nat) (limit : Int) : List Entry :=
  (j.rows.filter fun r => since < r.seq).take (feedLimit limit)

def nextSince (since : Nat) (rows : List Entry) : Nat :=
  (rows.getLast?.map (·.seq)).getD since

/-- `handler_flywire_feed` for an authorised request. -/
def handlerFeed (j : SyncJournal) (since : Nat) (limit : Int) : Answer :=
  let minSeq := j.minSeq.getD 0
  if 0 < since ∧ 0 < minSeq ∧ since + 1 < minSeq then .journalPurged
  else
    let rows := feedRows j since limit
    .page rows (nextSince since rows)

/-! ## Histories of a journal -/

/-- A journal, and every row that was ever appended to it. -/
structure History where
  journal : SyncJournal
  appended : List Entry

inductive Event where
  | append (c : Change) (now : Int)
  | purge (cutoff : Int)
  | continueAfter (base : Nat)

def step (h : History) : Event → History
  | .append c now =>
    { journal := h.journal.append c now, appended := h.appended ++ [h.journal.nextEntry c now] }
  | .purge cutoff => { h with journal := h.journal.purge cutoff }
  | .continueAfter base => { h with journal := h.journal.continueAfter base }

def start : History := ⟨SyncJournal.empty, []⟩

/-- What is left was appended, and what was appended has increasing seqs. -/
structure History.Ok (h : History) : Prop where
  kept : ∀ r ∈ h.journal.rows, r ∈ h.appended
  sorted : h.appended.Pairwise fun a b => a.seq < b.seq
  le_sequence : ∀ r ∈ h.appended, r.seq ≤ h.journal.sequence

theorem ok_start : start.Ok := ⟨by simp [start, SyncJournal.empty], List.Pairwise.nil, by simp [start]⟩

theorem History.Ok.step {h : History} (hok : h.Ok) (e : Event) : (step h e).Ok := by
  cases e with
  | append c now =>
    -- the new seq is past the counter, and the counter past everything ever appended
    constructor
    · intro r hr
      rcases SyncJournal.mem_append.mp hr with hold | rfl
      · exact List.mem_append_left _ (hok.kept r hold)
      · exact List.mem_append_right _ (List.mem_singleton.mpr rfl)
    · refine List.pairwise_append.mpr ⟨hok.sorted, List.pairwise_singleton _ _, ?_⟩
      intro a ha b hb
      rw [List.mem_singleton.mp hb]
      exact Nat.lt_succ_of_le (hok.le_sequence a ha)
    · intro r hr
      rcases List.mem_append.mp hr with hold | hnew
      · exact Nat.le_succ_of_le (hok.le_sequence r hold)
      · rw [List.mem_singleton.mp hnew]
        exact Nat.le_refl _
  | purge cutoff =>
    refine ⟨?_, hok.sorted, hok.le_sequence⟩
    intro r hr
    exact hok.kept r (SyncJournal.mem_keep.mp hr).1
  | continueAfter base =>
    refine ⟨hok.kept, hok.sorted, ?_⟩
    intro r hr
    exact le_trans (hok.le_sequence r hr) (Nat.le_max_left _ _)

/-- `r` is the first row ever appended after `since`. -/
def History.IsNext (h : History) (since : Nat) (r : Entry) : Prop :=
  r ∈ h.appended ∧ since < r.seq ∧ ∀ r' ∈ h.appended, since < r'.seq → r.seq ≤ r'.seq

instance (h : History) (since : Nat) (r : Entry) : Decidable (h.IsNext since r) :=
  inferInstanceAs (Decidable (_ ∧ _ ∧ ∀ _ ∈ _, _))

/-- The answer leaves no gap unsaid: it is `journal_purged`, or its page holds every row
ever appended up to the next checkpoint, and the row that is due next is not gone. -/
def NoSilentGap (h : History) (since : Nat) (limit : Int) : Prop :=
  match handlerFeed h.journal since limit with
  | .journalPurged => True
  | .page rows nextSince =>
    (∀ r ∈ h.appended, since < r.seq → r.seq ≤ nextSince → r ∈ rows) ∧
      ∀ r, h.IsNext since r → r ∈ h.journal.rows

/-- The gap shows in what is left: rows are left, and all of them are past the row after a
checkpoint that is not 0. -/
def GapVisible (h : History) (since : Nat) : Prop :=
  0 < since ∧ h.journal.rows ≠ [] ∧ ∀ r ∈ h.journal.rows, since + 1 < r.seq

def between (j : SyncJournal) (since upto : Nat) : List Entry :=
  j.rows.filter fun r => since < r.seq ∧ r.seq < upto

/-- No purged row is in the way: in front of each one after the checkpoint there are rows
left, and they fill the page, or nothing that is left comes after it. -/
def GapFree (h : History) (since : Nat) (limit : Int) : Prop :=
  ∀ p ∈ h.appended, since < p.seq → p ∉ h.journal.rows →
    (∃ r ∈ h.journal.rows, since < r.seq ∧ r.seq < p.seq) ∧
      (feedLimit limit ≤ (between h.journal since p.seq).length ∨
        ∀ r ∈ h.journal.rows, r.seq < p.seq)

/-! ## The page -/

/-- In a sorted list the first `n` elements are those with fewer than `n` below them. -/
theorem mem_take_iff {l : List Entry} (hl : l.Pairwise fun a b => a.seq < b.seq) {r : Entry}
    (hr : r ∈ l) (n : Nat) : r ∈ l.take n ↔ (l.filter fun x => x.seq < r.seq).length < n := by
  induction l generalizing n with
  | nil => exact absurd hr List.not_mem_nil
  | cons a l ih =>
    rcases List.pairwise_cons.mp hl with ⟨ha, hl⟩
    cases n with
    | zero => simp
    | succ n =>
      rw [List.take_succ_cons, List.mem_cons]
      rcases List.mem_cons.mp hr with rfl | hr
      · -- nothing is below the first element
        have hnone : l.filter (fun x => x.seq < r.seq) = [] := by
          rw [List.filter_eq_nil_iff]
          intro x hx hlt
          exact absurd (of_decide_eq_true hlt) (Nat.not_lt_of_lt (ha x hx))
        simp [hnone]
      · have hlt := ha r hr
        have hne : r ≠ a := by
          rintro rfl
          exact absurd hlt (Nat.lt_irrefl _)
        simp [hne, hlt, ih hl hr n]

section Page

variable {j : SyncJournal} {since : Nat} {limit : Int}

theorem between_mono (j : SyncJournal) (since : Nat) {a b : Nat} (h : a ≤ b) :
    (between j since a).length ≤ (between j since b).length := by
  apply List.Sublist.length_le
  apply List.monotone_filter_right
  intro r hr
  simp only [decide_eq_true_eq] at hr ⊢
  exact ⟨hr.1, Nat.lt_of_lt_of_le hr.2 h⟩

/-- The page takes the rows that are left, in order, until it is full. -/
theorem mem_feedRows {r : Entry} :
    r ∈ feedRows j since limit ↔
      r ∈ j.rows ∧ since < r.seq ∧ (between j since r.seq).length < feedLimit limit := by
  -- the rows in front of `r` on the page
  have hcount : ((j.rows.filter fun r => since < r.seq).filter fun x => x.seq < r.seq) =
      between j since r.seq := by
    rw [List.filter_filter, between]
    congr 1
    funext x
    simp [Bool.and_comm]
  constructor
  · intro h
    have hmem := List.mem_of_mem_take h
    have hlt := (mem_take_iff (j.sorted.filter _) hmem _).mp h
    rw [hcount] at hlt
    rcases List.mem_filter.mp hmem with ⟨hr, hs⟩
    exact ⟨hr, of_decide_eq_true hs, hlt⟩
  · rintro ⟨hr, hs, hlt⟩
    have hmem : r ∈ j.rows.filter fun r => since < r.seq :=
      List.mem_filter.mpr ⟨hr, decide_eq_true hs⟩
    rw [← hcount] at hlt
    exact (mem_take_iff (j.sorted.filter _) hmem _).mpr hlt

/-- The next checkpoint is the greatest seq on the page, or the old one when the page is
empty. -/
theorem nextSince_cases (j : SyncJournal) (since : Nat) (limit : Int) :
    (feedRows j since limit = [] ∧ nextSince since (feedRows j since limit) = since) ∨
    ∃ x ∈ feedRows j since limit, nextSince since (feedRows j since limit) = x.seq ∧
      ∀ y ∈ feedRows j since limit, y.seq ≤ x.seq := by
  have hsorted : (feedRows j since limit).Pairwise fun a b => a.seq < b.seq :=
    (j.sorted.filter _).sublist (List.take_sublist _ _)
  cases hlast : (feedRows j since limit).getLast? with
  | none =>
    left
    rw [nextSince, hlast]
    exact ⟨List.getLast?_eq_none_iff.mp hlast, rfl⟩
  | some x =>
    right
    refine ⟨x, List.mem_of_getLast? hlast, ?_, ?_⟩
    · rw [nextSince, hlast]
      rfl
    · intro y hy
      rcases List.getLast?_eq_some_iff.mp hlast with ⟨front, hfront⟩
      rw [hfront] at hsorted hy
      rcases List.mem_append.mp hy with hy | hy
      · exact Nat.le_of_lt
          ((List.pairwise_append.mp hsorted).2.2 y hy x (List.mem_singleton.mpr rfl))
      · rw [List.mem_singleton.mp hy]

/-- The handler says `journal_purged` exactly when the gap is visible. -/
theorem handlerFeed_eq (h : History) :
    handlerFeed h.journal since limit = .journalPurged ∧ GapVisible h since ∨
    handlerFeed h.journal since limit = .page (feedRows h.journal since limit)
      (nextSince since (feedRows h.journal since limit)) ∧ ¬ GapVisible h since := by
  -- what the handler reads off MIN(seq)
  have hflag : (0 < since ∧ 0 < h.journal.minSeq.getD 0 ∧ since + 1 < h.journal.minSeq.getD 0) ↔
      GapVisible h since := by
    rw [GapVisible, SyncJournal.minSeq]
    have hsorted := h.journal.sorted
    cases hrows : h.journal.rows with
    | nil => simp
    | cons m rest =>
      rw [hrows] at hsorted
      have hmin := (List.pairwise_cons.mp hsorted).1
      simp only [List.head?_cons, Option.map_some, Option.getD_some, ne_eq, reduceCtorEq,
        not_false_eq_true, true_and, List.mem_cons, forall_eq_or_imp]
      constructor
      · rintro ⟨hs, -, hlt⟩
        exact ⟨hs, hlt, fun r hr => hlt.trans (hmin r hr)⟩
      · rintro ⟨hs, hlt, -⟩
        exact ⟨hs, m.pos, hlt⟩
  by_cases hvis : GapVisible h since
  · left
    exact ⟨if_pos (hflag.mpr hvis), hvis⟩
  · right
    exact ⟨if_neg fun hf => hvis (hflag.mp hf), hvis⟩

end Page

/-! ## When the feed leaves no silent gap -/

section Gap

variable {h : History} {since : Nat} {limit : Int}

/-- A page that leaves out no appended row has no purged row in its way. -/
theorem gapFree_of_page (hok : h.Ok)
    (hrows : ∀ r ∈ h.appended, since < r.seq →
      r.seq ≤ nextSince since (feedRows h.journal since limit) →
      r ∈ feedRows h.journal since limit)
    (hnext : ∀ r, h.IsNext since r → r ∈ h.journal.rows) : GapFree h since limit := by
  intro p hp hsp hgone
  -- no row that is left has the seq of `p`
  have hne : ∀ r ∈ h.journal.rows, r.seq ≠ p.seq := by
    intro r hr heq
    exact hgone (Entry.eq_of_sorted hok.sorted (hok.kept r hr) hp heq ▸ hr)
  constructor
  · -- the next row is left, so it comes before `p`
    rcases Entry.exists_first (p := fun r => since < r.seq) hok.sorted hp hsp with
      ⟨n, hn, hsn, hmin⟩
    have hleft := hnext n ⟨hn, hsn, hmin⟩
    have hle := hmin p hp hsp
    have hnp := hne n hleft
    exact ⟨n, hleft, hsn, by omega⟩
  · by_contra hnot
    rw [not_or, not_le] at hnot
    rcases hnot with ⟨hroom, hlater⟩
    rcases not_forall.mp hlater with ⟨r, hr⟩
    rcases Classical.not_imp.mp hr with ⟨hrow, hge⟩
    have hpr : p.seq < r.seq := by
      have hrp := hne r hrow
      omega
    -- the first row after `p` is on the page, so `p` should be there too
    rcases Entry.exists_first (p := fun r => p.seq < r.seq) h.journal.sorted hrow hpr with
      ⟨b, hb, hpb, hfirst⟩
    have hsame : between h.journal since b.seq = between h.journal since p.seq := by
      apply List.filter_congr
      intro x hx
      have hxp := hne x hx
      have hxb := hfirst x hx
      simp only [decide_eq_decide]
      omega
    have hpage : b ∈ feedRows h.journal since limit :=
      mem_feedRows.mpr ⟨hb, by omega, by rw [hsame]; exact hroom⟩
    have hreach : b.seq ≤ nextSince since (feedRows h.journal since limit) := by
      rcases nextSince_cases h.journal since limit with
        ⟨hnil, -⟩ | ⟨x, -, heq, hmax⟩
      · rw [hnil] at hpage
        exact absurd hpage List.not_mem_nil
      · rw [heq]
        exact hmax b hpage
    exact hgone (mem_feedRows.mp (hrows p hp hsp (by omega))).1

theorem page_of_gapFree (hok : h.Ok) (hfree : GapFree h since limit) :
    (∀ r ∈ h.appended, since < r.seq →
      r.seq ≤ nextSince since (feedRows h.journal since limit) →
      r ∈ feedRows h.journal since limit) ∧
    ∀ r, h.IsNext since r → r ∈ h.journal.rows := by
  constructor
  · intro r hr hsr hle
    rcases nextSince_cases h.journal since limit with
      ⟨-, heq⟩ | ⟨x, hx, heq, -⟩
    · omega
    · rcases mem_feedRows.mp hx with ⟨hxrow, -, hcount⟩
      have hbetween := between_mono h.journal since (heq ▸ hle : r.seq ≤ x.seq)
      by_cases hrow : r ∈ h.journal.rows
      · exact mem_feedRows.mpr ⟨hrow, hsr, Nat.lt_of_le_of_lt hbetween hcount⟩
      · -- a purged row is past the page
        rcases (hfree r hr hsr hrow).2 with hfull | hlast
        · omega
        · have hlt := hlast x hxrow
          omega
  · rintro r ⟨hr, hsr, hmin⟩
    by_contra hrow
    rcases (hfree r hr hsr hrow).1 with ⟨k, hk, hsk, hlt⟩
    have hge := hmin k (hok.kept k hk) hsk
    omega

end Gap

/-- After every history of the journal, for every checkpoint and page size: the feed
leaves no silent gap exactly when the gap shows in the rows that are left, or no purged
row is in the way. -/
theorem noSilentGap_iff (events : List Event) (since : Nat) (limit : Int) :
    NoSilentGap (Run.run step start events) since limit ↔
      GapVisible (Run.run step start events) since ∨
        GapFree (Run.run step start events) since limit := by
  have hok : (Run.run step start events).Ok :=
    Run.run_invariant step (fun _ e hok => hok.step e) ok_start events
  rcases handlerFeed_eq (Run.run step start events) with ⟨heq, hvis⟩ | ⟨heq, hvis⟩
  · rw [NoSilentGap, heq]
    exact ⟨fun _ => .inl hvis, fun _ => trivial⟩
  · rw [NoSilentGap, heq]
    constructor
    · rintro ⟨hrows, hnext⟩
      exact .inr (gapFree_of_page hok hrows hnext)
    · rintro (hgap | hfree)
      · exact absurd hgap hvis
      · exact page_of_gapFree hok hfree

def commentDelete (id : Int32) : Change := ⟨bytes "comment", id, bytes "delete", []⟩

/-- A replica at row 1, and a primary that wrote row 2 and purged everything: the answer
is an empty page, as if the replica had caught up. -/
theorem purged_journal_looks_caught_up :
    ¬ NoSilentGap (Run.run step start
      [.append (commentDelete 1) 0, .append (commentDelete 2) 0, .purge 1]) 1 500 := by
  intro h
  have hrow := h.2 ⟨2, by decide, commentDelete 2, 0⟩ (by decide)
  exact absurd hrow (by decide)

end FlyBoard.Feed

import FlyBoard.Db.SyncJournal
import FlyBoard.Lib.Keyed
import FlyBoard.Lib.Run
import FlyBoard.Lib.Sha256
import Mathlib.Data.Fintype.Basic
import Mathlib.Data.List.Lex
import Mathlib.Data.Prod.Lex
import Mathlib.Order.Lex

/-!
# The mutation log (`src/db/db_sync_anti_entropy.c`)

Next to its journal every site keeps `sync_mutation_log`, keyed by `mutation_id`:
the mutations it recorded itself under a random id, its journal rows under an id
made of their seq, and whatever its peers offered. Rows are only ever added, with
INSERT OR IGNORE, and for each item one order on the rows names the winner.

`db_sync_anti_entropy_init` runs before everything else, once per process: it is a
step of its own here, and a site where it has not succeeded records and imports
nothing. The SHA-256 of OpenSSL is the parameter `sha256`.
-/

namespace FlyBoard.AntiEntropy

open Bytes Keyed Sync

/-- `db_sync_mutation`. -/
structure Mutation where
  mutationId : Bytes
  change : Change
  changedAt : Int64
  payloadHash : Bytes
deriving DecidableEq

/-- `sync_mutation_log`. -/
abbrev MutationLog := Table Mutation.mutationId

section Log

variable (sha256 : Bytes → Bytes)

/-- `db_sync_payload_hash`. -/
def payloadHash (c : Change) (changedAt : Int64) : Bytes :=
  sha256 (c.entity ++ 0 :: decimalInt c.entityId.toInt ++ 0 :: decimalInt changedAt.toInt ++
    0 :: c.op ++ 0 :: c.payload)

/-- The bytes that `mutation_valid` allows in an id. -/
def isIdByte (c : UInt8) : Bool :=
  (97 ≤ c && c ≤ 122) || (65 ≤ c && c ≤ 90) || (48 ≤ c && c ≤ 57) ||
    c == 45 || c == 95 || c == 46 || c == 58

/-- `mutation_valid`. -/
@[irreducible] def mutationValid (m : Mutation) : Bool :=
  0 < m.change.entityId && 0 ≤ m.changedAt &&
  0 < m.mutationId.length && m.mutationId.length ≤ 128 && m.change.entity.length ≤ 64 &&
  m.payloadHash.length == 64 &&
  (m.change.op == bytes "upsert" || m.change.op == bytes "delete") &&
  m.mutationId.all isIdByte &&
  payloadHash sha256 m.change m.changedAt == m.payloadHash

/-- `insert_mutation`: `none` when the row is refused. -/
def insertMutation (log : MutationLog) (m : Mutation) : Option MutationLog :=
  if mutationValid sha256 m then some (log.insertOrIgnore m) else none

def legacyMutation (e : Entry) : Mutation :=
  let changedAt := Int64.ofNat e.seq
  ⟨bytes "legacy-" ++ hex 16 e.seq, e.change, changedAt, payloadHash sha256 e.change changedAt⟩

/-- `backfill_journal`: it stops at the first row that is refused. -/
def backfillJournal (log : MutationLog) : List Entry → MutationLog × Bool
  | [] => (log, true)
  | e :: rest =>
    match insertMutation sha256 log (legacyMutation sha256 e) with
    | some log => backfillJournal log rest
    | none => (log, false)

/-- `next_changed_at` at the clock time `now`. -/
def nextChangedAt (log : MutationLog) (c : Change) (now : Int64) : Option Int64 :=
  let times := (log.rows.filter fun m =>
    m.change.entity = c.entity && m.change.entityId = c.entityId).map (·.changedAt.toInt)
  let latest := times.foldl max 0
  if latest = Int64.maxValue.toInt then none
  else if now.toInt ≤ latest then some (Int64.ofInt (latest + 1)) else some now

/-- The id that `db_sync_anti_entropy_record` makes of the bytes of `RAND_bytes`. -/
def randomId (random : Bytes) : Bytes := random.flatMap fun b => hex 2 b.toNat

/-- `db_sync_anti_entropy_record` after the initialisation. -/
def record (log : MutationLog) (c : Change) (now : Int64) (random : Bytes) :
    Option MutationLog :=
  (nextChangedAt log c now).bind fun changedAt =>
    insertMutation sha256 log
      ⟨randomId random, c, changedAt, payloadHash sha256 c changedAt⟩

end Log

/-! ## The winner -/

/-- The columns that mutations are ordered by, compared in turn. -/
def OrderKey := ℤ ×ₗ ℕ ×ₗ List ℕ ×ₗ List ℕ

instance : LinearOrder OrderKey := inferInstanceAs (LinearOrder (ℤ ×ₗ ℕ ×ₗ List ℕ ×ₗ List ℕ))

/-- `ORDER BY changed_at, op = 'delete', payload_hash, mutation_id`. -/
def orderKey (m : Mutation) : OrderKey :=
  toLex (m.changedAt.toInt, toLex (if m.change.op = bytes "delete" then 1 else 0,
    toLex (textKey m.payloadHash, textKey m.mutationId)))

/-- `db_sync_anti_entropy_winner`. -/
def winner (log : MutationLog) (entity : Bytes) (entityId : Int32) : Option Mutation :=
  if 0 < entityId then
    (log.rows.filter fun m => m.change.entity = entity && m.change.entityId = entityId).argmax
      orderKey
  else none

theorem mutationId_eq_of_orderKey_eq {m n : Mutation} (h : orderKey m = orderKey n) :
    m.mutationId = n.mutationId := by
  have hlast := congrArg (fun k => (ofLex (ofLex (ofLex k).2).2).2) h
  exact textKey_injective hlast

variable {log log' : MutationLog}

theorem winner_eq_of_mem_iff (h : ∀ m, m ∈ log.rows ↔ m ∈ log'.rows)
    (entity : Bytes) (entityId : Int32) :
    winner log entity entityId = winner log' entity entityId := by
  rw [winner, winner]
  split
  · apply argmax_eq_of_mem_iff
    · intro a ha b hb hkey
      exact log.eq_of_key_eq (List.mem_of_mem_filter ha) (List.mem_of_mem_filter hb)
        (mutationId_eq_of_orderKey_eq hkey)
    · intro m
      simp only [List.mem_filter, h m]
  · rfl

/-! ## Sites that exchange their logs -/

/-- What one site keeps: its journal, its mutation log, and whether this process has
initialised the log (`g_initialized`). -/
structure Site where
  journal : SyncJournal
  log : MutationLog
  initialized : Bool

/-- `db_sync_anti_entropy_init`. The rows of a log carry their hashes already, so
`refresh_payload_hashes` changes none of them. -/
def Site.init (sha256 : Bytes → Bytes) (n : Site) : Site :=
  if n.initialized then n
  else
    let r := backfillJournal sha256 n.log n.journal.rows
    { n with log := r.1, initialized := r.2 }

/-- The row that `handler_flywire_anti_entropy` reads under an id. -/
def Site.row (n : Site) (mutationId : Bytes) : Option Mutation :=
  if n.initialized then n.log.rows.find? (·.mutationId = mutationId) else none

/-- All sites, and for each of them the rows its peers have offered it so far. -/
structure State (ι : Type*) where
  site : ι → Site
  offered : ι → List Mutation

inductive Step (ι : Type*) where
  /-- The journal changes: local writes, rows mirrored, truncated or purged. -/
  | journal (i : ι) (j : SyncJournal)
  | restart (i : ι)
  | init (i : ι)
  | record (i : ι) (c : Change) (now : Int64) (random : Bytes)
  /-- `source` serves its row of this id and `i` imports it. -/
  | offer (source i : ι) (mutationId : Bytes)

variable {ι : Type*} (sha256 : Bytes → Bytes) {m : Mutation}

/-- One step. A row that is refused, or that comes to a site which could not
initialise, changes nothing. -/
def step [DecidableEq ι] (s : State ι) : Step ι → State ι
  | .journal i j => { s with site := Function.update s.site i { s.site i with journal := j } }
  | .restart i =>
    { s with site := Function.update s.site i { s.site i with initialized := false } }
  | .init i => { s with site := Function.update s.site i ((s.site i).init sha256) }
  | .record i c now random =>
    if (s.site i).initialized then
      match record sha256 (s.site i).log c now random with
      | some log => { s with site := Function.update s.site i { s.site i with log := log } }
      | none => s
    else s
  | .offer source i mutationId =>
    match (s.site source).row mutationId with
    | none => s
    | some m =>
      let log := if (s.site i).initialized then
        (insertMutation sha256 (s.site i).log m).getD (s.site i).log else (s.site i).log
      { site := Function.update s.site i { s.site i with log := log }
        offered := Function.update s.offered i (m :: s.offered i) }

def start (journals : ι → SyncJournal) : State ι where
  site i := ⟨journals i, Table.empty, false⟩
  offered _ := []

def State.logs (s : State ι) : ι → MutationLog := fun i => (s.site i).log

def AllOffered (s : State ι) : Prop :=
  ∀ i j, i ≠ j → ∀ m ∈ (s.logs j).rows, m ∈ s.offered i

instance [Fintype ι] [DecidableEq ι] (s : State ι) : Decidable (AllOffered s) :=
  inferInstanceAs (Decidable (∀ _ _, _ → _))

/-- All sites hold the same mutations and name the same winners. -/
def Converged (s : State ι) : Prop :=
  ∀ i j, (∀ m, m ∈ (s.logs i).rows ↔ m ∈ (s.logs j).rows) ∧
    ∀ entity entityId, winner (s.logs i) entity entityId = winner (s.logs j) entity entityId

/-- No id is used twice: a site that is initialised turns no journal row into a
mutation whose id stands for another mutation on some site, a random id is new, and a
row is offered only to a site whose initialisation went through. -/
def IdsDistinct (s : State ι) : Step ι → Prop
  | .init i => (s.site i).initialized = false →
      ∀ e ∈ (s.site i).journal.rows, Fits s.logs i (legacyMutation sha256 e)
  | .record _ _ _ random => ∀ k, ∀ m ∈ (s.logs k).rows, m.mutationId ≠ randomId random
  | .offer _ i _ => (s.site i).initialized = true
  | _ => True

instance [Fintype ι] (s : State ι) : ∀ a, Decidable (IdsDistinct sha256 s a)
  | .journal _ _ => instDecidableTrue
  | .restart _ => instDecidableTrue
  | .init _ => inferInstanceAs (Decidable (_ → _))
  | .record _ _ _ _ => inferInstanceAs (Decidable (∀ _, _))
  | .offer _ _ _ => inferInstanceAs (Decidable (_ = _))

/-! ### One insertion, one backfill -/

theorem insertMutation_eq_some :
    insertMutation sha256 log m = some log' ↔
      mutationValid sha256 m = true ∧ log.insertOrIgnore m = log' := by
  simp [insertMutation]

def LogValid (log : MutationLog) : Prop := ∀ m ∈ log.rows, mutationValid sha256 m = true

instance (log : MutationLog) : Decidable (LogValid sha256 log) :=
  inferInstanceAs (Decidable (∀ _ ∈ _, _))

theorem LogValid.insertMutation
    (h : LogValid sha256 log) (hins : insertMutation sha256 log m = some log') :
    LogValid sha256 log' := by
  rcases (insertMutation_eq_some sha256).mp hins with ⟨hvalid, rfl⟩
  intro x hx
  rcases Table.mem_insertOrIgnore.mp hx with hold | ⟨rfl, -⟩
  · exact h x hold
  · exact hvalid

/-- What a backfill does to the logs, as long as every row it may insert fits: the
family stays consistent, the rows stay valid, and nothing goes. -/
theorem backfillJournal_spec [DecidableEq ι] {ts : ι → MutationLog} (i : ι) (entries : List Entry)
    (hcons : Consistent ts) (hvalid : LogValid sha256 (ts i))
    (hfits : ∀ e ∈ entries, Fits ts i (legacyMutation sha256 e)) :
    Consistent (Function.update ts i (backfillJournal sha256 (ts i) entries).1) ∧
    LogValid sha256 (backfillJournal sha256 (ts i) entries).1 ∧
    ∀ m ∈ (ts i).rows, m ∈ (backfillJournal sha256 (ts i) entries).1.rows := by
  induction entries generalizing ts with
  | nil =>
    refine ⟨?_, hvalid, fun m hm => hm⟩
    rw [backfillJournal, Function.update_eq_self]
    exact hcons
  | cons e rest ih =>
    rw [backfillJournal]
    cases hins : insertMutation sha256 (ts i) (legacyMutation sha256 e) with
    | none =>
      refine ⟨?_, hvalid, fun m hm => hm⟩
      rw [Function.update_eq_self]
      exact hcons
    | some log =>
      rcases (insertMutation_eq_some sha256).mp hins with ⟨-, rfl⟩
      -- the family after the first insertion
      have hcons' := hcons.insertOrIgnore (hfits e List.mem_cons_self)
      have hself : Function.update ts i ((ts i).insertOrIgnore (legacyMutation sha256 e)) i =
          (ts i).insertOrIgnore (legacyMutation sha256 e) := Function.update_self i _ ts
      have hrest := ih hcons' (by rw [hself]; exact hvalid.insertMutation sha256 hins) ?_
      · rw [hself, Function.update_idem] at hrest
        refine ⟨hrest.1, hrest.2.1, ?_⟩
        intro m hm
        exact hrest.2.2 m (Table.mem_insertOrIgnore_of_mem hm)
      · -- a later row still fits: where its key is new, only other sites can have it
        intro e' he' hnew j b hb hkey
        rw [hself] at hnew
        by_cases hji : j = i
        · subst hji
          rw [hself] at hb
          exact absurd (List.mem_map.mpr ⟨b, hb, hkey⟩) hnew
        · rw [Function.update_of_ne hji] at hb
          refine hfits e' (List.mem_cons_of_mem _ he') ?_ j b hb hkey
          intro hmem
          rcases List.mem_map.mp hmem with ⟨c, hc, hck⟩
          exact hnew (List.mem_map.mpr ⟨c, Table.mem_insertOrIgnore_of_mem hc, hck⟩)

/-! ### Runs -/

/-- What every run of steps with distinct ids keeps: one mutation per id, valid rows,
and on each site all the rows it was offered. -/
structure Inv (s : State ι) : Prop where
  consistent : Consistent s.logs
  valid : ∀ i, LogValid sha256 (s.logs i)
  held : ∀ i, ∀ m ∈ s.offered i, m ∈ (s.logs i).rows

theorem inv_start (journals : ι → SyncJournal) : Inv sha256 (start journals) where
  consistent := by
    intro i j a ha
    exact absurd ha List.not_mem_nil
  valid := by
    intro i m hm
    exact absurd hm List.not_mem_nil
  held := by
    intro i m hm
    exact absurd hm List.not_mem_nil

variable [DecidableEq ι]

theorem logs_update (s : State ι) (i : ι) (n : Site) (offered : ι → List Mutation) :
    State.logs ⟨Function.update s.site i n, offered⟩ = Function.update s.logs i n.log := by
  funext j
  by_cases hji : j = i
  · subst hji
    simp [State.logs]
  · simp [State.logs, hji]

variable {sha256} {i : ι} {n : Site} {s : State ι}

/-- One site gets a new log, which keeps the old rows, and perhaps one more offer. -/
theorem Inv.setSite (h : Inv sha256 s) {offered : ι → List Mutation}
    (hcons : Consistent (Function.update s.logs i n.log)) (hvalid : LogValid sha256 n.log)
    (hgrows : ∀ m ∈ (s.logs i).rows, m ∈ n.log.rows)
    (hoff : ∀ j, ∀ m ∈ offered j, m ∈ s.offered j ∨ j = i ∧ m ∈ n.log.rows) :
    Inv sha256 ⟨Function.update s.site i n, offered⟩ := by
  constructor
  · rw [logs_update]
    exact hcons
  · intro j
    rw [logs_update]
    by_cases hji : j = i
    · subst hji
      rw [Function.update_self]
      exact hvalid
    · rw [Function.update_of_ne hji]
      exact h.valid j
  · -- what a site was offered before, it still holds: logs only grow
    intro j m hm
    rw [logs_update]
    by_cases hji : j = i
    · subst hji
      rw [Function.update_self]
      rcases hoff j m hm with hold | ⟨-, hnew⟩
      · exact hgrows m (h.held j m hold)
      · exact hnew
    · rw [Function.update_of_ne hji]
      rcases hoff j m hm with hold | ⟨heq, -⟩
      · exact h.held j m hold
      · exact absurd heq hji

theorem Inv.sameLog (h : Inv sha256 s)
    (hlog : n.log = s.logs i) : Inv sha256 { s with site := Function.update s.site i n } := by
  apply h.setSite
  · rw [hlog, Function.update_eq_self]
    exact h.consistent
  · rw [hlog]
    exact h.valid i
  · intro m hm
    rw [hlog]
    exact hm
  · intro j m hm
    exact .inl hm

theorem Inv.init (h : Inv sha256 s) (i : ι)
    (hok : IdsDistinct sha256 s (.init i)) : Inv sha256 (step sha256 s (.init i)) := by
  rw [step, Site.init]
  split
  · exact h.sameLog rfl
  · rename_i hnot
    have hfits := hok (Bool.eq_false_iff.mpr hnot)
    have hspec := backfillJournal_spec sha256 i (s.site i).journal.rows h.consistent
      (h.valid i) hfits
    apply h.setSite hspec.1 hspec.2.1 hspec.2.2
    intro j m hm
    exact .inl hm

theorem Inv.record (h : Inv sha256 s) (i : ι) (c : Change) (now : Int64)
    (random : Bytes) (hok : IdsDistinct sha256 s (.record i c now random)) :
    Inv sha256 (step sha256 s (.record i c now random)) := by
  rw [step]
  split
  · cases hrec : AntiEntropy.record sha256 (s.site i).log c now random with
    | none => exact h
    | some log =>
      rcases Option.bind_eq_some_iff.mp hrec with ⟨changedAt, -, hins⟩
      have hvalid := (h.valid i).insertMutation sha256 hins
      rcases (insertMutation_eq_some sha256).mp hins with ⟨-, rfl⟩
      refine h.setSite (h.consistent.insertOrIgnore ?_) hvalid ?_ ?_
      · -- the id is new, to every site
        intro _ k b hb hkey
        exact absurd hkey (hok k b hb)
      · intro m hm
        exact Table.mem_insertOrIgnore_of_mem hm
      · intro j m hm
        exact .inl hm
  · exact h

theorem Inv.offer (h : Inv sha256 s) (source i : ι) (mutationId : Bytes)
    (hok : IdsDistinct sha256 s (.offer source i mutationId)) :
    Inv sha256 (step sha256 s (.offer source i mutationId)) := by
  have hinit : (s.site i).initialized = true := hok
  rw [step]
  cases hrow : (s.site source).row mutationId with
  | none => exact h
  | some m =>
    -- the row is valid where it comes from, so it is imported
    have hm : m ∈ (s.logs source).rows := by
      rw [Site.row] at hrow
      split at hrow
      · exact List.mem_of_find?_eq_some hrow
      · cases hrow
    have hins : insertMutation sha256 (s.site i).log m =
        some ((s.site i).log.insertOrIgnore m) :=
      (insertMutation_eq_some sha256).mpr ⟨h.valid source m hm, rfl⟩
    have hvalid := (h.valid i).insertMutation sha256 hins
    simp only [hinit, if_true, hins, Option.getD_some]
    refine h.setSite (h.consistent.insertOrIgnore (h.consistent.fits hm i)) hvalid ?_ ?_
    · intro x hx
      exact Table.mem_insertOrIgnore_of_mem hx
    · intro j x hx
      by_cases hji : j = i
      · subst hji
        rw [Function.update_self] at hx
        rcases List.mem_cons.mp hx with rfl | hold
        · exact .inr ⟨rfl, h.consistent.mem_insertOrIgnore hm j⟩
        · exact .inl hold
      · rw [Function.update_of_ne hji] at hx
        exact .inl hx

theorem Inv.step (a : Step ι) (h : Inv sha256 s) (hok : IdsDistinct sha256 s a) :
    Inv sha256 (step sha256 s a) := by
  cases a with
  | journal i j => exact h.sameLog rfl
  | restart i => exact h.sameLog rfl
  | init i => exact h.init i hok
  | record i c now random => exact h.record i c now random hok
  | offer source i mutationId => exact h.offer source i mutationId hok

/-- Once everything is offered, a site that holds what it was offered has the rows of
every other site. -/
theorem Inv.converged (h : Inv sha256 s) (hall : AllOffered s) : Converged s := by
  have hsub : ∀ i j, ∀ m ∈ (s.logs j).rows, m ∈ (s.logs i).rows := by
    intro i j m hm
    by_cases hij : i = j
    · subst hij
      exact hm
    · exact h.held i m (hall i j hij m hm)
  intro i j
  have hiff : ∀ m, m ∈ (s.logs i).rows ↔ m ∈ (s.logs j).rows :=
    fun m => ⟨hsub j i m, hsub i j m⟩
  exact ⟨hiff, winner_eq_of_mem_iff hiff⟩

/-- Anti-entropy converges in every run in which no id is used twice: once every site
has been offered the rows of all others, all hold the same mutations and choose the
same winners. -/
theorem antiEntropy_converges (sha256 : Bytes → Bytes) (journals : ι → SyncJournal)
    (steps : List (Step ι))
    (hok : Run.AllSteps (AntiEntropy.step sha256) (IdsDistinct sha256) (start journals) steps)
    (hall : AllOffered (Run.run (AntiEntropy.step sha256) (start journals) steps)) :
    Converged (Run.run (AntiEntropy.step sha256) (start journals) steps) := by
  have hinv : Inv sha256 (Run.run (AntiEntropy.step sha256) (start journals) steps) :=
    hok.invariant (fun _ a h hstep => h.step a hstep) (inv_start sha256 journals)
  exact hinv.converged hall

/-! ### Two sites -/

def retitle (title : String) : Change :=
  ⟨bytes "post", 7, bytes "upsert",
    bytes "\x7b\x22title\x22:\x22" ++ bytes title ++ bytes "\x22\x7d"⟩

def twoSites (first second : Change) : Bool → SyncJournal
  | false => SyncJournal.empty.append first 0
  | true => SyncJournal.empty.append second 0

/-- Both sites are initialised and offer each other their first journal row. -/
def exchange : List (Step Bool) :=
  let row := bytes "legacy-0000000000000001"
  [.init false, .init true, .offer false true row, .offer true false row]

/-- Two sites with the same first row, after which one of them records an edit. -/
theorem antiEntropy_converges_two_sites :
    let journals := twoSites (retitle "a") (retitle "a")
    let steps := exchange ++
      [.record false (retitle "b") 1700000000000 [1, 2],
        .offer false true (bytes "0102"), .offer true false (bytes "0102")]
    Converged (Run.run (AntiEntropy.step Sha256.hexDigest) (start journals) steps) := by
  intro journals steps
  have hrun : Run.AllSteps (AntiEntropy.step Sha256.hexDigest) (IdsDistinct Sha256.hexDigest)
        (start journals) steps ∧
      AllOffered (Run.run (AntiEntropy.step Sha256.hexDigest) (start journals) steps) := by
    decide +kernel
  exact antiEntropy_converges Sha256.hexDigest journals steps hrun.1 hrun.2

/-- Two sites whose journals say different things under seq 1 keep their own row under
the id they share, however often they offer it to each other. -/
theorem diverged_journals_stay_apart :
    let journals := twoSites (retitle "a") (retitle "b")
    let s := Run.run (AntiEntropy.step Sha256.hexDigest) (start journals) exchange
    AllOffered s ∧ ¬ Converged s := by
  intro journals s
  -- one evaluation of the run for all three
  have hrun : AllOffered s ∧
      legacyMutation Sha256.hexDigest ((journals false).rows.head (by decide)) ∈
        (s.logs false).rows ∧
      legacyMutation Sha256.hexDigest ((journals false).rows.head (by decide)) ∉
        (s.logs true).rows := by
    decide +kernel
  rcases hrun with ⟨hoffered, hheld, hmissing⟩
  refine ⟨hoffered, ?_⟩
  intro h
  exact hmissing (((h false true).1 _).mp hheld)

end FlyBoard.AntiEntropy

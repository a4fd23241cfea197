import FlyBoard.Lib.Run
import FlyBoard.Sync.Apply

/-!
# A replica that is restored from an archive (`src/tools/backup.c`, `src/engine/flywire.c`)

`fly_backup_write` reads the checkpoint, the largest `seq` of the journal, and then takes a
snapshot of each database in turn. Writers go on meanwhile: each commits a change and appends
its journal row in a step of its own. A replica that is restored from the archive applies all
rows after the checkpoint.

What a journal row says about a key is a `CellOp`; a statement may fail on the replica
(`fails`: a constraint between rows, an error of the disk), which is logged and passed over.
What a foreign key does to other rows on a deletion is left out, as in `Apply`.
-/

namespace FlyBoard.RestoredReplica

open Bytes LastWriter Apply Run

/-! ## What a journal row says about a key -/

section Effect

/-- What `flywire_apply_upsert` writes at a key. -/
def upsertCell (rep : Replica) (e : Sync.Entity) (payload : Payload) (k : Key) :
    CellOp Bytes Json :=
  match getObjectItem payload (keyCol e) with
  | some (.number id) => if k = .row e id then .write (rep.written e payload) else .keep
  | _ => .keep

/-- What `flywire_apply_delete` removes. -/
def deleteCell (e : KEntity) (entityId : ℤ) (payload : Payload) (k : Key) : CellOp Bytes Json :=
  if entityId ≤ 0 then .keep
  else
    match e with
    | .plain e => if k = .row e entityId then .remove else .keep
    | .boardPerm =>
      if k = .boardPerm (intItem payload "board_id" entityId) (intItem payload "user_id" 0) then
        .remove
      else .keep
    | .tagLink => if k.isLinkOf (intItem payload "post_id" entityId) then .remove else .keep
    | .i18n => if k = .i18n (stringItem payload "kind" "post") entityId then .remove else .keep

/-- What `flywire_apply_special` does at a key. -/
def specialCell (e : KEntity) (entityId : ℤ) (payload : Payload) (k : Key) : CellOp Bytes Json :=
  match e with
  | .plain _ => .keep
  | .boardPerm =>
    if k = .boardPerm (intItem payload "board_id" entityId) (intItem payload "user_id" 0) then
      .write fun _ => none
    else .keep
  | .tagLink =>
    if intItem payload "tag_id" 0 ≤ 0 then deleteCell .tagLink entityId payload k
    else if k = .tagLink (intItem payload "post_id" entityId) (intItem payload "tag_id" 0) then
      .write fun _ => none
    else .keep
  | .i18n =>
    if k = .i18n (stringItem payload "kind" "post") entityId then
      .write (i18nColumns (stringItem payload "lang" "") (intItem payload "grp" 0))
    else .keep

def effect (rep : Replica) (r : FeedRow) (k : Key) : CellOp Bytes Json :=
  match flywireEntity r.entity with
  | none => .keep
  | some e =>
    if e.special ∧ r.op = bytes "upsert" then specialCell e r.entityId r.payload k
    else if r.op = bytes "delete" then deleteCell e r.entityId r.payload k
    else
      match e with
      | .plain e => upsertCell rep e r.payload k
      | _ => .keep

/-- The rows that the replica leaves out: its own administrator, and what it cannot store. -/
def Refuses (rep : Replica) (r : FeedRow) : Prop :=
  match flywireEntity r.entity with
  | some (.plain e) =>
    r.op ≠ bytes "delete" ∧
      (e = .user ∧ r.op = bytes "upsert" ∧ rep.skipsUser r = true ∨
        rep.accepts e r.payload = false)
  | _ => False

variable {rep : Replica} {t : Tables} {k : Key} {payload : Payload} {entityId : ℤ}

theorem applyUpsert_apply (e : Sync.Entity) :
    rep.applyUpsert t e payload k =
      if rep.accepts e payload then (upsertCell rep e payload k).act (rep.default k) (t k)
      else t k := by
  have hnone : (if rep.accepts e payload then CellOp.keep.act (rep.default k) (t k) else t k) =
      t k := ite_self _
  unfold Replica.applyUpsert upsertCell
  rcases getObjectItem payload (keyCol e) with - | v
  · exact hnone.symm
  · cases v with
    | number id =>
      dsimp only
      by_cases haccepts : rep.accepts e payload = true
      · rw [if_pos haccepts, if_pos haccepts]
        by_cases hk : k = .row e id
        · subst hk
          rw [if_pos rfl, Function.update_self]
          rfl
        · rw [if_neg hk, Function.update_of_ne hk]
          rfl
      · rw [if_neg haccepts, if_neg haccepts]
    | string | bool | other => exact hnone.symm

theorem applyDelete_apply (e : KEntity) :
    applyDelete t e entityId payload k =
      (deleteCell e entityId payload k).act (rep.default k) (t k) := by
  have hupdate : ∀ key, Function.update t key none k =
      (if k = key then CellOp.remove else .keep).act (rep.default k) (t k) := by
    intro key
    by_cases hk : k = key
    · subst hk
      rw [if_pos rfl, Function.update_self]
      rfl
    · rw [if_neg hk, Function.update_of_ne hk]
      rfl
  unfold applyDelete deleteCell
  by_cases hid : entityId ≤ 0
  · rw [if_pos hid, if_pos hid]
    rfl
  · rw [if_neg hid, if_neg hid]
    cases e with
    | plain e => exact hupdate _
    | boardPerm => exact hupdate _
    | tagLink =>
      dsimp only
      split
      · rfl
      · rfl
    | i18n => exact hupdate _

theorem applySpecial_apply (e : KEntity) :
    rep.applySpecial t e entityId payload k =
      (specialCell e entityId payload k).act (rep.default k) (t k) := by
  have hupdate : ∀ key columns,
      Function.update t key (some (overwrite columns ((t key).getD (rep.default key)))) k =
        (if k = key then CellOp.write columns else .keep).act (rep.default k) (t k) := by
    intro key columns
    by_cases hk : k = key
    · subst hk
      rw [if_pos rfl, Function.update_self]
      rfl
    · rw [if_neg hk, Function.update_of_ne hk]
      rfl
  cases e with
  | plain e => rfl
  | boardPerm => exact hupdate _ fun _ => none
  | tagLink =>
    unfold Replica.applySpecial specialCell
    dsimp only
    split
    · exact applyDelete_apply .tagLink
    · exact hupdate _ fun _ => none
  | i18n => exact hupdate _ _

/-- `flywire_apply_row` at a key: it has the effect of the row there, or leaves the row out. -/
theorem applyRow_cases (rep : Replica) (t : Tables) (r : FeedRow) (k : Key) :
    rep.applyRow t r k = (effect rep r k).act (rep.default k) (t k) ∨
      Refuses rep r ∧ rep.applyRow t r k = t k := by
  unfold Replica.applyRow Refuses effect
  rcases flywireEntity r.entity with - | e
  · exact .inl rfl
  · dsimp only
    cases e with
    | plain e =>
      have hspecial : ¬ ((KEntity.plain e).special = true ∧ r.op = bytes "upsert") :=
        fun h => nomatch h.1
      have hstore : r.op ≠ bytes "delete" →
          rep.applyUpsert t e r.payload k =
              (upsertCell rep e r.payload k).act (rep.default k) (t k) ∨
            (r.op ≠ bytes "delete" ∧ (e = .user ∧ r.op = bytes "upsert" ∧ rep.skipsUser r = true ∨
              rep.accepts e r.payload = false)) ∧ rep.applyUpsert t e r.payload k = t k := by
        intro hop
        rw [applyUpsert_apply]
        cases rep.accepts e r.payload with
        | true => exact .inl rfl
        | false => exact .inr ⟨⟨hop, .inr rfl⟩, rfl⟩
      dsimp only
      rw [if_neg hspecial, if_neg hspecial]
      by_cases huser : KEntity.plain e = .plain .user ∧ r.op = bytes "upsert"
      · rw [if_pos huser]
        rcases huser with ⟨heq, hup⟩
        have hop : r.op ≠ bytes "delete" := by
          rw [hup]
          decide
        cases heq
        rw [if_neg hop]
        split
        · rename_i hskip
          exact .inr ⟨⟨hop, .inl ⟨rfl, hup, hskip⟩⟩, rfl⟩
        · exact hstore hop
      · rw [if_neg huser]
        by_cases hop : r.op = bytes "delete"
        · rw [if_pos hop, if_pos hop]
          exact .inl (applyDelete_apply _)
        · rw [if_neg hop, if_neg hop]
          exact hstore hop
    | boardPerm | tagLink | i18n =>
      dsimp only
      rw [if_neg (fun h => nomatch h.1)]
      split
      · exact .inl (applySpecial_apply _)
      · split
        · exact .inl (applyDelete_apply _)
        · exact .inl rfl

end Effect

/-! ## The primary while the archive is written -/

/-- The keys that a statement of a writer changes: a row, or all links of a post. -/
inductive Target where
  | key (k : Key)
  | links (postId : ℤ)
deriving DecidableEq

def Target.covers : Target → Key → Bool
  | key k, k' => k' = k
  | links postId, k' => k'.isLinkOf postId

/-- The place in `k_db_paths` of the database that has the row. -/
def dbIndex : Key → ℕ
  | .row .comment _ => 1
  | .row .boardTree _ => 2
  | _ => 0

/-- A journal row about what a writer has changed. -/
structure Entry (rep : Replica) where
  target : Target
  row : FeedRow
  about : ∀ k, target.covers k = true → effect rep row k ≠ .keep

/-- The primary with its writers, and what `fly_backup_write` has read so far. The place of a
journal row is its `seq`. -/
structure State (ω : Type*) where
  rows : Tables
  journal : List FeedRow
  writing : ω → Option Target
  checkpoint : Option ℕ
  snapshots : List Tables

/-- A step of a writer or of `fly_backup_write`. -/
inductive Action (ω : Type*) (rep : Replica) where
  | commit (w : ω) (target : Target) (f : Key → Option Row → Option Row)
  | append (w : ω) (entry : Entry rep)
  | checkpoint
  | snapshot

section System

variable {ω : Type*} {rep : Replica}

def step [DecidableEq ω] (s : State ω) : Action ω rep → State ω
  | .commit w target f =>
    if (s.writing w).isSome then s
    else
      { s with
        rows := fun k => if target.covers k then f k (s.rows k) else s.rows k
        writing := Function.update s.writing w (some target) }
  | .append w entry =>
    if s.writing w = some entry.target then
      { s with
        journal := s.journal ++ [entry.row]
        writing := Function.update s.writing w none }
    else s
  | .checkpoint =>
    if s.checkpoint.isSome then s else { s with checkpoint := some s.journal.length }
  | .snapshot =>
    if s.checkpoint.isSome ∧ s.snapshots.length < 3 then
      { s with snapshots := s.snapshots ++ [s.rows] }
    else s

/-- A primary before an archive, with no writer under way. -/
def start (rows : Tables) (journal : List FeedRow) : State ω where
  rows := rows
  journal := journal
  writing := fun _ => none
  checkpoint := none
  snapshots := []

/-! ## The replica -/

def restored (s : State ω) : Tables := fun k => (s.snapshots[dbIndex k]?).bind fun t => t k

/-- `flywire_apply_row` where a statement may fail. -/
def applyOrPass (rep : Replica) (fails : Tables → FeedRow → Bool) (t : Tables) (r : FeedRow) :
    Tables :=
  if fails t r then t else rep.applyRow t r

def resume (rep : Replica) (fails : Tables → FeedRow → Bool) (t : Tables) (rows : List FeedRow) :
    Tables :=
  rows.foldl (applyOrPass rep fails) t

def columnsAt (rep : Replica) : Key → List Bytes
  | .row e _ => rep.columns e
  | .boardPerm .. | .tagLink .. => []
  | .i18n .. => [bytes "lang", bytes "grp"]

def SameRow (rep : Replica) (k : Key) : Option Row → Option Row → Prop
  | none, none => True
  | some row, some row' => ∀ c ∈ columnsAt rep k, row c = row' c
  | _, _ => False

def Carries (rep : Replica) (r : FeedRow) (k : Key) (state : Option Row) : Prop :=
  match effect rep r k, state with
  | .remove, none => True
  | .write columns, some row => ∀ c ∈ columnsAt rep k, columns c = some (row c)
  | _, _ => False

/-- `r` is the last of these rows that is about the key. -/
def LastAbout (rep : Replica) (rows pre : List FeedRow) (r : FeedRow) (k : Key) : Prop :=
  effect rep r k ≠ .keep ∧ ∃ post, rows = pre ++ r :: post ∧ ∀ r' ∈ post, effect rep r' k = .keep

def LastRowsCurrent (rep : Replica) (s : State ω) : Prop :=
  ∀ k pre r, LastAbout rep s.journal pre r k → Carries rep r k (s.rows k)

/-- The replica takes the last row about the key: it does not leave it out, and the statement
does not fail. -/
def TakesLast (rep : Replica) (fails : Tables → FeedRow → Bool) (t : Tables)
    (rows : List FeedRow) (k : Key) : Prop :=
  ∀ pre r, LastAbout rep rows pre r k →
    ¬ Refuses rep r ∧ fails (resume rep fails t pre) r = false

variable {fails : Tables → FeedRow → Bool} {t : Tables} {rows : List FeedRow} {k : Key}
  {r : FeedRow} {state : Option Row}

theorem SameRow.refl (x : Option Row) : SameRow rep k x x := by
  cases x with
  | none => trivial
  | some row => exact fun _ _ => rfl

theorem exists_lastAbout (h : ∃ r ∈ rows, effect rep r k ≠ .keep) :
    ∃ pre r, LastAbout rep rows pre r k := by
  induction rows with
  | nil =>
    rcases h with ⟨r, hr, -⟩
    exact nomatch hr
  | cons a rows ih =>
    by_cases hlater : ∃ r ∈ rows, effect rep r k ≠ .keep
    · rcases ih hlater with ⟨pre, r, hr, post, rfl, hpost⟩
      exact ⟨a :: pre, r, hr, post, rfl, hpost⟩
    · rcases h with ⟨r, hr, hkeep⟩
      rcases List.mem_cons.mp hr with rfl | hr
      · refine ⟨[], r, hkeep, rows, rfl, fun r' hr' => ?_⟩
        by_contra hne
        exact hlater ⟨r', hr', hne⟩
      · exact absurd ⟨r, hr, hkeep⟩ hlater

theorem applyOrPass_of_keep (h : effect rep r k = .keep) :
    applyOrPass rep fails t r k = t k := by
  unfold applyOrPass
  split
  · rfl
  · rcases applyRow_cases rep t r k with heq | ⟨-, heq⟩
    · rw [heq, h]
      rfl
    · exact heq

theorem resume_of_keep (h : ∀ r ∈ rows, effect rep r k = .keep) :
    resume rep fails t rows k = t k := by
  induction rows generalizing t with
  | nil => rfl
  | cons r rows ih =>
    rw [List.forall_mem_cons] at h
    exact (ih h.2).trans (applyOrPass_of_keep h.1)

theorem sameRow_of_carries (h : Carries rep r k state)
    (htakes : ¬ Refuses rep r) (hfails : fails t r = false) :
    SameRow rep k (applyOrPass rep fails t r k) state := by
  unfold applyOrPass
  rw [if_neg (by rw [hfails]; decide)]
  rw [(applyRow_cases rep t r k).resolve_right fun hrefused => htakes hrefused.1]
  unfold Carries at h
  generalize effect rep r k = cell at h ⊢
  cases cell with
  | keep => cases h
  | remove =>
    cases state with
    | none => trivial
    | some row => cases h
  | write columns =>
    cases state with
    | none => cases h
    | some row =>
      intro c hc
      rw [overwrite, h c hc, Option.getD_some]
  | put row => cases h

theorem sameRow_resume {pre : List FeedRow}
    (hlast : LastAbout rep rows pre r k) (hcarries : Carries rep r k state)
    (htakes : TakesLast rep fails t rows k) : SameRow rep k (resume rep fails t rows k) state := by
  rcases htakes pre r hlast with ⟨hrefuses, hfails⟩
  rcases hlast with ⟨-, post, rfl, hpost⟩
  have hsplit : resume rep fails t (pre ++ r :: post) k =
      applyOrPass rep fails (resume rep fails t pre) r k := by
    unfold resume
    rw [List.foldl_append, List.foldl_cons]
    exact resume_of_keep hpost
  rw [hsplit]
  exact sameRow_of_carries hcarries hrefuses hfails

/-! ## The invariant -/

/-- Since the checkpoint, a row either stands as in the snapshot of its database, if that is
taken, or a journal row about it came after the checkpoint or is still to come. -/
structure Covered (rep : Replica) (s : State ω) : Prop where
  waiting : s.checkpoint = none → s.snapshots = []
  covered : ∀ cp, s.checkpoint = some cp → cp ≤ s.journal.length ∧ ∀ k,
    (∀ t, s.snapshots[dbIndex k]? = some t → t k = s.rows k) ∨
      (∃ r ∈ s.journal.drop cp, effect rep r k ≠ .keep) ∨
      ∃ w, ∃ target ∈ s.writing w, target.covers k = true

theorem covered_start (rows : Tables) (journal : List FeedRow) :
    Covered rep (start rows journal : State ω) where
  waiting := fun _ => rfl
  covered := fun _ h => nomatch h

variable [DecidableEq ω] {s : State ω}

theorem covered_commit (h : Covered rep s) (w : ω) (target : Target)
    (f : Key → Option Row → Option Row) :
    Covered rep (step s (Action.commit w target f : Action ω rep)) := by
  simp only [step]
  split
  · exact h
  · rename_i hidle
    refine ⟨h.waiting, fun cp hcp => ?_⟩
    rcases h.covered cp hcp with ⟨hle, hall⟩
    refine ⟨hle, fun k => ?_⟩
    by_cases hk : target.covers k = true
    · exact .inr (.inr ⟨w, target, Function.update_self .., hk⟩)
    · rcases hall k with hsnap | hrow | ⟨w', target', hw', hk'⟩
      · refine .inl fun t ht => ?_
        dsimp only
        rw [if_neg hk]
        exact hsnap t ht
      · exact .inr (.inl hrow)
      · refine .inr (.inr ⟨w', target', ?_, hk'⟩)
        have hne : w' ≠ w := by
          rintro rfl
          exact hidle (Option.isSome_iff_exists.mpr ⟨target', hw'⟩)
        exact (Function.update_of_ne hne _ _).trans hw'

theorem covered_append (h : Covered rep s) (w : ω) (entry : Entry rep) :
    Covered rep (step s (.append w entry)) := by
  simp only [step]
  split
  · rename_i hwriting
    refine ⟨h.waiting, fun cp hcp => ?_⟩
    rcases h.covered cp hcp with ⟨hle, hall⟩
    have hdrop : (s.journal ++ [entry.row]).drop cp = s.journal.drop cp ++ [entry.row] :=
      List.drop_append_of_le_length hle
    refine ⟨?_, fun k => ?_⟩
    · rw [List.length_append]
      exact Nat.le_add_right_of_le hle
    · dsimp only
      rw [hdrop]
      rcases hall k with hsnap | ⟨r, hr, hkeep⟩ | ⟨w', target, hw', hk⟩
      · exact .inl hsnap
      · exact .inr (.inl ⟨r, List.mem_append_left _ hr, hkeep⟩)
      · by_cases hne : w' = w
        · -- the row about it is appended now
          subst hne
          cases hwriting.symm.trans hw'
          refine .inr (.inl ⟨entry.row, ?_, entry.about k hk⟩)
          exact List.mem_append_right _ (List.mem_singleton_self _)
        · refine .inr (.inr ⟨w', target, ?_, hk⟩)
          exact (Function.update_of_ne hne _ _).trans hw'
  · exact h

theorem covered_checkpoint (h : Covered rep s) :
    Covered rep (step s (Action.checkpoint : Action ω rep)) := by
  simp only [step]
  split
  · exact h
  · rename_i hnone
    have hwait := h.waiting (Option.not_isSome_iff_eq_none.mp hnone)
    refine ⟨fun hcp => (nomatch hcp), fun cp hcp => ?_⟩
    cases hcp
    refine ⟨le_rfl, fun k => .inl fun t ht => ?_⟩
    -- there is no snapshot yet
    dsimp only at ht
    rw [hwait] at ht
    exact nomatch ht

theorem covered_snapshot (h : Covered rep s) :
    Covered rep (step s (Action.snapshot : Action ω rep)) := by
  simp only [step]
  split
  · rename_i hready
    refine ⟨fun hnone => ?_, fun cp hcp => ?_⟩
    · rw [hnone] at hready
      exact nomatch hready.1
    · rcases h.covered cp hcp with ⟨hle, hall⟩
      refine ⟨hle, fun k => ?_⟩
      rcases hall k with hsnap | hrest
      · refine .inl fun t ht => ?_
        rcases Nat.lt_or_ge (dbIndex k) s.snapshots.length with hlt | hge
        · dsimp only at ht
          rw [List.getElem?_append_left hlt] at ht
          exact hsnap t ht
        · dsimp only at ht
          rw [List.getElem?_append_right hge] at ht
          have hmem := List.mem_of_getElem? ht
          rw [List.mem_singleton.mp hmem]
      · exact .inr hrest
  · exact h

theorem covered_step (h : Covered rep s) (a : Action ω rep) :
    Covered rep (step s a) := by
  cases a with
  | commit w target f => exact covered_commit h w target f
  | append w entry => exact covered_append h w entry
  | checkpoint => exact covered_checkpoint h
  | snapshot => exact covered_snapshot h

/-- A replica that is restored from the archive and applies every journal row after the
checkpoint ends with the primary's row at every key whose last journal row it takes. -/
theorem restored_replica_resumes (rep : Replica) (fails : Tables → FeedRow → Bool)
    {rows : Tables} {journal : List FeedRow} {as : List (Action ω rep)} {s : State ω} {cp : ℕ}
    (hrun : s = run step (start rows journal) as) (hfinished : ∀ w, s.writing w = none)
    (hcheckpoint : s.checkpoint = some cp) (hsnapshots : s.snapshots.length = 3)
    (hcurrent : LastRowsCurrent rep s) {k : Key}
    (htakes : TakesLast rep fails (restored s) (s.journal.drop cp) k) :
    SameRow rep k (resume rep fails (restored s) (s.journal.drop cp) k) (s.rows k) := by
  have hinv : Covered rep s := by
    have hstep : ∀ (s : State ω) (a : Action ω rep), Covered rep s → Covered rep (step s a) :=
      fun s a h => covered_step h a
    rw [hrun]
    exact run_invariant step hstep (covered_start rows journal) as
  by_cases habout : ∃ r ∈ s.journal.drop cp, effect rep r k ≠ .keep
  · rcases exists_lastAbout habout with ⟨pre, r, hlast⟩
    refine sameRow_resume hlast (hcurrent k (s.journal.take cp ++ pre) r ?_) htakes
    -- the last row after the checkpoint is the last row of all
    rcases hlast with ⟨hkeep, post, hsplit, hpost⟩
    refine ⟨hkeep, post, ?_, hpost⟩
    rw [List.append_assoc, ← hsplit, List.take_append_drop]
  · have hkeep : ∀ r ∈ s.journal.drop cp, effect rep r k = .keep := by
      intro r hr
      by_contra hne
      exact habout ⟨r, hr, hne⟩
    have hrestored : restored s k = s.rows k := by
      have hlt : dbIndex k < s.snapshots.length := by
        rw [hsnapshots]
        unfold dbIndex
        split <;> decide
      rcases (hinv.covered cp hcheckpoint).2 k with hsnap | hrow | ⟨w, target, hw, -⟩
      · have hget := List.getElem?_eq_getElem hlt
        rw [restored, hget, Option.bind_some]
        exact hsnap _ hget
      · exact absurd hrow habout
      · rw [hfinished w] at hw
        exact nomatch hw
    rw [resume_of_keep hkeep, hrestored]
    exact SameRow.refl _

end System

/-! ## One user -/

section User

def userKey : Key := .row .user 5

def userRow (c : Bytes) : Json :=
  if c = bytes "id" then .num 5 else if c = bytes "username" then .str (bytes "ann") else .null

def userUpsert : FeedRow where
  entity := bytes "user"
  entityId := 5
  op := bytes "upsert"
  payload := [(bytes "id", .number 5), (bytes "username", .string (bytes "ann"))]
  keyed := by
    intro e v he hv
    have hentity : flywireEntity (bytes "user") = some (.plain .user) := by decide
    cases hentity.symm.trans he
    have hid : getObjectItem [(bytes "id", .number 5), (bytes "username", .string (bytes "ann"))]
        (keyCol .user) = some (.number 5) := by
      decide
    exact ⟨5, Option.some.inj (hv.symm.trans hid)⟩

def replicaOf (admin : Bytes) : Replica where
  adminUsername := admin
  siteAdminUid := 1
  columns := fun _ => [bytes "id", bytes "username"]
  default := fun _ _ => .null
  accepts := fun _ _ => true

theorem effect_userUpsert (admin : Bytes) (k : Key) :
    effect (replicaOf admin) userUpsert k =
      if k = userKey then .write ((replicaOf admin).written .user userUpsert.payload) else .keep :=
  rfl

def userEntry (admin : Bytes) : Entry (replicaOf admin) where
  target := .key userKey
  row := userUpsert
  about := by
    intro k hk
    rw [effect_userUpsert, if_pos (of_decide_eq_true hk)]
    exact fun h => nomatch h

def afterChange (admin : Bytes) : State ℕ :=
  run step (start (fun _ => none) [])
    [.checkpoint, .snapshot, .snapshot, .snapshot,
      .commit 0 (.key userKey) (fun _ _ => some userRow), .append 0 (userEntry admin)]

theorem lastRowsCurrent_afterChange (admin : Bytes) :
    LastRowsCurrent (replicaOf admin) (afterChange admin) := by
  rintro k pre r ⟨hkeep, post, hsplit, -⟩
  have hone : [userUpsert] = pre ++ r :: post := hsplit
  rcases pre with - | ⟨a, pre⟩
  · cases (List.cons.inj hone).1
    rw [effect_userUpsert] at hkeep
    by_cases hk : k = userKey
    · subst hk
      have hwritten : ∀ c ∈ [bytes "id", bytes "username"],
          (replicaOf []).written .user userUpsert.payload c = some (userRow c) := by
        decide
      exact hwritten
    · exact absurd (if_neg hk) hkeep
  · exact absurd (List.cons.inj hone).2 (by simp)

theorem finished_afterChange (admin : Bytes) (w : ℕ) : (afterChange admin).writing w = none := by
  cases w with
  | zero => rfl
  | succ n => rfl

theorem restored_user_resumes :
    SameRow (replicaOf (bytes "root")) userKey
      (resume (replicaOf (bytes "root")) (fun _ _ => false) (restored (afterChange (bytes "root")))
        ((afterChange (bytes "root")).journal.drop 0) userKey)
      ((afterChange (bytes "root")).rows userKey) := by
  refine restored_replica_resumes _ _ rfl (finished_afterChange _) rfl rfl
    (lastRowsCurrent_afterChange _) ?_
  rintro pre r ⟨-, post, hsplit, -⟩
  have hone : [userUpsert] = pre ++ r :: post := hsplit
  refine ⟨?_, rfl⟩
  rcases pre with - | ⟨a, pre⟩
  · cases (List.cons.inj hone).1
    rintro ⟨-, ⟨-, -, hskip⟩ | haccepts⟩
    · revert hskip
      decide
    · exact nomatch haccepts
  · exact absurd (List.cons.inj hone).2 (by simp)

/-- The replica takes the row for that of its own administrator. -/
theorem admin_row_not_resumed :
    LastRowsCurrent (replicaOf (bytes "ann")) (afterChange (bytes "ann")) ∧
      (∀ w, (afterChange (bytes "ann")).writing w = none) ∧
      (afterChange (bytes "ann")).checkpoint = some 0 ∧
      (afterChange (bytes "ann")).snapshots.length = 3 ∧
      ¬ SameRow (replicaOf (bytes "ann")) userKey
        (resume (replicaOf (bytes "ann")) (fun _ _ => false) (restored (afterChange (bytes "ann")))
          ((afterChange (bytes "ann")).journal.drop 0) userKey)
        ((afterChange (bytes "ann")).rows userKey) := by
  refine ⟨lastRowsCurrent_afterChange _, finished_afterChange _, rfl, rfl, fun hsame => ?_⟩
  have hskip : (replicaOf (bytes "ann")).skipsUser userUpsert = true := by decide
  have hnone : (replicaOf (bytes "ann")).applyRow (restored (afterChange (bytes "ann"))) userUpsert
      userKey = none := by
    have hentity : flywireEntity userUpsert.entity = some (.plain .user) := by decide
    rw [Replica.applyRow, hentity]
    dsimp only
    rw [if_pos ⟨rfl, rfl⟩, if_pos hskip]
    rfl
  change SameRow _ _ ((replicaOf (bytes "ann")).applyRow (restored (afterChange (bytes "ann")))
    userUpsert userKey) _ at hsame
  rw [hnone] at hsame
  exact hsame

end User

end FlyBoard.RestoredReplica

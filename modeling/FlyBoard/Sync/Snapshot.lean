import FlyBoard.Lib.Keyed
import FlyBoard.Lib.Run
import FlyBoard.Sync.Apply

/-!
# Tables that are journaled row by row (`src/db/db_sync.c`, `src/engine/flywire.c`)

A table whose rows go to the replicas as snapshots of a whole row, under the row's id,
and as deletions of an id. What a replica makes of each is said once here, for any such
table, column by column: `Kind.Equal` compares what `SELECT *` reads on the two sides.
-/

namespace FlyBoard.Snapshot

open Apply LastWriter

variable {ρ : Type*}

/-- A table of this kind: its entry of `k_entities`, its columns, and its rows as
`SELECT *` reads them. -/
structure Kind (ρ : Type*) where
  entity : Sync.Entity
  name : Bytes
  columns : List Bytes
  id : ρ → ℤ
  payload : ρ → Payload
  named : flywireEntity name = some (.plain entity)
  identified : ∀ r, getObjectItem (payload r) (keyCol entity) = some (.number (id r))
  complete : ∀ r, ∀ c ∈ columns, (getObjectItem (payload r) c).isSome

theorem getObjectItem_isSome {payload : Payload} {c : Bytes} (h : c ∈ payload.map Prod.fst) :
    (getObjectItem payload c).isSome := by
  rcases List.mem_map.mp h with ⟨member, hmember, rfl⟩
  rw [getObjectItem, Option.isSome_map, List.find?_isSome]
  exact ⟨member, hmember, Bytes.eqCI_iff.mpr rfl⟩

namespace Kind

variable (K : Kind ρ)

/-! ## Journal rows -/

def snapshot (r : ρ) : FeedRow where
  entity := K.name
  entityId := K.id r
  op := bytes "upsert"
  payload := K.payload r
  keyed := by
    intro e v he hv
    rw [K.named, Option.some.injEq, KEntity.plain.injEq] at he
    subst he
    rw [K.identified, Option.some.injEq] at hv
    exact ⟨K.id r, hv.symm⟩

/-- `db_sync_journal(db, entity, id, "delete", NULL)`. -/
def deletion (id : ℤ) : FeedRow where
  entity := K.name
  entityId := id
  op := bytes "delete"
  payload := []
  keyed _ _ _ hv := nomatch hv

/-- `db_sync_journal_row`: a row that is not there is not journaled. -/
def journalRow (table : Keyed.Table K.id) (id : ℤ) : List FeedRow :=
  if 0 < id then ((table.find? id).map K.snapshot).toList else []

/-! ## Equal tables -/

def restrict (row : Row) : Row := fun c => if c ∈ K.columns then row c else .null

def row (r : ρ) : Row :=
  K.restrict fun c => ((getObjectItem (K.payload r) c).map (·.bind)).getD .null

theorem restrict_row (r : ρ) : K.restrict (K.row r) = K.row r := by
  funext c
  unfold row restrict
  split
  · rfl
  · rfl

theorem row_apply {c : Bytes} (hc : c ∈ K.columns) (r : ρ) :
    K.row r c = ((getObjectItem (K.payload r) c).map (·.bind)).getD .null :=
  if_pos hc

def Equal (t : Tables) (table : Keyed.Table K.id) : Prop :=
  ∀ id, (t (.row K.entity id)).map K.restrict = (table.find? id).map K.row

/-- The replica has the same columns, can store the row, and does not take it for that of
its own administrator. -/
structure Takes (rep : Replica) (r : ρ) : Prop where
  columns : rep.columns K.entity = K.columns
  accepts : rep.accepts K.entity (K.payload r) = true
  kept : K.entity = .user → rep.skipsUser (K.snapshot r) = false

/-! ## What the replica makes of a journal row -/

section Apply

variable {K} {rep : Replica} {t : Tables} {r : ρ}

theorem applyRow_snapshot (h : K.Takes rep r) :
    rep.applyRow t (K.snapshot r) = rep.applyUpsert t K.entity (K.payload r) := by
  have hop : bytes "upsert" ≠ bytes "delete" := by decide +kernel
  have hentity : flywireEntity (K.snapshot r).entity = some (.plain K.entity) := K.named
  unfold Replica.applyRow
  rw [hentity]
  dsimp only
  split
  · next huser =>
    have hkind : K.entity = .user := KEntity.plain.inj huser.1
    rw [h.kept hkind, hkind]
    rfl
  · rw [if_neg fun hspecial => Bool.false_ne_true hspecial.1]
    exact if_neg hop

/-- What the row's columns are after its snapshot, whatever they were before. -/
theorem restrict_overwrite (h : K.Takes rep r) (before : Row) :
    K.restrict (overwrite (rep.written K.entity (K.payload r)) before) = K.row r := by
  funext c
  unfold row restrict
  by_cases hc : c ∈ K.columns
  · rcases Option.isSome_iff_exists.mp (K.complete r c hc) with ⟨v, hv⟩
    rw [if_pos hc, if_pos hc, overwrite, Replica.written, h.columns, if_pos hc, hv]
    exact congrArg (fun v => (v.map Value.bind).getD .null) hv.symm
  · rw [if_neg hc, if_neg hc]

theorem applyRow_snapshot_of_ne (h : K.Takes rep r) {k : Key} (hk : k ≠ .row K.entity (K.id r)) :
    rep.applyRow t (K.snapshot r) k = t k := by
  rw [applyRow_snapshot h]
  unfold Replica.applyUpsert
  rw [K.identified]
  dsimp only
  rw [if_pos h.accepts, Function.update_of_ne hk]

/-- A snapshot puts the row under its id and leaves the others alone. -/
theorem restrict_applyRow_snapshot (h : K.Takes rep r) (id : ℤ) :
    (rep.applyRow t (K.snapshot r) (.row K.entity id)).map K.restrict =
      if id = K.id r then some (K.row r) else (t (.row K.entity id)).map K.restrict := by
  split
  · next hid =>
    rw [applyRow_snapshot h]
    unfold Replica.applyUpsert
    rw [K.identified]
    dsimp only
    rw [if_pos h.accepts, hid, Function.update_self]
    exact congrArg some (restrict_overwrite h _)
  · next hid => rw [applyRow_snapshot_of_ne h fun heq => hid (Key.row.inj heq).2]

theorem applyRow_deletion (id id' : ℤ) :
    rep.applyRow t (K.deletion id) (.row K.entity id') =
      if 0 < id ∧ id' = id then none else t (.row K.entity id') := by
  have hupsert : bytes "delete" ≠ bytes "upsert" := by decide +kernel
  have hentity : flywireEntity (K.deletion id).entity = some (.plain K.entity) := K.named
  have hop : (K.deletion id).op = bytes "delete" := rfl
  unfold Replica.applyRow
  rw [hentity, hop]
  dsimp only
  rw [if_neg fun h => hupsert h.2, if_neg fun h => hupsert h.2, if_pos rfl]
  show (if id ≤ 0 then t else Function.update t (.row K.entity id) none) _ = _
  by_cases hid : 0 < id
  · rw [if_neg (Int.not_le.mpr hid)]
    by_cases heq : id' = id
    · rw [heq, Function.update_self, if_pos ⟨hid, rfl⟩]
    · rw [Function.update_of_ne fun h => heq (Key.row.inj h).2, if_neg fun h => heq h.2]
  · rw [if_pos (Int.not_lt.mp hid), if_neg fun h => hid h.1]

theorem applyAll_deletions (ids : List ℤ) (id' : ℤ) :
    rep.applyAll t (ids.map K.deletion) (.row K.entity id') =
      if 0 < id' ∧ id' ∈ ids then none else t (.row K.entity id') := by
  induction ids generalizing t with
  | nil => simp [Replica.applyAll]
  | cons id ids ih =>
    show rep.applyAll (rep.applyRow t (K.deletion id)) (ids.map K.deletion) _ = _
    rw [ih, applyRow_deletion]
    by_cases hpos : 0 < id'
    · by_cases hid : id' = id
      · subst hid
        simp [hpos]
      · simp [hid]
    · have hnot : ¬ (0 < id ∧ id' = id) := fun h => hpos (h.2 ▸ h.1)
      rw [if_neg hnot, if_neg fun h => hpos h.1, if_neg fun h => hpos h.1]

end Apply

/-! ## Operations that keep the tables equal -/

section Equal

variable {K} {rep : Replica} {t : Tables} {table table' : Keyed.Table K.id} {r : ρ}

theorem Equal.snapshot (h : K.Equal t table) (hr : K.Takes rep r)
    (hfind : ∀ id, table'.find? id = if id = K.id r then some r else table.find? id) :
    K.Equal (rep.applyRow t (K.snapshot r)) table' := by
  intro id
  rw [restrict_applyRow_snapshot hr, hfind]
  split
  · rfl
  · exact h id

theorem Equal.deletions (h : K.Equal t table) {ids : List ℤ}
    (hfind : ∀ id, table'.find? id = if 0 < id ∧ id ∈ ids then none else table.find? id) :
    K.Equal (rep.applyAll t (ids.map K.deletion)) table' := by
  intro id
  rw [applyAll_deletions, hfind]
  split
  · rfl
  · exact h id

theorem Equal.update (h : K.Equal t table) {f : ρ → ρ} (hf : ∀ r, K.id (f r) = K.id r) {id : ℤ}
    (hpos : ∀ r ∈ table.rows, K.id r = id → 0 < id) (honly : ∀ r, K.id r ≠ id → f r = r)
    (htakes : ∀ r ∈ (table.update f hf).rows, K.id r = id → K.Takes rep r) :
    K.Equal (rep.applyAll t (K.journalRow (table.update f hf) id)) (table.update f hf) := by
  have hother : ∀ id', id' ≠ id → (table.update f hf).find? id' = table.find? id' := by
    intro id' hne
    rw [Keyed.Table.find?_update]
    rcases hfind : table.find? id' with _ | r'
    · rfl
    · have hid' := (Keyed.Table.find?_eq_some.mp hfind).2
      rw [Option.map_some, honly r' (hid'.trans_ne hne)]
  rcases hfind : (table.update f hf).find? id with _ | r'
  · -- no row has the id, so nothing is changed and nothing journaled
    have hnil : K.journalRow (table.update f hf) id = [] := by
      unfold journalRow
      rw [hfind, Option.map_none, Option.toList_none, ite_self]
    have hnone : table.find? id = none := by
      rw [Keyed.Table.find?_update] at hfind
      exact Option.map_eq_none_iff.mp hfind
    rw [hnil]
    intro id'
    by_cases heq : id' = id
    · rw [heq, hfind, ← hnone]
      exact h id
    · rw [hother id' heq]
      exact h id'
  · rcases Keyed.Table.find?_eq_some.mp hfind with ⟨hr', hid⟩
    have hidpos : 0 < id := by
      rcases List.mem_map.mp hr' with ⟨r, hr, rfl⟩
      exact hpos r hr ((hf r).symm.trans hid)
    have hone : K.journalRow (table.update f hf) id = [K.snapshot r'] := by
      unfold journalRow
      rw [hfind, if_pos hidpos]
      rfl
    rw [hone]
    refine h.snapshot (htakes r' hr' hid) ?_
    intro id'
    rw [hid]
    split
    · next heq => rw [heq, hfind]
    · next hne => exact hother id' hne

theorem not_equal_of_none {id : ℤ} (ht : t (.row K.entity id) = none)
    (hfind : table.find? id = some r) : ¬ K.Equal t table := by
  intro h
  have hid := h id
  rw [ht, hfind] at hid
  exact nomatch hid

theorem not_equal_of_some {id : ℤ} (ht : t (.row K.entity id) ≠ none)
    (hfind : table.find? id = none) : ¬ K.Equal t table := by
  intro h
  have hid := h id
  rw [hfind, Option.map_none, Option.map_eq_none_iff] at hid
  exact ht hid

theorem Equal.ne_none (h : K.Equal t table) (hr : r ∈ table.rows) :
    t (.row K.entity (K.id r)) ≠ none := by
  intro hnone
  exact not_equal_of_none hnone (Keyed.Table.find?_eq_some.mpr ⟨hr, rfl⟩) h

theorem equal_snapshots_iff (h : K.Equal t table) {id : ℤ} (hfree : table.find? id = none)
    {rows : List ρ} (hrows : ∀ r ∈ rows, K.Takes rep r ∧ K.id r = id) {left : Option ρ}
    (hfind : ∀ id', table'.find? id' = if id' = id then left else table.find? id') :
    K.Equal (rep.applyAll t (rows.map K.snapshot)) table' ↔
      rows.getLast?.map K.row = left.map K.row := by
  have hcell : ∀ id', (rep.applyAll t (rows.map K.snapshot) (.row K.entity id')).map K.restrict =
      if id' = id then rows.getLast?.map K.row else (t (.row K.entity id')).map K.restrict := by
    intro id'
    induction rows using List.reverseRec with
    | nil =>
      show (t _).map K.restrict = _
      split
      · next hid =>
        rw [h, hid, hfree]
        rfl
      · rfl
    | append_singleton rows r ih =>
      rcases hrows r (List.mem_append_right _ (List.mem_singleton_self r)) with ⟨htakes, hid⟩
      have hbefore := ih fun r' hr' => hrows r' (List.mem_append_left _ hr')
      rw [List.map_append, Replica.applyAll_append, List.map_singleton]
      show (rep.applyRow _ (K.snapshot r) _).map K.restrict = _
      rw [restrict_applyRow_snapshot htakes, hid, hbefore, List.getLast?_concat]
      split
      · rfl
      · rfl
  constructor
  · intro hequal
    have hid := hequal id
    rw [hcell, hfind, if_pos rfl, if_pos rfl] at hid
    exact hid
  · intro hlast id'
    rw [hcell, hfind]
    split
    · exact hlast
    · exact h id'

end Equal

end Kind

/-! ## Selects and runs -/

/-- The order in which a SELECT without ORDER BY gives its rows. -/
structure Scan (ρ : Type*) where
  order : List ρ → List ρ
  perm : ∀ rows, (order rows).Perm rows

section Runs

open Run

variable {σ α : Type*} (exec : σ → α → σ × List FeedRow)

/-- The primary: its state, and the journal rows since the start. -/
structure Primary (σ : Type*) where
  state : σ
  journal : List FeedRow

def Primary.step (p : Primary σ) (a : α) : Primary σ where
  state := (exec p.state a).1
  journal := p.journal ++ (exec p.state a).2

/-- A replica that began with the tables `t` equals the primary after the journal. -/
def Replicated (equal : Tables → σ → Prop) (rep : Replica) (t : Tables) (p : Primary σ) : Prop :=
  equal (rep.applyAll t p.journal) p.state

variable {exec} {equal : Tables → σ → Prop} {rep : Replica} {ok : σ → α → Prop} {inv : σ → Prop}

/-- Where `ok` is exactly what a call needs to keep a replica equal, a replica stays equal
over a run exactly when all calls meet it. -/
theorem replicates_iff (hinv : ∀ s a, inv s → inv (exec s a).1)
    (hcall : ∀ t s a, inv s → equal t s →
      (equal (rep.applyAll t (exec s a).2) (exec s a).1 ↔ ok s a))
    {t : Tables} {s : σ} (hs : inv s) (h : equal t s) (as : List α) :
    (∀ p, Reaches (Primary.step exec) ⟨s, []⟩ as p → Replicated equal rep t p) ↔
      AllSteps (fun s a => (exec s a).1) ok s as := by
  have hstep : ∀ (p : Primary σ) (a : α), inv p.state → Replicated equal rep t p →
      (Replicated equal rep t (Primary.step exec p a) ↔ ok p.state a) := by
    intro p a hp hequal
    unfold Replicated Primary.step
    rw [Replica.applyAll_append]
    exact hcall _ _ _ hp hequal
  have hstart : Replicated equal rep t ⟨s, []⟩ := h
  have hkeep : ∀ (p : Primary σ) (a : α), inv p.state → inv (Primary.step exec p a).state :=
    fun p a hp => hinv p.state a hp
  rw [← allSteps_iff_forall_reaches hkeep hstep hs hstart]
  exact allSteps_comap (f := Primary.state) (fun _ _ => rfl) ⟨s, []⟩ as

end Runs

end FlyBoard.Snapshot

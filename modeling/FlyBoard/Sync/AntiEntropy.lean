import FlyBoard.Sync.MutationLog
import FlyBoard.Sync.Wire
import Mathlib.Data.List.Sort

/-!
# Serving and receiving mutations (`src/engine/flywire.c`)

`handler_flywire_anti_entropy` serves the mutation log in pages,
`flywire_anti_entropy_peer_iteration` fetches one page and imports its rows. Two
questions: what becomes of a row on its way, and which rows a scan over the pages
delivers.
-/

namespace FlyBoard.AntiEntropy

open Bytes Keyed Sync Wire

/-! ## One row -/

section Row

variable {J : Type*} (cjson : CJson J)

inductive Member (J : Type*) where
  | str (s : Bytes)
  | num (d : Int)
  | json (v : J)

abbrev ServedRow (J : Type*) := List (Bytes × Member J)

/-- The number that `cJSON_AddNumberToObject` makes of an integer. -/
def number (n : Int) : Member J := .num (doubleOfInt n)

def serveRow (m : Mutation) : ServedRow J :=
  [(bytes "mutation_id", .str m.mutationId),
   (bytes "entity", .str m.change.entity),
   (bytes "id", number m.change.entityId.toInt),
   (bytes "op", .str m.change.op),
   (bytes "payload", .json (servePayload cjson m.change.payload)),
   (bytes "changed_at", number m.changedAt.toInt),
   (bytes "payload_hash", .str m.payloadHash)]

/-- `cJSON_GetObjectItem`. -/
def getObjectItem (row : ServedRow J) (name : Bytes) : Option (Member J) :=
  (row.find? fun c => eqCI c.1 name).map (·.2)

/-- `valueint`: the double, cut off at the ends of `int`. -/
def valueInt (d : Int) : Int32 := Int32.ofInt (max (-(2 ^ 31)) (min d (2 ^ 31 - 1)))

/-- The mutation that the peer makes of a row; `none` when a member has the wrong type.
A `changed_at` past the end of `long long` converts as on x86-64. -/
def receiveRow (row : ServedRow J) : Option Mutation :=
  match getObjectItem row (bytes "mutation_id"), getObjectItem row (bytes "entity"),
    getObjectItem row (bytes "id"), getObjectItem row (bytes "op"),
    getObjectItem row (bytes "changed_at"), getObjectItem row (bytes "payload_hash") with
  | some (.str mutationId), some (.str entity), some (.num id), some (.str op),
    some (.num changedAt), some (.str hash) =>
    let payload := match getObjectItem row (bytes "payload") with
      | some (.json v) => receivePayload cjson v
      | _ => []
    some ⟨mutationId, ⟨entity, valueInt id, op, payload⟩, Int64.ofInt changedAt, hash⟩
  | _, _, _, _, _, _ => none

/-- A row that a site holds is served, received and imported by a site that has no row
of its id, and is there the same row. -/
def RoundTrips (sha256 : Bytes → Bytes) (m : Mutation) : Prop :=
  ∀ log : MutationLog, m.mutationId ∉ log.rows.map (·.mutationId) →
    ∃ m' log', receiveRow cjson (serveRow cjson m) = some m' ∧
      insertMutation sha256 log m' = some log' ∧ log'.rows = log.rows ++ [m]

/-- An `int` arrives as it is. -/
theorem valueInt_doubleOfInt (n : Int32) : valueInt (doubleOfInt n.toInt) = n := by
  have hlo : -2 ^ 31 ≤ n.toInt := n.le_toInt
  have hhi : n.toInt < 2 ^ 31 := n.toInt_lt
  rw [doubleOfInt_of_lt (by omega), valueInt, min_eq_left (by omega), max_eq_right hlo]
  exact Int32.ofInt_toInt n

/-- A `changed_at` arrives as it is when it is a double. -/
theorem ofInt_doubleOfInt_eq_iff {t : Int64} (ht : 0 ≤ t) :
    Int64.ofInt (doubleOfInt t.toInt) = t ↔ doubleOfInt t.toInt = t.toInt := by
  have hlo : 0 ≤ t.toInt := Int64.le_iff_toInt_le.mp ht
  have hhi : t.toInt < 2 ^ 63 := t.toInt_lt
  constructor
  · intro h
    have hle : toDouble t.toInt.natAbs ≤ 2 ^ 63 := toDouble_le (by omega)
    rcases hlo.eq_or_lt with hzero | hpos
    · rw [← hzero]
      rfl
    · have hd : doubleOfInt t.toInt = toDouble t.toInt.natAbs := by
        rw [doubleOfInt, Int.sign_eq_one_of_pos hpos, Int.one_mul]
      rw [hd] at h ⊢
      rcases Nat.lt_or_eq_of_le hle with hlt | hover
      · have hback := Int64.toInt_ofInt_of_le (n := (toDouble t.toInt.natAbs : Int))
          (by omega) (by omega)
        rw [h] at hback
        exact hback.symm
      · -- past the end of `long long`: the conversion gives a negative number
        rw [hover] at h
        rw [← h] at hpos
        exact absurd hpos (by decide)
  · intro h
    rw [h]
    exact Int64.ofInt_toInt t

theorem receiveRow_serveRow (m : Mutation) :
    receiveRow cjson (serveRow cjson m) =
      some ⟨m.mutationId,
        ⟨m.change.entity, m.change.entityId, m.change.op, received cjson m.change.payload⟩,
        Int64.ofInt (doubleOfInt m.changedAt.toInt), m.payloadHash⟩ := by
  -- every member is found under the name it was added under
  have hmid : getObjectItem (serveRow cjson m) (bytes "mutation_id") =
      some (.str m.mutationId) := rfl
  have hentity : getObjectItem (serveRow cjson m) (bytes "entity") =
      some (.str m.change.entity) := rfl
  have hid : getObjectItem (serveRow cjson m) (bytes "id") =
      some (number m.change.entityId.toInt) := rfl
  have hop : getObjectItem (serveRow cjson m) (bytes "op") = some (.str m.change.op) := rfl
  have hpayload : getObjectItem (serveRow cjson m) (bytes "payload") =
      some (.json (servePayload cjson m.change.payload)) := rfl
  have hat : getObjectItem (serveRow cjson m) (bytes "changed_at") =
      some (number m.changedAt.toInt) := rfl
  have hhash : getObjectItem (serveRow cjson m) (bytes "payload_hash") =
      some (.str m.payloadHash) := rfl
  simp only [receiveRow, hmid, hentity, hid, hop, hpayload, hat, hhash, number,
    valueInt_doubleOfInt, received]

variable {cjson} {sha256 : Bytes → Bytes} {m : Mutation}

/-- A row that arrives changed is refused, or stored as another row. -/
theorem RoundTrips.received_eq (h : RoundTrips cjson sha256 m) :
    received cjson m.change.payload = m.change.payload ∧
      Int64.ofInt (doubleOfInt m.changedAt.toInt) = m.changedAt := by
  -- an empty log stores exactly what arrives
  rcases h Table.empty List.not_mem_nil with ⟨m', log', hrecv, hins, hrows⟩
  rcases (insertMutation_eq_some sha256).mp hins with ⟨-, rfl⟩
  have hsame : m' = m := by
    have hmem : m ∈ ((Table.empty : MutationLog).insertOrIgnore m').rows := by
      rw [hrows]
      exact List.mem_append_right _ List.mem_cons_self
    rcases Table.mem_insertOrIgnore.mp hmem with hold | ⟨hnew, -⟩
    · exact absurd hold List.not_mem_nil
    · exact hnew.symm
  rw [receiveRow_serveRow, hsame] at hrecv
  have heq := Option.some.inj hrecv
  exact ⟨congrArg (·.change.payload) heq, congrArg (·.changedAt) heq⟩

theorem roundTrips_of_received_eq (hvalid : mutationValid sha256 m = true)
    (hpayload : received cjson m.change.payload = m.change.payload)
    (hat : Int64.ofInt (doubleOfInt m.changedAt.toInt) = m.changedAt) :
    RoundTrips cjson sha256 m := by
  intro log hnew
  refine ⟨m, log.insertOrIgnore m, ?_, (insertMutation_eq_some sha256).mpr ⟨hvalid, rfl⟩, ?_⟩
  · rw [receiveRow_serveRow, hpayload, hat]
  · rw [Table.insertOrIgnore, dif_neg hnew]

theorem changedAt_nonneg (hvalid : mutationValid sha256 m = true) : 0 ≤ m.changedAt := by
  unfold mutationValid at hvalid
  simp only [Bool.and_eq_true, decide_eq_true_eq] at hvalid
  exact hvalid.1.1.1.1.1.1.1.2

/-- A mutation of the log survives the wire exactly when its payload is the text that
cJSON prints for an object and its `changed_at` is a double. -/
theorem roundTrips_iff {J : Type*} (cjson : CJson J) (sha256 : Bytes → Bytes) (m : Mutation)
    (hvalid : mutationValid sha256 m = true) :
    RoundTrips cjson sha256 m ↔
      (∃ v, cjson.isObject v = true ∧ cjson.print v = m.change.payload) ∧
        doubleOfInt m.changedAt.toInt = m.changedAt.toInt := by
  rw [← received_eq_iff cjson, ← ofInt_doubleOfInt_eq_iff (changedAt_nonneg hvalid)]
  constructor
  · intro h
    exact h.received_eq
  · rintro ⟨hpayload, hat⟩
    exact roundTrips_of_received_eq hvalid hpayload hat

end Row

/-- An edit of post 7 as `backfill_journal` makes it of journal row 1. -/
def titleEdit : Mutation := legacyMutation Sha256.hexDigest ⟨1, Nat.one_pos, retitle "a", 0⟩

/-- The delete of post 7 that `db_post_delete` journals, as `backfill_journal` makes it. -/
def postDelete : Mutation :=
  legacyMutation Sha256.hexDigest ⟨1, Nat.one_pos, ⟨bytes "post", 7, bytes "delete", []⟩, 0⟩

theorem roundTrips_titleEdit : RoundTrips printedObjects Sha256.hexDigest titleEdit :=
  (roundTrips_iff printedObjects Sha256.hexDigest titleEdit (by decide +kernel)).mpr
    ⟨⟨⟨titleEdit.change.payload, by decide +kernel⟩, rfl, rfl⟩, by decide +kernel⟩

/-- A delete, which is stored with an empty payload, comes back as an empty object. -/
theorem postDelete_lost_on_wire :
    mutationValid Sha256.hexDigest postDelete = true ∧
      ¬ RoundTrips printedObjects Sha256.hexDigest postDelete := by
  refine ⟨by decide +kernel, ?_⟩
  intro h
  exact absurd h.received_eq.1 (by decide +kernel)

/-! ## A scan over the pages -/

/-- A prepared statement: its result, the rows it has not stepped to yet, and whether it
has returned SQLITE_DONE. -/
structure Statement (α : Type*) where
  result : List α
  rest : List α
  done : Bool

variable {α : Type*}

/-- `sqlite3_prepare_v2`. -/
def prepare (result : List α) : Statement α := ⟨result, result, false⟩

/-- `sqlite3_step`: a step after SQLITE_DONE resets the statement and starts over. -/
def Statement.step (st : Statement α) : Option α × Statement α :=
  match st.rest with
  | a :: rest => (some a, ⟨st.result, rest, false⟩)
  | [] =>
    match st.done, st.result with
    | true, a :: rest => (some a, ⟨st.result, rest, false⟩)
    | _, _ => (none, ⟨st.result, [], true⟩)

/-- The loop of the handler, with room for `n` more rows: the row that ends it when the
page is full has been stepped to. -/
def Statement.fetch (st : Statement α) : Nat → List α × Statement α
  | 0 => ([], st.step.2)
  | n + 1 =>
    match st.step with
    | (none, st) => ([], st)
    | (some a, st) => let r := st.fetch n; (a :: r.1, r.2)

/-- The `limit` parameter as the handler takes it. -/
def pageLimit (limit : Int) : Nat :=
  if limit < 1 then 200 else if 500 < limit then 500 else limit.toNat

theorem pageLimit_pos (limit : Int) : 0 < pageLimit limit := by
  rw [pageLimit]
  split
  · decide
  · split
    · decide
    · omega

/-- `ORDER BY mutation_id`. -/
def IdLe (a b : Mutation) : Prop := textKey a.mutationId ≤ textKey b.mutationId

instance : DecidableRel IdLe := fun _ _ => inferInstanceAs (Decidable (_ ≤ _))

instance : Std.Total IdLe := ⟨fun _ _ => le_total _ _⟩

instance : IsTrans Mutation IdLe := ⟨fun _ _ _ => le_trans⟩

/-- `WHERE mutation_id > cursor ORDER BY mutation_id`. -/
def selectAfter (log : MutationLog) (cursor : Bytes) : List Mutation :=
  (log.rows.filter fun m => textKey cursor < textKey m.mutationId).insertionSort IdLe

/-- The document of `handler_flywire_anti_entropy`. -/
structure Page where
  rows : List Mutation
  hasMore : Bool
  nextCursor : Bytes

/-- `handler_flywire_anti_entropy`. -/
def handlerAntiEntropy (log : MutationLog) (cursor : Bytes) (limit : Int) : Page :=
  let n := pageLimit limit
  let r := (prepare ((selectAfter log cursor).take (n + 1))).fetch n
  { rows := r.1
    hasMore := r.1.length == n && r.2.step.1.isSome
    nextCursor := (r.1.getLast?.map fun m => snprintfS 129 m.mutationId).getD [] }

/-- The ids that a peer receives from `cursor` on, until it resets the cursor; `none` when
that takes more than the given number of pages. -/
def scan (log : MutationLog) (limit : Int) : Nat → Bytes → Option (List Bytes)
  | 0, _ => none
  | pages + 1, cursor =>
    let page := handlerAntiEntropy log cursor limit
    let ids := page.rows.map (·.mutationId)
    if page.hasMore && !page.nextCursor.isEmpty then
      (scan log limit pages page.nextCursor).map (ids ++ ·)
    else some ids

/-- A scan from the empty cursor ends, and has delivered every id once. -/
def ScanComplete (log : MutationLog) (limit : Int) : Prop :=
  ∃ pages ids, scan log limit pages [] = some ids ∧ ids.Perm (log.rows.map (·.mutationId))

/-- What the loop has read, and where it leaves the statement: it has seen SQLITE_DONE, or
it has stepped past one row that is not on the page. -/
theorem fetch_eq (result rest : List α) (n : Nat) :
    Statement.fetch ⟨result, rest, false⟩ n =
      if rest.length ≤ n then (rest, ⟨result, [], true⟩)
      else (rest.take n, ⟨result, rest.drop (n + 1), false⟩) := by
  induction n generalizing rest with
  | zero => cases rest <;> rfl
  | succ n ih =>
    cases rest with
    | nil => rfl
    | cons a rest =>
      simp only [Statement.fetch, Statement.step, ih, List.length_cons, Nat.add_le_add_iff_right]
      split <;> simp

section Page

variable (log : MutationLog) (cursor : Bytes) (limit : Int)

theorem handlerAntiEntropy_rows :
    (handlerAntiEntropy log cursor limit).rows =
      (selectAfter log cursor).take (pageLimit limit) := by
  simp only [handlerAntiEntropy, prepare, fetch_eq, List.length_take]
  split
  · rename_i hle
    rw [List.take_of_length_le (by omega), List.take_of_length_le (by omega)]
  · simp [List.take_take]

/-- The page says that there is more exactly when there is not: when the rows that are
left fill it to the last place. -/
theorem handlerAntiEntropy_hasMore :
    (handlerAntiEntropy log cursor limit).hasMore = true ↔
      (selectAfter log cursor).length = pageLimit limit := by
  have hpos := pageLimit_pos limit
  simp only [handlerAntiEntropy, prepare, fetch_eq, List.length_take]
  split
  · -- the loop saw SQLITE_DONE, so one more step finds the first row again
    rename_i hle
    rw [List.take_of_length_le (by omega)]
    cases hrows : selectAfter log cursor with
    | nil =>
      simp only [Statement.step, Option.isSome_none, Bool.and_false, Bool.false_eq_true,
        List.length_nil, false_iff]
      omega
    | cons m rest => simp [Statement.step]
  · -- the row past the page has been stepped over, and it was the last
    rename_i hgt
    have hlong : pageLimit limit + 1 ≤ (selectAfter log cursor).length := by omega
    have hdrop : ((selectAfter log cursor).take (pageLimit limit + 1)).drop
        (pageLimit limit + 1) = [] := by
      simp
    rw [hdrop]
    simp only [Statement.step, Option.isSome_none, Bool.and_false, Bool.false_eq_true, false_iff]
    omega

end Page

section Scan

variable {sha256 : Bytes → Bytes} {log : MutationLog}

theorem mutationId_length (hvalid : LogValid sha256 log) {m : Mutation} (hm : m ∈ log.rows) :
    0 < m.mutationId.length ∧ m.mutationId.length ≤ 128 := by
  have hm := hvalid m hm
  unfold mutationValid at hm
  simp only [Bool.and_eq_true, decide_eq_true_eq] at hm
  exact ⟨hm.1.1.1.1.1.1.2, hm.1.1.1.1.1.2⟩

theorem selectAfter_nil_perm (hvalid : LogValid sha256 log) :
    (selectAfter log []).Perm log.rows := by
  have hall : log.rows.filter (fun m => textKey [] < textKey m.mutationId) = log.rows := by
    rw [List.filter_eq_self]
    intro m hm
    have hpos := (mutationId_length hvalid hm).1
    cases hid : m.mutationId with
    | nil =>
      rw [hid] at hpos
      exact absurd hpos (by decide)
    | cons c t => exact decide_eq_true (List.nil_lt_cons _ _)
  rw [selectAfter, hall]
  exact List.perm_insertionSort _ _

theorem selectAfter_last {m : Mutation} (hvalid : LogValid sha256 log)
    (hlast : (selectAfter log []).getLast? = some m) :
    selectAfter log m.mutationId = [] := by
  -- the rows stand in the order of their ids, so none is past the last one
  have hle : ∀ x ∈ log.rows, IdLe x m := by
    intro x hx
    rcases List.getLast?_eq_some_iff.mp hlast with ⟨front, hfront⟩
    have hsorted : (front ++ [m]).Pairwise IdLe := by
      rw [← hfront]
      exact List.pairwise_insertionSort _ _
    have hmem : x ∈ front ++ [m] := by
      rw [← hfront]
      exact (selectAfter_nil_perm hvalid).mem_iff.mpr hx
    rcases List.mem_append.mp hmem with hfirst | hm
    · exact (List.pairwise_append.mp hsorted).2.2 x hfirst m (List.mem_singleton.mpr rfl)
    · rw [List.mem_singleton.mp hm]
      exact le_refl _
  have hnone : log.rows.filter (fun x => textKey m.mutationId < textKey x.mutationId) = [] := by
    rw [List.filter_eq_nil_iff]
    intro x hx hlt
    exact absurd (of_decide_eq_true hlt) (not_lt.mpr (hle x hx))
  rw [selectAfter, hnone]
  rfl

theorem scan_of_not_hasMore {cursor : Bytes} {limit : Int} (pages : Nat)
    (h : (selectAfter log cursor).length ≠ pageLimit limit) :
    scan log limit (pages + 1) cursor =
      some (((selectAfter log cursor).take (pageLimit limit)).map (·.mutationId)) := by
  have hmore : (handlerAntiEntropy log cursor limit).hasMore = false := by
    rw [Bool.eq_false_iff]
    intro hmore
    exact h ((handlerAntiEntropy_hasMore log cursor limit).mp hmore)
  simp [scan, hmore, handlerAntiEntropy_rows]

/-- A log of at most one page is delivered, with an empty page after it when it fills the
page exactly. -/
theorem scan_of_le {limit : Int} (hvalid : LogValid sha256 log)
    (hle : log.rows.length ≤ pageLimit limit) :
    scan log limit 2 [] = some ((selectAfter log []).map (·.mutationId)) := by
  have hlen : (selectAfter log []).length = log.rows.length :=
    (selectAfter_nil_perm hvalid).length_eq
  rcases Nat.lt_or_eq_of_le hle with hlt | heq
  · rw [scan_of_not_hasMore 1 (by omega), List.take_of_length_le (by omega)]
  · -- the first page has everything, and its last id is the cursor of the second
    have hmore := (handlerAntiEntropy_hasMore log [] limit).mpr (hlen.trans heq)
    have hrows : (handlerAntiEntropy log [] limit).rows = selectAfter log [] := by
      rw [handlerAntiEntropy_rows, List.take_of_length_le (by omega)]
    have hne : selectAfter log [] ≠ [] := by
      intro hnil
      rw [hnil] at hlen
      have hpos := pageLimit_pos limit
      simp at hlen
      omega
    have hlast := List.getLast?_eq_getLast_of_ne_nil hne
    have hmem : (selectAfter log []).getLast hne ∈ log.rows :=
      (selectAfter_nil_perm hvalid).mem_iff.mp (List.getLast_mem hne)
    have hid := mutationId_length hvalid hmem
    have hcursor : (handlerAntiEntropy log [] limit).nextCursor =
        ((selectAfter log []).getLast hne).mutationId := by
      have hnext : (handlerAntiEntropy log [] limit).nextCursor =
        ((handlerAntiEntropy log [] limit).rows.getLast?.map
          fun m => snprintfS 129 m.mutationId).getD [] := rfl
      rw [hnext, hrows, hlast]
      exact List.take_of_length_le hid.2
    have hcons : (!(handlerAntiEntropy log [] limit).nextCursor.isEmpty) = true := by
      rw [hcursor, Bool.not_eq_true', List.isEmpty_eq_false_iff]
      exact List.ne_nil_of_length_pos hid.1
    have hsecond := selectAfter_last hvalid hlast
    have hend : scan log limit 1 ((selectAfter log []).getLast hne).mutationId = some [] := by
      rw [scan_of_not_hasMore 0, hsecond]
      · simp
      · rw [hsecond]
        exact Nat.ne_of_lt (pageLimit_pos limit)
    rw [scan]
    simp only [hmore, hcons, Bool.and_true, if_true, hrows]
    rw [hcursor, hend]
    simp

theorem length_le_of_scanComplete {limit : Int} (hvalid : LogValid sha256 log)
    (h : ScanComplete log limit) : log.rows.length ≤ pageLimit limit := by
  have hperm := selectAfter_nil_perm hvalid
  by_contra hgt
  rcases h with ⟨pages, ids, hscan, hids⟩
  cases pages with
  | zero => cases hscan
  | succ pages =>
    rw [scan_of_not_hasMore pages (by rw [hperm.length_eq]; omega)] at hscan
    rw [← Option.some.inj hscan] at hids
    have hlen := hids.length_eq
    simp only [List.length_map, List.length_take, hperm.length_eq] at hlen
    omega

/-- A scan delivers the whole log exactly when the log fits on one page. -/
theorem scanComplete_iff (sha256 : Bytes → Bytes) (log : MutationLog)
    (hvalid : LogValid sha256 log) (limit : Int) (hlo : 1 ≤ limit) (hhi : limit ≤ 500) :
    ScanComplete log limit ↔ (log.rows.length : Int) ≤ limit := by
  have hlimit : pageLimit limit = limit.toNat := by
    rw [pageLimit, if_neg (by omega), if_neg (by omega)]
  constructor
  · intro h
    have hle := length_le_of_scanComplete hvalid h
    omega
  · intro hle
    exact ⟨2, _, scan_of_le hvalid (by omega), (selectAfter_nil_perm hvalid).map _⟩

end Scan

def oneEdit : MutationLog := Table.empty.insertOrIgnore titleEdit

def twoEdits : MutationLog :=
  (record Sha256.hexDigest oneEdit (retitle "b") 1700000000000 [1, 2]).getD oneEdit

theorem scanComplete_oneEdit : ScanComplete oneEdit 200 :=
  (scanComplete_iff Sha256.hexDigest oneEdit (by decide +kernel) 200 (by decide)
    (by decide)).mpr (by decide +kernel)

/-- A peer that asks for pages of one row never sees the second edit. -/
theorem second_edit_never_scanned :
    LogValid Sha256.hexDigest twoEdits ∧ ¬ ScanComplete twoEdits 1 := by
  have hvalid : LogValid Sha256.hexDigest twoEdits := by decide +kernel
  refine ⟨hvalid, ?_⟩
  intro h
  exact absurd (length_le_of_scanComplete hvalid h) (by decide +kernel)

end FlyBoard.AntiEntropy

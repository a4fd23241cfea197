import FlyBoard.Lib.LastWriter
import FlyBoard.Sync.Journal

/-!
# Applying a journal row (`flywire_apply_row` in `src/engine/flywire.c`)

All entities of `k_entities`, with the three ways a row can be keyed: by the id in its
payload, by the pair of a link, by the kind and id of a translated item. The tables are
maps from keys to rows; constraints between rows (UNIQUE, foreign keys) are not part of
them, constraints on a single row are the parameter `accepts`.

A payload that reaches `flywire_apply_row` is always an object: `flywire_poll_once` and
`flywire_anti_entropy_peer_iteration` print one, or send nothing, which reads as the
empty object.
-/

namespace FlyBoard.Apply

open Bytes LastWriter

/-! ## Payloads -/

/-- A member of a payload, as cJSON parses it; `other` is null, an array or an object. -/
inductive Value where
  | number (n : Int)
  | string (s : Bytes)
  | bool (b : Bool)
  | other
deriving DecidableEq

/-- `valueint`. -/
def Value.int : Value → Int
  | number n => max (-(2 ^ 31)) (min n (2 ^ 31 - 1))
  | bool true => 1
  | _ => 0

/-- The value `flywire_apply_upsert` binds. -/
def Value.bind : Value → Json
  | number n => .num n
  | string s => .str s
  | _ => .null

abbrev Payload := List (Bytes × Value)

/-- `cJSON_GetObjectItem`. -/
def getObjectItem (payload : Payload) (name : Bytes) : Option Value :=
  (payload.find? fun c => eqCI c.1 name).map (·.2)

/-- The integer member of this name, or a default. -/
def intItem (payload : Payload) (name : String) (dflt : Int) : Int :=
  ((getObjectItem payload (bytes name)).map (·.int)).getD dflt

def stringItem (payload : Payload) (name dflt : String) : Bytes :=
  match getObjectItem payload (bytes name) with
  | some (.string s) => s
  | _ => bytes dflt

/-! ## Entities and tables -/

/-- The entities of `k_entities`; the last three are `special`. -/
inductive KEntity where
  | plain (e : Sync.Entity)
  | boardPerm
  | tagLink
  | i18n
deriving DecidableEq

def KEntity.special : KEntity → Bool
  | plain _ => false
  | _ => true

/-- `k_entities`. -/
def kEntities : List (Bytes × KEntity) :=
  [(bytes "post", .plain .post), (bytes "board", .plain .board), (bytes "board_perm", .boardPerm),
   (bytes "board_delegation", .plain .boardDelegation), (bytes "file", .plain .file),
   (bytes "series", .plain .series), (bytes "tag", .plain .tag), (bytes "tag_link", .tagLink),
   (bytes "vote", .plain .vote), (bytes "vote_anon", .plain .voteAnon), (bytes "i18n", .i18n),
   (bytes "comment", .plain .comment), (bytes "board_tree", .plain .boardTree),
   (bytes "user", .plain .user), (bytes "email", .plain .email),
   (bytes "guestbook", .plain .guestbook)]

/-- `flywire_entity`. -/
def flywireEntity (name : Bytes) : Option KEntity :=
  (kEntities.find? fun e => e.1 == name).map (·.2)

/-- The key column of a table of plain rows. -/
def keyCol (e : Sync.Entity) : Bytes := if e = .boardTree then bytes "board_id" else bytes "id"

inductive Key where
  | row (e : Sync.Entity) (id : Int)
  | boardPerm (boardId userId : Int)
  | tagLink (postId tagId : Int)
  | i18n (kind : Bytes) (itemId : Int)
deriving DecidableEq

def Key.isLinkOf (postId : Int) : Key → Bool
  | tagLink p _ => p == postId
  | _ => false

/-- The columns of a row. A link has none besides its key. -/
abbrev Row := Bytes → Json

/-- The tables of `k_entities`. -/
abbrev Tables := Key → Option Row

/-- What the replica brings along: its own administrator, the columns of its tables, what
a column holds that a new row does not name, and the single rows it can store. -/
structure Replica where
  adminUsername : Bytes
  siteAdminUid : Int
  columns : Sync.Entity → List Bytes
  default : Key → Row
  accepts : Sync.Entity → Payload → Bool

/-- A journal row as it reaches `flywire_apply_row`. The snapshots of
`db_sync_journal_row` carry the integer key of their row. -/
structure FeedRow where
  entity : Bytes
  entityId : Int
  op : Bytes
  payload : Payload
  keyed : ∀ e v, flywireEntity entity = some (.plain e) →
    getObjectItem payload (keyCol e) = some v → ∃ n, v = .number n

/-! ## The statements -/

section Statements

variable (rep : Replica) (t : Tables)

def Replica.written (e : Sync.Entity) (payload : Payload) (column : Bytes) : Option Json :=
  if column ∈ rep.columns e then (getObjectItem payload column).map (·.bind) else none

/-- `flywire_apply_upsert`. -/
def Replica.applyUpsert (e : Sync.Entity) (payload : Payload) : Tables :=
  match getObjectItem payload (keyCol e) with
  | some (.number id) =>
    if rep.accepts e payload then
      let k := Key.row e id
      Function.update t k (some (overwrite (rep.written e payload) ((t k).getD (rep.default k))))
    else t
  | _ => t

/-- `INSERT OR IGNORE` of a link. -/
def Replica.insertLink (k : Key) : Tables :=
  Function.update t k (some ((t k).getD (rep.default k)))

/-- `flywire_apply_delete`. -/
def applyDelete (e : KEntity) (entityId : Int) (payload : Payload) : Tables :=
  if entityId ≤ 0 then t
  else
    match e with
    | .plain e => Function.update t (.row e entityId) none
    | .boardPerm =>
      Function.update t
        (.boardPerm (intItem payload "board_id" entityId) (intItem payload "user_id" 0)) none
    | .tagLink => fun k => if k.isLinkOf (intItem payload "post_id" entityId) then none else t k
    | .i18n => Function.update t (.i18n (stringItem payload "kind" "post") entityId) none

def i18nColumns (lang : Bytes) (grp : Int) (column : Bytes) : Option Json :=
  if column = bytes "lang" then some (.str lang)
  else if column = bytes "grp" then some (.num grp)
  else none

/-- `flywire_apply_special` with the operation `upsert`. -/
def Replica.applySpecial (e : KEntity) (entityId : Int) (payload : Payload) : Tables :=
  match e with
  | .plain _ => t
  | .boardPerm =>
    rep.insertLink t
      (.boardPerm (intItem payload "board_id" entityId) (intItem payload "user_id" 0))
  | .tagLink =>
    -- a row without a tag says that the links of the post are written anew
    if intItem payload "tag_id" 0 ≤ 0 then applyDelete t e entityId payload
    else
      rep.insertLink t
        (.tagLink (intItem payload "post_id" entityId) (intItem payload "tag_id" 0))
  | .i18n =>
    let k := Key.i18n (stringItem payload "kind" "post") entityId
    let columns := i18nColumns (stringItem payload "lang" "") (intItem payload "grp" 0)
    Function.update t k (some (overwrite columns ((t k).getD (rep.default k))))

def Replica.skipsUser (r : FeedRow) : Bool :=
  let uname := stringItem r.payload "username" ""
  (!uname.isEmpty && uname == rep.adminUsername) ||
    (0 < r.entityId && r.entityId == rep.siteAdminUid)

/-- `flywire_apply_row`. A statement that fails is logged and passed over. -/
def Replica.applyRow (r : FeedRow) : Tables :=
  match flywireEntity r.entity with
  | none => t
  | some e =>
    if e = .plain .user ∧ r.op = bytes "upsert" then
      if rep.skipsUser r then t else rep.applyUpsert t .user r.payload
    else if e.special ∧ r.op = bytes "upsert" then rep.applySpecial t e r.entityId r.payload
    else if r.op = bytes "delete" then applyDelete t e r.entityId r.payload
    else
      match e with
      | .plain e => rep.applyUpsert t e r.payload
      -- a special table has no column list, so `flywire_apply_upsert` refuses it
      | _ => t

def Replica.applyAll (rows : List FeedRow) : Tables := rows.foldl rep.applyRow t

theorem Replica.applyAll_append (rows rows' : List FeedRow) :
    rep.applyAll t (rows ++ rows') = rep.applyAll (rep.applyAll t rows) rows' :=
  List.foldl_append

end Statements

/-! ## Replays -/

section Replay

variable (rep : Replica)

theorem Replica.keyWise_applyUpsert (e : Sync.Entity) (payload : Payload) :
    KeyWise rep.default fun t => rep.applyUpsert t e payload := by
  unfold Replica.applyUpsert
  split
  · split
    · exact keyWise_upsert _ _
    · exact keyWise_id
  · exact keyWise_id

theorem Replica.keyWise_applyDelete (e : KEntity) (entityId : Int) (payload : Payload) :
    KeyWise rep.default fun t => applyDelete t e entityId payload := by
  unfold applyDelete
  split
  · exact keyWise_id
  · cases e with
    | plain e => exact keyWise_update_none _
    | boardPerm => exact keyWise_update_none _
    | tagLink =>
      -- all links of the post, whatever their tag
      exact keyWise_remove fun k : Key => k.isLinkOf (intItem payload "post_id" entityId) = true
    | i18n => exact keyWise_update_none _

theorem Replica.keyWise_applySpecial (e : KEntity) (entityId : Int) (payload : Payload) :
    KeyWise rep.default fun t => rep.applySpecial t e entityId payload := by
  cases e with
  | plain e => exact keyWise_id
  | boardPerm => exact keyWise_insert _
  | tagLink =>
    unfold Replica.applySpecial
    dsimp only
    split
    · exact rep.keyWise_applyDelete .tagLink entityId payload
    · exact keyWise_insert _
  | i18n => exact keyWise_upsert _ _

theorem Replica.keyWise_applyRow (r : FeedRow) :
    KeyWise rep.default fun t => rep.applyRow t r := by
  unfold Replica.applyRow
  cases flywireEntity r.entity with
  | none => exact keyWise_id
  | some e =>
    dsimp only
    -- in the order of the tests in `flywire_apply_row`
    split
    · split
      · exact keyWise_id
      · exact rep.keyWise_applyUpsert .user r.payload
    · split
      · exact rep.keyWise_applySpecial e r.entityId r.payload
      · split
        · exact rep.keyWise_applyDelete e r.entityId r.payload
        · cases e with
          | plain e => exact rep.keyWise_applyUpsert e r.payload
          | boardPerm => exact keyWise_id
          | tagLink => exact keyWise_id
          | i18n => exact keyWise_id

end Replay

/-- Applying the rows of a journal again from any place on changes no table: a replica
that crashed before it wrote its checkpoint may start from the older one. -/
theorem replayed_suffix_harmless (rep : Replica) (journal : List FeedRow) (t : Tables) (k : Nat) :
    rep.applyAll (rep.applyAll t journal) (journal.drop k) = rep.applyAll t journal := by
  -- the suffix ran last the first time, from the state that the prefix left
  have hsplit : rep.applyAll t journal =
      rep.applyAll (rep.applyAll t (journal.take k)) (journal.drop k) := by
    rw [← Replica.applyAll_append, List.take_append_drop]
  have hsuffix : KeyWise rep.default fun t => rep.applyAll t (journal.drop k) :=
    keyWise_foldl rep.keyWise_applyRow _
  rw [hsplit]
  exact hsuffix.twice _

end FlyBoard.Apply

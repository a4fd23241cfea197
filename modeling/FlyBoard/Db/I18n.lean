import FlyBoard.Lib.Run
import FlyBoard.Sync.Apply

/-!
# Languages and translation groups (`db_i18n_set` in `src/db/series.c`)

An item (a post, a board, a series) has a language and belongs to at most one group of
translations. Pairing an item with one that is in no group starts a group there, which
writes two rows of `i18n`; the journal gets the row of the item that was asked about. This
module asks when the journal of a sequence of calls tells a replica all of the table.
-/

namespace FlyBoard.I18n

open Bytes Apply

/-- The columns of a row of `i18n` besides its key. -/
structure Item where
  lang : Bytes
  grp : Int32

/-- The table `i18n`, by kind and item. -/
abbrev Items := Bytes → Int → Option Item

/-- The table and the journal rows the calls have written. -/
structure Primary where
  items : Items
  journal : List FeedRow

/-- The arguments of `db_i18n_set`. No language is NULL. -/
structure Call where
  kind : Bytes
  id : Int32
  lang : Option Bytes
  pairWith : Int32

/-! ## The functions -/

/-- `i18n_lang_valid`: `ko`, `zh-tw`, or nothing for unset. -/
def i18nLangValid (lang : Bytes) : Bool :=
  let n := lang.length
  let i := (lang.takeWhile isLower).length
  if n = 0 then true
  else if n < 2 ∨ 12 < n then false
  else if i < 2 ∨ 3 < i then false
  else if i = n then true
  else if lang[i]? ≠ some 45 then false
  else if n - i - 1 < 2 ∨ 8 < n - i - 1 then false
  else (lang.drop (i + 1)).all fun c => isLower c || isDigit c

/-- `i18n_kind_valid`. -/
def i18nKindValid (kind : Bytes) : Bool :=
  kind == bytes "post" || kind == bytes "board" || kind == bytes "series"

section Functions

variable (items : Items) (kind : Bytes) (id : Int)

/-- `i18n_group_of`. -/
def i18nGroupOf : Int32 := ((items kind id).map (·.grp)).getD 0

/-- `i18n_upsert`; a column that is not given keeps its value, or gets its default. -/
def i18nUpsert (lang : Option Bytes) (grp : Option Int32) : Items := fun k i =>
  if k = kind ∧ i = id then
    let old := (items kind id).getD ⟨[], 0⟩
    some ⟨lang.getD old.lang, grp.getD old.grp⟩
  else items k i

end Functions

/-- The journal row of an item: `{kind, item_id, lang, grp}`. -/
def itemRow (kind : Bytes) (id : Int) (x : Item) : FeedRow where
  entity := bytes "i18n"
  entityId := id
  op := bytes "upsert"
  payload := [(bytes "kind", .string kind), (bytes "item_id", .number id),
    (bytes "lang", .string x.lang), (bytes "grp", .number x.grp.toInt)]
  keyed := by
    intro e v he
    cases he

/-- `db_i18n_set` gives up before it writes. -/
def Call.refused (c : Call) : Bool :=
  !i18nKindValid c.kind || c.id ≤ 0 || c.lang.any fun lang => !i18nLangValid lang

/-- The rows that `db_i18n_set` writes. -/
def Call.write (c : Call) (items : Items) : Items :=
  let items := i18nUpsert items c.kind c.id.toInt c.lang none
  if c.pairWith < 0 then i18nUpsert items c.kind c.id.toInt none (some 0)
  else if c.pairWith = 0 ∨ c.pairWith = c.id then items
  else
    -- join the other item's group, starting one keyed by its id
    let grp := i18nGroupOf items c.kind c.pairWith.toInt
    if grp = 0 then
      let items := i18nUpsert items c.kind c.pairWith.toInt none (some c.pairWith)
      i18nUpsert items c.kind c.id.toInt none (some c.pairWith)
    else i18nUpsert items c.kind c.id.toInt none (some grp)

/-- `db_i18n_set`. -/
def dbI18nSet (s : Primary) (c : Call) : Primary :=
  if c.refused then s
  else
    let items := c.write s.items
    let row := (items c.kind c.id.toInt).map (itemRow c.kind c.id.toInt)
    { items := items, journal := s.journal ++ row.toList }

/-! ## What the replica has -/

def Items.view (items : Items) (kind : Bytes) (id : Int) : Option (Json × Json) :=
  (items kind id).map fun x => (.str x.lang, .num x.grp.toInt)

def i18nView (t : Tables) (kind : Bytes) (id : Int) : Option (Json × Json) :=
  (t (.i18n kind id)).map fun row => (row (bytes "lang"), row (bytes "grp"))

/-- `db_i18n_siblings`, before the join with the items themselves: the other members of the
item's group with their languages. -/
def siblings (view : Bytes → Int → Option (Json × Json)) (kind : Bytes) (id : Int) :
    Set (Int × Json) :=
  { o | o.1 ≠ id ∧ ∃ lang grp, view kind id = some (lang, grp) ∧ grp ≠ .num 0 ∧
    view kind o.1 = some (o.2, grp) }

def Replicated (rep : Replica) (t : Tables) (s : Primary) : Prop :=
  i18nView (rep.applyAll t s.journal) = s.items.view

def Call.startsGroup (c : Call) (items : Items) : Prop :=
  c.refused = false ∧ 0 < c.pairWith ∧ c.pairWith ≠ c.id ∧
    i18nGroupOf items c.kind c.pairWith.toInt = 0

/-! ## When the journal tells it all -/

section Steps

variable {items : Items} {kind k : Bytes} {id i : Int} {c : Call}

theorem i18nUpsert_self (items : Items) (kind : Bytes) (id : Int) (lang : Option Bytes)
    (grp : Option Int32) : i18nUpsert items kind id lang grp kind id =
      some ⟨lang.getD ((items kind id).getD ⟨[], 0⟩).lang,
        grp.getD ((items kind id).getD ⟨[], 0⟩).grp⟩ :=
  if_pos ⟨rfl, rfl⟩

theorem i18nUpsert_of_ne {lang : Option Bytes} {grp : Option Int32}
    (h : ¬ (k = kind ∧ i = id)) : i18nUpsert items kind id lang grp k i = items k i :=
  if_neg h

theorem Call.exists_write (c : Call) (items : Items) :
    ∃ x, c.write items c.kind c.id.toInt = some x := by
  unfold Call.write
  dsimp only
  split
  · exact ⟨_, i18nUpsert_self ..⟩
  · split
    · exact ⟨_, i18nUpsert_self ..⟩
    · split
      · exact ⟨_, i18nUpsert_self ..⟩
      · exact ⟨_, i18nUpsert_self ..⟩

theorem Call.write_pair (h : c.startsGroup items) :
    c.write items c.kind c.pairWith.toInt =
      some { (items c.kind c.pairWith.toInt).getD ⟨[], 0⟩ with grp := c.pairWith } := by
  rcases h with ⟨-, hpos, hne, hgrp⟩
  have hother : ¬ (c.kind = c.kind ∧ c.pairWith.toInt = c.id.toInt) :=
    fun h => hne (Int32.toInt_inj.mp h.2)
  have hnone : ¬ (c.pairWith = 0 ∨ c.pairWith = c.id) := by
    rintro (hzero | heq)
    · rw [hzero] at hpos
      exact absurd hpos (by decide)
    · exact hne heq
  -- the language of the item is stored first, and does not touch the other one
  have hgrp' : i18nGroupOf (i18nUpsert items c.kind c.id.toInt c.lang none) c.kind
      c.pairWith.toInt = 0 := by
    rw [i18nGroupOf, i18nUpsert_of_ne hother]
    exact hgrp
  unfold Call.write
  dsimp only
  rw [if_neg (Int32.lt_asymm hpos), if_neg hnone, if_pos hgrp', i18nUpsert_of_ne hother,
    i18nUpsert_self, i18nUpsert_of_ne hother]
  rfl

theorem Call.write_of_ne (hself : ¬ (k = c.kind ∧ i = c.id.toInt))
    (hpair : ¬ (c.startsGroup items ∧ k = c.kind ∧ i = c.pairWith.toInt))
    (hrefused : c.refused = false) : c.write items k i = items k i := by
  unfold Call.write
  dsimp only
  split
  · rw [i18nUpsert_of_ne hself, i18nUpsert_of_ne hself]
  · rename_i hnonneg
    split
    · rw [i18nUpsert_of_ne hself]
    · rename_i hother
      rw [not_or] at hother
      split
      · -- the other item is in no group yet: this is where one is started
        rename_i hgrp
        have hdiff : ¬ (c.kind = c.kind ∧ c.pairWith.toInt = c.id.toInt) :=
          fun h => hother.2 (Int32.toInt_inj.mp h.2)
        have hstarts : c.startsGroup items := by
          refine ⟨hrefused, ?_, hother.2, ?_⟩
          · exact Int32.lt_of_le_of_ne (Int32.not_lt.mp hnonneg) (Ne.symm hother.1)
          · rwa [i18nGroupOf, i18nUpsert_of_ne hdiff] at hgrp
        have hnot : ¬ (k = c.kind ∧ i = c.pairWith.toInt) := fun h => hpair ⟨hstarts, h⟩
        rw [i18nUpsert_of_ne hself, i18nUpsert_of_ne hnot, i18nUpsert_of_ne hself]
      · rw [i18nUpsert_of_ne hself, i18nUpsert_of_ne hself]

variable {rep : Replica} {t : Tables} {s : Primary}

theorem i18nView_itemRow (kind : Bytes) (id : Int) (x : Item) (k : Bytes) (i : Int) :
    i18nView (rep.applyRow t (itemRow kind id x)) k i =
      if k = kind ∧ i = id then some (.str x.lang, .num x.grp.toInt) else i18nView t k i := by
  -- the group is an `int` on both sides
  have hgrp : (Value.number x.grp.toInt).int = x.grp.toInt := by
    have hlt := x.grp.toInt_lt
    have hle := x.grp.le_toInt
    rw [Value.int]
    omega
  show i18nView (Function.update t (.i18n kind id) (some (LastWriter.overwrite
    (i18nColumns x.lang (Value.number x.grp.toInt).int)
      ((t (.i18n kind id)).getD (rep.default (.i18n kind id)))))) k i = _
  rw [hgrp, i18nView]
  by_cases h : k = kind ∧ i = id
  · rcases h with ⟨rfl, rfl⟩
    rw [Function.update_self, if_pos ⟨rfl, rfl⟩]
    rfl
  · have hkey : Key.i18n k i ≠ Key.i18n kind id := by
      intro heq
      exact h (Key.i18n.inj heq)
    rw [Function.update_of_ne hkey, if_neg h, i18nView]

theorem view_pair_ne (h : c.startsGroup items) :
    items.view c.kind c.pairWith.toInt ≠ (c.write items).view c.kind c.pairWith.toInt := by
  rw [Items.view, Items.view, c.write_pair h]
  rcases h with ⟨-, hpos, -, hgrp⟩
  cases hitem : items c.kind c.pairWith.toInt with
  | none => exact nofun
  | some y =>
    rw [i18nGroupOf, hitem] at hgrp
    intro heq
    have hsnd := congrArg Prod.snd (Option.some.inj heq)
    have hpair : y.grp = c.pairWith := Int32.toInt_inj.mp (Json.num.inj hsnd)
    rw [← hpair, show y.grp = 0 from hgrp] at hpos
    exact absurd hpos (by decide)

/-- A call is told in full just when it starts no group at another item. -/
theorem replicated_dbI18nSet_iff (hr : Replicated rep t s) (c : Call) :
    Replicated rep t (dbI18nSet s c) ↔ ¬ c.startsGroup s.items := by
  rw [dbI18nSet]
  split
  · rename_i hrefused
    refine ⟨?_, fun _ => hr⟩
    rintro - ⟨hnot, -⟩
    rw [hrefused] at hnot
    exact nomatch hnot
  · rename_i hrefused
    rw [Bool.not_eq_true] at hrefused
    rcases c.exists_write s.items with ⟨x, hx⟩
    dsimp only
    rw [hx, Replicated, Replica.applyAll_append]
    show i18nView (rep.applyRow (rep.applyAll t s.journal) (itemRow c.kind c.id.toInt x)) =
      (c.write s.items).view ↔ _
    constructor
    · intro hview hstarts
      -- the replica still has the other item in no group
      have hboth := congrFun (congrFun hview c.kind) c.pairWith.toInt
      have hother : ¬ (c.kind = c.kind ∧ c.pairWith.toInt = c.id.toInt) :=
        fun h => hstarts.2.2.1 (Int32.toInt_inj.mp h.2)
      rw [i18nView_itemRow, if_neg hother, hr] at hboth
      exact view_pair_ne hstarts hboth
    · intro hcovered
      funext k i
      rw [i18nView_itemRow, hr]
      by_cases hself : k = c.kind ∧ i = c.id.toInt
      · rcases hself with ⟨rfl, rfl⟩
        rw [if_pos ⟨rfl, rfl⟩, Items.view, hx]
        rfl
      · rw [if_neg hself, Items.view, Items.view,
          Call.write_of_ne hself (fun h => hcovered h.1) hrefused]

end Steps

/-- A replica that starts with the primary's table has the primary's table, and with it
the same siblings of every item, all along a sequence of calls exactly when no call starts
a group at another item. -/
theorem i18n_replicate_iff (rep : Replica) (t : Tables) (s : Primary) (calls : List Call)
    (hjournal : s.journal = []) (hstart : i18nView t = s.items.view) :
    (∀ s', Run.Reaches dbI18nSet s calls s' → Replicated rep t s' ∧
      ∀ kind id, siblings (i18nView (rep.applyAll t s'.journal)) kind id =
        siblings s'.items.view kind id) ↔
    Run.AllSteps dbI18nSet (fun s c => ¬ c.startsGroup s.items) s calls := by
  have hr : Replicated rep t s := by
    rw [Replicated, hjournal]
    exact hstart
  have hstep : ∀ s' c, Replicated rep t s' →
      (Replicated rep t (dbI18nSet s' c) ↔ ¬ c.startsGroup s'.items) :=
    fun _ c hr' => replicated_dbI18nSet_iff hr' c
  -- the siblings are read off the table
  rw [Run.allSteps_iff_forall_good hstep hr calls]
  constructor
  · intro hall s' hs'
    exact (hall s' hs').1
  · intro hall s' hs'
    have hview : i18nView (rep.applyAll t s'.journal) = s'.items.view := hall s' hs'
    refine ⟨hview, ?_⟩
    intro kind id
    rw [hview]

def mirror : Replica where
  adminUsername := bytes "admin"
  siteAdminUid := 0
  columns := fun _ => []
  default := fun _ _ => .null
  accepts := fun _ _ => true

def led : Items := fun kind id =>
  if kind = bytes "post" ∧ id = 1 then some ⟨bytes "ko", 1⟩ else none

def copyOf (items : Items) : Tables
  | .i18n kind id => (items kind id).map fun x column =>
      (i18nColumns x.lang x.grp.toInt column).getD .null
  | _ => none

theorem i18nView_copyOf (items : Items) : i18nView (copyOf items) = items.view := by
  funext kind id
  exact Option.map_map ..

/-- Post 2 joins the group of post 1 and leaves it again. -/
theorem i18n_replicate_joined :
    let s' := Run.run dbI18nSet ⟨led, []⟩ [⟨bytes "post", 2, some (bytes "en"), 1⟩,
      ⟨bytes "post", 2, none, -1⟩]
    Replicated mirror (copyOf led) s' ∧
      ∀ kind id, siblings (i18nView (mirror.applyAll (copyOf led) s'.journal)) kind id =
        siblings s'.items.view kind id := by
  refine (i18n_replicate_iff mirror (copyOf led) ⟨led, []⟩ _ rfl
    (i18nView_copyOf led)).mpr ?_ _ (Run.reaches_run _ _)
  refine ⟨?_, ?_, trivial⟩
  · rintro ⟨-, -, -, hgrp⟩
    exact absurd hgrp (by decide)
  · rintro ⟨-, hpos, -⟩
    exact absurd hpos (by decide)

/-- Post 2 is paired with post 1, which was in no group: the replica puts post 2 into a
group of its own. -/
theorem group_leader_unjournaled :
    i18nView (copyOf fun _ _ => none) = Items.view (fun _ _ => none) ∧
      ¬ Replicated mirror (copyOf fun _ _ => none)
        (Run.run dbI18nSet ⟨fun _ _ => none, []⟩ [⟨bytes "post", 2, some (bytes "en"), 1⟩]) := by
  refine ⟨i18nView_copyOf _, ?_⟩
  intro hr
  have hfirst := congrFun (congrFun hr (bytes "post")) 1
  revert hfirst
  decide

end FlyBoard.I18n

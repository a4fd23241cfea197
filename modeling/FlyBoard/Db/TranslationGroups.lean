import FlyBoard.Lib.DisjointSets
import FlyBoard.Db.I18n

/-!
# Translation groups as disjoint sets (`src/db/series.c`)

Pairing an item takes it out of its group and puts it into the other item's, or starts a group
there, which is named after the other item. That name may be in use: an item that has left the
group it started is not asked whether others stayed behind. The table is compared with sets that
need no names.
-/

namespace FlyBoard.I18n

open Bytes DisjointSets

def sameGroup (items : Items) (kind : Bytes) : Setoid Int := ofLabel 0 (i18nGroupOf items kind)

/-- What a call is for: the item leaves its set, for none or for the other item's. -/
def Call.regroup (c : Call) (sets : Setoid Int) : Setoid Int :=
  if c.pairWith < 0 then isolate sets c.id.toInt
  else if c.pairWith = 0 ∨ c.pairWith = c.id then sets
  else move sets c.id.toInt c.pairWith.toInt

def regroupAll (sets : Bytes → Setoid Int) (c : Call) : Bytes → Setoid Int :=
  if c.refused then sets else Function.update sets c.kind (c.regroup (sets c.kind))

def stepBoth (st : Primary × (Bytes → Setoid Int)) (c : Call) : Primary × (Bytes → Setoid Int) :=
  (dbI18nSet st.1 c, regroupAll st.2 c)

def Call.NameFree (c : Call) (items : Items) : Prop :=
  c.startsGroup items → ∀ a : Int, a ≠ c.id.toInt → a ≠ c.pairWith.toInt →
    i18nGroupOf items c.kind a ≠ c.pairWith

/-! ## One call -/

section Steps

variable {items : Items} {kind k : Bytes} {id : Int} {c : Call}

theorem i18nGroupOf_upsert (items : Items) (kind : Bytes) (id : Int) (lang : Option Bytes)
    (grp : Option Int32) : i18nGroupOf (i18nUpsert items kind id lang grp) kind =
      Function.update (i18nGroupOf items kind) id (grp.getD (i18nGroupOf items kind id)) := by
  funext i
  by_cases hi : i = id
  · rw [hi, Function.update_self, i18nGroupOf, i18nUpsert_self, Option.map_some, Option.getD_some]
    cases hitem : items kind id with
    | none => rw [i18nGroupOf, hitem, Option.getD_none, Option.map_none, Option.getD_none]
    | some x => rw [i18nGroupOf, hitem, Option.getD_some, Option.map_some, Option.getD_some]
  · rw [Function.update_of_ne hi, i18nGroupOf, i18nUpsert_of_ne fun h => hi h.2, i18nGroupOf]

theorem i18nGroupOf_upsert_none (items : Items) (kind : Bytes) (id : Int) (lang : Option Bytes) :
    i18nGroupOf (i18nUpsert items kind id lang none) kind = i18nGroupOf items kind := by
  rw [i18nGroupOf_upsert, Option.getD_none, Function.update_eq_self]

theorem i18nGroupOf_write (c : Call) (items : Items) :
    i18nGroupOf (c.write items) c.kind =
      let g := i18nGroupOf items c.kind
      if c.pairWith < 0 then Function.update g c.id.toInt 0
      else if c.pairWith = 0 ∨ c.pairWith = c.id then g
      else if g c.pairWith.toInt = 0 then
        Function.update (Function.update g c.pairWith.toInt c.pairWith) c.id.toInt c.pairWith
      else Function.update g c.id.toInt (g c.pairWith.toInt) := by
  have hlang := i18nGroupOf_upsert_none items c.kind c.id.toInt c.lang
  rw [Call.write]
  dsimp only
  rw [hlang]
  split_ifs
  · rw [i18nGroupOf_upsert, hlang, Option.getD_some]
  · exact hlang
  · rw [i18nGroupOf_upsert, i18nGroupOf_upsert, hlang, Option.getD_some, Option.getD_some]
  · rw [i18nGroupOf_upsert, hlang, Option.getD_some]

theorem i18nGroupOf_write_of_ne (hk : k ≠ c.kind) (hrefused : c.refused = false) :
    i18nGroupOf (c.write items) k = i18nGroupOf items k := by
  funext i
  rw [i18nGroupOf, i18nGroupOf,
    Call.write_of_ne (fun h => hk h.1) (fun h => hk h.2.1) hrefused]

/-- The groups that a call leaves are the sets it is for, unless it starts a group under a name
that is in use. -/
theorem sameGroup_write_iff (hrefused : c.refused = false) :
    sameGroup (c.write items) c.kind = c.regroup (sameGroup items c.kind) ↔ c.NameFree items := by
  rw [sameGroup, i18nGroupOf_write, Call.regroup, sameGroup]
  dsimp only
  split_ifs with hneg hself hgrp
  · refine iff_of_true ofLabel_update_unset fun h => ?_
    exact absurd h.2.1 (Int32.lt_asymm hneg)
  · refine iff_of_true rfl fun h => ?_
    rcases hself with hzero | heq
    · rw [Call.startsGroup, hzero] at h
      exact absurd h.2.1 (by decide)
    · exact absurd heq h.2.2.1
  · rw [not_or] at hself
    have hdiff : c.id.toInt ≠ c.pairWith.toInt := fun h => hself.2 (Int32.toInt_inj.mp h).symm
    have hstarts : c.startsGroup items := by
      refine ⟨hrefused, ?_, hself.2, hgrp⟩
      exact Int32.lt_of_le_of_ne (Int32.not_lt.mp hneg) (Ne.symm hself.1)
    rw [ofLabel_update_start hdiff hgrp hself.1]
    exact ⟨fun h _ => h, fun h => h hstarts⟩
  · exact iff_of_true (ofLabel_update_label hgrp) fun h => absurd h.2.2.2 hgrp

def Grouped (st : Primary × (Bytes → Setoid Int)) : Prop :=
  ∀ kind, sameGroup st.1.items kind = st.2 kind

theorem grouped_stepBoth_iff {st : Primary × (Bytes → Setoid Int)} (h : Grouped st) (c : Call) :
    Grouped (stepBoth st c) ↔ c.NameFree st.1.items := by
  rw [Grouped, stepBoth, dbI18nSet, regroupAll]
  by_cases hrefused : c.refused = true
  · rw [if_pos hrefused, if_pos hrefused]
    refine iff_of_true h fun hstarts => ?_
    rw [hstarts.1] at hrefused
    cases hrefused
  · rw [if_neg hrefused, if_neg hrefused]
    rw [Bool.not_eq_true] at hrefused
    dsimp only
    rw [← sameGroup_write_iff hrefused, h c.kind]
    constructor
    · intro hall
      have hkind := hall c.kind
      rwa [Function.update_self] at hkind
    · intro hkind k
      by_cases hk : k = c.kind
      · rw [hk, Function.update_self]
        exact hkind
      · rw [Function.update_of_ne hk, ← h k, sameGroup, sameGroup,
          i18nGroupOf_write_of_ne hk hrefused]

theorem mem_siblings_iff (items : Items) (kind : Bytes) (id other : Int) :
    (∃ lang, (other, lang) ∈ siblings items.view kind id) ↔
      other ≠ id ∧ sameGroup items kind id other := by
  constructor
  · rintro ⟨lang, hne, lang', grp, hid, hzero, hother⟩
    rw [Items.view] at hid hother
    rcases Option.map_eq_some_iff.mp hid with ⟨x, hx, hxgrp⟩
    rcases Option.map_eq_some_iff.mp hother with ⟨y, hy, hygrp⟩
    have hxnum : Json.num x.grp.toInt = grp := congrArg Prod.snd hxgrp
    have hynum : Json.num y.grp.toInt = grp := congrArg Prod.snd hygrp
    have hsame : x.grp = y.grp := Int32.toInt_inj.mp (Json.num.inj (hxnum.trans hynum.symm))
    have hnonzero : x.grp ≠ 0 := by
      intro h
      rw [← hxnum, h] at hzero
      exact hzero rfl
    refine ⟨hne, .inr ⟨?_, ?_⟩⟩
    · rw [i18nGroupOf, hx]
      exact hnonzero
    · rw [i18nGroupOf, i18nGroupOf, hx, hy]
      exact hsame
  · rintro ⟨hne, heq | ⟨hnonzero, hsame⟩⟩
    · exact absurd heq.symm hne
    · rw [hsame] at hnonzero
      rw [i18nGroupOf, i18nGroupOf] at hsame
      rw [i18nGroupOf] at hnonzero
      cases hy : items kind other with
      | none =>
        rw [hy] at hnonzero
        exact absurd rfl hnonzero
      | some y =>
        rw [hy] at hnonzero hsame
        cases hx : items kind id with
        | none =>
          rw [hx] at hsame
          exact absurd hsame.symm hnonzero
        | some x =>
          rw [hx] at hsame
          refine ⟨.str y.lang, hne, .str x.lang, .num y.grp.toInt, ?_, fun h => ?_, ?_⟩
          · rw [Items.view, hx, Option.map_some, show x.grp = y.grp from hsame]
          · exact hnonzero (Int32.toInt_inj.mp (Json.num.inj h))
          · rw [Items.view, hy, Option.map_some]

end Steps

/-! ## Runs -/

/-- From any table, all along a sequence of calls the groups and the siblings are those of the
sets exactly when no call starts a group under a name that is in use. -/
theorem translation_groups_iff (s : Primary) (calls : List Call) :
    (∀ t, Run.Reaches stepBoth (s, sameGroup s.items) calls t →
      ∀ kind id other,
        (sameGroup t.1.items kind id other ↔ t.2 kind id other) ∧
        ((∃ lang, (other, lang) ∈ siblings t.1.items.view kind id) ↔
          other ≠ id ∧ t.2 kind id other)) ↔
      Run.AllSteps dbI18nSet (fun s c => c.NameFree s.items) s calls := by
  have hstart : Grouped (s, sameGroup s.items) := fun _ => rfl
  have hstep : ∀ st c, Grouped st → (Grouped (stepBoth st c) ↔ c.NameFree st.1.items) :=
    fun _ c h => grouped_stepBoth_iff h c
  have hgood := Run.allSteps_iff_forall_good hstep hstart calls
  have hcomap : Run.AllSteps stepBoth (fun st c => c.NameFree st.1.items)
      (s, sameGroup s.items) calls ↔
        Run.AllSteps dbI18nSet (fun s c => c.NameFree s.items) s calls :=
    @Run.allSteps_comap _ _ dbI18nSet (fun s c => c.NameFree s.items) _ Prod.fst stepBoth
      (fun _ _ => rfl) _ calls
  rw [← hcomap, hgood]
  constructor
  · intro hall t ht kind
    exact Setoid.ext fun id other => (hall t ht kind id other).1
  · intro hall t ht kind id other
    rw [mem_siblings_iff, hall t ht kind]
    exact ⟨Iff.rfl, Iff.rfl⟩

def founderLeaves : List Call :=
  [⟨bytes "post", 2, none, 1⟩, ⟨bytes "post", 1, none, -1⟩, ⟨bytes "post", 3, none, 1⟩]

/-- Posts 1 and 2 are in one group again. -/
theorem founder_returns : ¬ ∀ t, Run.Reaches stepBoth
    (⟨fun _ _ => none, []⟩, sameGroup fun _ _ => none) founderLeaves t →
      ∀ kind id other, (sameGroup t.1.items kind id other ↔ t.2 kind id other) ∧
        ((∃ lang, (other, lang) ∈ siblings t.1.items.view kind id) ↔
          other ≠ id ∧ t.2 kind id other) := by
  intro hall
  have hboth := (hall _ (Run.reaches_run _ _) (bytes "post") 1 2).1
  have htable : sameGroup (Run.run stepBoth (⟨fun _ _ => none, []⟩, sameGroup fun _ _ => none)
      founderLeaves).1.items (bytes "post") 1 2 := .inr ⟨by decide, by decide⟩
  -- in the sets post 2 was left alone
  have hsets : isolate (move (sameGroup (fun _ _ => none) (bytes "post")) 2 1) 1 1 2 :=
    hboth.mp htable
  rcases hsets with heq | ⟨hne, -⟩
  · exact absurd heq (by decide)
  · exact hne rfl

end FlyBoard.I18n

import Mathlib.Logic.Function.Basic

/-!
# Replaying writes to keyed tables

A table maps keys to rows, a row maps columns to values. A write touches a key in one of
four ways (`CellOp`): not at all, by removing the row, by writing some of its columns (a
missing row is first made from the default), or by putting a whole row there. Such
operations compose, and every one of them is idempotent. So a log whose rows act on each
key by an operation of this kind (`KeyWise`) can be replayed from any point on: what it
does the second time it has already done.
-/

namespace FlyBoard.LastWriter

variable {γ ν : Type*}

inductive CellOp (γ ν : Type*) where
  | keep
  | remove
  | write (columns : γ → Option ν)
  | put (row : γ → ν)

def overwrite (columns : γ → Option ν) (row : γ → ν) : γ → ν :=
  fun c => (columns c).getD (row c)

namespace CellOp

variable (default : γ → ν)

def act : CellOp γ ν → Option (γ → ν) → Option (γ → ν)
  | keep, x => x
  | remove, _ => none
  | write columns, x => some (overwrite columns (x.getD default))
  | put row, _ => some row

def andThen : CellOp γ ν → CellOp γ ν → CellOp γ ν
  | a, keep => a
  | _, remove => remove
  | _, put row => put row
  | keep, write columns => write columns
  | remove, write columns => put (overwrite columns default)
  | put row, write columns => put (overwrite columns row)
  | write first, write second => write fun c => (second c).or (first c)

theorem overwrite_overwrite (first second : γ → Option ν) (row : γ → ν) :
    overwrite second (overwrite first row) =
      overwrite (fun c => (second c).or (first c)) row := by
  funext c
  simp only [overwrite]
  cases second c <;> rfl

theorem overwrite_self (columns : γ → Option ν) (row : γ → ν) :
    overwrite columns (overwrite columns row) = overwrite columns row := by
  funext c
  simp only [overwrite]
  cases columns c <;> rfl

/-- `andThen` is composition. -/
theorem act_andThen (a b : CellOp γ ν) (x : Option (γ → ν)) :
    (a.andThen default b).act default x = b.act default (a.act default x) := by
  cases b with
  | keep => cases a <;> rfl
  | remove => cases a <;> rfl
  | put row => cases a <;> rfl
  | write second =>
    cases a with
    | keep => rfl
    | remove => rfl
    | put row => rfl
    | write first => exact congrArg some (overwrite_overwrite first second _).symm

theorem act_act (a : CellOp γ ν) (x : Option (γ → ν)) :
    a.act default (a.act default x) = a.act default x := by
  cases a with
  | keep => rfl
  | remove => rfl
  | put row => rfl
  | write columns => exact congrArg some (overwrite_self columns _)

end CellOp

/-! ## Tables -/

section Tables

variable {κ α : Type*} {default : κ → γ → ν} {f g : (κ → Option (γ → ν)) → κ → Option (γ → ν)}

/-- `f` acts on each key by one operation. -/
def KeyWise (default : κ → γ → ν) (f : (κ → Option (γ → ν)) → κ → Option (γ → ν)) : Prop :=
  ∃ op : κ → CellOp γ ν, ∀ t k, f t k = (op k).act (default k) (t k)

theorem keyWise_id : KeyWise default fun t => t := ⟨fun _ => .keep, fun _ _ => rfl⟩

theorem KeyWise.comp (hf : KeyWise default f) (hg : KeyWise default g) :
    KeyWise default fun t => g (f t) := by
  rcases hf with ⟨opf, hf⟩
  rcases hg with ⟨opg, hg⟩
  refine ⟨fun k => (opf k).andThen (default k) (opg k), ?_⟩
  intro t k
  show g (f t) k = _
  rw [hg, hf, CellOp.act_andThen]

theorem KeyWise.twice (hf : KeyWise default f) (t : κ → Option (γ → ν)) : f (f t) = f t := by
  rcases hf with ⟨op, hf⟩
  funext k
  rw [hf, hf, CellOp.act_act]

theorem keyWise_foldl {step : (κ → Option (γ → ν)) → α → κ → Option (γ → ν)}
    (hstep : ∀ a, KeyWise default fun t => step t a) (as : List α) :
    KeyWise default fun t => as.foldl step t := by
  induction as with
  | nil => exact keyWise_id
  | cons a as ih => exact (hstep a).comp ih

theorem keyWise_remove (p : κ → Prop) [DecidablePred p] :
    KeyWise default fun t k => if p k then none else t k := by
  refine ⟨fun k => if p k then .remove else .keep, ?_⟩
  intro t k
  dsimp only
  split <;> rfl

variable [DecidableEq κ]

theorem keyWise_update_none (k : κ) : KeyWise default fun t => Function.update t k none := by
  refine ⟨fun k' => if k' = k then .remove else .keep, ?_⟩
  intro t k'
  by_cases h : k' = k
  · simp [h, CellOp.act]
  · simp [h, CellOp.act]

theorem keyWise_upsert (k : κ) (columns : γ → Option ν) :
    KeyWise default fun t =>
      Function.update t k (some (overwrite columns ((t k).getD (default k)))) := by
  refine ⟨fun k' => if k' = k then .write columns else .keep, ?_⟩
  intro t k'
  by_cases h : k' = k
  · subst h
    simp [CellOp.act]
  · simp [h, CellOp.act]

theorem keyWise_insert (k : κ) :
    KeyWise default fun t => Function.update t k (some ((t k).getD (default k))) :=
  keyWise_upsert k fun _ => none

end Tables

end FlyBoard.LastWriter

import FlyBoard.Utils.ModerationFilter
import Mathlib.Tactic.IntervalCases

/-!
# The stored policy of the moderation filter (`src/utils/moderation_filter.c`)

A policy is stored as five rows of `site_settings`, written one after another without a
transaction and read together when the server starts. A call of `moderation_filter_set` that
fails on the way leaves the rows that it has written.
-/

namespace FlyBoard.ModerationFilter

open Bytes AhoModeration

inductive Key
  | enabled
  | action
  | caseFold
  | matchLimit
  | rules
deriving DecidableEq, Repr

/-- The rows of `site_settings` under the five keys. -/
abbrev Settings := Key → Option Bytes

def dbSiteSettingGet (settings : Settings) (key : Key) (outLen : ℕ) : Option Bytes :=
  (settings key).map (snprintfS outLen)

/-- `db_site_setting_set`; `ok` is whether the statement goes through. -/
def dbSiteSettingSet (ok : Bool) (settings : Settings) (key : Key) (value : Bytes) :
    Settings × Bool :=
  if ok then (Function.update settings key (some value), true) else (settings, false)

def matchLimitDefault : ℕ := 64

def matchLimitMax : ℕ := 1024

/-- `valid_policy`. The text of the rules ends in its buffer when it can be built. -/
def validPolicy (policy : Policy) : Bool :=
  policy.matchLimit != 0 && policy.matchLimit ≤ matchLimitMax &&
    (build policy.rules policy.caseFold).isSome

/-- The policy as `moderation_filter_init` reads it. -/
def readPolicy (settings : Settings) : Policy :=
  let policy : Policy := ⟨false, .pending, false, matchLimitDefault, []⟩
  let policy :=
    match dbSiteSettingGet settings .enabled 32 with
    | some value => { policy with enabled := value == bytes "1" }
    | none => policy
  let policy :=
    match dbSiteSettingGet settings .action 32 with
    | some value =>
      if value == bytes "reject" then { policy with action := .reject }
      else if value != bytes "pending" then { policy with enabled := false }
      else policy
    | none => policy
  let policy :=
    match dbSiteSettingGet settings .caseFold 32 with
    | some value => { policy with caseFold := value == bytes "simple" }
    | none => policy
  let policy :=
    match dbSiteSettingGet settings .matchLimit 32 with
    | some value =>
      let limit := atoi value
      if limit ≤ 0 ∨ matchLimitMax < limit then { policy with enabled := false }
      else { policy with matchLimit := limit.toNat }
    | none => policy
  { policy with rules := (dbSiteSettingGet settings .rules (rulesMaxBytes + 1)).getD [] }

/-- `moderation_filter_init`: the policy that it publishes. -/
def moderationFilterInit (settings : Settings) : Policy :=
  let policy := readPolicy settings
  if validPolicy policy then policy else { policy with enabled := false }

/-- What `moderation_filter_set` writes, in its order. -/
def values (policy : Policy) : List (Key × Bytes) :=
  [(.enabled, bytes (if policy.enabled then "1" else "0")),
    (.action, bytes (if policy.action = .reject then "reject" else "pending")),
    (.caseFold, bytes (if policy.caseFold then "simple" else "exact")),
    (.matchLimit, snprintfS 16 (decimal policy.matchLimit)),
    (.rules, policy.rules)]

def writeAll (ok : Key → Bool) (settings : Settings) : List (Key × Bytes) → Settings × Bool
  | [] => (settings, true)
  | (key, value) :: rest =>
    match dbSiteSettingSet (ok key) settings key value with
    | (settings, true) => writeAll ok settings rest
    | (settings, false) => (settings, false)

/-- `moderation_filter_set`: the rows it leaves and what it publishes, unless it returns false. -/
def moderationFilterSet (ok : Key → Bool) (settings : Settings) (policy : Policy) :
    Settings × Option Policy :=
  if !validPolicy policy then (settings, none)
  else
    match writeAll ok settings (values policy) with
    | (settings, true) => (settings, some policy)
    | (settings, false) => (settings, none)

/-! ## The fields one by one -/

section Fields

variable (settings : Settings)

def storedEnabled : Bool := dbSiteSettingGet settings .enabled 32 == some (bytes "1")

def storedAction : Option Action :=
  match dbSiteSettingGet settings .action 32 with
  | none => some .pending
  | some value =>
    if value == bytes "reject" then some .reject
    else if value == bytes "pending" then some .pending
    else none

def storedCaseFold : Bool := dbSiteSettingGet settings .caseFold 32 == some (bytes "simple")

def storedLimit : Option ℕ :=
  match dbSiteSettingGet settings .matchLimit 32 with
  | none => some matchLimitDefault
  | some value =>
    if atoi value ≤ 0 ∨ matchLimitMax < atoi value then none else some (atoi value).toNat

def storedRules : Bytes := (dbSiteSettingGet settings .rules (rulesMaxBytes + 1)).getD []

def storedBuilds : Bool := (build (storedRules settings) (storedCaseFold settings)).isSome

theorem readPolicy_eq :
    readPolicy settings =
      ⟨storedEnabled settings && (storedAction settings).isSome && (storedLimit settings).isSome,
        (storedAction settings).getD .pending, storedCaseFold settings,
        (storedLimit settings).getD matchLimitDefault, storedRules settings⟩ := by
  have henabled : (match dbSiteSettingGet settings .enabled 32 with
      | some value => { (⟨false, .pending, false, matchLimitDefault, []⟩ : Policy) with
          enabled := value == bytes "1" }
      | none => ⟨false, .pending, false, matchLimitDefault, []⟩) =
      ⟨storedEnabled settings, .pending, false, matchLimitDefault, []⟩ := by
    unfold storedEnabled
    cases dbSiteSettingGet settings .enabled 32 <;> rfl
  have haction : ∀ policy : Policy, policy.action = .pending →
      (match dbSiteSettingGet settings .action 32 with
      | some value =>
        if value == bytes "reject" then { policy with action := .reject }
        else if value != bytes "pending" then { policy with enabled := false }
        else policy
      | none => policy) = { policy with
        enabled := policy.enabled && (storedAction settings).isSome
        action := (storedAction settings).getD .pending } := by
    intro policy hpolicy
    unfold storedAction
    cases dbSiteSettingGet settings .action 32 with
    | none => simp [← hpolicy]
    | some value =>
      by_cases hreject : value = bytes "reject"
      · simp [hreject]
      · by_cases hpending : value = bytes "pending"
        · have hother : bytes "pending" ≠ bytes "reject" := by decide
          simp [hpending, hother, ← hpolicy]
        · simp [hreject, hpending, ← hpolicy]
  have hfold : ∀ policy : Policy, policy.caseFold = false →
      (match dbSiteSettingGet settings .caseFold 32 with
      | some value => { policy with caseFold := value == bytes "simple" }
      | none => policy) = { policy with caseFold := storedCaseFold settings } := by
    intro policy hpolicy
    unfold storedCaseFold
    cases dbSiteSettingGet settings .caseFold 32 with
    | none => simp [← hpolicy]
    | some value => rfl
  have hlimit : ∀ policy : Policy, policy.matchLimit = matchLimitDefault →
      (match dbSiteSettingGet settings .matchLimit 32 with
      | some value =>
        if atoi value ≤ 0 ∨ matchLimitMax < atoi value then { policy with enabled := false }
        else { policy with matchLimit := (atoi value).toNat }
      | none => policy) = { policy with
        enabled := policy.enabled && (storedLimit settings).isSome
        matchLimit := (storedLimit settings).getD matchLimitDefault } := by
    intro policy hpolicy
    unfold storedLimit
    cases dbSiteSettingGet settings .matchLimit 32 with
    | none => simp [← hpolicy]
    | some value =>
      by_cases hrange : atoi value ≤ 0 ∨ matchLimitMax < atoi value
      · simp [hrange, ← hpolicy]
      · simp [hrange]
  unfold readPolicy
  dsimp only
  rw [henabled, haction _ rfl, hfold _ rfl, hlimit _ rfl]
  rfl

theorem storedLimit_range :
    (storedLimit settings).getD matchLimitDefault ≠ 0 ∧
      (storedLimit settings).getD matchLimitDefault ≤ matchLimitMax := by
  unfold storedLimit
  cases dbSiteSettingGet settings .matchLimit 32 with
  | none => decide
  | some value =>
    dsimp only
    split_ifs with hrange
    · decide
    · rw [not_or, not_le, not_lt] at hrange
      rw [Option.getD_some]
      omega

/-- An unknown action, a limit out of range and rules that cannot be built switch it off. -/
theorem moderationFilterInit_eq :
    moderationFilterInit settings =
      ⟨storedEnabled settings && (storedAction settings).isSome && (storedLimit settings).isSome &&
          storedBuilds settings,
        (storedAction settings).getD .pending, storedCaseFold settings,
        (storedLimit settings).getD matchLimitDefault, storedRules settings⟩ := by
  obtain ⟨hpos, hmax⟩ := storedLimit_range settings
  have hvalid : validPolicy (readPolicy settings) = storedBuilds settings := by
    rw [readPolicy_eq, validPolicy, bne_iff_ne.mpr hpos, decide_eq_true hmax]
    rfl
  unfold moderationFilterInit
  dsimp only
  rw [hvalid, readPolicy_eq]
  cases storedBuilds settings with
  | true => rw [if_pos rfl, Bool.and_true]
  | false => rw [if_neg Bool.false_ne_true, Bool.and_false]

end Fields

/-! ## A call that fails on the way -/

def written (settings : Settings) (pairs : List (Key × Bytes)) : Settings :=
  pairs.foldl (fun settings pair => Function.update settings pair.1 (some pair.2)) settings

def writesDone (ok : Key → Bool) (policy : Policy) : ℕ :=
  ((values policy).takeWhile fun pair => ok pair.1).length

/-- The fields that are written read as those they replace, where an unknown action counts as
pending and a limit out of range as the default; and with rules that can be built the filter is
on as before. -/
def KeepsPolicy (settings : Settings) (policy : Policy) (done : ℕ) : Prop :=
  (2 ≤ done → (storedAction settings).getD .pending = policy.action) ∧
    (3 ≤ done → storedCaseFold settings = policy.caseFold) ∧
    (4 ≤ done → (storedLimit settings).getD matchLimitDefault = policy.matchLimit) ∧
    (1 ≤ done → storedBuilds settings = true →
      ((storedEnabled settings = true ∧ (storedAction settings).isSome = true ∧
          (storedLimit settings).isSome = true) ↔
        (policy.enabled = true ∧ (2 ≤ done ∨ (storedAction settings).isSome = true) ∧
          (4 ≤ done ∨ (storedLimit settings).isSome = true))))

section Set

variable {ok : Key → Bool} {settings : Settings} {policy : Policy}

theorem writeAll_eq (ok : Key → Bool) (settings : Settings) (pairs : List (Key × Bytes)) :
    writeAll ok settings pairs =
      (written settings (pairs.takeWhile fun pair => ok pair.1),
        pairs.all fun pair => ok pair.1) := by
  induction pairs generalizing settings with
  | nil => rfl
  | cons pair pairs ih =>
    obtain ⟨key, value⟩ := pair
    unfold writeAll dbSiteSettingSet
    cases hok : ok key with
    | false =>
      simp only [List.takeWhile_cons, List.all_cons, hok]
      rfl
    | true =>
      simp only [List.takeWhile_cons, List.all_cons, hok, Bool.true_and, if_true]
      exact ih _

theorem moderationFilterSet_of_fail (hvalid : validPolicy policy = true)
    (hfail : (moderationFilterSet ok settings policy).2 = none) :
    writesDone ok policy ≤ 4 ∧ (moderationFilterSet ok settings policy).1 =
      written settings ((values policy).take (writesDone ok policy)) := by
  have htake : (values policy).take (writesDone ok policy) =
      (values policy).takeWhile fun pair => ok pair.1 :=
    (List.prefix_iff_eq_take.mp (List.takeWhile_prefix _)).symm
  unfold moderationFilterSet at hfail ⊢
  rw [hvalid, writeAll_eq] at hfail ⊢
  cases hall : (values policy).all fun pair => ok pair.1 with
  | true =>
    rw [hall] at hfail
    exact absurd hfail (by simp)
  | false =>
    rw [htake]
    refine ⟨?_, rfl⟩
    -- five writes done would be all of them
    by_contra hlong
    have hself : (values policy).takeWhile (fun pair => ok pair.1) = values policy :=
      (List.takeWhile_sublist _).eq_of_length_le (not_le.mp hlong)
    rw [List.takeWhile_eq_self_iff, ← List.all_eq_true, hall] at hself
    exact absurd hself Bool.false_ne_true

def Key.place : Key → ℕ
  | .enabled => 0
  | .action => 1
  | .caseFold => 2
  | .matchLimit => 3
  | .rules => 4

def valueFor (policy : Policy) : Key → Bytes
  | .enabled => bytes (if policy.enabled then "1" else "0")
  | .action => bytes (if policy.action = .reject then "reject" else "pending")
  | .caseFold => bytes (if policy.caseFold then "simple" else "exact")
  | .matchLimit => snprintfS 16 (decimal policy.matchLimit)
  | .rules => policy.rules

theorem written_take (settings : Settings) (policy : Policy) (key : Key) {n : ℕ} (hn : n ≤ 4) :
    written settings ((values policy).take n) key =
      if key.place < n then some (valueFor policy key) else settings key := by
  interval_cases n <;> cases key <;> rfl

theorem atoi_limit {limit : ℕ} (h : limit ≤ matchLimitMax) :
    atoi (snprintfS 32 (snprintfS 16 (decimal limit))) = limit := by
  have hlen : (decimal limit).length ≤ 4 :=
    length_decimal_le (by decide) (lt_of_le_of_lt h (by decide))
  have hcut : ∀ cap, 5 ≤ cap → snprintfS cap (decimal limit) = decimal limit := by
    intro cap hcap
    exact List.take_of_length_le (by omega)
  have hsmall : digitsValue (decimal limit) < 2 ^ 31 := by
    rw [digitsValue_decimal]
    exact lt_of_le_of_lt h (by decide)
  rw [hcut 16 (by decide), hcut 32 (by decide),
    atoi_digits (decimal_ne_nil _) (fun c => isDigit_of_mem_decimal) hsmall, digitsValue_decimal]

section Written

variable {n : ℕ} (hn : n ≤ 4)

include hn

theorem storedEnabled_written :
    storedEnabled (written settings ((values policy).take n)) =
      if 1 ≤ n then policy.enabled else storedEnabled settings := by
  unfold storedEnabled dbSiteSettingGet
  rw [written_take settings policy _ hn]
  by_cases h : 1 ≤ n
  · have hplace : Key.enabled.place < n := h
    rw [if_pos hplace, if_pos h]
    cases hcase : policy.enabled <;> simp only [valueFor, hcase] <;> decide
  · have hplace : ¬ Key.enabled.place < n := h
    rw [if_neg hplace, if_neg h]

theorem storedAction_written :
    storedAction (written settings ((values policy).take n)) =
      if 2 ≤ n then some policy.action else storedAction settings := by
  unfold storedAction dbSiteSettingGet
  rw [written_take settings policy _ hn]
  by_cases h : 2 ≤ n
  · have hplace : Key.action.place < n := h
    rw [if_pos hplace, if_pos h]
    cases hcase : policy.action <;> simp only [valueFor, hcase] <;> decide
  · have hplace : ¬ Key.action.place < n := h
    rw [if_neg hplace, if_neg h]

theorem storedCaseFold_written :
    storedCaseFold (written settings ((values policy).take n)) =
      if 3 ≤ n then policy.caseFold else storedCaseFold settings := by
  unfold storedCaseFold dbSiteSettingGet
  rw [written_take settings policy _ hn]
  by_cases h : 3 ≤ n
  · have hplace : Key.caseFold.place < n := h
    rw [if_pos hplace, if_pos h]
    cases hcase : policy.caseFold <;> simp only [valueFor, hcase] <;> decide
  · have hplace : ¬ Key.caseFold.place < n := h
    rw [if_neg hplace, if_neg h]

theorem storedLimit_written (hpos : policy.matchLimit ≠ 0) (hmax : policy.matchLimit ≤ 1024) :
    storedLimit (written settings ((values policy).take n)) =
      if 4 ≤ n then some policy.matchLimit else storedLimit settings := by
  unfold storedLimit dbSiteSettingGet
  rw [written_take settings policy _ hn]
  by_cases h : 4 ≤ n
  · have hplace : Key.matchLimit.place < n := h
    rw [if_pos hplace, if_pos h]
    simp only [valueFor, Option.map_some, atoi_limit hmax]
    rw [if_neg, Int.toNat_natCast]
    rw [not_or, not_le, not_lt]
    exact ⟨by omega, by exact_mod_cast hmax⟩
  · have hplace : ¬ Key.matchLimit.place < n := h
    rw [if_neg hplace, if_neg h]

theorem storedRules_written :
    storedRules (written settings ((values policy).take n)) = storedRules settings := by
  unfold storedRules dbSiteSettingGet
  rw [written_take settings policy _ hn, if_neg (show ¬ Key.rules.place < n from not_lt.mpr hn)]

end Written

/-- A call that fails on a write leaves a policy that is loaded as before exactly when nothing
was written yet, or what was written makes no difference. -/
theorem load_after_failed_set_iff (hvalid : validPolicy policy = true)
    (hfail : (moderationFilterSet ok settings policy).2 = none) :
    moderationFilterInit (moderationFilterSet ok settings policy).1 =
        moderationFilterInit settings ↔
      KeepsPolicy settings policy (writesDone ok policy) := by
  obtain ⟨hdone, hleft⟩ := moderationFilterSet_of_fail hvalid hfail
  have hpolicy := hvalid
  unfold validPolicy at hpolicy
  rw [Bool.and_eq_true, Bool.and_eq_true, bne_iff_ne, decide_eq_true_eq] at hpolicy
  obtain ⟨⟨hpos, hmax⟩, -⟩ := hpolicy
  rw [hleft]
  generalize writesDone ok policy = n at hdone
  rw [moderationFilterInit_eq, moderationFilterInit_eq, Policy.mk.injEq,
    storedEnabled_written hdone, storedAction_written hdone, storedLimit_written hdone hpos hmax,
    storedRules_written hdone]
  unfold storedBuilds
  rw [storedCaseFold_written hdone, storedRules_written hdone]
  unfold KeepsPolicy storedBuilds
  rw [Bool.eq_iff_iff]
  simp only [Bool.and_eq_true]
  -- by the number of writes; the fields stand side by side now
  interval_cases n <;> grind

end Set

def rejecting : Settings
  | .enabled => some (bytes "1")
  | .action => some (bytes "reject")
  | .rules => some (bytes "spam")
  | _ => none

def switchedOff : Policy := ⟨false, .pending, false, 64, bytes "spam"⟩

theorem load_after_first_write :
    moderationFilterInit (moderationFilterSet (· == .enabled) rejecting switchedOff).1 =
        moderationFilterInit rejecting ↔
      KeepsPolicy rejecting switchedOff (writesDone (· == .enabled) switchedOff) :=
  load_after_failed_set_iff (by decide +kernel) (by decide +kernel)

/-- The call fails on its second write, and the filter is off when the server starts again. -/
theorem failed_set_switches_off :
    validPolicy switchedOff = true ∧
      (moderationFilterSet (· == .enabled) rejecting switchedOff).2 = none ∧
      (moderationFilterInit rejecting).enabled = true ∧
      (moderationFilterInit
        (moderationFilterSet (· == .enabled) rejecting switchedOff).1).enabled = false := by
  refine ⟨by decide +kernel, by decide +kernel, by decide +kernel, by decide +kernel⟩

end FlyBoard.ModerationFilter

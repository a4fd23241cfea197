import FlyBoard.Lib.Bytes
import FlyBoard.Lib.Run
import FlyBoard.Lib.TokenBucket
import Mathlib.Logic.Function.Basic

/-!
# The traffic guard (`src/utils/traffic_guard.c`)

Every client has a bucket of tokens in a shared table, under a keyed hash of its address and of
the kind of its requests. A call looks at eight slots; where none of them is its own or free, it
takes the one that was used the longest time ago. The clock is read before the lock is taken, so
the times of the calls come in any order.
-/

namespace FlyBoard.TrafficGuard

open Run

/-- `traffic_class_t` -/
inductive TrafficClass
  | read
  | write
deriving DecidableEq, Repr

/-- `g_rates` and `g_bursts`, as `env_uint` lets them through. -/
structure Config where
  rates : TrafficClass → ℕ
  bursts : TrafficClass → ℕ
  rates_le : ∀ cls, rates cls ≤ 1000000
  bursts_le : ∀ cls, bursts cls ≤ 1000000

/-- `traffic_slot_t`; the key 0 marks a free slot. -/
structure Slot where
  key : UInt64
  tokens : ℤ
  updatedNs : ℕ
  usedNs : ℕ
deriving DecidableEq, Repr

/-- `TRAFFIC_SLOTS` -/
abbrev Index : Type := Fin 4096

abbrev Slots : Type := Index → Slot

/-- `traffic_table_t` -/
structure Table where
  allowed : ℕ
  limited : ℕ
  slots : Slots

/-- `TRAFFIC_PROBE` -/
def trafficProbe : ℕ := 8

def tokenScale : ℕ := 1000

def maxRefillNs : ℕ := 3600 * 1000000000

/-- A call of `traffic_guard_check_key`. -/
structure Call where
  id : Bytes
  cls : TrafficClass
  nowNs : ℕ
deriving DecidableEq, Repr

def classId : TrafficClass → UInt8
  | .read => 0
  | .write => 1

/-- The key of a call; `hmac` is the beginning of the HMAC under the table's secret. -/
def keyOf (hmac : Bytes → UInt64) (c : Call) : UInt64 :=
  let key := hmac c.id ^^^ hmac [classId c.cls]
  if key = 0 then 1 else key

def probes (key : UInt64) : List Index :=
  (List.range trafficProbe).map fun i => Fin.ofNat 4096 (key.toNat % 4096 + i)

def hits (slots : Slots) (key : UInt64) (i : Index) : Bool :=
  (slots i).key == key || (slots i).key == 0

/-- The loop over the probes, with the slot that was used the longest time ago. -/
def chooseFrom (slots : Slots) (key : UInt64) : List Index → Index → Index
  | [], oldest => oldest
  | i :: path, oldest =>
    if hits slots key i then i
    else chooseFrom slots key path
      (if (slots i).usedNs < (slots oldest).usedNs then i else oldest)

def choose (slots : Slots) (key : UInt64) : Index :=
  chooseFrom slots key (probes key) (Fin.ofNat 4096 (key.toNat % 4096))

def elapsedNs (slot : Slot) (nowNs : ℕ) : ℕ :=
  let elapsed := if slot.updatedNs < nowNs then nowNs - slot.updatedNs else 0
  if maxRefillNs < elapsed then maxRefillNs else elapsed

/-- The slot with what time has brought: full when it is new to the key. The product and the sum
are those of 64-bit integers. -/
def refill (cfg : Config) (key : UInt64) (cls : TrafficClass) (nowNs : ℕ) (slot : Slot) : Slot :=
  let capacity : ℤ := cfg.bursts cls * tokenScale
  if slot.key ≠ key then { slot with key := key, tokens := capacity, updatedNs := nowNs }
  else
    let refill : ℕ := elapsedNs slot nowNs * cfg.rates cls % 2 ^ 64 / 1000000
    let tokens := (slot.tokens + refill).bmod (2 ^ 64)
    { slot with tokens := if capacity < tokens then capacity else tokens, updatedNs := nowNs }

/-- `retry_after` of a call that is refused. -/
def retryAfter (cfg : Config) (cls : TrafficClass) (tokens : ℤ) : ℕ :=
  let missing := tokenScale - (if 0 < tokens then tokens.toNat else 0)
  let delayMs := (missing + cfg.rates cls - 1) / cfg.rates cls
  let seconds := (delayMs + 999) / 1000
  if seconds = 0 then 1 else seconds

/-- `traffic_guard_check_key`: the table, and for how long the call is refused. -/
def trafficGuardCheckKey (hmac : Bytes → UInt64) (cfg : Config) (t : Table) (c : Call) :
    Table × Option ℕ :=
  if c.id.isEmpty || cfg.rates c.cls == 0 then (t, none)
  else
    let key := keyOf hmac c
    let i := choose t.slots key
    let slot := refill cfg key c.cls c.nowNs (t.slots i)
    if tokenScale ≤ slot.tokens then
      (⟨t.allowed + 1, t.limited,
        Function.update t.slots i
          { slot with tokens := slot.tokens - tokenScale, usedNs := c.nowNs }⟩, none)
    else
      (⟨t.allowed, t.limited + 1, Function.update t.slots i { slot with usedNs := c.nowNs }⟩,
        some (retryAfter cfg c.cls slot.tokens))

/-- The table after `traffic_guard_init`. -/
def start : Table := ⟨0, 0, fun _ => ⟨0, 0, 0, 0⟩⟩

def step (hmac : Bytes → UInt64) (cfg : Config) (t : Table) (c : Call) : Table :=
  (trafficGuardCheckKey hmac cfg t c).1

/-! ## What is asked of a run -/

section Claims

variable (hmac : Bytes → UInt64) (cfg : Config) (key : UInt64)

def Guarded (c : Call) : Prop := c.id ≠ [] ∧ cfg.rates c.cls ≠ 0

instance (c : Call) : Decidable (Guarded cfg c) := inferInstanceAs (Decidable (_ ∧ _))

def OfClient (c : Call) : Prop := Guarded cfg c ∧ keyOf hmac c = key

instance (c : Call) : Decidable (OfClient hmac cfg key c) := inferInstanceAs (Decidable (_ ∧ _))

/-- The calls of the client that are let through at a time from `first` to `last`. -/
def allowedIn (first last : ℕ) : Table → List Call → ℕ
  | _, [] => 0
  | t, c :: cs =>
    (if OfClient hmac cfg key c ∧ (trafficGuardCheckKey hmac cfg t c).2 = none ∧
        first ≤ c.nowNs ∧ c.nowNs ≤ last then 1 else 0) +
      allowedIn first last (step hmac cfg t c) cs

def KeepsSlot (t : Table) (c : Call) : Prop :=
  Guarded cfg c → keyOf hmac c ≠ key → (t.slots (choose t.slots (keyOf hmac c))).key ≠ key

instance (t : Table) (c : Call) : Decidable (KeepsSlot hmac cfg key t c) :=
  inferInstanceAs (Decidable (_ → _))

/-- The client's clock does not go back behind the last refill of its slot. -/
def InOrder (t : Table) (c : Call) : Prop :=
  OfClient hmac cfg key c → (t.slots (choose t.slots key)).key = key →
    (t.slots (choose t.slots key)).updatedNs ≤ c.nowNs

instance (t : Table) (c : Call) : Decidable (InOrder hmac cfg key t c) :=
  inferInstanceAs (Decidable (_ → _))

/-- The product and the sum of a refill fit their integers. -/
def NoOverflow (t : Table) (c : Call) : Prop :=
  let slot := t.slots (choose t.slots (keyOf hmac c))
  let product := elapsedNs slot c.nowNs * cfg.rates c.cls
  product < 2 ^ 64 ∧ -2 ^ 63 ≤ slot.tokens + (product / 1000000 : ℕ) ∧
    slot.tokens + (product / 1000000 : ℕ) < 2 ^ 63 ∧ cfg.bursts c.cls * tokenScale < 2 ^ 63

end Claims

/-! ## The slot of a key -/

section Slots

variable {slots : Slots} {key other : UInt64} {i j : Index} {slot : Slot}

def Found (slots : Slots) (key : UInt64) (i : Index) : Prop :=
  (probes key).find? (hits slots key) = some i ∧ (slots i).key = key

def Absent (slots : Slots) (key : UInt64) : Prop := ∀ i ∈ probes key, (slots i).key ≠ key

theorem keyOf_ne_zero (hmac : Bytes → UInt64) (c : Call) : keyOf hmac c ≠ 0 := by
  unfold keyOf
  dsimp only
  split_ifs with hzero
  · decide
  · exact hzero

theorem chooseFrom_of_find {path : List Index} {oldest : Index}
    (h : path.find? (hits slots key) = some i) : chooseFrom slots key path oldest = i := by
  induction path generalizing oldest with
  | nil => exact nomatch h
  | cons k path ih =>
    rw [List.find?_cons] at h
    rw [chooseFrom]
    cases hk : hits slots key k with
    | true =>
      rw [hk] at h
      rw [if_pos rfl]
      exact Option.some.inj h
    | false =>
      rw [hk] at h
      rw [if_neg Bool.false_ne_true]
      exact ih h

theorem chooseFrom_mem (slots : Slots) (key : UInt64) (path : List Index) (oldest : Index) :
    chooseFrom slots key path oldest = oldest ∨ chooseFrom slots key path oldest ∈ path := by
  induction path generalizing oldest with
  | nil => exact .inl rfl
  | cons k path ih =>
    rw [chooseFrom]
    split_ifs with hk hused
    · exact .inr List.mem_cons_self
    · rcases ih k with heq | hmem
      · rw [heq]
        exact .inr List.mem_cons_self
      · exact .inr (List.mem_cons_of_mem _ hmem)
    · exact (ih oldest).imp_right (List.mem_cons_of_mem _)

theorem choose_mem (slots : Slots) (key : UInt64) : choose slots key ∈ probes key := by
  have hstart : Fin.ofNat 4096 (key.toNat % 4096) ∈ probes key :=
    List.mem_map.mpr ⟨0, List.mem_range.mpr (by decide), rfl⟩
  rcases chooseFrom_mem slots key (probes key) (Fin.ofNat 4096 (key.toNat % 4096)) with heq | hmem
  · rw [choose, heq]
    exact hstart
  · exact hmem

theorem Found.choose (h : Found slots key i) : choose slots key = i := chooseFrom_of_find h.1

/-- An entry of another client hides nothing, where it takes no slot of the key. -/
theorem Found.update_other (h : Found slots key i) (hij : j ≠ i) (hne : slot.key ≠ key)
    (hzero : slot.key ≠ 0) : Found (Function.update slots j slot) key i := by
  obtain ⟨hfind, hi⟩ := h
  obtain ⟨hhit, before, after, hpath, hpassed⟩ := List.find?_eq_some_iff_append.mp hfind
  refine ⟨List.find?_eq_some_iff_append.mpr ⟨?_, before, after, hpath, ?_⟩, ?_⟩
  · rw [hits, Function.update_of_ne hij.symm]
    exact hhit
  · intro k hk
    by_cases hkj : k = j
    · rw [hits, hkj, Function.update_self, beq_false_of_ne hne, beq_false_of_ne hzero]
      rfl
    · rw [hits, Function.update_of_ne hkj]
      exact hpassed k hk
  · rw [Function.update_of_ne hij.symm]
    exact hi

theorem found_update (hi : choose slots key = i) (hslot : slot.key = key) :
    Found (Function.update slots i slot) key i := by
  have hhit : ∀ k, hits (Function.update slots i slot) key k =
      (k == i || hits slots key k) := by
    intro k
    by_cases hk : k = i
    · rw [hits, hk, Function.update_self, hslot, beq_self_eq_true, beq_self_eq_true, Bool.true_or,
        Bool.true_or]
    · rw [hits, Function.update_of_ne hk, beq_false_of_ne hk, Bool.false_or]
      rfl
  refine ⟨?_, by rw [Function.update_self, hslot]⟩
  rw [funext hhit]
  cases hfind : (probes key).find? (hits slots key) with
  | some k =>
    -- the slots before it are passed as they were
    have hk : k = i := (chooseFrom_of_find hfind).symm.trans hi
    rw [hk] at hfind
    obtain ⟨-, before, after, hpath, hpassed⟩ := List.find?_eq_some_iff_append.mp hfind
    refine List.find?_eq_some_iff_append.mpr ⟨by simp, before, after, hpath, ?_⟩
    intro m hm
    have hmiss := hpassed m hm
    have hne : m ≠ i := by
      rintro rfl
      have hown := List.find?_some hfind
      rw [hown] at hmiss
      exact absurd hmiss (by simp)
    rw [beq_false_of_ne hne, Bool.false_or]
    exact hmiss
  | none =>
    -- no other slot hits
    have hnone := List.find?_eq_none.mp hfind
    cases hnew : (probes key).find? fun k => k == i || hits slots key k with
    | none =>
      have hmem : i ∈ probes key := hi ▸ choose_mem slots key
      have hmiss := List.find?_eq_none.mp hnew i hmem
      exact absurd (by simp) hmiss
    | some m =>
      have hm := List.find?_some hnew
      have hmiss := hnone m (List.mem_of_find?_eq_some hnew)
      rw [Bool.or_eq_true, beq_iff_eq] at hm
      rw [hm.resolve_right hmiss]

theorem Absent.update (h : Absent slots key) (hne : slot.key ≠ key) :
    Absent (Function.update slots j slot) key := by
  intro k hk
  by_cases hkj : k = j
  · rw [hkj, Function.update_self]
    exact hne
  · rw [Function.update_of_ne hkj]
    exact h k hk

end Slots

/-! ## One refill -/

section Refill

variable {cfg : Config} {key : UInt64} {cls : TrafficClass} {nowNs : ℕ} {slot : Slot}

def Slot.Small (slot : Slot) : Prop := 0 ≤ slot.tokens ∧ slot.tokens ≤ 1000000000

theorem elapsedNs_le (slot : Slot) (nowNs : ℕ) :
    elapsedNs slot nowNs ≤ maxRefillNs ∧ elapsedNs slot nowNs ≤ nowNs - slot.updatedNs := by
  unfold elapsedNs
  dsimp only
  constructor
  · split_ifs <;> omega
  · split_ifs <;> omega

theorem product_lt (cfg : Config) (cls : TrafficClass) (slot : Slot) (nowNs : ℕ) :
    elapsedNs slot nowNs * cfg.rates cls ≤ 3600 * 1000000000 * 1000000 :=
  Nat.mul_le_mul (elapsedNs_le slot nowNs).1 (cfg.rates_le cls)

/-- The bucket of a client: a call costs a thousand tokens, and a rate of one a second brings one
token in a million nanoseconds. -/
def params (cfg : Config) (cls : TrafficClass) : TokenBucket.Params :=
  ⟨cfg.bursts cls * tokenScale, cfg.rates cls, 1000000, tokenScale⟩

def Slot.bucket (slot : Slot) : TokenBucket.Bucket := ⟨slot.tokens.toNat, slot.updatedNs⟩

theorem refill_of_ne (h : slot.key ≠ key) :
    refill cfg key cls nowNs slot =
      { slot with key := key, tokens := cfg.bursts cls * tokenScale, updatedNs := nowNs } :=
  if_pos h

theorem sum_range (cfg : Config) (cls : TrafficClass) (nowNs : ℕ) (hsmall : slot.Small) :
    -2 ^ 63 ≤ slot.tokens + (elapsedNs slot nowNs * cfg.rates cls / 1000000 : ℕ) ∧
      slot.tokens + (elapsedNs slot nowNs * cfg.rates cls / 1000000 : ℕ) < 2 ^ 63 := by
  obtain ⟨hlow, hhigh⟩ := hsmall
  have hproduct := product_lt cfg cls slot nowNs
  constructor
  · omega
  · omega

theorem capped_eq (capacity tokens : ℤ) :
    (if capacity < tokens then capacity else tokens) = min capacity tokens := by
  split_ifs with hmore
  · exact (min_eq_left hmore.le).symm
  · exact (min_eq_right (not_lt.mp hmore)).symm

theorem refill_of_eq (cfg : Config) (cls : TrafficClass) (nowNs : ℕ) (h : slot.key = key)
    (hsmall : slot.Small) :
    refill cfg key cls nowNs slot =
      { slot with
        tokens := min (cfg.bursts cls * tokenScale : ℤ)
          (slot.tokens + (elapsedNs slot nowNs * cfg.rates cls / 1000000 : ℕ))
        updatedNs := nowNs } := by
  have hproduct := product_lt cfg cls slot nowNs
  obtain ⟨hlow, hhigh⟩ := sum_range cfg cls nowNs hsmall
  have hmod : elapsedNs slot nowNs * cfg.rates cls % 2 ^ 64 =
      elapsedNs slot nowNs * cfg.rates cls := Nat.mod_eq_of_lt (by omega)
  have hbmod : (slot.tokens + (elapsedNs slot nowNs * cfg.rates cls / 1000000 : ℕ)).bmod
      (2 ^ 64) = slot.tokens + (elapsedNs slot nowNs * cfg.rates cls / 1000000 : ℕ) :=
    Int.bmod_eq_of_le (by omega) (by omega)
  unfold refill
  dsimp only
  rw [if_neg (not_not.mpr h), hmod, hbmod, capped_eq]

theorem refill_key : (refill cfg key cls nowNs slot).key = key := by
  by_cases h : slot.key = key
  · unfold refill
    rw [if_neg (not_not.mpr h)]
    exact h
  · rw [refill_of_ne h]

theorem refill_updatedNs : (refill cfg key cls nowNs slot).updatedNs = nowNs := by
  by_cases h : slot.key = key
  · unfold refill
    rw [if_neg (not_not.mpr h)]
  · rw [refill_of_ne h]

theorem Slot.Small.refill (hsmall : slot.Small) (key : UInt64) :
    (refill cfg key cls nowNs slot).Small := by
  have hlargest := cfg.bursts_le cls
  have hscale : ((tokenScale : ℕ) : ℤ) = 1000 := rfl
  by_cases h : slot.key = key
  · rw [refill_of_eq cfg cls nowNs h hsmall]
    obtain ⟨hlow, -⟩ := hsmall
    constructor
    · exact le_min (by positivity) (by positivity)
    · refine (min_le_left _ _).trans ?_
      rw [hscale]
      omega
  · rw [refill_of_ne h]
    constructor
    · dsimp only
      positivity
    · dsimp only
      rw [hscale]
      omega

theorem refilled_of_eq (h : slot.key = key) (hsmall : slot.Small) :
    TokenBucket.Refilled (params cfg cls) slot.bucket nowNs
      (refill cfg key cls nowNs slot).tokens.toNat := by
  have helapsed := Nat.mul_le_mul_right (cfg.rates cls) (elapsedNs_le slot nowNs).2
  have hbrought := Nat.div_mul_le_self (elapsedNs slot nowNs * cfg.rates cls) 1000000
  have hfull : (min (cfg.bursts cls * tokenScale : ℤ)
      (slot.tokens + (elapsedNs slot nowNs * cfg.rates cls / 1000000 : ℕ))).toNat ≤
        cfg.bursts cls * tokenScale := by
    rw [Int.toNat_le, Nat.cast_mul]
    exact min_le_left _ _
  have hsum : (min (cfg.bursts cls * tokenScale : ℤ)
      (slot.tokens + (elapsedNs slot nowNs * cfg.rates cls / 1000000 : ℕ))).toNat ≤
        slot.tokens.toNat + elapsedNs slot nowNs * cfg.rates cls / 1000000 := by
    rw [Int.toNat_le, Nat.cast_add, Int.toNat_of_nonneg hsmall.1]
    exact min_le_right _ _
  rw [refill_of_eq cfg cls nowNs h hsmall]
  constructor
  · exact hfull
  · calc _ ≤ (slot.tokens.toNat + elapsedNs slot nowNs * cfg.rates cls / 1000000) * 1000000 :=
          Nat.mul_le_mul_right _ hsum
      _ ≤ slot.tokens.toNat * 1000000 + elapsedNs slot nowNs * cfg.rates cls := by
          rw [Nat.add_mul]
          exact Nat.add_le_add_left hbrought _
      _ ≤ slot.tokens.toNat * 1000000 + cfg.rates cls * (nowNs - slot.updatedNs) := by
          rw [Nat.mul_comm (cfg.rates cls)]
          exact Nat.add_le_add_left helapsed _

end Refill

/-! ## One call -/

section Step

variable {hmac : Bytes → UInt64} {cfg : Config} {t : Table} {c : Call} {slot : Slot} {key : UInt64}

/-- The slot after a call has been let through or refused. -/
def served (slot : Slot) (nowNs : ℕ) : Slot :=
  if tokenScale ≤ slot.tokens then
    { slot with tokens := slot.tokens - tokenScale, usedNs := nowNs }
  else { slot with usedNs := nowNs }

theorem served_key (slot : Slot) (nowNs : ℕ) : (served slot nowNs).key = slot.key := by
  unfold served
  split_ifs <;> rfl

theorem Slot.Small.served (h : slot.Small) (nowNs : ℕ) : (served slot nowNs).Small := by
  obtain ⟨hlow, hhigh⟩ := h
  have hscale : ((tokenScale : ℕ) : ℤ) = 1000 := rfl
  unfold TrafficGuard.served
  split_ifs with henough
  · constructor
    · exact sub_nonneg.mpr henough
    · dsimp only
      omega
  · exact ⟨hlow, hhigh⟩

theorem check_of_not_guarded (t : Table) (h : ¬ Guarded cfg c) :
    trafficGuardCheckKey hmac cfg t c = (t, none) := by
  unfold trafficGuardCheckKey
  rw [if_pos]
  rw [Bool.or_eq_true, List.isEmpty_iff, beq_iff_eq]
  by_contra hno
  exact h (not_or.mp hno)

theorem check_of_guarded (hmac : Bytes → UInt64) (t : Table) (h : Guarded cfg c) :
    (step hmac cfg t c).slots =
        Function.update t.slots (choose t.slots (keyOf hmac c))
          (served (refill cfg (keyOf hmac c) c.cls c.nowNs
            (t.slots (choose t.slots (keyOf hmac c)))) c.nowNs) ∧
      ((trafficGuardCheckKey hmac cfg t c).2 = none ↔
        tokenScale ≤ (refill cfg (keyOf hmac c) c.cls c.nowNs
          (t.slots (choose t.slots (keyOf hmac c)))).tokens) := by
  have hgoes : ¬ (c.id.isEmpty || cfg.rates c.cls == 0) = true := by
    rw [Bool.or_eq_true, List.isEmpty_iff, beq_iff_eq]
    exact not_or.mpr h
  unfold step trafficGuardCheckKey served
  rw [if_neg hgoes]
  dsimp only
  by_cases henough : (tokenScale : ℤ) ≤ (refill cfg (keyOf hmac c) c.cls c.nowNs
      (t.slots (choose t.slots (keyOf hmac c)))).tokens
  · rw [if_pos henough, if_pos henough]
    exact ⟨rfl, iff_of_true rfl henough⟩
  · rw [if_neg henough, if_neg henough]
    exact ⟨rfl, iff_of_false nofun henough⟩

theorem paid_served {cls : TrafficClass} {first last count nowNs : ℕ}
    (h : TokenBucket.Paid (params cfg cls) first last slot.bucket count)
    (hsmall : slot.Small) (hnow : slot.updatedNs = nowNs) :
    TokenBucket.Paid (params cfg cls) first last (served slot nowNs).bucket
      (if tokenScale ≤ slot.tokens ∧ first ≤ nowNs ∧ nowNs ≤ last then count + 1 else count) := by
  unfold served
  by_cases henough : (tokenScale : ℤ) ≤ slot.tokens
  · have htake : (params cfg cls).cost ≤ slot.bucket.tokens := (Int.le_toNat hsmall.1).mpr henough
    have hless : (slot.tokens - tokenScale).toNat = slot.tokens.toNat - tokenScale := by
      rw [Int.toNat_sub']
    have hpaid := TokenBucket.Paid.take h htake
    rw [if_pos henough]
    unfold Slot.bucket at hpaid ⊢
    dsimp only at hpaid ⊢
    rw [hless, ← hnow]
    simp only [henough, true_and]
    exact hpaid
  · rw [if_neg henough, if_neg (fun hall => henough hall.1)]
    exact h

end Step

/-! ## Every run of calls -/

section Runs

variable {hmac : Bytes → UInt64} {cfg : Config} {t : Table} {c : Call} {key : UInt64}
  {cls : TrafficClass} {first last count : ℕ}

def AllSmall (t : Table) : Prop := ∀ i, (t.slots i).Small

/-- The client has no slot yet and was never let through, or the bucket in its slot pays for the
calls that were. -/
def Accounted (cfg : Config) (key : UInt64) (cls : TrafficClass) (first last : ℕ) (t : Table)
    (count : ℕ) : Prop :=
  (Absent t.slots key ∧ count = 0) ∨
    ∃ i, Found t.slots key i ∧
      TokenBucket.Paid (params cfg cls) first last (t.slots i).bucket count

theorem start_small : AllSmall start := by
  intro i
  constructor
  · exact le_refl _
  · change (0 : ℤ) ≤ 1000000000
    norm_num

theorem start_accounted (hkey : key ≠ 0) : Accounted cfg key cls first last start 0 :=
  .inl ⟨fun _ _ => hkey.symm, rfl⟩

theorem step_small (h : AllSmall t) (c : Call) : AllSmall (step hmac cfg t c) := by
  by_cases hgoes : Guarded cfg c
  · obtain ⟨hslots, -⟩ := check_of_guarded hmac t hgoes
    intro i
    rw [hslots]
    by_cases hi : i = choose t.slots (keyOf hmac c)
    · rw [hi, Function.update_self]
      exact ((h _).refill (keyOf hmac c)).served c.nowNs
    · rw [Function.update_of_ne hi]
      exact h i
  · rw [step, check_of_not_guarded t hgoes]
    exact h

theorem accounted_other (h : Accounted cfg key cls first last t count)
    (hkeeps : KeepsSlot hmac cfg key t c) (hother : ¬ OfClient hmac cfg key c) :
    Accounted cfg key cls first last (step hmac cfg t c) count := by
  by_cases hgoes : Guarded cfg c
  · have hne : keyOf hmac c ≠ key := fun heq => hother ⟨hgoes, heq⟩
    obtain ⟨hslots, -⟩ := check_of_guarded hmac t hgoes
    have hwritten : ∀ slot, (served (refill cfg (keyOf hmac c) c.cls c.nowNs slot) c.nowNs).key =
        keyOf hmac c := by
      intro slot
      rw [served_key, refill_key]
    unfold Accounted
    rw [hslots]
    rcases h with ⟨habsent, hcount⟩ | ⟨i, hfound, hpaid⟩
    · refine .inl ⟨habsent.update ?_, hcount⟩
      rw [hwritten]
      exact hne
    · have hi : choose t.slots (keyOf hmac c) ≠ i := by
        intro heq
        exact hkeeps hgoes hne (heq ▸ hfound.2)
      refine .inr ⟨i, hfound.update_other hi ?_ ?_, ?_⟩
      · rw [hwritten]
        exact hne
      · rw [hwritten]
        exact keyOf_ne_zero hmac c
      · rw [Function.update_of_ne hi.symm]
        exact hpaid
  · rw [step, check_of_not_guarded t hgoes]
    exact h

theorem paid_refill (hsmall : AllSmall t) (h : Accounted cfg key cls first last t count)
    (hown : OfClient hmac cfg key c) (horder : InOrder hmac cfg key t c) :
    TokenBucket.Paid (params cfg cls) first last
      (refill cfg key cls c.nowNs (t.slots (choose t.slots key))).bucket count := by
  have hnow : ∀ slot, (refill cfg key cls c.nowNs slot).bucket =
      ⟨(refill cfg key cls c.nowNs slot).tokens.toNat, c.nowNs⟩ := by
    intro slot
    rw [Slot.bucket, refill_updatedNs]
  rw [hnow]
  rcases h with ⟨habsent, rfl⟩ | ⟨i, hfound, hpaid⟩
  · -- the slot is new to the client, and full
    have hfresh := habsent _ (choose_mem t.slots key)
    rw [refill_of_ne hfresh]
    refine TokenBucket.Paid.full ?_ c.nowNs
    exact (Int.toNat_natCast _).le
  · rw [hfound.choose]
    have hmono : (t.slots i).updatedNs ≤ c.nowNs := by
      have hslot := horder hown
      rw [hfound.choose] at hslot
      exact hslot hfound.2
    exact hpaid.refill hmono (refilled_of_eq hfound.2 (hsmall i))

theorem accounted_own (hsmall : AllSmall t) (h : Accounted cfg key cls first last t count)
    (hown : OfClient hmac cfg key c) (hcls : c.cls = cls) (horder : InOrder hmac cfg key t c) :
    Accounted cfg key cls first last (step hmac cfg t c)
      (if (trafficGuardCheckKey hmac cfg t c).2 = none ∧ first ≤ c.nowNs ∧ c.nowNs ≤ last
        then count + 1 else count) := by
  obtain ⟨hslots, hlet⟩ := check_of_guarded hmac t hown.1
  have hpaid := paid_served (paid_refill hsmall h hown horder)
    ((hsmall (choose t.slots key)).refill key) refill_updatedNs
  rw [hown.2, hcls] at hslots hlet
  unfold Accounted
  rw [hslots]
  refine .inr ⟨choose t.slots key, found_update rfl ?_, ?_⟩
  · rw [served_key, refill_key]
  · simp only [Function.update_self, hlet]
    exact hpaid

theorem accounted_step (hsmall : AllSmall t) (h : Accounted cfg key cls first last t count)
    (hcls : OfClient hmac cfg key c → c.cls = cls) (hkeeps : KeepsSlot hmac cfg key t c)
    (horder : InOrder hmac cfg key t c) :
    Accounted cfg key cls first last (step hmac cfg t c)
      (count + if OfClient hmac cfg key c ∧ (trafficGuardCheckKey hmac cfg t c).2 = none ∧
        first ≤ c.nowNs ∧ c.nowNs ≤ last then 1 else 0) := by
  by_cases hown : OfClient hmac cfg key c
  · have hnext := accounted_own hsmall h hown (hcls hown) horder
    simp only [hown, true_and]
    split_ifs at hnext ⊢ with hlet
    · exact hnext
    · exact hnext
  · rw [if_neg (fun hall => hown hall.1)]
    exact accounted_other h hkeeps hown

theorem accounted_run {calls : List Call} (hsmall : AllSmall t)
    (h : Accounted cfg key cls first last t count)
    (hcls : ∀ c ∈ calls, OfClient hmac cfg key c → c.cls = cls)
    (hrun : AllSteps (step hmac cfg)
      (fun t c => KeepsSlot hmac cfg key t c ∧ InOrder hmac cfg key t c) t calls) :
    Accounted cfg key cls first last (run (step hmac cfg) t calls)
      (count + allowedIn hmac cfg key first last t calls) := by
  induction calls generalizing t count with
  | nil => exact h
  | cons c cs ih =>
    obtain ⟨⟨hkeeps, horder⟩, hrest⟩ := hrun
    have hnext := accounted_step hsmall h (hcls c List.mem_cons_self) hkeeps horder
    rw [run_cons, allowedIn, ← Nat.add_assoc]
    exact ih (step_small hsmall c) hnext (fun d hd => hcls d (List.mem_cons_of_mem _ hd)) hrest

theorem noOverflow_of_small (hsmall : AllSmall t) (c : Call) : NoOverflow hmac cfg t c := by
  have hproduct := product_lt cfg c.cls (t.slots (choose t.slots (keyOf hmac c))) c.nowNs
  have hsum := sum_range cfg c.cls c.nowNs (hsmall (choose t.slots (keyOf hmac c)))
  have hburst := cfg.bursts_le c.cls
  refine ⟨?_, hsum.1, hsum.2, ?_⟩
  · exact lt_of_le_of_lt hproduct (by norm_num)
  · rw [tokenScale]
    omega

/-- **The calls let through in an interval are bounded by the burst and the rate, as long as the
client's clock does not go back**: with a clock that goes back, the same time is credited twice.
Nothing overflows in any case. -/
theorem allowed_le_of_inOrder (hmac : Bytes → UInt64) (cfg : Config) (client : Call)
    (calls : List Call)
    (hclass : ∀ c ∈ calls, keyOf hmac c = keyOf hmac client → c.cls = client.cls)
    (hrun : AllSteps (step hmac cfg)
      (fun t c => KeepsSlot hmac cfg (keyOf hmac client) t c ∧
        InOrder hmac cfg (keyOf hmac client) t c) start calls) :
    (∀ first last,
      allowedIn hmac cfg (keyOf hmac client) first last start calls * 1000000000 ≤
        (cfg.bursts client.cls + 1) * 1000000000 + cfg.rates client.cls * (last - first)) ∧
    AllSteps (step hmac cfg) (NoOverflow hmac cfg) start calls := by
  have hown : ∀ c ∈ calls, OfClient hmac cfg (keyOf hmac client) c → c.cls = client.cls :=
    fun c hc hof => hclass c hc hof.2
  constructor
  · intro first last
    have hbegin : Accounted cfg (keyOf hmac client) client.cls first last start 0 :=
      start_accounted (keyOf_ne_zero hmac client)
    have hend := accounted_run start_small hbegin hown hrun
    rw [Nat.zero_add] at hend
    rcases hend with ⟨-, hzero⟩ | ⟨i, -, hpaid⟩
    · rw [hzero, Nat.zero_mul]
      exact Nat.zero_le _
    · have htotal : tokenScale * _ * 1000000 ≤ cfg.bursts client.cls * tokenScale * 1000000 +
          cfg.rates client.cls * (last - first) := hpaid.total
      unfold tokenScale at htotal
      linarith
  · refine AllSteps.imp ?_ ?_ hrun start_small
    · intro t c hsmall _
      exact step_small hsmall c
    · intro t c hsmall _
      exact noOverflow_of_small hsmall c

end Runs

def oneASecond : Config where
  rates
    | .read => 1
    | .write => 0
  bursts
    | .read => 1
    | .write => 0
  rates_le := by rintro (_ | _) <;> decide
  bursts_le := by rintro (_ | _) <;> decide

def byteHash (bs : Bytes) : UInt64 := bs.foldl (fun h b => h * 31 + b.toUInt64) 7

theorem allowed_le_two_clients :
    allowedIn byteHash oneASecond (keyOf byteHash ⟨[1], .read, 0⟩) 0 1000000000 start
        [⟨[1], .read, 0⟩, ⟨[2], .read, 5⟩, ⟨[1], .read, 1000000000⟩] * 1000000000 ≤
      (1 + 1) * 1000000000 + 1 * (1000000000 - 0) :=
  (allowed_le_of_inOrder byteHash oneASecond ⟨[1], .read, 0⟩
    [⟨[1], .read, 0⟩, ⟨[2], .read, 5⟩, ⟨[1], .read, 1000000000⟩] (by decide)
    (by decide +kernel)).1 0 1000000000

/-- Two times that come in turn: each return to the later one brings the second again. -/
theorem second_credited_twice :
    AllSteps (step byteHash oneASecond)
      (KeepsSlot byteHash oneASecond (keyOf byteHash ⟨[1], .read, 0⟩)) start
      [⟨[1], .read, 0⟩, ⟨[1], .read, 1000000000⟩, ⟨[1], .read, 0⟩, ⟨[1], .read, 1000000000⟩,
        ⟨[1], .read, 0⟩, ⟨[1], .read, 1000000000⟩] ∧
    ¬ allowedIn byteHash oneASecond (keyOf byteHash ⟨[1], .read, 0⟩) 0 1000000000 start
        [⟨[1], .read, 0⟩, ⟨[1], .read, 1000000000⟩, ⟨[1], .read, 0⟩, ⟨[1], .read, 1000000000⟩,
          ⟨[1], .read, 0⟩, ⟨[1], .read, 1000000000⟩] * 1000000000 ≤
      (oneASecond.bursts .read + 1) * 1000000000 + oneASecond.rates .read * (1000000000 - 0) := by
  constructor
  · decide +kernel
  · decide +kernel

end FlyBoard.TrafficGuard

import FlyBoard.Lib.Bytes
import FlyBoard.Lib.ProbeTable
import FlyBoard.Lib.Run
import Mathlib.Data.List.FinRange

/-!
# The session cache (`src/handlers/tasfa/cache.c`)

`g_tasfa_cache` keeps upload metadata (type 1) and download sessions (type 3) by
session id in one open-addressed table. A load asks the table, then the disk, then
the table again before it stores what it read.
-/

namespace FlyBoard.Tasfa.SessionCache

open Bytes ProbeTable

/-- The `type` of a slot: 1 or 3. -/
inductive CacheType
  | metaBin
  | jsonStr
deriving DecidableEq

/-- A valid `cache_slot_t`. `owner` is the id that the load was asked for, `generation`
how often that id had been invalidated before: the source keeps neither. -/
structure Slot (V : Type) where
  key : Bytes
  type : CacheType
  expires : ℕ
  data : V
  owner : Bytes
  generation : ℕ

/-- `g_tasfa_cache`, and how often each id was invalidated. -/
structure State (V : Type) where
  slots : Fin 512 → Option (Slot V)
  invalidations : Bytes → ℕ

/-- `cache_hash`; `char` is signed. -/
def cacheHash (str : Bytes) : ℕ :=
  (str.foldl (fun (h : UInt32) c => (h <<< 5) + h + c.toInt8.toInt32.toUInt32) 5381).toNat % 512

@[irreducible] def probes (key : Bytes) : List (Fin 512) :=
  (List.finRange 512).map fun i => ⟨(cacheHash key + i) % 512, Nat.mod_lt _ (by decide)⟩

/-- `TASFA_UPLOAD_TTL` -/
def uploadTtl : ℕ := 86400

/-- `TASFA_DOWNLOAD_TTL` -/
def downloadTtl : ℕ := 86400

section

variable {V : Type}

def Slot.holds (type : CacheType) (key : Bytes) (e : Slot V) : Bool :=
  e.type == type && e.key == key

namespace State

/-- `cache_clear_slot` -/
def clearSlot (s : State V) (i : Fin 512) : State V :=
  { s with slots := Function.update s.slots i none }

def fillSlot (s : State V) (i : Fin 512) (e : Slot V) : State V :=
  { s with slots := Function.update s.slots i (some e) }

def found (s : State V) (type : CacheType) (key : Bytes) : Option (Fin 512 × Slot V) := do
  let i ← find s.slots (Slot.holds type key) (probes key)
  let e ← s.slots i
  return (i, e)

def lookup (s : State V) (type : CacheType) (key : Bytes) (now : ℕ) : Option (Slot V) × State V :=
  match s.found type key with
  | none => (none, s)
  | some (i, e) => if now ≤ e.expires then (some e, s) else (none, s.clearSlot i)

/-- What a load stores: `strncpy` keeps 32 bytes of the key. -/
def newSlot (s : State V) (type : CacheType) (ttl : ℕ) (key : Bytes) (v : V) (now : ℕ) : Slot V :=
  ⟨key.take 32, type, now + ttl, v, key, s.invalidations key⟩

/-- The second critical section of a load, with what the disk had. -/
def recheck (s : State V) (type : CacheType) (ttl : ℕ) (key : Bytes) (v : V) (now : ℕ) :
    V × State V :=
  match s.lookup type key now with
  | (some e, s) => (e.data, s)
  | (none, s) =>
    match free s.slots (probes key) with
    | none => (v, s)
    | some i => (v, s.fillSlot i (s.newSlot type ttl key v now))

/-- A load at time `now`; the disk is read until `later`. -/
def loadCached (type : CacheType) (ttl : ℕ) (s : State V) (key : Bytes) (disk : Option V)
    (now later : ℕ) : Option V × State V :=
  match s.lookup type key now with
  | (some e, s) => (some e.data, s)
  | (none, s) =>
    match disk with
    | none => (none, s)
    | some v =>
      let r := s.recheck type ttl key v later
      (some r.1, r.2)

/-- `load_upload_session_meta_bin_cached` -/
def loadUploadSessionMetaBinCached (s : State V) (uploadId : Bytes) (disk : Option V)
    (now later : ℕ) : Option V × State V :=
  loadCached .metaBin uploadTtl s uploadId disk now later

/-- `load_download_session_cached` -/
def loadDownloadSessionCached (s : State V) (sessionId : Bytes) (disk : Option V)
    (now later : ℕ) : Option V × State V :=
  loadCached .jsonStr downloadTtl s sessionId disk now later

/-- `cache_invalidate` -/
def cacheInvalidate (s : State V) (key : Bytes) : State V :=
  let s' := match find s.slots (fun e => e.key == key) (probes key) with
    | none => s
    | some i => s.clearSlot i
  { s' with invalidations := Function.update s.invalidations key (s.invalidations key + 1) }

end State

/-- A call: of a load, with what the disk has for the key, or of `cache_invalidate`. -/
inductive Action (V : Type)
  | loadUpload (key : Bytes) (disk : Option V) (now later : ℕ)
  | loadDownload (key : Bytes) (disk : Option V) (now later : ℕ)
  | invalidate (key : Bytes)

def step (s : State V) : Action V → State V
  | .loadUpload key disk now later => (s.loadUploadSessionMetaBinCached key disk now later).2
  | .loadDownload key disk now later => (s.loadDownloadSessionCached key disk now later).2
  | .invalidate key => s.cacheInvalidate key

def start : State V := ⟨fun _ => none, fun _ => 0⟩

/-! ## Coherence -/

def OneSlot (s : State V) : Prop :=
  ∀ i j e e', s.slots i = some e → s.slots j = some e' → e.type = e'.type → e.key = e'.key → i = j

/-- No slot keeps an entry that was stored for an id before it was last invalidated. -/
def NoneLeft (s : State V) : Prop :=
  ∀ i e, s.slots i = some e → e.generation = s.invalidations e.owner

def NoneServed (s : State V) : Prop :=
  ∀ type key now e, (s.lookup type key now).1 = some e → e.generation = s.invalidations e.owner

structure Coherent (s : State V) : Prop where
  one_slot : OneSlot s
  none_left : NoneLeft s
  none_served : NoneServed s

/-- The load finds the slots that hold its key already, unless it stores nothing. -/
def LoadSees (s : State V) (type : CacheType) (key : Bytes) (disk : Option V) : Prop :=
  disk.isSome = true → (∃ i ∈ probes key, s.slots i = none) →
    ∀ i e, s.slots i = some e → e.type = type → e.key = key.take 32 →
      e.key = key ∧ Visible s.slots (Slot.holds type key) (probes key) i

/-- Every slot stored for the key is of that key, and no empty slot and no other slot
of the key comes before it. -/
def InvalidateSees (s : State V) (key : Bytes) : Prop :=
  ∀ i e, s.slots i = some e → e.owner = key →
    e.key = key ∧ Visible s.slots (fun e => e.key == key) (probes key) i

def Sees (s : State V) : Action V → Prop
  | .loadUpload key disk _ _ => LoadSees s .metaBin key disk
  | .loadDownload key disk _ _ => LoadSees s .jsonStr key disk
  | .invalidate key => InvalidateSees s key

/-! ## What a call does to the table -/

namespace State

variable {s : State V} {type : CacheType} {key : Bytes} {i : Fin 512} {e : Slot V}

theorem holds_iff : e.holds type key = true ↔ e.type = type ∧ e.key = key := by
  simp [Slot.holds]

theorem found_eq_some_iff :
    s.found type key = some (i, e) ↔
      Visible s.slots (Slot.holds type key) (probes key) i ∧ s.slots i = some e ∧
        e.type = type ∧ e.key = key := by
  rw [← holds_iff]
  constructor
  · intro h
    cases hf : find s.slots (Slot.holds type key) (probes key) with
    | none => simp [found, hf] at h
    | some j =>
      rcases find_eq_some_iff.1 hf with ⟨hv, e', he', hp⟩
      simp only [found, hf, he', Option.bind_eq_bind, Option.bind_some, Option.pure_def,
        Option.some.injEq, Prod.mk.injEq] at h
      rcases h with ⟨rfl, rfl⟩
      exact ⟨hv, he', hp⟩
  · rintro ⟨hv, he, hp⟩
    have hf : find s.slots (Slot.holds type key) (probes key) = some i :=
      find_eq_some_iff.2 ⟨hv, e, he, hp⟩
    simp [found, hf, he]

theorem find_of_found (h : s.found type key = some (i, e)) :
    find s.slots (Slot.holds type key) (probes key) = some i := by
  rcases found_eq_some_iff.1 h with ⟨hv, he, hp⟩
  exact find_eq_some_iff.2 ⟨hv, e, he, holds_iff.2 hp⟩

/-- After an expired slot was cleared the second search finds nothing. -/
theorem found_clearSlot (h : s.found type key = some (i, e)) :
    (s.clearSlot i).found type key = none := by
  have hf := find_clear (find_of_found h)
  simp only [found, clearSlot, hf, Option.bind_eq_bind, Option.bind_none]

theorem fillSlot_clearSlot (s : State V) (i : Fin 512) (e : Slot V) :
    (s.clearSlot i).fillSlot i e = s.fillSlot i e := by
  simp [fillSlot, clearSlot]

/-- The state after a load: where it found a slot it keeps it, clears it or fills it
anew; otherwise it fills the first empty slot, if the disk has the entry. -/
theorem loadCached_state (s : State V) (type : CacheType) (key : Bytes) (ttl : ℕ)
    (disk : Option V) (now later : ℕ) :
    (∃ i e, s.found type key = some (i, e) ∧
      ((loadCached type ttl s key disk now later).2 = s ∨
        (loadCached type ttl s key disk now later).2 = s.clearSlot i ∨
        ∃ v, (loadCached type ttl s key disk now later).2 =
          s.fillSlot i (s.newSlot type ttl key v later))) ∨
    s.found type key = none ∧
      ((loadCached type ttl s key disk now later).2 = s ∧
          (disk = none ∨ free s.slots (probes key) = none) ∨
        ∃ v i, disk = some v ∧ free s.slots (probes key) = some i ∧
          (loadCached type ttl s key disk now later).2 =
            s.fillSlot i (s.newSlot type ttl key v later)) := by
  cases hf : s.found type key with
  | none =>
    refine .inr ⟨rfl, ?_⟩
    cases disk with
    | none => exact .inl ⟨by simp [loadCached, lookup, hf], .inl rfl⟩
    | some v =>
      cases hfree : free s.slots (probes key) with
      | none => exact .inl ⟨by simp [loadCached, recheck, lookup, hf, hfree], .inr rfl⟩
      | some i =>
        exact .inr ⟨v, i, rfl, rfl, by simp [loadCached, recheck, lookup, hf, hfree]⟩
  | some r =>
    rcases r with ⟨i, e⟩
    refine .inl ⟨i, e, rfl, ?_⟩
    by_cases hexp : now ≤ e.expires
    · exact .inl (by simp [loadCached, lookup, hf, hexp])
    · cases disk with
      | none => exact .inr (.inl (by simp [loadCached, lookup, hf, hexp]))
      | some v =>
        -- the cleared slot is the first empty one on the path
        have hc := found_clearSlot hf
        have hfree : free (s.clearSlot i).slots (probes key) = some i :=
          free_clear (find_of_found hf)
        refine .inr (.inr ⟨v, ?_⟩)
        simp only [loadCached, recheck, lookup, hf, hexp, if_false, hc, hfree]
        exact fillSlot_clearSlot s i _

end State

open FlyBoard.Tasfa.SessionCache.State

variable {s : State V} {type : CacheType} {key : Bytes} {i : Fin 512} {e : Slot V}

/-- Coherence is a matter of the table: a load answers from a slot or from the disk. -/
theorem coherent_iff : Coherent s ↔ OneSlot s ∧ NoneLeft s := by
  constructor
  · intro h
    exact ⟨h.one_slot, h.none_left⟩
  · rintro ⟨hone, hleft⟩
    refine ⟨hone, hleft, ?_⟩
    intro type key now e h
    cases hf : s.found type key with
    | none => simp [lookup, hf] at h
    | some r =>
      rcases r with ⟨i, e'⟩
      by_cases hexp : now ≤ e'.expires
      · obtain rfl : e' = e := by simpa [lookup, hf, hexp] using h
        exact hleft i e' (found_eq_some_iff.1 hf).2.1
      · simp [lookup, hf, hexp] at h

/-! ### Clearing and filling -/

theorem OneSlot.clearSlot (h : OneSlot s) (i : Fin 512) : OneSlot (s.clearSlot i) := by
  intro j k e e' hj hk
  exact h j k e e' (of_clear hj).2 (of_clear hk).2

theorem NoneLeft.clearSlot (h : NoneLeft s) (i : Fin 512) : NoneLeft (s.clearSlot i) := by
  intro j e hj
  exact h j e (of_clear hj).2

theorem oneSlot_fillSlot_iff (h : OneSlot s) :
    OneSlot (s.fillSlot i e) ↔
      ∀ j e', j ≠ i → s.slots j = some e' → e'.type = e.type → e'.key ≠ e.key := by
  constructor
  · intro hone j e' hji hj htype hkey
    refine hji (hone j i e' e ?_ (Function.update_self _ _ _) htype hkey)
    exact (Function.update_of_ne hji _ _).trans hj
  · intro hother j k e₁ e₂ hj hk htype hkey
    rcases of_set hj with ⟨rfl, rfl⟩ | ⟨hji, hj'⟩
    · rcases of_set hk with ⟨rfl, -⟩ | ⟨hki, hk'⟩
      · rfl
      · exact absurd hkey.symm (hother k e₂ hki hk' htype.symm)
    · rcases of_set hk with ⟨rfl, rfl⟩ | ⟨hki, hk'⟩
      · exact absurd hkey (hother j e₁ hji hj' htype)
      · exact h j k e₁ e₂ hj' hk' htype hkey

theorem NoneLeft.fillSlot (h : NoneLeft s) (he : e.generation = s.invalidations e.owner) :
    NoneLeft (s.fillSlot i e) := by
  intro j e' hj
  rcases of_set hj with ⟨rfl, rfl⟩ | ⟨hji, hj⟩
  · exact he
  · exact h j e' hj

/-- `strncpy` leaves at most 32 bytes in a key. -/
def KeysFit (s : State V) : Prop := ∀ i e, s.slots i = some e → e.key.length ≤ 32

theorem KeysFit.fillSlot (h : KeysFit s) (he : e.key.length ≤ 32) : KeysFit (s.fillSlot i e) := by
  intro j e' hj
  rcases of_set hj with ⟨rfl, rfl⟩ | ⟨hji, hj⟩
  · exact he
  · exact h j e' hj

theorem KeysFit.clearSlot (h : KeysFit s) (i : Fin 512) : KeysFit (s.clearSlot i) := by
  intro j e hj
  exact h j e (of_clear hj).2

theorem newSlot_fits (s : State V) (type : CacheType) (ttl : ℕ) (key : Bytes) (v : V) (now : ℕ) :
    (s.newSlot type ttl key v now).key.length ≤ 32 := by
  simp only [newSlot, List.length_take]
  omega

/-- A load from a coherent table leaves it coherent exactly when it sees the slots
that hold its key. -/
theorem loadCached_coherent_iff (hfit : KeysFit s) (hc : Coherent s) (ttl : ℕ)
    (disk : Option V) (now later : ℕ) :
    Coherent (loadCached type ttl s key disk now later).2 ↔ LoadSees s type key disk := by
  have hone := hc.one_slot
  have hleft := hc.none_left
  rcases loadCached_state s type key ttl disk now later with
    ⟨i, e, hf, hstate⟩ | ⟨hf, hstate⟩
  · -- the slot that is found is the only one of its key
    rcases found_eq_some_iff.1 hf with ⟨hv, hi, htype, hkey⟩
    have htake : key.take 32 = key := by
      rw [← hkey]
      exact List.take_of_length_le (hfit i e hi)
    have honly : ∀ j e', s.slots j = some e' → e'.type = type → e'.key = key → j = i := by
      intro j e' hj ht hk
      exact hone j i e' e hj hi (ht.trans htype.symm) (hk.trans hkey.symm)
    have hsees : LoadSees s type key disk := by
      intro _ _ j e' hj ht hk
      rw [htake] at hk
      rw [honly j e' hj ht hk]
      exact ⟨hk, hv⟩
    refine iff_of_true ?_ hsees
    rcases hstate with hs | hs | ⟨v, hs⟩ <;> rw [hs]
    · exact hc
    · exact coherent_iff.2 ⟨hone.clearSlot i, hleft.clearSlot i⟩
    · refine coherent_iff.2 ⟨(oneSlot_fillSlot_iff hone).2 ?_, hleft.fillSlot rfl⟩
      intro j e' hji hj ht hk
      exact hji (honly j e' hj ht (hk.trans htake))
  · have hnone : ∀ j e', s.slots j = some e' → e'.type = type → e'.key = key →
        ¬Visible s.slots (Slot.holds type key) (probes key) j := by
      intro j e' hj ht hk hv
      rw [found_eq_some_iff.2 ⟨hv, hj, ht, hk⟩] at hf
      exact nomatch hf
    rcases hstate with ⟨hs, hno⟩ | ⟨v, i, rfl, hfree, hs⟩ <;> rw [hs]
    · refine iff_of_true hc ?_
      intro hsome hempty
      rcases hno with rfl | hfree
      · exact nomatch hsome
      · rcases hempty with ⟨i, hi, hnil⟩
        exact absurd hnil (free_eq_none_iff.1 hfree i hi)
    · -- a second slot of the key is what the load does not see
      have hmem : ∃ i ∈ probes key, s.slots i = none := by
        by_contra hfull
        simp only [not_exists, not_and] at hfull
        rw [free_eq_none_iff.2 hfull] at hfree
        exact nomatch hfree
      rw [coherent_iff, and_iff_left (hleft.fillSlot rfl), oneSlot_fillSlot_iff hone]
      constructor
      · intro hother _ _ j e' hj ht hk
        have hji : j ≠ i := by
          rintro rfl
          rw [free_spec hfree] at hj
          exact nomatch hj
        exact absurd hk (hother j e' hji hj ht)
      · intro hsees j e' _ hj ht hk
        rcases hsees rfl hmem j e' hj ht hk with ⟨hk', hv⟩
        exact hnone j e' hj ht hk' hv

/-- The table after `cache_invalidate`. -/
theorem cacheInvalidate_slots (s : State V) (key : Bytes) :
    find s.slots (fun e => e.key == key) (probes key) = none ∧
        (s.cacheInvalidate key).slots = s.slots ∨
      ∃ i, find s.slots (fun e => e.key == key) (probes key) = some i ∧
        (s.cacheInvalidate key).slots = (s.clearSlot i).slots := by
  unfold cacheInvalidate
  cases hf : find s.slots (fun e => e.key == key) (probes key) with
  | none => exact .inl ⟨rfl, rfl⟩
  | some i => exact .inr ⟨i, rfl, rfl⟩

/-- What is in the table after `cache_invalidate` was there before, and was not found. -/
theorem cacheInvalidate_slots_iff {i : Fin 512} {e : Slot V} :
    (s.cacheInvalidate key).slots i = some e ↔
      s.slots i = some e ∧
        ¬(e.key = key ∧ Visible s.slots (fun e => e.key == key) (probes key) i) := by
  have hfind : ∀ j, find s.slots (fun e => e.key == key) (probes key) = some j ↔
      Visible s.slots (fun e => e.key == key) (probes key) j ∧
        ∃ e, s.slots j = some e ∧ e.key = key := by
    intro j
    have h : find s.slots (fun e => e.key == key) (probes key) = some j ↔ _ := find_eq_some_iff
    simpa only [beq_iff_eq] using h
  -- the search finds nothing, or clears the one slot that it sees
  rcases cacheInvalidate_slots s key with ⟨hf, hs⟩ | ⟨j, hf, hs⟩ <;> rw [hs]
  · constructor
    · intro hi
      refine ⟨hi, ?_⟩
      rintro ⟨hk, hv⟩
      rw [(hfind i).2 ⟨hv, e, hi, hk⟩] at hf
      exact nomatch hf
    · exact fun h => h.1
  · constructor
    · intro hi
      rcases of_clear hi with ⟨hij, hi⟩
      refine ⟨hi, ?_⟩
      rintro ⟨hk, hv⟩
      rw [(hfind i).2 ⟨hv, e, hi, hk⟩] at hf
      exact hij (Option.some.inj hf)
    · rintro ⟨hi, hno⟩
      have hij : i ≠ j := by
        rintro rfl
        rcases (hfind i).1 hf with ⟨hv, e', hi', hk⟩
        rw [hi, Option.some.injEq] at hi'
        exact hno ⟨hi' ▸ hk, hv⟩
      exact (Function.update_of_ne hij _ _).trans hi

/-- An invalidation leaves a coherent table coherent exactly when it sees every slot
that was stored for the key. -/
theorem cacheInvalidate_coherent_iff (hc : Coherent s) (key : Bytes) :
    Coherent (s.cacheInvalidate key) ↔ InvalidateSees s key := by
  have hone : OneSlot (s.cacheInvalidate key) := by
    intro i j e e' hi hj
    exact hc.one_slot i j e e' (cacheInvalidate_slots_iff.1 hi).1 (cacheInvalidate_slots_iff.1 hj).1
  rw [coherent_iff, and_iff_right hone]
  constructor
  · -- a slot of the key that stays is of the generation before
    intro hleft i e hi howner
    by_contra hno
    have hgen := hleft i e (cacheInvalidate_slots_iff.2 ⟨hi, hno⟩)
    rw [hc.none_left i e hi, howner] at hgen
    simp [cacheInvalidate] at hgen
  · intro hsees i e hi
    rcases cacheInvalidate_slots_iff.1 hi with ⟨hi', hno⟩
    have howner : e.owner ≠ key := fun h => hno (hsees i e hi' h)
    rw [hc.none_left i e hi']
    exact (Function.update_of_ne howner _ _).symm

/-! ### A load after a load -/

theorem loadCached_answer (type : CacheType) (ttl : ℕ) (s : State V) (key : Bytes)
    (disk : Option V) (now later : ℕ) :
    (State.loadCached type ttl s key disk now later).1 =
      ((s.lookup type key now).1.map Slot.data).or disk := by
  cases hf : s.found type key with
  | none =>
    cases disk with
    | none => simp [State.loadCached, lookup, hf]
    | some v => cases hfree : free s.slots (probes key) <;>
        simp [State.loadCached, recheck, lookup, hf, hfree]
  | some r =>
    rcases r with ⟨i, e⟩
    by_cases hexp : now ≤ e.expires
    · simp [State.loadCached, lookup, hf, hexp]
    · have hc := found_clearSlot hf
      have hfree : free (s.clearSlot i).slots (probes key) = some i := free_clear (find_of_found hf)
      cases disk <;> simp [State.loadCached, recheck, lookup, hf, hexp, hc, hfree]

/-- A load that reads the disk leaves what it read in the cache. -/
def Stores (s : State V) (type : CacheType) (key : Bytes) : Prop :=
  (s.found type key).isSome = true ∨ key.length ≤ 32 ∧ ∃ i ∈ probes key, s.slots i = none

theorem found_fillSlot (hfree : free s.slots (probes key) = some i) (hf : s.found type key = none)
    (he : e.type = type ∧ e.key = key) : (s.fillSlot i e).found type key = some (i, e) := by
  have hfind : find s.slots (Slot.holds type key) (probes key) = none := by
    cases h : find s.slots (Slot.holds type key) (probes key) with
    | none => rfl
    | some j =>
      rcases find_spec h with ⟨e', he', -⟩
      simp [found, h, he'] at hf
  have hempty := free_spec hfree
  have hv := (visible_of_free hfind hfree).update (fun e' he' => by simp [hempty] at he') (some e)
  exact found_eq_some_iff.2 ⟨hv, Function.update_self _ _ _, he⟩

theorem found_refill {e' : Slot V} (hf : s.found type key = some (i, e))
    (he : e'.type = type ∧ e'.key = key) : (s.fillSlot i e').found type key = some (i, e') := by
  rcases found_eq_some_iff.1 hf with ⟨hv, hi, hold⟩
  have hwanted : ∀ x, s.slots i = some x → Slot.holds type key x = true := by
    intro x hx
    rw [hi, Option.some.injEq] at hx
    exact hx ▸ holds_iff.2 hold
  exact found_eq_some_iff.2 ⟨hv.update hwanted (some e'), Function.update_self _ _ _, he⟩

theorem KeysFit.found_long (h : KeysFit s) (hlong : 32 < key.length) : s.found type key = none := by
  cases hf : s.found type key with
  | none => rfl
  | some r =>
    rcases r with ⟨i, e⟩
    rcases found_eq_some_iff.1 hf with ⟨-, hi, -, hkey⟩
    have hle := h i e hi
    rw [hkey] at hle
    omega

theorem stores_of_found (hf : s.found type key = some (i, e)) : Stores s type key :=
  .inl (by rw [hf]; rfl)

theorem stores_iff_of_not_found (hf : s.found type key = none) :
    Stores s type key ↔ key.length ≤ 32 ∧ free s.slots (probes key) ≠ none := by
  rw [Stores, hf, ne_eq, free_eq_none_iff]
  simp

theorem lookup_of_found (hf : s.found type key = some (i, e)) {now : ℕ} (hexp : now ≤ e.expires) :
    s.lookup type key now = (some e, s) := by
  simp [lookup, hf, hexp]

theorem lookup_of_not_found (hf : s.found type key = none) (now : ℕ) :
    s.lookup type key now = (none, s) := by
  simp [lookup, hf]

theorem newSlot_holds (s : State V) (hlen : key.length ≤ 32) (ttl : ℕ) (v : V) (now : ℕ) :
    (s.newSlot type ttl key v now).type = type ∧ (s.newSlot type ttl key v now).key = key :=
  ⟨rfl, List.take_of_length_le hlen⟩

theorem KeysFit.lookup_loadCached (h : KeysFit s) (hstores : Stores s type key) (ttl : ℕ)
    (disk : Option V) (now : ℕ) :
    ((State.loadCached type ttl s key disk now now).2.lookup type key now).1.map Slot.data =
      (State.loadCached type ttl s key disk now now).1 := by
  cases hf : s.found type key with
  | none =>
    rcases (stores_iff_of_not_found hf).1 hstores with ⟨hlen, hfree⟩
    cases disk with
    | none => simp [State.loadCached, lookup, hf]
    | some v =>
      rcases Option.ne_none_iff_exists'.1 hfree with ⟨i, hi⟩
      have hnew := found_fillSlot hi hf (newSlot_holds s hlen ttl v now)
      have hhit := lookup_of_found hnew (Nat.le_add_right now ttl)
      simp only [State.loadCached, recheck, lookup_of_not_found hf, hi, hhit]
      rfl
  | some r =>
    rcases r with ⟨i, e⟩
    by_cases hexp : now ≤ e.expires
    · simp [State.loadCached, lookup, hf, hexp]
    · -- the lookup clears an expired slot, and the answer goes into the same one
      have hc := found_clearSlot hf
      cases disk with
      | none => simp [State.loadCached, lookup, hf, hexp, hc]
      | some v =>
        rcases found_eq_some_iff.1 hf with ⟨-, hi, -, hkey⟩
        have hlen : key.length ≤ 32 := hkey ▸ h i e hi
        have hfree : free (s.clearSlot i).slots (probes key) = some i :=
          free_clear (find_of_found hf)
        have hnew := found_refill hf (newSlot_holds s hlen ttl v now)
        have hhit := lookup_of_found hnew (Nat.le_add_right now ttl)
        have hstate : State.loadCached type ttl s key (some v) now now =
            (some v, s.fillSlot i (s.newSlot type ttl key v now)) := by
          simp only [State.loadCached, recheck, lookup, hf, hexp, if_false, hc, hfree]
          exact congrArg (some v, ·) (fillSlot_clearSlot s i _)
        rw [hstate, hhit]
        rfl

theorem KeysFit.found_loadCached (h : KeysFit s) (hstores : ¬Stores s type key) (ttl : ℕ)
    (disk : Option V) (now later : ℕ) :
    (State.loadCached type ttl s key disk now later).2.found type key = none := by
  rcases loadCached_state s type key ttl disk now later with
    ⟨i, e, hf, -⟩ | ⟨hf, ⟨hs, -⟩ | ⟨v, i, -, hfree, hs⟩⟩
  · exact absurd (stores_of_found hf) hstores
  · rw [hs]
    exact hf
  · have hlong : 32 < key.length := by
      by_contra hle
      refine hstores ((stores_iff_of_not_found hf).2 ⟨Nat.le_of_not_lt hle, ?_⟩)
      rw [hfree]
      exact Option.some_ne_none i
    rw [hs]
    exact (h.fillSlot (newSlot_fits s type ttl key v later)).found_long hlong

theorem KeysFit.loadCached (h : KeysFit s) (type : CacheType) (ttl : ℕ) (key : Bytes)
    (disk : Option V) (now later : ℕ) :
    KeysFit (State.loadCached type ttl s key disk now later).2 := by
  have hfill : ∀ i v, KeysFit (s.fillSlot i (s.newSlot type ttl key v later)) :=
    fun i v => h.fillSlot (newSlot_fits s type ttl key v later)
  rcases loadCached_state s type key ttl disk now later with
    ⟨i, e, -, hs | hs | ⟨v, hs⟩⟩ | ⟨-, ⟨hs, -⟩ | ⟨v, i, -, -, hs⟩⟩ <;> rw [hs]
  · exact h
  · exact h.clearSlot i
  · exact hfill i v
  · exact h
  · exact hfill i v

theorem KeysFit.step (h : KeysFit s) (a : Action V) : KeysFit (SessionCache.step s a) := by
  cases a with
  | loadUpload key disk now later => exact h.loadCached _ _ _ _ _ _
  | loadDownload key disk now later => exact h.loadCached _ _ _ _ _ _
  | invalidate key => exact fun i e hi => h i e (cacheInvalidate_slots_iff.1 hi).1

/-- In every run of loads and invalidations the table is coherent in all states reached
exactly when every call sees the slots of its key. -/
theorem cache_coherent_iff (as : List (Action V)) :
    Run.AllSteps step Sees start as ↔ ∀ t, Run.Reaches step start as t → Coherent t := by
  have hinv : ∀ (s : State V) a, KeysFit s → KeysFit (step s a) := fun _ a hs => hs.step a
  have hgood : ∀ (s : State V) a, KeysFit s → Coherent s →
      (Coherent (step s a) ↔ Sees s a) := by
    intro s a hs hc
    cases a with
    | loadUpload key disk now later => exact loadCached_coherent_iff hs hc _ disk now later
    | loadDownload key disk now later => exact loadCached_coherent_iff hs hc _ disk now later
    | invalidate key => exact cacheInvalidate_coherent_iff hc key
  have hfit : KeysFit (start : State V) := fun _ _ h => nomatch h
  have hstart : Coherent (start : State V) :=
    coherent_iff.2 ⟨fun _ _ _ _ h => (nomatch h), fun _ _ h => (nomatch h)⟩
  exact Run.allSteps_iff_forall_reaches hinv hgood hfit hstart as

end

/-! ## Three ids of one hash -/

def finished : Bytes := bytes "3f9a0c51d27e84b6a1905fe2c7d3401a"
def cancelled : Bytes := bytes "3f9a0c51d27e84b6a1905fe2c7d340a1"
def begun : Bytes := bytes "37349e455d52613c2813c40d2affbb14"

/-- Two uploads are loaded, one finishes and the other is cancelled, and a third begins. -/
def hiddenRun : List (Action ℕ) :=
  [.loadUpload finished (some 1) 0 0, .loadUpload cancelled (some 2) 0 0, .invalidate finished,
    .invalidate cancelled, .loadUpload begun (some 3) 0 0]

/-- The cancelled upload is served from the cache, although the disk has it no more. -/
theorem cancelled_upload_is_served :
    ((Run.run step start hiddenRun).loadUploadSessionMetaBinCached cancelled none 0 0).1 = some 2 ∧
      ¬∀ (as : List (Action ℕ)) (t : State ℕ), Run.Reaches step start as t → NoneServed t := by
  refine ⟨by decide +kernel, ?_⟩
  intro hall
  have hserved := hall hiddenRun _ (Run.reaches_run start hiddenRun) .metaBin cancelled 0
  -- the slot is of the generation before the cancellation
  have hslot : ((Run.run step start hiddenRun).lookup .metaBin cancelled 0).1.map
      (fun e => e.generation + 1) =
        some ((Run.run step start hiddenRun).invalidations cancelled) := by decide +kernel
  have howner : ((Run.run step start hiddenRun).lookup .metaBin cancelled 0).1.map Slot.owner =
      some cancelled := by decide +kernel
  rcases Option.map_eq_some_iff.1 hslot with ⟨e, he, hgen⟩
  have heq := hserved e he
  rw [he, Option.map_some, Option.some.injEq] at howner
  rw [howner, ← hgen] at heq
  exact absurd heq (Nat.succ_ne_self _).symm

end FlyBoard.Tasfa.SessionCache

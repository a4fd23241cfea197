import FlyBoard.Lib.Bytes
import FlyBoard.Lib.ProbeTable
import FlyBoard.Lib.Run
import Mathlib.Data.List.FinRange

/-!
# Address bans (`src/utils/ipban.c`)

Failed logins are counted per client address in one open-addressed table. The 64
stripes of the table are locked one by one, but a call touches one stripe only, so a
call is one step. An expired ban is evicted by the next request of its address: the
slot becomes empty, and the searches of other addresses end there.
-/

namespace FlyBoard.IpBan

open ProbeTable Run

/-! ## The table -/

/-- The hash of an address; 0 marks an empty slot. -/
abbrev Key : Type := { key : UInt64 // key ≠ 0 }

/-- An `ipban_slot_t` with a key. -/
structure Slot where
  key : Key
  addr : Bytes
  fails : UInt8
  windowStart : ℕ
  /-- 0 = not banned -/
  bannedUntil : ℕ
deriving DecidableEq

/-- `IPBAN_SLOTS` -/
abbrev Index : Type := Fin 4096

abbrev Table : Type := Index → Option Slot

/-- `IPBAN_LOCKS` -/
def ipbanLocks : ℕ := 64

/-- `IPBAN_SLOTS_PER_LOCK` -/
def ipbanSlotsPerLock : ℕ := 64

/-- `IPBAN_PROBE` -/
def ipbanProbe : ℕ := 32

/-- The slot `base + (off + i) % IPBAN_SLOTS_PER_LOCK`. -/
def probe (key : Key) (i : ℕ) : Index :=
  let region := key.val.toNat % ipbanLocks
  let base := region * ipbanSlotsPerLock
  let off := key.val.toNat / ipbanLocks % ipbanSlotsPerLock
  ⟨base + (off + i) % ipbanSlotsPerLock, by
    have hregion : region < 64 := Nat.mod_lt _ (by decide)
    have hoff : (off + i) % 64 < 64 := Nat.mod_lt _ (by decide)
    simp only [base, ipbanSlotsPerLock]
    omega⟩

/-- The slots that `slot_for` looks at, in this order. -/
@[irreducible] def probes (key : Key) : List Index :=
  (List.range ipbanProbe).map (probe key)

def Slot.hasKey (key : Key) (s : Slot) : Bool := decide (s.key = key)

def Slot.fresh (key : Key) (addr : Bytes) : Slot := ⟨key, addr, 0, 0, 0⟩

/-- `slot_for` on the rest of the probe sequence: the table, the slot and its index. -/
def slotFor (t : Table) (key : Key) (addr : Bytes) (insert : Bool) :
    List Index → Option (Table × Index × Slot)
  | [] => none
  | i :: path =>
    match t i with
    | some s =>
      if s.key = key then
        if s.addr = addr then some (t, i, s) else none
      else slotFor t key addr insert path
    | none =>
      if insert then
        let s := Slot.fresh key addr
        some (Function.update t i (some s), i, s)
      else none

/-! ## The peer -/

/-- What `getpeername` says; `other` stands for a request without a usable address. -/
inductive Sockaddr
  | inet (sinAddr : Vector UInt8 4)
  | inet6 (sin6Addr : Vector UInt8 16)
  | other

/-- `IN6_IS_ADDR_V4MAPPED` -/
def v4Mapped (a : Vector UInt8 16) : Bool :=
  a.toList.take 12 == List.replicate 10 0 ++ [0xff, 0xff]

/-- `'4'` or `'6'` and the bytes of the address. -/
def peerAddr : Sockaddr → Option Bytes
  | .inet a => some (52 :: a.toList)
  | .inet6 a => if v4Mapped a then some (52 :: a.toList.drop 12) else some (54 :: a.toList)
  | .other => none

def fnv1a (addr : Bytes) : UInt64 :=
  addr.foldl (fun h b => (h ^^^ b.toUInt64) * 1099511628211) 1469598103934665603

def keyOf (hash : Bytes → UInt64) (addr : Bytes) : Key :=
  if h : hash addr = 0 then ⟨1, by decide⟩ else ⟨hash addr, h⟩

/-- `peer_key`, for any hash. -/
def peerKey (hash : Bytes → UInt64) (peer : Sockaddr) : Option (Bytes × Key) :=
  (peerAddr peer).map fun addr => (addr, keyOf hash addr)

/-! ## The calls -/

/-- `g_threshold`, `g_window_sec` and `g_duration_sec`. -/
structure Config where
  threshold : ℕ
  windowSec : ℕ
  durationSec : ℕ

/-- The fallbacks of `ipban_init`. -/
def Config.fallback : Config := ⟨5, 600, 3600⟩

/-- A row written by `audit_record`. -/
structure AuditRecord where
  actor : ℕ
  action : String
  target : String
  outcome : String
  detail : String
deriving DecidableEq

/-- `address:%016llx` -/
def auditTarget (key : Key) : String :=
  let digits := Nat.toDigits 16 key.val.toNat
  "address:" ++ String.ofList (List.replicate (16 - digits.length) '0' ++ digits)

def banCreated (key : Key) : AuditRecord :=
  ⟨0, "security.ip_ban", auditTarget key, "created", "automatic login failure threshold"⟩

def Slot.countFailure (cfg : Config) (now : ℕ) (s : Slot) : Slot :=
  let s :=
    if s.fails = 0 ∨ cfg.windowSec < now - s.windowStart then
      { s with fails := 0, windowStart := now }
    else s
  { s with fails := s.fails + 1 }

/-- What `ipban_note_failure` makes of the slot, and whether that creates a ban. -/
def Slot.noteFailure (cfg : Config) (now : ℕ) (s : Slot) : Slot × Bool :=
  if now < s.bannedUntil then (s, false)
  else
    let s := s.countFailure cfg now
    if cfg.threshold ≤ s.fails.toNat then ({ s with bannedUntil := now + cfg.durationSec }, true)
    else (s, false)

/-- `ipban_note_failure`, with the audit record of a new ban. -/
def noteFailure (hash : Bytes → UInt64) (cfg : Config) (t : Table) (now : ℕ) (peer : Sockaddr) :
    Table × Option AuditRecord :=
  match peerKey hash peer with
  | none => (t, none)
  | some (addr, key) =>
    match slotFor t key addr true (probes key) with
    | none => (t, none)
    | some (t, i, s) =>
      let r := s.noteFailure cfg now
      (Function.update t i (some r.1), if r.2 then some (banCreated key) else none)

def Slot.noteSuccess (s : Slot) : Slot := { s with fails := 0, windowStart := 0, bannedUntil := 0 }

/-- `ipban_note_success` -/
def noteSuccess (hash : Bytes → UInt64) (t : Table) (peer : Sockaddr) : Table :=
  match peerKey hash peer with
  | none => t
  | some (addr, key) =>
    match slotFor t key addr false (probes key) with
    | none => t
    | some (t, i, s) => Function.update t i (some s.noteSuccess)

structure Response where
  statusCode : ℕ
  body : String
  headers : List (String × String)
deriving DecidableEq

def forbidden : Response where
  statusCode := 403
  body := "Access temporarily blocked: too many failed login attempts from this address."
  headers := [("Content-Type", "text/plain; charset=utf-8"), ("Cache-Control", "no-store")]

/-- `ipban_middleware`; without an answer of its own it calls `next`. -/
def middleware (hash : Bytes → UInt64) (t : Table) (now : ℕ) (peer : Sockaddr) :
    Table × Option Response :=
  match peerKey hash peer with
  | none => (t, none)
  | some (addr, key) =>
    match slotFor t key addr false (probes key) with
    | none => (t, none)
    | some (t, i, s) =>
      if 0 < s.bannedUntil then
        if s.bannedUntil ≤ now then (Function.update t i none, none)
        else (t, some forbidden)
      else (t, none)

/-! ## Runs -/

/-- The clock, the table, and until when each address was last banned: 0 after a
success. The source keeps no such record besides its table. -/
structure State where
  now : ℕ
  slots : Table
  banned : Bytes → ℕ

inductive Action
  | tick (seconds : ℕ)
  | noteFailure (peer : Sockaddr)
  | noteSuccess (peer : Sockaddr)
  | middleware (peer : Sockaddr)

def step (hash : Bytes → UInt64) (cfg : Config) (s : State) : Action → State
  | .tick seconds => { s with now := s.now + seconds }
  | .noteFailure peer =>
    let r := noteFailure hash cfg s.slots s.now peer
    match peerAddr peer, r.2 with
    | some addr, some _ =>
      { s with slots := r.1, banned := Function.update s.banned addr (s.now + cfg.durationSec) }
    | _, _ => { s with slots := r.1 }
  | .noteSuccess peer =>
    match peerAddr peer with
    | some addr =>
      { s with
        slots := noteSuccess hash s.slots peer
        banned := Function.update s.banned addr 0 }
    | none => { s with slots := noteSuccess hash s.slots peer }
  | .middleware peer => { s with slots := (middleware hash s.slots s.now peer).1 }

/-- The table after `ipban_init`, at any time. -/
def start (now : ℕ) : State := ⟨now, fun _ => none, fun _ => 0⟩

def BansHold (hash : Bytes → UInt64) (s : State) : Prop :=
  ∀ peer addr, peerAddr peer = some addr → s.now < s.banned addr →
    (middleware hash s.slots s.now peer).2 = some forbidden

/-- An eviction empties no slot on the way to a ban that has not run out. -/
def EvictsClear (hash : Bytes → UInt64) (s : State) : Action → Prop
  | .middleware peer =>
    ∀ addr key t i e, peerKey hash peer = some (addr, key) →
      slotFor s.slots key addr false (probes key) = some (t, i, e) →
        0 < e.bannedUntil → e.bannedUntil ≤ s.now →
          ∀ j f, s.slots j = some f → s.now < f.bannedUntil →
            i ∉ (probes f.key).takeWhile fun k => decide (k ≠ j)
  | _ => True

/-- The probe sequence of the call reaches the key or an empty slot. -/
def Unsaturated (hash : Bytes → UInt64) (s : State) : Action → Prop
  | .tick _ => True
  | .noteFailure peer | .noteSuccess peer | .middleware peer =>
    ∀ r ∈ peerKey hash peer, ∃ i ∈ probes r.2, ∀ e ∈ s.slots i, e.key = r.2

instance (hash : Bytes → UInt64) (s : State) : DecidablePred (Unsaturated hash s)
  | .tick _ => instDecidableTrue
  | .noteFailure peer | .noteSuccess peer | .middleware peer =>
    -- by search along the path, not over all slots
    have (r : Bytes × Key) : Decidable (∃ i ∈ probes r.2, ∀ e ∈ s.slots i, e.key = r.2) :=
      List.decidableBEx _ _
    inferInstanceAs (Decidable (∀ r ∈ peerKey hash peer, _))

/-! ## What `slot_for` finds -/

section

variable {t t' : Table} {key : Key} {addr : Bytes} {insert : Bool} {path : List Index}
  {i : Index} {e : Slot}

theorem hasKey_iff : e.hasKey key = true ↔ e.key = key := by
  simp [Slot.hasKey]

theorem hasKey_congr {e' : Slot} (h : e'.key = e.key) (key : Key) :
    e'.hasKey key = e.hasKey key := by
  simp [Slot.hasKey, h]

/-- The slot that `slot_for` returns is the first of its key, and was either there or
is a new one in the place of an empty one. -/
theorem slotFor_spec (h : slotFor t key addr insert path = some (t', i, e)) :
    e.key = key ∧ e.addr = addr ∧ t' i = some e ∧ find t' (Slot.hasKey key) path = some i ∧
      (t' = t ∨ insert = true ∧ t i = none ∧ e = Slot.fresh key addr ∧
        t' = Function.update t i (some e)) := by
  induction path with
  | nil => cases h
  | cons k path ih =>
    cases hk : t k with
    | none =>
      cases insert with
      | false => simp [slotFor, hk] at h
      | true =>
        simp only [slotFor, hk, if_true, Option.some.injEq, Prod.mk.injEq] at h
        rcases h with ⟨rfl, rfl, rfl⟩
        refine ⟨rfl, rfl, Function.update_self .., ?_, .inr ⟨rfl, hk, rfl, rfl⟩⟩
        simp [find, Slot.hasKey, Slot.fresh]
    | some f =>
      by_cases hkey : f.key = key
      · by_cases haddr : f.addr = addr
        · simp only [slotFor, hk, hkey, haddr, if_true, Option.some.injEq, Prod.mk.injEq] at h
          rcases h with ⟨rfl, rfl, rfl⟩
          exact ⟨hkey, haddr, hk, by simp [find, hk, hasKey_iff.2 hkey], .inl rfl⟩
        · simp [slotFor, hk, hkey, haddr] at h
      · simp only [slotFor, hk, hkey, if_false] at h
        obtain ⟨h1, h2, h3, h4, h5⟩ := ih h
        refine ⟨h1, h2, h3, ?_, h5⟩
        -- the slot that was passed is still there
        have hk' : t' k = some f := by
          rcases h5 with rfl | ⟨-, hi, -, rfl⟩
          · exact hk
          · have hki : k ≠ i := by
              rintro rfl
              rw [hk] at hi
              cases hi
            rw [Function.update_of_ne hki, hk]
        simp [find, hk', Slot.hasKey, hkey, h4]

theorem slotFor_of_find (h : find t (Slot.hasKey key) path = some i) (hi : t i = some e)
    (haddr : e.addr = addr) : slotFor t key addr insert path = some (t, i, e) := by
  induction path with
  | nil => cases h
  | cons k path ih =>
    cases hk : t k with
    | none => simp [find, hk] at h
    | some f =>
      by_cases hkey : f.key = key
      · obtain rfl : k = i := by simpa [find, hk, hasKey_iff.2 hkey] using h
        obtain rfl : f = e := by simpa [hk] using hi
        simp [slotFor, hk, hkey, haddr]
      · simp only [slotFor, hk, hkey, if_false]
        exact ih (by simpa [find, hk, Slot.hasKey, hkey] using h)

theorem slotFor_eq_none (h : find t (Slot.hasKey key) path = none) :
    slotFor t key addr false path = none := by
  cases hs : slotFor t key addr false path with
  | none => rfl
  | some r =>
    obtain ⟨-, -, -, hfind, rfl | ⟨hins, -⟩⟩ := slotFor_spec (i := r.2.1) (e := r.2.2) hs
    · rw [h] at hfind
      cases hfind
    · cases hins

end

/-! ## The table keeps the bans -/

section

variable {hash : Bytes → UInt64} {cfg : Config} {s : State} {i : Index} {e : Slot} {addr : Bytes}
  {peer : Sockaddr} {f : Slot}

theorem peerKey_eq_some_iff {key : Key} :
    peerKey hash peer = some (addr, key) ↔ peerAddr peer = some addr ∧ keyOf hash addr = key := by
  simp [peerKey]

def Found (t : Table) (i : Index) (e : Slot) : Prop :=
  t i = some e ∧ find t (Slot.hasKey e.key) (probes e.key) = some i

/-- Every slot belongs to a peer, and the bans that have not run out are those of the
slots, which the searches find. -/
structure Held (hash : Bytes → UInt64) (s : State) : Prop where
  keyed : ∀ i e, s.slots i = some e → ∃ peer, peerKey hash peer = some (e.addr, e.key)
  found : ∀ i e, s.slots i = some e → s.now < e.bannedUntil → Found s.slots i e
  noted : ∀ i e, s.slots i = some e → s.now < e.bannedUntil → s.banned e.addr = e.bannedUntil
  kept : ∀ addr, s.now < s.banned addr →
    ∃ i e, s.slots i = some e ∧ e.addr = addr ∧ e.bannedUntil = s.banned addr

theorem held_start (now : ℕ) : Held hash (start now) := by
  constructor
  case keyed => exact fun _ _ h => nomatch h
  case found => exact fun _ _ h => nomatch h
  case noted => exact fun _ _ h => nomatch h
  case kept => exact fun _ h => absurd h (Nat.not_lt_zero _)

theorem Held.key_eq (h : Held hash s) (hi : s.slots i = some e) : e.key = keyOf hash e.addr := by
  rcases h.keyed i e hi with ⟨peer, hpeer⟩
  exact (peerKey_eq_some_iff.1 hpeer).2.symm

theorem Held.eq_of_found (h : Held hash s) (hi : Found s.slots i e) {j : Index}
    (hj : s.slots j = some f) (hlive : s.now < f.bannedUntil) (haddr : f.addr = e.addr) : j = i := by
  have hkey : f.key = e.key := by rw [h.key_eq hj, h.key_eq hi.1, haddr]
  have hfound := (h.found j f hj hlive).2
  rw [hkey, hi.2] at hfound
  exact (Option.some.inj hfound).symm

theorem Held.banned_le (h : Held hash s) (hi : Found s.slots i e)
    (hexpired : e.bannedUntil ≤ s.now) : s.banned e.addr ≤ s.now := by
  by_contra hlt
  rcases h.kept e.addr (Nat.lt_of_not_le hlt) with ⟨j, f, hj, haddr, hf⟩
  have hlive : s.now < f.bannedUntil := by omega
  obtain rfl : j = i := h.eq_of_found hi hj hlive haddr
  obtain rfl : f = e := by simpa [hj] using hi.1
  omega

theorem Held.bansHold (h : Held hash s) : BansHold hash s := by
  intro peer addr hpeer hlive
  rcases h.kept addr hlive with ⟨i, e, hi, rfl, he⟩
  have hlt : s.now < e.bannedUntil := by omega
  have hslot : slotFor s.slots e.key e.addr false (probes e.key) = some (s.slots, i, e) :=
    slotFor_of_find (h.found i e hi hlt).2 hi rfl
  have hkey : peerKey hash peer = some (e.addr, e.key) :=
    peerKey_eq_some_iff.2 ⟨hpeer, (h.key_eq hi).symm⟩
  have hpos : 0 < e.bannedUntil := by omega
  simp [middleware, hkey, hslot, hpos, Nat.not_le.2 hlt]

theorem Held.tick (h : Held hash s) (seconds : ℕ) :
    Held hash { s with now := s.now + seconds } := by
  refine ⟨h.keyed, ?_, ?_, ?_⟩
  · intro i e hi hlive
    exact h.found i e hi (Nat.lt_of_le_of_lt (Nat.le_add_right ..) hlive)
  · intro i e hi hlive
    exact h.noted i e hi (Nat.lt_of_le_of_lt (Nat.le_add_right ..) hlive)
  · intro addr hlive
    exact h.kept addr (Nat.lt_of_le_of_lt (Nat.le_add_right ..) hlive)

theorem Held.insert (h : Held hash s) (hi : s.slots i = none)
    (hkey : ∃ peer, peerKey hash peer = some (e.addr, e.key)) (hzero : e.bannedUntil = 0) :
    Held hash { s with slots := Function.update s.slots i (some e) } := by
  constructor
  case keyed =>
    intro j f hj
    rcases of_set hj with ⟨-, rfl⟩ | ⟨-, hj⟩
    · exact hkey
    · exact h.keyed j f hj
  case found =>
    intro j f hj hlive
    rcases of_set hj with ⟨-, rfl⟩ | ⟨-, hj'⟩
    · exact absurd hlive (by simp [hzero])
    · exact ⟨hj, find_fill (h.found j f hj' hlive).2 hi e⟩
  case noted =>
    intro j f hj hlive
    rcases of_set hj with ⟨-, rfl⟩ | ⟨-, hj⟩
    · exact absurd hlive (by simp [hzero])
    · exact h.noted j f hj hlive
  case kept =>
    intro addr hlive
    rcases h.kept addr hlive with ⟨j, f, hj, hf⟩
    have hji : j ≠ i := by
      rintro rfl
      rw [hi] at hj
      cases hj
    exact ⟨j, f, (Function.update_of_ne hji _ _).trans hj, hf⟩

/-- A change of the slot found for an address, with a record of bans that differs for
this address at most. -/
theorem Held.rewrite (h : Held hash s) (hi : Found s.slots i e)
    (hkey : f.key = e.key) (haddr : f.addr = e.addr) {b : Bytes → ℕ}
    (hother : ∀ addr, addr ≠ e.addr → b addr = s.banned addr)
    (hnew : s.now < f.bannedUntil ∨ s.now < b e.addr → b e.addr = f.bannedUntil) :
    Held hash { s with slots := Function.update s.slots i (some f), banned := b } := by
  have hfind (key : Key) : find (Function.update s.slots i (some f)) (Slot.hasKey key) (probes key) =
      find s.slots (Slot.hasKey key) (probes key) :=
    find_replace hi.1 (hasKey_congr hkey key)
  constructor
  case keyed =>
    intro j g hj
    rcases of_set hj with ⟨-, rfl⟩ | ⟨-, hj⟩
    · rw [hkey, haddr]
      exact h.keyed i e hi.1
    · exact h.keyed j g hj
  case found =>
    intro j g hj hlive
    refine ⟨hj, (hfind g.key).trans ?_⟩
    rcases of_set hj with ⟨rfl, rfl⟩ | ⟨-, hj⟩
    · rw [hkey]
      exact hi.2
    · exact (h.found j g hj hlive).2
  case noted =>
    intro j g hj hlive
    rcases of_set hj with ⟨-, rfl⟩ | ⟨hji, hj⟩
    · rw [haddr]
      exact hnew (.inl hlive)
    · have hne : g.addr ≠ e.addr := fun heq => hji (h.eq_of_found hi hj hlive heq)
      exact (hother g.addr hne).trans (h.noted j g hj hlive)
  case kept =>
    intro addr hlive
    by_cases heq : addr = e.addr
    · subst heq
      exact ⟨i, f, Function.update_self .., haddr, (hnew (.inr hlive)).symm⟩
    · have hold := hother addr heq
      rcases h.kept addr (hold ▸ hlive) with ⟨j, g, hj, hg, huntil⟩
      have hji : j ≠ i := by
        rintro rfl
        obtain rfl : e = g := by simpa [hi.1] using hj
        exact heq hg.symm
      exact ⟨j, g, (Function.update_of_ne hji _ _).trans hj, hg, huntil.trans hold.symm⟩

theorem Held.evict (h : Held hash s) (hi : s.slots i = some e) (hexpired : e.bannedUntil ≤ s.now)
    (hclear : ∀ j f, s.slots j = some f → s.now < f.bannedUntil →
      i ∉ (probes f.key).takeWhile fun k => decide (k ≠ j)) :
    Held hash { s with slots := Function.update s.slots i none } := by
  have hne : ∀ {j : Index} {f : Slot}, s.slots j = some f → s.now < f.bannedUntil → i ≠ j := by
    intro j f hj hlive
    rintro rfl
    obtain rfl : e = f := by simpa [hi] using hj
    omega
  constructor
  case keyed => exact fun j f hj => h.keyed j f (of_clear hj).2
  case found =>
    intro j f hj hlive
    have hj' := (of_clear hj).2
    refine ⟨hj, ?_⟩
    rw [find_clear_of_ne (h.found j f hj' hlive).2 (hne hj' hlive)]
    exact if_neg (hclear j f hj' hlive)
  case noted => exact fun j f hj => h.noted j f (of_clear hj).2
  case kept =>
    intro addr hlive
    rcases h.kept addr hlive with ⟨j, f, hj, hf, huntil⟩
    have hf_live : s.now < f.bannedUntil := huntil ▸ hlive
    have hji : j ≠ i := (hne hj hf_live).symm
    exact ⟨j, f, (Function.update_of_ne hji _ _).trans hj, hf, huntil⟩

/-- The table and the slot that `slot_for` returns to a call that may insert. -/
theorem Held.slotFor (h : Held hash s) {key : Key} {insert : Bool}
    {t : Table} (hpeer : peerKey hash peer = some (addr, key))
    (hslot : IpBan.slotFor s.slots key addr insert (probes key) = some (t, i, e)) :
    e.key = key ∧ e.addr = addr ∧ Found t i e ∧ Held hash { s with slots := t } := by
  obtain ⟨hkey, haddr, hi, hfind, hcase⟩ := slotFor_spec hslot
  refine ⟨hkey, haddr, ⟨hi, hkey ▸ hfind⟩, ?_⟩
  rcases hcase with rfl | ⟨-, hempty, rfl, rfl⟩
  · exact h
  · exact h.insert hempty ⟨peer, hpeer⟩ rfl

theorem slotFor_of_not_insert {t t' : Table} {key : Key} {path : List Index}
    (h : slotFor t key addr false path = some (t', i, e)) : t' = t := by
  obtain ⟨-, -, -, -, heq | ⟨hins, -⟩⟩ := slotFor_spec h
  · exact heq
  · cases hins

/-! ### The calls -/

@[simp] theorem countFailure_key (now : ℕ) (e : Slot) : (e.countFailure cfg now).key = e.key := by
  unfold Slot.countFailure
  split <;> rfl

@[simp] theorem countFailure_addr (now : ℕ) (e : Slot) :
    (e.countFailure cfg now).addr = e.addr := by
  unfold Slot.countFailure
  split <;> rfl

@[simp] theorem countFailure_bannedUntil (now : ℕ) (e : Slot) :
    (e.countFailure cfg now).bannedUntil = e.bannedUntil := by
  unfold Slot.countFailure
  split <;> rfl

/-- A failure leaves a ban alone, and otherwise counts and may create one. -/
theorem noteFailure_cases (cfg : Config) (now : ℕ) (e : Slot) :
    (e.noteFailure cfg now).1.key = e.key ∧ (e.noteFailure cfg now).1.addr = e.addr ∧
      (now < e.bannedUntil ∧ e.noteFailure cfg now = (e, false) ∨
        e.bannedUntil ≤ now ∧
          ((e.noteFailure cfg now).2 = true ∧
              (e.noteFailure cfg now).1.bannedUntil = now + cfg.durationSec ∨
            (e.noteFailure cfg now).2 = false ∧
              (e.noteFailure cfg now).1.bannedUntil = e.bannedUntil)) := by
  by_cases hlive : now < e.bannedUntil
  · simp [Slot.noteFailure, hlive]
  · have hexpired : e.bannedUntil ≤ now := Nat.le_of_not_lt hlive
    by_cases hthreshold : cfg.threshold ≤ (e.countFailure cfg now).fails.toNat
    · simp [Slot.noteFailure, hlive, hthreshold, hexpired]
    · simp [Slot.noteFailure, hlive, hthreshold, hexpired]

theorem Held.noteFailure (h : Held hash s) (peer : Sockaddr) :
    Held hash (step hash cfg s (.noteFailure peer)) := by
  cases hpeer : peerKey hash peer with
  | none => simpa [step, IpBan.noteFailure, hpeer] using h
  | some r =>
    rcases r with ⟨addr, key⟩
    have haddr := (peerKey_eq_some_iff.1 hpeer).1
    cases hslot : IpBan.slotFor s.slots key addr true (probes key) with
    | none => simpa [step, IpBan.noteFailure, hpeer, hslot, haddr] using h
    | some r =>
      rcases r with ⟨t, i, e⟩
      obtain ⟨rfl, rfl, hfound, ht⟩ := h.slotFor hpeer hslot
      obtain ⟨hkey', haddr', hcase⟩ := noteFailure_cases cfg s.now e
      rcases hcase with ⟨hlive, heq⟩ | ⟨hexpired, ⟨hcreated, huntil⟩ | ⟨hcreated, huntil⟩⟩
      · -- the ban of the slot stays as it is
        have hnoted := ht.noted i e hfound.1 hlive
        have hkeep := ht.rewrite hfound rfl rfl (fun _ _ => rfl) fun _ => hnoted
        simpa [step, IpBan.noteFailure, hpeer, hslot, heq] using hkeep
      · -- a new ban
        have hban := ht.rewrite hfound hkey' haddr'
          (b := Function.update s.banned e.addr (s.now + cfg.durationSec))
          (fun a ha => Function.update_of_ne ha _ _)
          (fun _ => by rw [Function.update_self, huntil])
        simpa [step, IpBan.noteFailure, hpeer, hslot, hcreated, haddr] using hban
      · -- one more failure; a ban of the slot has run out
        have hle := ht.banned_le hfound hexpired
        have hcount := ht.rewrite hfound hkey' haddr' (fun _ _ => rfl) (by
          rintro (hlt | hlt)
          · exact absurd hlt (by simp [huntil, hexpired])
          · exact absurd hlt (Nat.not_lt.2 hle))
        simpa [step, IpBan.noteFailure, hpeer, hslot, hcreated, haddr] using hcount

theorem Held.noteSuccess (h : Held hash s) (peer : Sockaddr) :
    Held hash (step hash cfg s (.noteSuccess peer)) := by
  cases hpeer : peerKey hash peer with
  | none =>
    have haddr : peerAddr peer = none := by simpa [peerKey] using hpeer
    simpa [step, IpBan.noteSuccess, hpeer, haddr] using h
  | some r =>
    rcases r with ⟨addr, key⟩
    have haddr := (peerKey_eq_some_iff.1 hpeer).1
    have hkey := (peerKey_eq_some_iff.1 hpeer).2
    cases hslot : IpBan.slotFor s.slots key addr false (probes key) with
    | none =>
      -- no slot of the address has a ban: the search would have found it
      have hnoban : ∀ i e, s.slots i = some e → s.now < e.bannedUntil → e.addr ≠ addr := by
        rintro i e hi hlive rfl
        have hfind := (h.found i e hi hlive).2
        rw [h.key_eq hi, hkey] at hfind
        rw [slotFor_of_find hfind hi rfl] at hslot
        cases hslot
      have hforget : Held hash { s with banned := Function.update s.banned addr 0 } := by
        refine ⟨h.keyed, h.found, ?_, ?_⟩
        · intro i e hi hlive
          exact (Function.update_of_ne (hnoban i e hi hlive) _ _).trans (h.noted i e hi hlive)
        · intro a hlive
          have hne : a ≠ addr := by
            rintro rfl
            simp at hlive
          simp only [Function.update_of_ne hne] at hlive ⊢
          exact h.kept a hlive
      simpa [step, IpBan.noteSuccess, hpeer, hslot, haddr] using hforget
    | some r =>
      rcases r with ⟨t, i, e⟩
      obtain rfl := slotFor_of_not_insert hslot
      obtain ⟨-, rfl, hfound, -⟩ := h.slotFor hpeer hslot
      have hclear := h.rewrite hfound (f := e.noteSuccess) rfl rfl
        (b := Function.update s.banned e.addr 0)
        (fun a ha => Function.update_of_ne ha _ _)
        (fun _ => by rw [Function.update_self]; rfl)
      simpa [step, IpBan.noteSuccess, hpeer, hslot, haddr] using hclear

/-- What a request of a client does: it evicts the expired ban of its address or nothing. -/
theorem middleware_cases (hash : Bytes → UInt64) (t : Table) (now : ℕ) (peer : Sockaddr) :
    (middleware hash t now peer).1 = t ∨
      ∃ addr key i e, peerKey hash peer = some (addr, key) ∧
        slotFor t key addr false (probes key) = some (t, i, e) ∧ 0 < e.bannedUntil ∧
          e.bannedUntil ≤ now ∧ (middleware hash t now peer).1 = Function.update t i none := by
  cases hpeer : peerKey hash peer with
  | none => simp [middleware, hpeer]
  | some r =>
    rcases r with ⟨addr, key⟩
    cases hslot : slotFor t key addr false (probes key) with
    | none => simp [middleware, hpeer, hslot]
    | some r =>
      rcases r with ⟨t', i, e⟩
      obtain rfl := slotFor_of_not_insert hslot
      by_cases hpos : 0 < e.bannedUntil
      · by_cases hexpired : e.bannedUntil ≤ now
        · refine .inr ⟨addr, key, i, e, rfl, hslot, hpos, hexpired, ?_⟩
          simp [middleware, hpeer, hslot, hpos, hexpired]
        · simp [middleware, hpeer, hslot, hpos, hexpired]
      · simp [middleware, hpeer, hslot, hpos]

theorem held_step (s : State) (a : Action) (h : Held hash s) (hclear : EvictsClear hash s a) :
    Held hash (step hash cfg s a) := by
  cases a with
  | tick seconds => exact h.tick seconds
  | noteFailure peer => exact h.noteFailure peer
  | noteSuccess peer => exact h.noteSuccess peer
  | middleware peer =>
    rcases middleware_cases hash s.slots s.now peer with
      heq | ⟨addr, key, i, e, hpeer, hslot, hpos, hexpired, heq⟩
    · simpa [step, heq] using h
    · have hi : s.slots i = some e := (slotFor_spec hslot).2.2.1
      have hevict := h.evict hi hexpired (hclear addr key _ i e hpeer hslot hpos hexpired)
      simpa [step, heq] using hevict

/-- After an eviction on the way to a ban the banned address gets through. -/
theorem evictsClear_of_bansHold (s : State) (a : Action) (h : Held hash s)
    (hgood : BansHold hash (step hash cfg s a)) : EvictsClear hash s a := by
  cases a with
  | tick seconds => trivial
  | noteFailure peer => trivial
  | noteSuccess peer => trivial
  | middleware peer =>
    intro addr key t i e hpeer hslot hpos hexpired j f hj hlive hmem
    obtain rfl := slotFor_of_not_insert hslot
    have hi : s.slots i = some e := (slotFor_spec hslot).2.2.1
    have hij : i ≠ j := by
      rintro rfl
      obtain rfl : e = f := by simpa [hi] using hj
      omega
    have hcut : find (Function.update s.slots i none) (Slot.hasKey f.key) (probes f.key) = none := by
      rw [find_clear_of_ne (h.found j f hj hlive).2 hij]
      exact if_pos hmem
    have hstep : step hash cfg s (.middleware peer) =
        { s with slots := Function.update s.slots i none } := by
      simp [step, middleware, hpeer, hslot, hpos, hexpired]
    rw [hstep] at hgood
    rcases h.keyed j f hj with ⟨peer', hpeer'⟩
    have hbanned : s.now < s.banned f.addr := by rw [h.noted j f hj hlive]; exact hlive
    have hanswer := hgood peer' f.addr (peerKey_eq_some_iff.1 hpeer').1 hbanned
    simp [middleware, hpeer', slotFor_eq_none hcut] at hanswer

end

/-- A ban lasts in exactly the runs in which no eviction empties a slot on the way to
the slot of a ban that has not run out. -/
theorem bans_hold_iff (hash : Bytes → UInt64) (cfg : Config) (now : ℕ) (as : List Action) :
    (∀ s, Reaches (step hash cfg) (start now) as s → BansHold hash s) ↔
      AllSteps (step hash cfg) (EvictsClear hash) (start now) as :=
  (allSteps_iff_forall_reaches_of_strong (fun s a h hok => held_step s a h hok)
    (fun _ h => h.bansHold) (fun s a h hgood => evictsClear_of_bansHold s a h hgood)
    (held_start now) as).symm

/-! ## Two addresses of one probe sequence -/

def first : Sockaddr := .inet #v[192, 0, 2, 9]

def second : Sockaddr := .inet #v[198, 51, 100, 250]

/-- Both are banned, the second a second later; the ban of the first runs out and its
next request evicts it. -/
def collidingRun : List Action :=
  List.replicate 5 (.noteFailure first) ++ [.tick 1] ++ List.replicate 5 (.noteFailure second) ++
    [.tick 3599, .middleware first]

/-- The second address is let through a second before its ban ends. -/
theorem eviction_lifts_ban :
    AllSteps (step fnv1a .fallback) (Unsaturated fnv1a) (start 1000) collidingRun ∧
      ¬ ∀ s, Reaches (step fnv1a .fallback) (start 1000) collidingRun s → BansHold fnv1a s := by
  refine ⟨by decide +kernel, ?_⟩
  intro h
  have hlast := h _ (reaches_run _ _) second [52, 198, 51, 100, 250] (by decide) (by decide +kernel)
  revert hlast
  decide +kernel

end FlyBoard.IpBan

import FlyBoard.Lib.Bytes
import FlyBoard.Lib.Run
import FlyBoard.Lib.SlotTable

/-!
# Who reads and who types (`src/realtime/realtime.c`)

One table of 2048 slots holds the presence and typing leases of all sessions. A slot whose
leases have run out counts as free, but it keeps its post and its session: a call that is
given such a slot writes its lease under the old name. The reference is a map from post and
session to leases of their own.
-/

namespace FlyBoard.Presence

open Bytes Run SlotTable

/-! ## The table -/

def realtimeSlots : ℕ := 2048

def sessionHexLen : ℕ := 32

/-- `REALTIME_PRESENCE_LEASE_MS` -/
def presenceLease : ℕ := 45000

/-- `REALTIME_TYPING_LEASE_MS` -/
def typingLease : ℕ := 5000

/-- `REALTIME_TYPING_MIN_INTERVAL_MS` -/
def typingMinInterval : ℕ := 2500

inductive Result
  | ok
  | invalid
  | rateLimited
  | full
deriving DecidableEq

structure Viewer where
  postId : Int32
  session : Bytes
deriving DecidableEq

/-- The leases of a viewer, in milliseconds of a clock that counts from 0 up. -/
structure Leases where
  presenceExpires : ℕ
  typingExpires : ℕ
  lastTyping : ℕ
deriving DecidableEq

/-- `realtime_entry_t` -/
structure Entry where
  viewer : Viewer
  leases : Leases
deriving DecidableEq

def Leases.zero : Leases := ⟨0, 0, 0⟩

/-- What `memset` leaves of an entry. -/
def Entry.zero : Entry := ⟨⟨0, []⟩, .zero⟩

abbrev Table := Fin realtimeSlots → Entry

def isXdigit (c : UInt8) : Bool := isDigit c || (65 ≤ c && c ≤ 70) || (97 ≤ c && c ≤ 102)

/-- `realtime_session_valid` -/
def sessionValid (session : Bytes) : Bool :=
  session.length == sessionHexLen && session.all isXdigit

def Viewer.valid (v : Viewer) : Bool := decide (0 < v.postId) && sessionValid v.session

/-- `slot_for` -/
def slotFor (v : Viewer) : ℕ :=
  ((v.session.take sessionHexLen).foldl (fun (hash : UInt32) c => (hash ^^^ c.toUInt32) * 16777619)
    (v.postId.toUInt32 * 2166136261)).toNat % realtimeSlots

@[irreducible] def probes (v : Viewer) : List (Fin realtimeSlots) :=
  (List.finRange realtimeSlots).map fun n : Fin realtimeSlots =>
    ⟨(slotFor v + n) % realtimeSlots, Nat.mod_lt _ (by decide)⟩

def Entry.free (now : ℕ) (e : Entry) : Bool :=
  e.viewer.postId == 0 || (e.leases.presenceExpires ≤ now && e.leases.typingExpires ≤ now)

/-- `lookup_locked` -/
def lookupLocked (t : Table) (v : Viewer) (now : ℕ) (create : Bool) :
    Option (Fin realtimeSlots) :=
  lookup t (fun e => e.viewer == v) (Entry.free now) create (probes v) none

/-- The entry that a call writes: the viewer is put down only in an empty one. -/
def Entry.claimed (e : Entry) (v : Viewer) : Entry :=
  if e.viewer.postId = 0 then { e with viewer := v } else e

/-- `realtime_presence_at` -/
def presenceAt (t : Table) (v : Viewer) (active : Bool) (now : ℕ) : Result × Table :=
  if v.valid = false then (.invalid, t)
  else
    match lookupLocked t v now active with
    | none => (if active then .full else .ok, t)
    | some i =>
      let e := (t i).claimed v
      let e' :=
        if active then
          { e with leases := { e.leases with presenceExpires := now + presenceLease } }
        else .zero
      (.ok, Function.update t i e')

/-- `typing_locked` -/
def typingLocked (t : Table) (v : Viewer) (active : Bool) (now : ℕ) (rateLimit : Bool) :
    Result × Table :=
  match lookupLocked t v now active with
  | none => (if active then .full else .ok, t)
  | some i =>
    let e := t i
    if active && rateLimit && decide (0 < e.leases.lastTyping) &&
        decide (now < e.leases.lastTyping + typingMinInterval) then (.rateLimited, t)
    else if active then
      let e := e.claimed v
      (.ok, Function.update t i { e with
        leases := { e.leases with lastTyping := now, typingExpires := now + typingLease } })
    else
      let e := { e with leases := { e.leases with typingExpires := 0, lastTyping := 0 } }
      (.ok, Function.update t i (if e.leases.presenceExpires ≤ now then .zero else e))

/-- `realtime_typing_at` -/
def typingAt (t : Table) (v : Viewer) (active : Bool) (now : ℕ) : Result × Table :=
  if v.valid = false then (.invalid, t) else typingLocked t v active now true

/-- `realtime_typing_event_at`; its result is dropped. -/
def typingEventAt (t : Table) (v : Viewer) (active : Bool) (now : ℕ) : Result × Table :=
  if v.valid = false then (.invalid, t) else typingLocked t v active now false

/-- `count_at` -/
def countAt (t : Table) (postId : Int32) (excludeSession : Option Bytes) (now : ℕ)
    (typing : Bool) : ℕ :=
  (List.finRange realtimeSlots).countP fun i =>
    let e := t i
    e.viewer.postId == postId && excludeSession != some e.viewer.session &&
      decide (now < if typing then e.leases.typingExpires else e.leases.presenceExpires)

/-- `realtime_viewer_count_at` -/
def viewerCountAt (t : Table) (postId : Int32) (now : ℕ) : ℕ := countAt t postId none now false

/-- `realtime_typing_count_at` -/
def typingCountAt (t : Table) (postId : Int32) (excludeSession : Option Bytes) (now : ℕ) : ℕ :=
  countAt t postId excludeSession now true

/-! ## The reference -/

abbrev Reference := Viewer → Leases

inductive Call
  | presence (v : Viewer) (active : Bool) (now : ℕ)
  | typing (v : Viewer) (active : Bool) (now : ℕ)
  | typingEvent (v : Viewer) (active : Bool) (now : ℕ)
deriving DecidableEq

def Call.viewer : Call → Viewer
  | presence v _ _ | typing v _ _ | typingEvent v _ _ => v

def Call.active : Call → Bool
  | presence _ active _ | typing _ active _ | typingEvent _ active _ => active

def Call.now : Call → ℕ
  | presence _ _ now | typing _ _ now | typingEvent _ _ now => now

def Call.isTyping : Call → Bool
  | presence _ _ _ => false
  | typing _ active _ | typingEvent _ active _ => active

def Leases.justTyped (l : Leases) (now : ℕ) : Bool :=
  decide (0 < l.lastTyping) && decide (now < l.lastTyping + typingMinInterval)

/-- What a call does to the leases of its viewer: who leaves has neither of them. -/
def Call.renew (c : Call) (l : Leases) : Leases :=
  match c with
  | presence _ active now =>
    if active then { l with presenceExpires := now + presenceLease } else .zero
  | typing _ active now =>
    if active && l.justTyped now then l
    else if active then { l with lastTyping := now, typingExpires := now + typingLease }
    else { l with typingExpires := 0, lastTyping := 0 }
  | typingEvent _ active now =>
    if active then { l with lastTyping := now, typingExpires := now + typingLease }
    else { l with typingExpires := 0, lastTyping := 0 }

def Reference.call (r : Reference) (c : Call) : Reference :=
  if c.viewer.valid then Function.update r c.viewer (c.renew (r c.viewer)) else r

def Reference.viewers (r : Reference) (postId : Int32) (now : ℕ) : Set Bytes :=
  {session | now < (r ⟨postId, session⟩).presenceExpires}

def Reference.typists (r : Reference) (postId : Int32) (excludeSession : Option Bytes)
    (now : ℕ) : Set Bytes :=
  {session | excludeSession ≠ some session ∧ now < (r ⟨postId, session⟩).typingExpires}

/-! ## Runs -/

/-- The table, the reference, the time of the last call, and the calls so far, the last one
first. -/
structure State where
  table : Table
  reference : Reference
  clock : ℕ
  calls : List Call

def start : State := ⟨fun _ => .zero, fun _ => .zero, 0, []⟩

def Call.exec (t : Table) : Call → Result × Table
  | presence v active now => presenceAt t v active now
  | typing v active now => typingAt t v active now
  | typingEvent v active now => typingEventAt t v active now

def step (s : State) (c : Call) : State :=
  ⟨(c.exec s.table).2, s.reference.call c, c.now, c :: s.calls⟩

/-- The counts are those of the reference, and a call is rate limited only because its own
viewer has typed. -/
structure Faithful (s : State) : Prop where
  viewers : ∀ postId now, s.clock ≤ now →
    viewerCountAt s.table postId now = (s.reference.viewers postId now).ncard
  typists : ∀ postId excludeSession now, s.clock ≤ now →
    typingCountAt s.table postId excludeSession now =
      (s.reference.typists postId excludeSession now).ncard
  limited : ∀ c : Call, s.clock ≤ c.now → (c.exec s.table).1 = .rateLimited →
    ∃ c' ∈ s.calls, c'.isTyping = true ∧ c'.viewer = c.viewer ∧
      c.now < c'.now + typingMinInterval

def InTime (s : State) (c : Call) : Prop := s.clock ≤ c.now ∧ (c.exec s.table).1 ≠ .full

/-- The call is not given a slot that still has the name of another viewer. -/
def NotLeftOver (s : State) (c : Call) : Prop :=
  ∀ i, lookupLocked s.table c.viewer c.now c.active = some i →
    (s.table i).viewer = c.viewer ∨ (s.table i).viewer.postId = 0

instance (s : State) (c : Call) : Decidable (InTime s c) := instDecidableAnd

/-! ## Slots -/

variable {t : Table} {v : Viewer} {i j : Fin realtimeSlots} {r : Reference} {clock now : ℕ}
  {create : Bool} {c : Call} {l l' : Leases} {calls : List Call} {n : ℕ} {s : State}

theorem mem_probes (v : Viewer) (i : Fin realtimeSlots) : i ∈ probes v := by
  have hi := i.isLt
  have hslot : slotFor v < realtimeSlots := Nat.mod_lt _ (by decide)
  have hback : (slotFor v + (i + realtimeSlots - slotFor v) % realtimeSlots) % realtimeSlots =
      i := by
    rw [Nat.add_mod_mod, Nat.add_sub_cancel' (by omega), Nat.add_mod_right, Nat.mod_eq_of_lt hi]
  obtain ⟨n, hn⟩ : ∃ n : Fin realtimeSlots,
      n.val = (i + realtimeSlots - slotFor v) % realtimeSlots :=
    ⟨⟨_, Nat.mod_lt _ (by decide)⟩, rfl⟩
  rw [← hn] at hback
  unfold probes
  exact List.mem_map.mpr ⟨n, List.mem_finRange n, Fin.ext hback⟩

theorem Viewer.ne_zero_of_valid (h : v.valid = true) : v.postId ≠ 0 := by
  intro hzero
  rw [valid, hzero] at h
  exact absurd h (by simp)

theorem lookupLocked_own (hi : (t i).viewer = v) (honly : ∀ j, (t j).viewer = v → j = i) :
    lookupLocked t v now create = some i :=
  lookup_of_own (mem_probes v i) (beq_iff_eq.mpr hi) fun j _ hj => honly j (beq_iff_eq.mp hj)

/-- Any other one is given the first free slot, if the call needs an entry. -/
theorem lookupLocked_new (h : ∀ i, (t i).viewer ≠ v) :
    lookupLocked t v now create =
      if create then (probes v).find? fun i => (t i).free now else none :=
  lookup_of_not_own fun j _ => beq_eq_false_iff_ne.mpr (h j)

/-! ## What a call does to its slot -/

def Agree (clock : ℕ) (l l' : Leases) : Prop :=
  l.typingExpires = l'.typingExpires ∧ l.lastTyping = l'.lastTyping ∧
    (l.presenceExpires = l'.presenceExpires ∨
      l.presenceExpires ≤ clock ∧ l'.presenceExpires ≤ clock)

theorem Agree.refl (clock : ℕ) (l : Leases) : Agree clock l l := ⟨rfl, rfl, .inl rfl⟩

theorem Agree.trans {l l' l'' : Leases} (h : Agree clock l l') (h' : Agree clock l' l'') :
    Agree clock l l'' := by
  rcases h with ⟨htyping, hlast, hpresence⟩
  rcases h' with ⟨htyping', hlast', hpresence'⟩
  refine ⟨htyping.trans htyping', hlast.trans hlast', ?_⟩
  omega

theorem Agree.mono (h : Agree clock l l') (hle : clock ≤ now) :
    Agree now l l' := by
  rcases h with ⟨htyping, hlast, hpresence⟩
  refine ⟨htyping, hlast, ?_⟩
  omega

theorem Agree.justTyped_eq (h : Agree clock l l') :
    l.justTyped now = l'.justTyped now := by
  rw [Leases.justTyped, Leases.justTyped, h.2.1]

theorem Agree.renew (h : Agree clock l l') (hle : clock ≤ c.now) :
    Agree c.now (c.renew l) (c.renew l') := by
  have hlater := h.mono hle
  rcases hlater with ⟨htyping, hlast, hpresence⟩
  cases c with
  | presence v active now =>
    cases active with
    | true => exact ⟨htyping, hlast, .inl rfl⟩
    | false => exact .refl _ _
  | typing v active now =>
    cases active with
    | true =>
      simp only [Call.renew, Bool.true_and, h.justTyped_eq, if_true]
      split
      · exact ⟨htyping, hlast, hpresence⟩
      · exact ⟨rfl, rfl, hpresence⟩
    | false => exact ⟨rfl, rfl, hpresence⟩
  | typingEvent v active now =>
    cases active with
    | true => exact ⟨rfl, rfl, hpresence⟩
    | false => exact ⟨rfl, rfl, hpresence⟩

def Usable (t : Table) (v : Viewer) (i : Fin realtimeSlots) : Prop :=
  (t i).viewer = v ∨ t i = .zero

theorem Usable.claimed (h : Usable t v i) (hv : v.postId ≠ 0) :
    (t i).claimed v = ⟨v, (t i).leases⟩ := by
  unfold Entry.claimed
  rcases h with hown | hzero
  · rw [hown, if_neg hv, ← hown]
  · rw [hzero]
    rfl

/-- The slot keeps these leases under the viewer's name, or nothing, where nothing of them
is left. -/
def Stored (t t' : Table) (v : Viewer) (i : Fin realtimeSlots) (l : Leases) (now : ℕ) : Prop :=
  ∃ e, t' = Function.update t i e ∧ (e = ⟨v, l⟩ ∨ e = .zero ∧ Agree now .zero l)

theorem presenceAt_some {active : Bool} (hvalid : v.valid = true)
    (hfound : lookupLocked t v now active = some i) (hi : Usable t v i) :
    Stored t (presenceAt t v active now).2 v i ((Call.presence v active now).renew (t i).leases)
      now := by
  have hclaimed := hi.claimed (Viewer.ne_zero_of_valid hvalid)
  unfold presenceAt
  rw [hvalid, if_neg (by decide), hfound]
  refine ⟨_, rfl, ?_⟩
  cases active with
  | true =>
    left
    dsimp only
    rw [hclaimed]
    rfl
  | false => exact .inr ⟨rfl, .refl _ _⟩

theorem typingLocked_some (rateLimit : Bool) {active : Bool} (hne : v.postId ≠ 0)
    (hfound : lookupLocked t v now active = some i) (hi : Usable t v i) :
    Stored t (typingLocked t v active now rateLimit).2 v i
      (if active && rateLimit && (t i).leases.justTyped now then (t i).leases
        else (Call.typingEvent v active now).renew (t i).leases) now := by
  have hclaimed := hi.claimed hne
  unfold typingLocked
  rw [hfound]
  dsimp only
  rw [Bool.and_assoc (active && rateLimit), ← Leases.justTyped]
  split
  · next hlimited =>
    refine ⟨t i, (Function.update_eq_self i t).symm, .inl ?_⟩
    rcases hi with hown | hzero
    · rw [← hown]
    · rw [hzero] at hlimited
      exact absurd hlimited (by simp [Leases.justTyped, Entry.zero, Leases.zero])
  · cases active with
    | true =>
      refine ⟨_, rfl, .inl ?_⟩
      rw [hclaimed]
      rfl
    | false =>
      refine ⟨_, rfl, ?_⟩
      split
      · next hexpired => exact .inr ⟨rfl, rfl, rfl, .inr ⟨Nat.zero_le _, hexpired⟩⟩
      · rcases hi with hown | hzero
        · rw [← hown]
          exact .inl rfl
        · next hlasting =>
          rw [hzero] at hlasting
          exact absurd (Nat.zero_le _) hlasting

theorem exec_some (hvalid : c.viewer.valid = true)
    (hfound : lookupLocked t c.viewer c.now c.active = some i) (hi : Usable t c.viewer i) :
    Stored t (c.exec t).2 c.viewer i (c.renew (t i).leases) c.now := by
  have hne := Viewer.ne_zero_of_valid hvalid
  cases c with
  | presence v active now => exact presenceAt_some hvalid hfound hi
  | typing v active now =>
    have hstored := typingLocked_some true hne hfound hi
    have hvalid' : v.valid = true := hvalid
    unfold Call.exec
    dsimp only
    unfold typingAt
    rw [hvalid', if_neg (by decide)]
    rw [Bool.and_true] at hstored
    have hrenew : (Call.typing v active now).renew (t i).leases =
        if active && (t i).leases.justTyped now then (t i).leases
        else (Call.typingEvent v active now).renew (t i).leases := rfl
    rw [hrenew]
    exact hstored
  | typingEvent v active now =>
    have hstored := typingLocked_some false hne hfound hi
    have hvalid' : v.valid = true := hvalid
    unfold Call.exec
    dsimp only
    unfold typingEventAt
    rw [hvalid', if_neg (by decide)]
    rw [Bool.and_false, Bool.false_and] at hstored
    exact hstored

/-! ## The table and the reference -/

/-- Every entry is the one of its viewer and has the viewer's leases; who has no entry has
no lease. -/
structure Refines (t : Table) (r : Reference) (clock : ℕ) : Prop where
  empty : ∀ i, (t i).viewer.postId = 0 → t i = .zero
  unique : ∀ i j, (t i).viewer.postId ≠ 0 → (t i).viewer = (t j).viewer → i = j
  entries : ∀ i, (t i).viewer.postId ≠ 0 → Agree clock (t i).leases (r (t i).viewer)
  missing : ∀ v, (∀ i, v.postId ≠ 0 → (t i).viewer ≠ v) → Agree clock .zero (r v)

theorem refines_start : Refines start.table start.reference start.clock where
  empty _ _ := rfl
  unique _ _ h := absurd rfl h
  entries _ h := absurd rfl h
  missing _ _ := .refl _ _

theorem Refines.mono (h : Refines t r clock) (hle : clock ≤ now) : Refines t r now where
  empty := h.empty
  unique := h.unique
  entries i hi := (h.entries i hi).mono hle
  missing v hv := (h.missing v hv).mono hle

theorem Refines.agree (h : Refines t r clock) (hv : v.postId ≠ 0) (hi : Usable t v i)
    (honly : ∀ j, (t j).viewer = v → j = i) : Agree clock (t i).leases (r v) := by
  rcases hi with hown | hzero
  · rw [← hown] at hv ⊢
    exact h.entries i hv
  · rw [hzero]
    refine h.missing v ?_
    rintro j - hj
    rw [honly j hj, hzero] at hj
    exact hv (congrArg Viewer.postId hj).symm

theorem Refines.stored (h : Refines t r clock) (hv : v.postId ≠ 0) (hi : Usable t v i)
    (honly : ∀ j, (t j).viewer = v → j = i) {t' : Table}
    (ht : Stored t t' v i l now) (hle : clock ≤ now) (hl : Agree now l l') :
    Refines t' (Function.update r v l') now := by
  rcases ht with ⟨e, rfl, he⟩
  -- the new entry is the viewer's, or there is none
  have hviewer : e.viewer.postId ≠ 0 → e.viewer = v := by
    rcases he with rfl | ⟨rfl, -⟩
    · exact fun _ => rfl
    · exact fun h => absurd rfl h
  have hother : ∀ j, j ≠ i → (t j).viewer ≠ v := fun j hj hjv => hj (honly j hjv)
  constructor
  case empty =>
    intro j hj
    rcases eq_or_ne j i with rfl | hne
    · rw [Function.update_self] at hj ⊢
      rcases he with rfl | ⟨rfl, -⟩
      · exact absurd hj hv
      · rfl
    · rw [Function.update_of_ne hne] at hj ⊢
      exact h.empty j hj
  case unique =>
    intro j k hj hjk
    rcases eq_or_ne j i with rfl | hji
    · rcases eq_or_ne k j with rfl | hkj
      · rfl
      · rw [Function.update_self] at hj hjk
        rw [Function.update_of_ne hkj, hviewer hj] at hjk
        exact absurd hjk.symm (hother k hkj)
    · rw [Function.update_of_ne hji] at hj hjk
      rcases eq_or_ne k i with rfl | hki
      · rw [Function.update_self] at hjk
        rw [hjk] at hj
        exact absurd (hjk.trans (hviewer hj)) (hother j hji)
      · rw [Function.update_of_ne hki] at hjk
        exact h.unique j k hj hjk
  case entries =>
    intro j hj
    rcases eq_or_ne j i with rfl | hne
    · rw [Function.update_self] at hj ⊢
      rw [hviewer hj, Function.update_self]
      rcases he with rfl | ⟨rfl, -⟩
      · exact hl
      · exact absurd rfl hj
    · rw [Function.update_of_ne hne] at hj ⊢
      rw [Function.update_of_ne (hother j hne)]
      exact (h.entries j hj).mono hle
  case missing =>
    intro w hw
    rcases eq_or_ne w v with rfl | hne
    · rw [Function.update_self]
      have hnew := hw i hv
      rw [Function.update_self] at hnew
      rcases he with rfl | ⟨-, hzero⟩
      · exact absurd rfl hnew
      · exact hzero.trans hl
    · rw [Function.update_of_ne hne]
      refine (h.missing w ?_).mono hle
      intro j hj hjw
      rcases eq_or_ne j i with rfl | hji
      · rcases hi with hown | hzero
        · exact hne (hjw.symm.trans hown)
        · rw [hzero] at hjw
          exact hj (congrArg Viewer.postId hjw).symm
      · have hkept := hw j hj
        rw [Function.update_of_ne hji] at hkept
        exact hkept hjw

theorem exec_invalid (h : c.viewer.valid = false) : c.exec t = (.invalid, t) := by
  cases c with
  | presence v active now => exact if_pos h
  | typing v active now => exact if_pos h
  | typingEvent v active now => exact if_pos h

theorem exec_none (hvalid : c.viewer.valid = true)
    (hnone : lookupLocked t c.viewer c.now c.active = none) :
    c.exec t = (if c.active then .full else .ok, t) := by
  have hnot : ¬ c.viewer.valid = false := by
    rw [hvalid]
    decide
  cases c with
  | presence v active now =>
    change lookupLocked t v now active = none at hnone
    refine (if_neg hnot).trans ?_
    rw [hnone]
    rfl
  | typing v active now =>
    change lookupLocked t v now active = none at hnone
    refine (if_neg hnot).trans ?_
    unfold typingLocked
    rw [hnone]
    rfl
  | typingEvent v active now =>
    change lookupLocked t v now active = none at hnone
    refine (if_neg hnot).trans ?_
    unfold typingLocked
    rw [hnone]
    rfl

theorem renew_inactive_zero (h : c.active = false) : c.renew .zero = .zero := by
  cases c with
  | presence v active now =>
    change active = false at h
    subst h
    rfl
  | typing v active now =>
    change active = false at h
    subst h
    rfl
  | typingEvent v active now =>
    change active = false at h
    subst h
    rfl

/-- The step lemma: a call that is not given a left-over slot does to the table what the
reference does to the leases. -/
theorem Refines.exec (h : Refines t r clock) (hle : clock ≤ c.now)
    (hfull : (c.exec t).1 ≠ .full)
    (hslot : ∀ i, lookupLocked t c.viewer c.now c.active = some i →
      (t i).viewer = c.viewer ∨ (t i).viewer.postId = 0) :
    Refines (c.exec t).2 (r.call c) c.now := by
  unfold Reference.call
  cases hvalid : c.viewer.valid with
  | false =>
    rw [exec_invalid hvalid, if_neg Bool.false_ne_true]
    exact h.mono hle
  | true =>
    rw [if_pos rfl]
    have hne := Viewer.ne_zero_of_valid hvalid
    cases hfound : lookupLocked t c.viewer c.now c.active with
    | some i =>
      have hi : Usable t c.viewer i := (hslot i hfound).imp_right (h.empty i)
      have honly : ∀ j, (t j).viewer = c.viewer → j = i := by
        intro j hj
        -- a viewer with an entry is given that one
        have hown : lookupLocked t c.viewer c.now c.active = some j := by
          refine lookupLocked_own hj ?_
          intro k hk
          exact (h.unique j k (hj ▸ hne) (hj.trans hk.symm)).symm
        exact Option.some.inj (hown.symm.trans hfound)
      exact h.stored hne hi honly (exec_some hvalid hfound hi) hle
        ((h.agree hne hi honly).renew hle)
    | none =>
      have hexec := exec_none hvalid hfound
      have hactive : c.active = false := by
        cases hactive : c.active with
        | false => rfl
        | true =>
          rw [hexec, hactive] at hfull
          exact absurd rfl hfull
      have hmissing : ∀ i, (t i).viewer ≠ c.viewer := by
        intro i hi
        have hown : lookupLocked t c.viewer c.now c.active = some i := by
          refine lookupLocked_own hi ?_
          intro k hk
          exact (h.unique i k (hi ▸ hne) (hi.trans hk.symm)).symm
        exact nomatch hown.symm.trans hfound
      have hzero := (h.missing c.viewer fun i _ => hmissing i).renew hle
      rw [renew_inactive_zero hactive] at hzero
      rw [hexec]
      have hlater := h.mono hle
      refine ⟨hlater.empty, hlater.unique, ?_, ?_⟩
      · intro i hi
        rw [Function.update_of_ne (hmissing i)]
        exact hlater.entries i hi
      · intro v hv
        rcases eq_or_ne v c.viewer with rfl | hother
        · rw [Function.update_self]
          exact hzero
        · rw [Function.update_of_ne hother]
          exact hlater.missing v hv

/-! ## Counts -/

theorem Refines.count (h : Refines t r clock) (now : ℕ) (postId : Int32)
    (excludeSession : Option Bytes) (lease : Leases → ℕ) {p : Fin realtimeSlots → Bool}
    {sessions : Set Bytes}
    (hlease : ∀ l l', Agree clock l l' → (now < lease l ↔ now < lease l'))
    (hzero : lease .zero = 0)
    (hp : ∀ i, p i = true ↔ (t i).viewer.postId = postId ∧
      excludeSession ≠ some (t i).viewer.session ∧ now < lease (t i).leases)
    (hs : ∀ session, session ∈ sessions ↔
      excludeSession ≠ some session ∧ now < lease (r ⟨postId, session⟩)) :
    (List.finRange realtimeSlots).countP p = sessions.ncard := by
  -- an entry with a lease is not an empty one
  have hused : ∀ i, now < lease (t i).leases → (t i).viewer.postId ≠ 0 := by
    intro i hi hempty
    rw [h.empty i hempty] at hi
    exact absurd (hzero ▸ hi) (Nat.not_lt_zero _)
  refine countP_eq_ncard (fun i => (t i).viewer.session) ?_ ?_
  · intro i j hi hj hsession
    rcases (hp i).mp hi with ⟨hpost, -, hlasting⟩
    rcases (hp j).mp hj with ⟨hpost', -, -⟩
    refine h.unique i j (hused i hlasting) ?_
    have hposts : (t i).viewer.postId = (t j).viewer.postId := hpost.trans hpost'.symm
    cases hvi : (t i).viewer
    cases hvj : (t j).viewer
    rw [hvi, hvj] at hposts hsession
    exact congrArg₂ Viewer.mk hposts hsession
  · intro session
    rw [hs]
    constructor
    · rintro ⟨hexclude, hlasting⟩
      -- a viewer with a lease has an entry
      have hentry : ∃ i, (t i).viewer.postId ≠ 0 ∧ (t i).viewer = ⟨postId, session⟩ := by
        by_contra hnone
        push Not at hnone
        have hagree := h.missing ⟨postId, session⟩ fun i hi hv => hnone i (hv ▸ hi) hv
        have hnot := (hlease _ _ hagree).mpr hlasting
        rw [hzero] at hnot
        exact absurd hnot (Nat.not_lt_zero _)
      rcases hentry with ⟨i, hne, hi⟩
      have hagree := h.entries i hne
      rw [hi] at hagree
      refine ⟨i, (hp i).mpr ⟨by rw [hi], by rwa [hi], (hlease _ _ hagree).mpr hlasting⟩, ?_⟩
      rw [hi]
    · rintro ⟨i, hi, rfl⟩
      rcases (hp i).mp hi with ⟨rfl, hexclude, hlasting⟩
      have hagree := h.entries i (hused i hlasting)
      exact ⟨hexclude, (hlease _ _ hagree).mp hlasting⟩

theorem Refines.viewerCountAt_eq (h : Refines t r clock) (hle : clock ≤ now) (postId : Int32) :
    viewerCountAt t postId now = (r.viewers postId now).ncard := by
  unfold viewerCountAt countAt
  refine h.count now postId none Leases.presenceExpires ?_ rfl ?_ ?_
  · rintro l l' ⟨-, -, hpresence⟩
    omega
  · intro i
    simp
  · intro session
    simp [Reference.viewers]

theorem Refines.typingCountAt_eq (h : Refines t r clock) (postId : Int32)
    (excludeSession : Option Bytes) (now : ℕ) :
    typingCountAt t postId excludeSession now = (r.typists postId excludeSession now).ncard := by
  unfold typingCountAt countAt
  refine h.count now postId excludeSession Leases.typingExpires ?_ rfl ?_ ?_
  · rintro l l' ⟨htyping, -⟩
    rw [htyping]
  · intro i
    simp [and_assoc]
  · intro session
    exact Iff.rfl

/-! ## Rate limits -/

/-- The last time of typing is that of a call, and the typing lease runs from it. -/
structure Typed (r : Reference) (calls : List Call) : Prop where
  typed : ∀ v, (r v).lastTyping ≠ 0 →
    ∃ c ∈ calls, c.isTyping = true ∧ c.viewer = v ∧ c.now = (r v).lastTyping
  leased : ∀ v, (r v).lastTyping = 0 ∨ (r v).typingExpires = (r v).lastTyping + typingLease

theorem typed_start : Typed start.reference start.calls where
  typed _ h := absurd rfl h
  leased _ := .inl rfl

/-- The leases after a call are those of before, gone, or those of someone who types now. -/
theorem renew_cases (c : Call) (l : Leases) :
    ((c.renew l).lastTyping = l.lastTyping ∧ (c.renew l).typingExpires = l.typingExpires) ∨
      (c.renew l).lastTyping = 0 ∨
      c.isTyping = true ∧ (c.renew l).lastTyping = c.now ∧
        (c.renew l).typingExpires = c.now + typingLease := by
  cases c with
  | presence v active now =>
    cases active with
    | true => exact .inl ⟨rfl, rfl⟩
    | false => exact .inr (.inl rfl)
  | typing v active now =>
    cases active with
    | true =>
      simp only [Call.renew, Bool.true_and, if_true]
      split
      · exact .inl ⟨rfl, rfl⟩
      · exact .inr (.inr ⟨rfl, rfl, rfl⟩)
    | false => exact .inr (.inl rfl)
  | typingEvent v active now =>
    cases active with
    | true => exact .inr (.inr ⟨rfl, rfl, rfl⟩)
    | false => exact .inr (.inl rfl)

theorem Typed.call (h : Typed r calls) (c : Call) :
    Typed (r.call c) (c :: calls) := by
  have hold : ∀ v, (r v).lastTyping ≠ 0 →
      ∃ c' ∈ c :: calls, c'.isTyping = true ∧ c'.viewer = v ∧ c'.now = (r v).lastTyping := by
    intro v hv
    rcases h.typed v hv with ⟨c', hmem, hc'⟩
    exact ⟨c', List.mem_cons_of_mem _ hmem, hc'⟩
  unfold Reference.call
  split
  · constructor
    case typed =>
      intro v hv
      rcases eq_or_ne v c.viewer with rfl | hne
      · rw [Function.update_self] at hv ⊢
        rcases renew_cases c (r c.viewer) with ⟨hlast, -⟩ | hgone | ⟨htyping, hlast, -⟩
        · rw [hlast] at hv ⊢
          exact hold _ hv
        · exact absurd hgone hv
        · exact ⟨c, List.mem_cons_self, htyping, rfl, hlast.symm⟩
      · rw [Function.update_of_ne hne] at hv ⊢
        exact hold v hv
    case leased =>
      intro v
      rcases eq_or_ne v c.viewer with rfl | hne
      · rw [Function.update_self]
        rcases renew_cases c (r c.viewer) with ⟨hlast, hlease⟩ | hgone | ⟨-, hlast, hlease⟩
        · rw [hlast, hlease]
          exact h.leased _
        · exact .inl hgone
        · right
          rw [hlast, hlease]
      · rw [Function.update_of_ne hne]
        exact h.leased v
  · exact ⟨hold, h.leased⟩

/-- Only a call that says that its viewer types is rate limited, and only by the entry that
it is given. -/
theorem exec_rateLimited (h : (c.exec t).1 = .rateLimited) :
    ∃ i, lookupLocked t c.viewer c.now c.active = some i ∧
      (t i).leases.justTyped c.now = true := by
  have hlocked : ∀ v active now rateLimit,
      (typingLocked t v active now rateLimit).1 = .rateLimited →
      ∃ i, lookupLocked t v now active = some i ∧ (t i).leases.justTyped now = true := by
    intro v active now rateLimit hlimited
    unfold typingLocked at hlimited
    cases hfound : lookupLocked t v now active with
    | none =>
      rw [hfound] at hlimited
      cases active <;> exact nomatch hlimited
    | some i =>
      rw [hfound] at hlimited
      dsimp only at hlimited
      rw [Bool.and_assoc (active && rateLimit), ← Leases.justTyped] at hlimited
      split at hlimited
      · next hjust => exact ⟨i, rfl, (Bool.and_eq_true_iff.mp hjust).2⟩
      · split at hlimited <;> exact nomatch hlimited
  cases hvalid : c.viewer.valid with
  | false =>
    rw [exec_invalid hvalid] at h
    exact nomatch h
  | true =>
    have hnot : ¬ c.viewer.valid = false := by
      rw [hvalid]
      decide
    cases c with
    | presence v active now =>
      have hnot' : ¬ v.valid = false := hnot
      unfold Call.exec at h
      dsimp only at h
      unfold presenceAt at h
      rw [if_neg hnot'] at h
      split at h
      · cases active <;> exact nomatch h
      · exact nomatch h
    | typing v active now =>
      exact hlocked v active now true ((congrArg Prod.fst (if_neg hnot)).symm.trans h)
    | typingEvent v active now =>
      exact hlocked v active now false ((congrArg Prod.fst (if_neg hnot)).symm.trans h)

/-- An entry whose leases have run out holds nobody off: the lease of typing is longer than
the interval. -/
theorem Refines.limited (h : Refines t r clock) (htyped : Typed r calls)
    (hlimited : (c.exec t).1 = .rateLimited) :
    ∃ c' ∈ calls, c'.isTyping = true ∧ c'.viewer = c.viewer ∧
      c.now < c'.now + typingMinInterval := by
  rcases exec_rateLimited hlimited with ⟨i, hfound, hjust⟩
  rw [Leases.justTyped, Bool.and_eq_true, decide_eq_true_eq, decide_eq_true_eq] at hjust
  rcases hjust with ⟨hpos, hlast⟩
  have hused : (t i).viewer.postId ≠ 0 := by
    intro hempty
    rw [h.empty i hempty] at hpos
    exact absurd hpos (Nat.lt_irrefl 0)
  have hagree := h.entries i hused
  rw [hagree.2.1] at hpos hlast
  rcases own_or_free_of_lookup hfound with hown | hfree
  · have hviewer : (t i).viewer = c.viewer := beq_iff_eq.mp hown
    rw [hviewer] at hpos hlast
    rcases htyped.typed c.viewer (Nat.ne_of_gt hpos) with ⟨c', hmem, htyping, hsame, hnow⟩
    rw [← hnow] at hlast
    exact ⟨c', hmem, htyping, hsame, hlast⟩
  · have hexpired : (t i).leases.typingExpires ≤ c.now := by
      simp only [Entry.free, Bool.or_eq_true, beq_iff_eq, Bool.and_eq_true, decide_eq_true_eq]
        at hfree
      exact (hfree.resolve_left hused).2
    rw [hagree.1] at hexpired
    have hlonger : typingMinInterval ≤ typingLease := by decide
    rcases htyped.leased (t i).viewer with hnever | hlease
    · omega
    · omega

/-! ## A table with one entry -/

def firstSlot (v : Viewer) : Fin realtimeSlots := ⟨slotFor v, Nat.mod_lt _ (by decide)⟩

theorem probes_eq_cons (v : Viewer) : ∃ rest, probes v = firstSlot v :: rest := by
  have hcons : ∃ rest : List (Fin realtimeSlots),
      List.finRange realtimeSlots = ⟨0, by decide⟩ :: rest :=
    ⟨_, List.finRange_succ⟩
  rcases hcons with ⟨rest, hcons⟩
  unfold probes
  rw [hcons, List.map_cons]
  refine ⟨_, congrArg₂ _ ?_ rfl⟩
  exact Fin.ext (Nat.mod_eq_of_lt (Nat.mod_lt _ (by decide)))

theorem lookupLocked_first (hnew : ∀ i, (t i).viewer ≠ v)
    (hfree : (t (firstSlot v)).free now = true) :
    lookupLocked t v now true = some (firstSlot v) := by
  rcases probes_eq_cons v with ⟨rest, hprobes⟩
  rw [lookupLocked_new hnew, if_pos rfl, hprobes]
  exact List.find?_cons_of_pos hfree

def single (i : Fin realtimeSlots) (e : Entry) : Table := Function.update (fun _ => .zero) i e

theorem single_self (i : Fin realtimeSlots) (e : Entry) : single i e i = e :=
  Function.update_self _ _ _

theorem single_of_viewer {e : Entry} (hv : v.postId ≠ 0) (hj : (single i e j).viewer = v) :
    j = i ∧ e.viewer = v := by
  rcases eq_or_ne j i with rfl | hne
  · rw [single_self] at hj
    exact ⟨rfl, hj⟩
  · rw [single, Function.update_of_ne hne] at hj
    exact absurd (congrArg Viewer.postId hj).symm hv

theorem update_single (i : Fin realtimeSlots) (e e' : Entry) :
    Function.update (single i e) i e' = single i e' :=
  Function.update_idem _ _ _

theorem presenceAt_start (hvalid : v.valid = true) (now : ℕ) :
    lookupLocked start.table v now true = some (firstSlot v) ∧
      presenceAt start.table v true now =
        (.ok, single (firstSlot v) ⟨v, ⟨now + presenceLease, 0, 0⟩⟩) := by
  have hne := Viewer.ne_zero_of_valid hvalid
  have hfound : lookupLocked start.table v now true = some (firstSlot v) := by
    refine lookupLocked_first ?_ rfl
    intro i hi
    exact hne (congrArg Viewer.postId hi).symm
  refine ⟨hfound, ?_⟩
  unfold presenceAt
  rw [hvalid, if_neg (by decide), hfound]
  rfl

theorem lookupLocked_single {l : Leases} (hv : v.postId ≠ 0) :
    lookupLocked (single i ⟨v, l⟩) v n true = some i := by
  refine lookupLocked_own ?_ ?_
  · rw [single_self]
  · intro j hj
    exact (single_of_viewer hv hj).1

theorem typingAt_own {l : Leases} (hvalid : v.valid = true) (hjust : l.justTyped n = false) :
    typingAt (single i ⟨v, l⟩) v true n =
      (.ok, single i ⟨v, ⟨l.presenceExpires, n + typingLease, n⟩⟩) := by
  have hne := Viewer.ne_zero_of_valid hvalid
  have hfound := lookupLocked_single (i := i) (l := l) (n := n) hne
  unfold typingAt typingLocked
  rw [hvalid, if_neg (by decide), hfound]
  dsimp only
  rw [single_self, Bool.and_assoc (true && true), ← Leases.justTyped, hjust, Bool.and_false,
    if_neg Bool.false_ne_true, if_pos rfl, update_single, Entry.claimed, if_neg hne]

theorem typingAt_justTyped {l : Leases} (hvalid : v.valid = true) (hjust : l.justTyped n = true) :
    typingAt (single i ⟨v, l⟩) v true n = (.rateLimited, single i ⟨v, l⟩) := by
  have hfound := lookupLocked_single (i := i) (l := l) (n := n) (Viewer.ne_zero_of_valid hvalid)
  unfold typingAt typingLocked
  rw [hvalid, if_neg (by decide), hfound]
  dsimp only
  rw [single_self, Bool.and_assoc (true && true), ← Leases.justTyped, hjust]
  exact if_pos rfl

/-- Another viewer is given the one entry when its leases have run out; the entry keeps its
name. -/
theorem typingAt_leftOver {w : Viewer} {p n : ℕ} (hvalid : w.valid = true) (hne : v ≠ w)
    (hv : v.postId ≠ 0) (hfirst : firstSlot w = i) (hexpired : p ≤ n) :
    typingAt (single i ⟨v, ⟨p, 0, 0⟩⟩) w true n =
      (.ok, single i ⟨v, ⟨p, n + typingLease, n⟩⟩) := by
  have hfound : lookupLocked (single i ⟨v, ⟨p, 0, 0⟩⟩) w n true = some i := by
    have hnew : ∀ j, (single i ⟨v, ⟨p, 0, 0⟩⟩ j).viewer ≠ w := by
      intro j hj
      exact hne (single_of_viewer (Viewer.ne_zero_of_valid hvalid) hj).2
    have hfree : (single i ⟨v, ⟨p, 0, 0⟩⟩ (firstSlot w)).free n = true := by
      rw [hfirst, single_self]
      simp [Entry.free, hexpired]
    rw [lookupLocked_first hnew hfree, hfirst]
  unfold typingAt typingLocked
  rw [hvalid, if_neg (by decide), hfound]
  dsimp only
  rw [single_self]
  dsimp only
  rw [if_neg (by simp), if_pos rfl, update_single, Entry.claimed, if_neg hv]

def readAndType (v : Viewer) : List Call := [.presence v true 1000, .typing v true 2000]

theorem readAndType_inOrder (hvalid : v.valid = true) :
    AllSteps step (fun s c => InTime s c ∧ NotLeftOver s c) start (readAndType v) := by
  have hread := presenceAt_start hvalid 1000
  have htype := typingAt_own (i := firstSlot v) (n := 2000)
    (l := ⟨1000 + presenceLease, 0, 0⟩) hvalid rfl
  have hnext : (step start (.presence v true 1000)).table =
      single (firstSlot v) ⟨v, ⟨1000 + presenceLease, 0, 0⟩⟩ := congrArg Prod.snd hread.2
  refine ⟨⟨⟨Nat.zero_le _, ?_⟩, ?_⟩, ⟨⟨Nat.le_of_ble_eq_true rfl, ?_⟩, ?_⟩, trivial⟩
  · unfold Call.exec
    dsimp only
    rw [hread.2]
    exact nofun
  · exact fun i _ => .inr rfl
  · unfold Call.exec
    dsimp only
    rw [hnext, htype]
    exact nofun
  · intro i hi
    left
    rw [hnext] at hi ⊢
    have hown := (lookupLocked_single (Viewer.ne_zero_of_valid hvalid)).symm.trans hi
    rw [← Option.some.inj hown, single_self]
    rfl

def takenOver (v w : Viewer) : List Call := [.presence v true 1000, .typing w true 50000]

section TakenOver

variable {w : Viewer} (hv : v.valid = true) (hw : w.valid = true) (hne : v.postId ≠ w.postId)
  (hfirst : firstSlot w = firstSlot v)

include hv hw hne hfirst

theorem takenOver_table :
    AllSteps step InTime start (takenOver v w) ∧ (run step start (takenOver v w)).table =
      single (firstSlot v) ⟨v, ⟨1000 + presenceLease, 50000 + typingLease, 50000⟩⟩ := by
  have hread := presenceAt_start hv 1000
  have hnext : (step start (.presence v true 1000)).table =
      single (firstSlot v) ⟨v, ⟨1000 + presenceLease, 0, 0⟩⟩ := congrArg Prod.snd hread.2
  have htype := typingAt_leftOver (p := 1000 + presenceLease) (n := 50000) hw
    (fun h => hne (congrArg Viewer.postId h)) (Viewer.ne_zero_of_valid hv) hfirst (by decide)
  have hexec : (Call.typing w true 50000).exec (step start (.presence v true 1000)).table =
      (.ok, single (firstSlot v) ⟨v, ⟨1000 + presenceLease, 50000 + typingLease, 50000⟩⟩) := by
    rw [hnext]
    exact htype
  refine ⟨⟨⟨Nat.zero_le _, ?_⟩, ⟨Nat.le_of_ble_eq_true rfl, ?_⟩, trivial⟩, congrArg Prod.snd hexec⟩
  · unfold Call.exec
    dsimp only
    rw [hread.2]
    exact nofun
  · rw [hexec]
    exact nofun

/-- So who types is not counted, and the other viewer is held off without ever having typed. -/
theorem takenOver_miscounted :
    typingCountAt (run step start (takenOver v w)).table w.postId none 50000 = 0 ∧
      ((run step start (takenOver v w)).reference.typists w.postId none 50000).ncard = 1 ∧
      ((Call.typing v true 51000).exec (run step start (takenOver v w)).table).1 =
        .rateLimited := by
  have htable := (takenOver_table hv hw hne hfirst).2
  refine ⟨?_, ?_, ?_⟩
  · rw [htable, typingCountAt, countAt, List.countP_eq_zero]
    intro j _ hj
    have hpost : (single (firstSlot v) ⟨v, ⟨1000 + presenceLease, 50000 + typingLease, 50000⟩⟩
        j).viewer.postId = w.postId := by
      simp only [Bool.and_eq_true, beq_iff_eq] at hj
      exact hj.1.1
    rcases eq_or_ne j (firstSlot v) with rfl | hother
    · rw [single_self] at hpost
      exact hne hpost
    · rw [single, Function.update_of_ne hother] at hpost
      exact Viewer.ne_zero_of_valid hw hpost.symm
  · have hsessions : (run step start (takenOver v w)).reference.typists w.postId none 50000 =
        {w.session} := by
      ext session
      have hafter : (run step start (takenOver v w)).reference =
          Function.update (Function.update (fun _ => .zero) v ⟨1000 + presenceLease, 0, 0⟩) w
            ⟨0, 50000 + typingLease, 50000⟩ := by
        have hzero : Function.update (fun _ => Leases.zero) v ⟨1000 + presenceLease, 0, 0⟩ w =
            .zero := Function.update_of_ne (fun h => hne (congrArg Viewer.postId h).symm) _ _
        have hfirstCall : Reference.call (fun _ => .zero) (.presence v true 1000) =
            Function.update (fun _ => .zero) v ⟨1000 + presenceLease, 0, 0⟩ := if_pos hv
        refine (congrArg (Reference.call · (.typing w true 50000)) hfirstCall).trans ?_
        refine (if_pos hw).trans ?_
        dsimp only [Call.viewer]
        rw [hzero]
        rfl
      have hown : ∀ r : Reference, session ∈ r.typists w.postId none 50000 ↔
          50000 < (r ⟨w.postId, session⟩).typingExpires := by
        intro r
        simp [Reference.typists]
      rw [hown, hafter, Set.mem_singleton_iff]
      by_cases hsession : session = w.session
      · rw [hsession, Function.update_self]
        exact ⟨fun _ => rfl, fun _ => by decide⟩
      · have hother : (⟨w.postId, session⟩ : Viewer) ≠ w :=
          fun h => hsession (congrArg Viewer.session h)
        have hfirst' : (⟨w.postId, session⟩ : Viewer) ≠ v :=
          fun h => hne (congrArg Viewer.postId h).symm
        rw [Function.update_of_ne hother, Function.update_of_ne hfirst']
        exact ⟨fun h => absurd h (by decide), fun h => absurd h hsession⟩
    rw [hsessions, Set.ncard_singleton]
  · have hlimited := typingAt_justTyped (i := firstSlot v) hv
      (l := ⟨1000 + presenceLease, 50000 + typingLease, 50000⟩) (n := 51000) (by decide)
    rw [htable]
    exact congrArg Prod.fst hlimited

end TakenOver

/-! ## Runs -/

def Inv (s : State) : Prop := Refines s.table s.reference s.clock ∧ Typed s.reference s.calls

theorem Inv.faithful (h : Inv s) : Faithful s where
  viewers postId _ hle := h.1.viewerCountAt_eq hle postId
  typists postId excludeSession now _ := h.1.typingCountAt_eq postId excludeSession now
  limited _ _ hlimited := h.1.limited h.2 hlimited

theorem Inv.step (h : Inv s) (hok : InTime s c ∧ NotLeftOver s c) :
    Inv (step s c) :=
  ⟨h.1.exec hok.1.1 hok.1.2 hok.2, h.2.call c⟩

/-- In every run in which no call is given a slot with the name of another viewer, the
counts are always those of the reference, and who is rate limited has typed before. -/
theorem presence_counts_faithful (calls : List Call)
    (h : AllSteps step (fun s c => InTime s c ∧ NotLeftOver s c) start calls) (s : State)
    (hs : Reaches step start calls s) : Faithful s := by
  have hstep : ∀ s c, Inv s → InTime s c ∧ NotLeftOver s c → Inv (Presence.step s c) :=
    fun _ _ hs hok => hs.step hok
  exact (h.invariant_reaches hstep ⟨refines_start, typed_start⟩ hs).faithful

def sessionA : Bytes := bytes "aaaaaaaaaaaaaaaaaaaaaaaaaaaaaaaa"

/-- Its first slot for post 2 is the one of `sessionA` for post 1. -/
def sessionB : Bytes := bytes "000000000000000000000000000002c2"

/-- A typist is counted for 5 seconds. -/
theorem readAndType_counted :
    typingCountAt (run step start (readAndType ⟨1, sessionA⟩)).table 1 none 6999 =
      ((run step start (readAndType ⟨1, sessionA⟩)).reference.typists 1 none 6999).ncard := by
  have hvalid : Viewer.valid ⟨1, sessionA⟩ = true := by decide +kernel
  have hfaithful := presence_counts_faithful (readAndType ⟨1, sessionA⟩)
    (readAndType_inOrder hvalid) _ (reaches_run start _)
  exact hfaithful.typists 1 none 6999 (by decide)

/-- The lease of the second session goes to the slot of the first one. -/
theorem taken_over_unfaithful :
    AllSteps step InTime start (takenOver ⟨1, sessionA⟩ ⟨2, sessionB⟩) ∧
      ¬ Faithful (run step start (takenOver ⟨1, sessionA⟩ ⟨2, sessionB⟩)) := by
  have hvalidA : Viewer.valid ⟨1, sessionA⟩ = true := by decide +kernel
  have hvalidB : Viewer.valid ⟨2, sessionB⟩ = true := by decide +kernel
  have hslot : slotFor ⟨2, sessionB⟩ = slotFor ⟨1, sessionA⟩ := by decide +kernel
  have hfirst : firstSlot ⟨2, sessionB⟩ = firstSlot ⟨1, sessionA⟩ := Fin.ext hslot
  have hposts : (1 : Int32) ≠ 2 := by decide
  refine ⟨(takenOver_table hvalidA hvalidB hposts hfirst).1, ?_⟩
  intro hfaithful
  rcases takenOver_miscounted hvalidA hvalidB hposts hfirst with ⟨hcount, htypists, -⟩
  have hclock : (run step start (takenOver ⟨1, sessionA⟩ ⟨2, sessionB⟩)).clock = 50000 := by
    rw [takenOver, run_cons, run_cons, run_nil]
    unfold step
    dsimp only [Call.now]
  have heq := hfaithful.typists 2 none 50000 (Nat.le_of_eq hclock)
  exact absurd (hcount.symm.trans (heq.trans htypists)) (by decide)

end FlyBoard.Presence

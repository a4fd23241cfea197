import FlyBoard.Utils.IpBan
import Mathlib.Data.List.Induction

/-!
# The threshold of a ban (`ipban_note_failure` in `src/utils/ipban.c`)

The failures of an address are counted in one byte, which is compared with the configured
threshold after every failure, and which a ban leaves as it is. The calls for one address are
taken out of a run of calls for all addresses first: as long as its slot is found, nobody else
writes to it.
-/

namespace FlyBoard.IpBan

open ProbeTable Run

/-! ## One slot -/

section Slot

variable {cfg : Config} {e : Slot} {times : List ℕ}

def Slot.after (cfg : Config) (e : Slot) (times : List ℕ) : Slot :=
  times.foldl (fun e now => (e.noteFailure cfg now).1) e

@[simp] theorem after_nil : e.after cfg [] = e := rfl

@[simp] theorem after_cons (now : ℕ) :
    e.after cfg (now :: times) = (e.noteFailure cfg now).1.after cfg times := rfl

def Slot.RunOut (cfg : Config) (e : Slot) (now : ℕ) : Prop := cfg.windowSec < now - e.windowStart

instance (now : ℕ) : Decidable (e.RunOut cfg now) := inferInstanceAs (Decidable (_ < _))

def NoBan (cfg : Config) : Slot → List ℕ → Prop
  | _, [] => True
  | e, now :: rest =>
    e.bannedUntil ≤ now ∧ (e.noteFailure cfg now).2 = false ∧
      NoBan cfg (e.noteFailure cfg now).1 rest

def NoRestart (cfg : Config) : Slot → List ℕ → Prop
  | _, [] => True
  | e, now :: rest => ¬ e.RunOut cfg now ∧ NoRestart cfg (e.noteFailure cfg now).1 rest

/-- As many failures as the threshold, in one window that the first of them may begin, without
a ban before the last. -/
structure FailuresInWindow (cfg : Config) (e : Slot) (times : List ℕ) (last : ℕ) : Prop where
  count : times.length + 1 = cfg.threshold
  noBan : NoBan cfg e times
  unbanned : (e.after cfg times).bannedUntil ≤ last
  noRestart : ∀ first rest, times ++ [last] = first :: rest →
    NoRestart cfg (e.noteFailure cfg first).1 rest

def Slot.Wraps (cfg : Config) (e : Slot) (now : ℕ) : Prop := e.fails = 255 ∧ ¬ e.RunOut cfg now

instance (now : ℕ) : Decidable (e.Wraps cfg now) := inferInstanceAs (Decidable (_ ∧ _))

/-- A failure that is counted: the slot, and whether the count reaches the threshold. -/
theorem noteFailure_of_unbanned (cfg : Config) {now : ℕ} (h : e.bannedUntil ≤ now) :
    (e.noteFailure cfg now).1.fails = (e.countFailure cfg now).fails ∧
      (e.noteFailure cfg now).1.windowStart = (e.countFailure cfg now).windowStart ∧
      ((e.noteFailure cfg now).2 = true ↔
        cfg.threshold ≤ (e.countFailure cfg now).fails.toNat) := by
  unfold Slot.noteFailure
  rw [if_neg (not_lt.mpr h)]
  dsimp only
  split_ifs with hreached
  · exact ⟨rfl, rfl, iff_of_true rfl hreached⟩
  · exact ⟨rfl, rfl, iff_of_false (by simp) hreached⟩

theorem countFailure_of_restart {now : ℕ} (h : e.fails = 0 ∨ e.RunOut cfg now) :
    e.countFailure cfg now = { e with fails := 1, windowStart := now } := by
  have hif : e.fails = 0 ∨ cfg.windowSec < now - e.windowStart := h
  unfold Slot.countFailure
  rw [if_pos hif]
  rfl

theorem countFailure_of_running {now : ℕ} (h : ¬ (e.fails = 0 ∨ e.RunOut cfg now)) :
    e.countFailure cfg now = { e with fails := e.fails + 1 } := by
  have hif : ¬ (e.fails = 0 ∨ cfg.windowSec < now - e.windowStart) := h
  unfold Slot.countFailure
  rw [if_neg hif]

theorem fails_countFailure (now : ℕ) :
    (e.countFailure cfg now).fails.toNat =
      if e.RunOut cfg now then 1 else (e.fails.toNat + 1) % 256 := by
  by_cases hout : e.RunOut cfg now
  · rw [if_pos hout, countFailure_of_restart (Or.inr hout)]
    rfl
  · rw [if_neg hout]
    by_cases hzero : e.fails = 0
    · rw [countFailure_of_restart (Or.inl hzero), hzero]
      rfl
    · rw [countFailure_of_running (not_or.mpr ⟨hzero, hout⟩)]
      exact UInt8.toNat_add e.fails 1

/-- The count after failures in one window, which stays below the threshold on the way. -/
theorem fails_after (hnoBan : NoBan cfg e times) (hlive : NoRestart cfg e times) :
    (e.after cfg times).fails.toNat = (e.fails.toNat + times.length) % 256 ∧
      ∀ k, 0 < k → k ≤ times.length → (e.fails.toNat + k) % 256 < cfg.threshold := by
  induction times generalizing e with
  | nil =>
    constructor
    · exact (Nat.mod_eq_of_lt e.fails.toNat_lt).symm
    · intro k hpos hle
      exact absurd (lt_of_lt_of_le hpos hle) (lt_irrefl 0)
  | cons now rest ih =>
    obtain ⟨hunbanned, hnone, hnoBan⟩ := hnoBan
    obtain ⟨hrunning, hlive⟩ := hlive
    obtain ⟨hfails, -, hreached⟩ := noteFailure_of_unbanned cfg hunbanned
    have hone : (e.noteFailure cfg now).1.fails.toNat = (e.fails.toNat + 1) % 256 := by
      rw [hfails, fails_countFailure, if_neg hrunning]
    have hbelow : (e.fails.toNat + 1) % 256 < cfg.threshold := by
      rw [← Bool.not_eq_true, hreached, ← hfails, hone] at hnone
      exact not_le.mp hnone
    obtain ⟨hafter, hway⟩ := ih hnoBan hlive
    rw [hone] at hafter hway
    constructor
    · rw [after_cons, hafter, List.length_cons]
      omega
    · intro k hpos hle
      rw [List.length_cons] at hle
      rcases Nat.lt_or_ge 1 k with hmore | hk
      · have hlater := hway (k - 1) (by omega) (by omega)
        omega
      · have hk : k = 1 := by omega
        rw [hk]
        exact hbelow

theorem after_append (times' : List ℕ) :
    e.after cfg (times ++ times') = (e.after cfg times).after cfg times' :=
  List.foldl_append

theorem noRestart_append {times' : List ℕ} :
    NoRestart cfg e (times ++ times') ↔
      NoRestart cfg e times ∧ NoRestart cfg (e.after cfg times) times' := by
  induction times generalizing e with
  | nil => exact (and_iff_right trivial).symm
  | cons now rest ih =>
    rw [List.cons_append, NoRestart, NoRestart, ih, and_assoc]
    rfl

theorem wraps_iff (now : ℕ) : e.Wraps cfg now ↔ (e.countFailure cfg now).fails.toNat = 0 := by
  have hlt := e.fails.toNat_lt
  have hbyte : e.fails = 255 ↔ e.fails.toNat = 255 := by
    rw [← UInt8.toNat_inj]
    rfl
  rw [fails_countFailure, Slot.Wraps, hbyte]
  by_cases hout : e.RunOut cfg now
  · rw [if_pos hout]
    exact iff_of_false (fun h => h.2 hout) Nat.one_ne_zero
  · rw [if_neg hout, and_iff_left hout]
    omega

/-- The last of the failures creates a ban exactly when its count fits the byte and does not
wrap at the first. -/
theorem created_iff {last : ℕ} (h : FailuresInWindow cfg e times last) :
    ((e.after cfg times).noteFailure cfg last).2 = true ↔
      cfg.threshold ≤ 255 ∧ ∀ first ∈ (times ++ [last]).head?, ¬ e.Wraps cfg first := by
  obtain ⟨hcount, hnoBan, hunbanned, hrestart⟩ := h
  obtain ⟨-, -, hreached⟩ := noteFailure_of_unbanned cfg hunbanned
  have hhead : ∀ first rest, times ++ [last] = first :: rest →
      ((∀ t ∈ (times ++ [last]).head?, ¬ e.Wraps cfg t) ↔
        (e.countFailure cfg first).fails.toNat ≠ 0) := by
    intro first rest heq
    rw [heq, List.head?_cons, Ne, ← wraps_iff]
    constructor
    · intro hall
      exact hall first rfl
    · rintro hnot t ⟨⟩
      exact hnot
  rw [hreached]
  cases times with
  | nil =>
    -- the one failure is the first and the last
    have hbyte := (e.countFailure cfg last).fails.toNat_lt
    rw [hhead last [] rfl, after_nil]
    rw [List.length_nil] at hcount
    omega
  | cons first mid =>
    rw [hhead first (mid ++ [last]) rfl, after_cons]
    obtain ⟨hfirst, hnone, hnoBan⟩ := hnoBan
    obtain ⟨hfails, -, hfirstReached⟩ := noteFailure_of_unbanned cfg hfirst
    obtain ⟨hmid, hlast⟩ := noRestart_append.mp (hrestart first (mid ++ [last]) rfl)
    obtain ⟨hafter, hway⟩ := fails_after hnoBan hmid
    rw [fails_countFailure, if_neg hlast.1, hafter, hfails]
    rw [← Bool.not_eq_true, hfirstReached, not_le] at hnone
    rw [hfails] at hway
    rw [List.length_cons] at hcount
    have hbyte := (e.countFailure cfg first).fails.toNat_lt
    generalize (e.countFailure cfg first).fails.toNat = g at hnone hway hbyte ⊢
    constructor
    · intro h
      omega
    · rintro ⟨hsmall, hg⟩
      -- from two on, the threshold would have been reached before
      have hone : g = 1 := by
        by_contra hne
        have hearly := hway (cfg.threshold - g) (by omega) (by omega)
        omega
      rw [hone]
      omega

end Slot

/-! ## The calls for one address in a run -/

section Table

variable {hash : Bytes → UInt64} {cfg : Config} {s : State} {a : Action} {addr : Bytes}
  {i : Index} {e e' : Slot} {f : Slot} {peer : Sockaddr}

/-- `slot_for` finds the slot of the address in its place. -/
def SlotAt (hash : Bytes → UInt64) (t : Table) (addr : Bytes) (i : Index) (e : Slot) : Prop :=
  slotFor t (keyOf hash addr) addr false (probes (keyOf hash addr)) = some (t, i, e)

def Action.FailureOf (addr : Bytes) : Action → Bool
  | .noteFailure peer => peerAddr peer == some addr
  | _ => false

def Action.SuccessOf (addr : Bytes) : Action → Bool
  | .noteSuccess peer => peerAddr peer == some addr
  | _ => false

def failureTimes (hash : Bytes → UInt64) (cfg : Config) (addr : Bytes) :
    State → List Action → List ℕ
  | _, [] => []
  | s, a :: as =>
    let later := failureTimes hash cfg addr (step hash cfg s a) as
    if a.FailureOf addr then s.now :: later else later

theorem SlotAt.get (h : SlotAt hash s.slots addr i e) :
    s.slots i = some e ∧ e.addr = addr ∧
      find s.slots (Slot.hasKey (keyOf hash addr)) (probes (keyOf hash addr)) = some i := by
  obtain ⟨-, haddr, hi, hfind, -⟩ := slotFor_spec h
  exact ⟨hi, haddr, hfind⟩

theorem slotFor_other {t t' : Table} {key : Key} {other : Bytes} {insert : Bool}
    {path : List Index} {j : Index} (hi : t i = some e) (haddr : e.addr ≠ other)
    (h : slotFor t key other insert path = some (t', j, f)) : j ≠ i ∧ t' i = some e := by
  obtain ⟨-, hother, hj, -, hcase⟩ := slotFor_spec h
  rcases hcase with rfl | ⟨-, hempty, -, rfl⟩
  · refine ⟨?_, hi⟩
    rintro rfl
    rw [hi] at hj
    exact haddr (Option.some.inj hj ▸ hother)
  · have hne : j ≠ i := by
      rintro rfl
      rw [hi] at hempty
      cases hempty
    exact ⟨hne, (Function.update_of_ne hne.symm _ _).trans hi⟩

theorem slots_noteFailure (peer : Sockaddr) :
    (step hash cfg s (.noteFailure peer)).slots = (noteFailure hash cfg s.slots s.now peer).1 := by
  unfold step
  dsimp only
  split <;> rfl

theorem slots_noteSuccess (peer : Sockaddr) :
    (step hash cfg s (.noteSuccess peer)).slots = noteSuccess hash s.slots peer := by
  unfold step
  dsimp only
  split <;> rfl

theorem noteFailure_given {t t' : Table} {time : ℕ} (hpeer : peerAddr peer = some addr)
    (hgiven : slotFor t (keyOf hash addr) addr true (probes (keyOf hash addr)) = some (t', i, e)) :
    noteFailure hash cfg t time peer =
      (Function.update t' i (some (e.noteFailure cfg time).1),
        if (e.noteFailure cfg time).2 then some (banCreated (keyOf hash addr)) else none) := by
  have hkey : peerKey hash peer = some (addr, keyOf hash addr) :=
    peerKey_eq_some_iff.mpr ⟨hpeer, rfl⟩
  unfold noteFailure
  rw [hkey]
  dsimp only
  rw [hgiven]

theorem SlotAt.given (h : SlotAt hash s.slots addr i e) :
    slotFor s.slots (keyOf hash addr) addr true (probes (keyOf hash addr)) =
      some (s.slots, i, e) := by
  obtain ⟨hi, haddr, hfind⟩ := h.get
  exact slotFor_of_find hfind hi haddr

theorem SlotAt.written_other {r : Bytes × Key} {create : Bool} {w : Table × Index × Slot}
    {x : Option Slot} (hslot : SlotAt hash s.slots addr i e) (hpeer : peerAddr peer ≠ some addr)
    (hkey : peerKey hash peer = some r)
    (hother : slotFor s.slots r.2 r.1 create (probes r.2) = some w) :
    Function.update w.1 w.2.1 x i = some e := by
  obtain ⟨hi, haddr, -⟩ := hslot.get
  have hne : e.addr ≠ r.1 := by
    intro heq
    exact hpeer (haddr ▸ heq ▸ (peerKey_eq_some_iff.mp hkey).1)
  obtain ⟨hji, hi'⟩ := slotFor_other hi hne hother
  exact (Function.update_of_ne hji.symm _ _).trans hi'

theorem slot_noteFailure_other (hslot : SlotAt hash s.slots addr i e)
    (hpeer : peerAddr peer ≠ some addr) :
    (noteFailure hash cfg s.slots s.now peer).1 i = some e := by
  obtain ⟨hi, -, -⟩ := hslot.get
  unfold noteFailure
  cases hkey : peerKey hash peer with
  | none => exact hi
  | some r =>
    dsimp only
    cases hother : slotFor s.slots r.2 r.1 true (probes r.2) with
    | none => exact hi
    | some r' => exact hslot.written_other hpeer hkey hother

theorem slot_noteSuccess_other (hslot : SlotAt hash s.slots addr i e)
    (hpeer : peerAddr peer ≠ some addr) : noteSuccess hash s.slots peer i = some e := by
  obtain ⟨hi, -, -⟩ := hslot.get
  unfold noteSuccess
  cases hkey : peerKey hash peer with
  | none => exact hi
  | some r =>
    dsimp only
    cases hother : slotFor s.slots r.2 r.1 false (probes r.2) with
    | none => exact hi
    | some r' => exact hslot.written_other hpeer hkey hother

theorem slot_middleware (hslot : SlotAt hash s.slots addr i e) (peer : Sockaddr)
    (hstays : (middleware hash s.slots s.now peer).1 i = some f) : f = e := by
  obtain ⟨hi, -, -⟩ := hslot.get
  rcases middleware_cases hash s.slots s.now peer with heq | ⟨-, -, j, -, -, -, -, -, heq⟩
  · rw [heq, hi] at hstays
    exact (Option.some.inj hstays).symm
  · rw [heq] at hstays
    by_cases hji : i = j
    · rw [hji, Function.update_self] at hstays
      cases hstays
    · rw [Function.update_of_ne hji, hi] at hstays
      exact (Option.some.inj hstays).symm

theorem slot_step (hslot : SlotAt hash s.slots addr i e)
    (hstays : SlotAt hash (step hash cfg s a).slots addr i e') (hno : a.SuccessOf addr = false) :
    e' = if a.FailureOf addr then (e.noteFailure cfg s.now).1 else e := by
  obtain ⟨hi', -, -⟩ := hstays.get
  obtain ⟨hi, -, -⟩ := hslot.get
  cases a with
  | tick seconds =>
    have hsame : s.slots i = some e' := hi'
    rw [hi] at hsame
    exact (Option.some.inj hsame).symm
  | noteFailure peer =>
    rw [slots_noteFailure] at hi'
    by_cases hpeer : peerAddr peer = some addr
    · rw [noteFailure_given hpeer hslot.given] at hi'
      dsimp only at hi'
      rw [Function.update_self] at hi'
      rw [Action.FailureOf, hpeer, beq_self_eq_true, if_pos rfl]
      exact (Option.some.inj hi').symm
    · rw [slot_noteFailure_other hslot hpeer] at hi'
      rw [Action.FailureOf, beq_false_of_ne hpeer, if_neg Bool.false_ne_true]
      exact (Option.some.inj hi').symm
  | noteSuccess peer =>
    have hpeer : peerAddr peer ≠ some addr := by
      intro hpeer
      rw [Action.SuccessOf, hpeer, beq_self_eq_true] at hno
      exact absurd hno (by simp)
    rw [slots_noteSuccess, slot_noteSuccess_other hslot hpeer] at hi'
    exact (Option.some.inj hi').symm
  | middleware peer => exact slot_middleware hslot peer hi'

theorem slot_run {as : List Action}
    (hstays : ∀ t, Reaches (step hash cfg) s as t → ∃ e, SlotAt hash t.slots addr i e)
    (hno : ∀ a ∈ as, a.SuccessOf addr = false) (hslot : SlotAt hash s.slots addr i e) :
    SlotAt hash (run (step hash cfg) s as).slots addr i
      (e.after cfg (failureTimes hash cfg addr s as)) := by
  induction as generalizing s e with
  | nil => exact hslot
  | cons a as ih =>
    obtain ⟨e', hslot'⟩ := hstays _ (reaches_cons.mpr (.inr ⟨[], as, rfl, rfl⟩))
    have hnext := ih (fun t ht => hstays t (reaches_cons.mpr (.inr ht)))
      (fun b hb => hno b (List.mem_cons_of_mem _ hb)) hslot'
    have he' := slot_step hslot hslot' (hno a List.mem_cons_self)
    rw [run_cons, failureTimes]
    split_ifs with hfailure
    · rw [hfailure, if_pos rfl] at he'
      rw [after_cons, ← he']
      exact hnext
    · rw [if_neg hfailure] at he'
      rw [← he']
      exact hnext

end Table

/-! ## Bans count their failures -/

section Counted

variable {hash : Bytes → UInt64} {cfg : Config} {now : ℕ} {s : State} {a : Action}
  {as : List Action} {i : Index} {e e' : Slot} {time : ℕ}

/-- A slot that counts failures has seen as many of them since its window began. -/
def Counted (hash : Bytes → UInt64) (cfg : Config) (now : ℕ) (as : List Action) : Prop :=
  ∀ i e, (run (step hash cfg) (start now) as).slots i = some e → e.fails ≠ 0 →
    ∃ outside window, as = outside ++ window ∧
      (run (step hash cfg) (start now) outside).now = e.windowStart ∧
      e.fails.toNat ≤ window.countP (·.FailureOf e.addr)

def Slot.Blank (e : Slot) : Prop := e.fails = 0 ∧ e.bannedUntil = 0

theorem slots_step_cases (h : (step hash cfg s a).slots i = some e') :
    s.slots i = some e' ∨ e'.Blank ∨
      ∃ peer e, a = .noteFailure peer ∧ peerAddr peer = some e.addr ∧
        (s.slots i = some e ∨ e.Blank) ∧ e' = (e.noteFailure cfg s.now).1 := by
  cases a with
  | tick seconds => exact .inl h
  | noteFailure peer =>
    rw [slots_noteFailure, noteFailure] at h
    cases hkey : peerKey hash peer with
    | none =>
      rw [hkey] at h
      exact .inl h
    | some r =>
      obtain ⟨addr, key⟩ := r
      rw [hkey] at h
      dsimp only at h
      cases hslot : slotFor s.slots key addr true (probes key) with
      | none =>
        rw [hslot] at h
        exact .inl h
      | some r =>
        obtain ⟨t, j, f⟩ := r
        obtain ⟨-, haddr, hj, -, hcase⟩ := slotFor_spec hslot
        rw [hslot] at h
        dsimp only at h
        by_cases hij : i = j
        · rw [hij, Function.update_self] at h
          refine .inr (.inr ⟨peer, f, rfl, ?_, ?_, (Option.some.inj h).symm⟩)
          · rw [haddr]
            exact (peerKey_eq_some_iff.mp hkey).1
          · rcases hcase with rfl | ⟨-, -, rfl, -⟩
            · exact .inl (hij ▸ hj)
            · exact .inr ⟨rfl, rfl⟩
        · rw [Function.update_of_ne hij] at h
          rcases hcase with rfl | ⟨-, -, -, rfl⟩
          · exact .inl h
          · rw [Function.update_of_ne hij] at h
            exact .inl h
  | noteSuccess peer =>
    rw [slots_noteSuccess, noteSuccess] at h
    cases hkey : peerKey hash peer with
    | none =>
      rw [hkey] at h
      exact .inl h
    | some r =>
      obtain ⟨addr, key⟩ := r
      rw [hkey] at h
      dsimp only at h
      cases hslot : slotFor s.slots key addr false (probes key) with
      | none =>
        rw [hslot] at h
        exact .inl h
      | some r =>
        obtain ⟨t, j, f⟩ := r
        obtain rfl := slotFor_of_not_insert hslot
        rw [hslot] at h
        dsimp only at h
        by_cases hij : i = j
        · rw [hij, Function.update_self] at h
          right
          left
          rw [← Option.some.inj h]
          exact ⟨rfl, rfl⟩
        · rw [Function.update_of_ne hij] at h
          exact .inl h
  | middleware peer =>
    have hmiddleware : (middleware hash s.slots s.now peer).1 i = some e' := h
    rcases middleware_cases hash s.slots s.now peer with heq | ⟨-, -, j, -, -, -, -, -, heq⟩
    · rw [heq] at hmiddleware
      exact .inl hmiddleware
    · rw [heq] at hmiddleware
      exact .inl (of_clear hmiddleware).2

theorem windowStart_noteFailure (cfg : Config) (h : e.bannedUntil ≤ time) :
    (e.noteFailure cfg time).1.windowStart = time ∧ (e.noteFailure cfg time).1.fails = 1 ∨
      e.fails ≠ 0 ∧ ¬ e.RunOut cfg time ∧
        (e.noteFailure cfg time).1.windowStart = e.windowStart ∧
        (e.noteFailure cfg time).1.fails = e.fails + 1 := by
  obtain ⟨hfails, hstart, -⟩ := noteFailure_of_unbanned cfg h
  rw [hfails, hstart]
  by_cases hrestart : e.fails = 0 ∨ e.RunOut cfg time
  · rw [countFailure_of_restart hrestart]
    exact .inl ⟨rfl, rfl⟩
  · rw [countFailure_of_running hrestart]
    rw [not_or] at hrestart
    exact .inr ⟨hrestart.1, hrestart.2, rfl, rfl⟩

theorem noteFailure_of_banned (h : time < e.bannedUntil) :
    e.noteFailure cfg time = (e, false) := if_pos h

theorem addr_noteFailure (time : ℕ) : (e.noteFailure cfg time).1.addr = e.addr :=
  (noteFailure_cases cfg time e).2.1

theorem counted (hash : Bytes → UInt64) (cfg : Config) (now : ℕ) (as : List Action) :
    Counted hash cfg now as := by
  induction as using List.reverseRecOn with
  | nil => exact fun i e h => nomatch h
  | append_singleton as a ih =>
    intro i e' hi hfails
    -- what was counted before is counted still
    have hlonger : ∀ outside window : List Action, as = outside ++ window →
        as ++ [a] = outside ++ (window ++ [a]) := by
      rintro outside window rfl
      exact List.append_assoc ..
    rw [run_append] at hi
    rcases slots_step_cases hi with hsame | hblank | ⟨peer, e, rfl, hpeer, hbefore, rfl⟩
    · obtain ⟨outside, window, heq, hstart, hcount⟩ := ih i e' hsame hfails
      refine ⟨outside, window ++ [a], hlonger _ _ heq, hstart, hcount.trans ?_⟩
      rw [List.countP_append]
      exact Nat.le_add_right _ _
    · exact absurd hblank.1 hfails
    · have hone : [Action.noteFailure peer].countP (·.FailureOf e.addr) = 1 := by
        rw [List.countP_singleton, Action.FailureOf, hpeer, beq_self_eq_true, if_pos rfl]
      rw [addr_noteFailure]
      set s := run (step hash cfg) (start now) as
      by_cases hbanned : e.bannedUntil ≤ s.now
      · rcases windowStart_noteFailure cfg hbanned with
          ⟨hstart, hfirst⟩ | ⟨hsome, -, hstart, hnext⟩
        · refine ⟨as, [.noteFailure peer], rfl, hstart.symm, ?_⟩
          rw [hfirst, hone]
          rfl
        · have hold : s.slots i = some e := hbefore.resolve_right fun h => hsome h.1
          obtain ⟨outside, window, heq, hbegan, hcount⟩ := ih i e hold hsome
          refine ⟨outside, window ++ [.noteFailure peer], hlonger _ _ heq,
            hbegan.trans hstart.symm, ?_⟩
          have hbyte : (e.fails + 1).toNat ≤ e.fails.toNat + 1 := by
            rw [UInt8.toNat_add]
            exact Nat.mod_le _ _
          rw [hnext, List.countP_append, hone]
          omega
      · rw [noteFailure_of_banned (not_le.mp hbanned)] at hfails ⊢
        have hold : s.slots i = some e := hbefore.resolve_right fun h => hfails h.1
        obtain ⟨outside, window, heq, hbegan, hcount⟩ := ih i e hold hfails
        refine ⟨outside, window ++ [.noteFailure peer], hlonger _ _ heq, hbegan, hcount.trans ?_⟩
        rw [List.countP_append]
        exact Nat.le_add_right _ _

end Counted

/-! ## The threshold -/

section Threshold

variable {hash : Bytes → UInt64} {cfg : Config} {now : ℕ} {s : State} {addr : Bytes}
  {i : Index} {e : Slot} {t : Table} {peer : Sockaddr}

/-- Requests of the address are turned away before this time, and not from then on. -/
def BannedUntil (hash : Bytes → UInt64) (t : Table) (addr : Bytes) (time : ℕ) : Prop :=
  ∀ peer, peerAddr peer = some addr →
    ∀ now, (middleware hash t now peer).2 = some forbidden ↔ now < time

/-- Every failure in a run that creates a ban is the last of so many failures of its address in
one window. -/
def NotByFewer (hash : Bytes → UInt64) (cfg : Config) (now : ℕ) (as : List Action) : Prop :=
  ∀ before peer after addr, as = before ++ .noteFailure peer :: after →
    peerAddr peer = some addr →
    let s := run (step hash cfg) (start now) before
    (noteFailure hash cfg s.slots s.now peer).2.isSome = true →
    ∃ outside window, before ++ [.noteFailure peer] = outside ++ window ∧
      s.now ≤ (run (step hash cfg) (start now) outside).now + cfg.windowSec ∧
      cfg.threshold ≤ window.countP (·.FailureOf addr)

theorem bannedUntil_iff (hslot : SlotAt hash t addr i e) (hpeer : peerAddr peer = some addr)
    (time : ℕ) : BannedUntil hash t addr time ↔ e.bannedUntil = time := by
  have hforbids : ∀ peer, peerAddr peer = some addr → ∀ now,
      (middleware hash t now peer).2 = some forbidden ↔ now < e.bannedUntil := by
    intro peer hpeer now
    have hkey : peerKey hash peer = some (addr, keyOf hash addr) :=
      peerKey_eq_some_iff.mpr ⟨hpeer, rfl⟩
    unfold middleware
    rw [hkey]
    dsimp only
    rw [hslot]
    dsimp only
    split_ifs with hpos hover
    · exact iff_of_false (by simp) (not_lt.mpr hover)
    · exact iff_of_true rfl (not_le.mp hover)
    · exact iff_of_false (by simp) fun h => hpos (lt_of_le_of_lt (Nat.zero_le _) h)
  constructor
  · intro h
    have hsame : ∀ now, now < e.bannedUntil ↔ now < time := fun now =>
      (hforbids peer hpeer now).symm.trans (h peer hpeer now)
    have hle := hsame e.bannedUntil
    have hge := hsame time
    omega
  · rintro rfl
    exact hforbids

theorem slotAt_given (cfg : Config) (hpeer : peerAddr peer = some addr)
    (hgiven : slotFor s.slots (keyOf hash addr) addr true (probes (keyOf hash addr)) =
      some (t, i, e)) :
    SlotAt hash (step hash cfg s (.noteFailure peer)).slots addr i
      (e.noteFailure cfg s.now).1 := by
  obtain ⟨hekey, haddr, hi, hfind, -⟩ := slotFor_spec hgiven
  rw [slots_noteFailure, noteFailure_given hpeer hgiven]
  refine slotFor_of_find ?_ (Function.update_self ..) ((addr_noteFailure _).trans haddr)
  rw [find_replace hi (hasKey_congr (noteFailure_cases cfg s.now e).1 _)]
  exact hfind

theorem notByFewer (hpos : 0 < cfg.threshold) (as : List Action) : NotByFewer hash cfg now as := by
  intro before peer after addr _ hpeer
  dsimp only
  intro hcreated
  set s := run (step hash cfg) (start now) before with hs
  cases hgiven : slotFor s.slots (keyOf hash addr) addr true (probes (keyOf hash addr)) with
  | none =>
    have hkey : peerKey hash peer = some (addr, keyOf hash addr) :=
      peerKey_eq_some_iff.mpr ⟨hpeer, rfl⟩
    rw [noteFailure, hkey] at hcreated
    dsimp only at hcreated
    rw [hgiven] at hcreated
    exact absurd hcreated (by simp)
  | some r =>
    obtain ⟨t, i, e⟩ := r
    rw [noteFailure_given hpeer hgiven] at hcreated
    have hban : (e.noteFailure cfg s.now).2 = true := by
      by_contra hnone
      rw [if_neg hnone] at hcreated
      exact absurd hcreated (by simp)
    have hunbanned : e.bannedUntil ≤ s.now := by
      by_contra hbanned
      rw [noteFailure_of_banned (not_le.mp hbanned)] at hban
      exact absurd hban (by simp)
    obtain ⟨hfails, -, hreached⟩ := noteFailure_of_unbanned cfg hunbanned
    have henough := hreached.mp hban
    rw [← hfails] at henough
    -- the count of the slot after the call stands for failures of its window
    have hslot := (slotAt_given cfg hpeer hgiven).get
    have hlast : run (step hash cfg) (start now) (before ++ [.noteFailure peer]) =
        step hash cfg s (.noteFailure peer) := by
      rw [run_append]
      rfl
    have hsome : (e.noteFailure cfg s.now).1.fails ≠ 0 := by
      intro hzero
      rw [hzero] at henough
      exact absurd hpos (not_lt.mpr henough)
    obtain ⟨outside, window, heq, hstart, hcount⟩ :=
      counted hash cfg now (before ++ [.noteFailure peer]) i _ (hlast ▸ hslot.1) hsome
    refine ⟨outside, window, heq, ?_, ?_⟩
    · rw [hstart]
      rcases windowStart_noteFailure cfg hunbanned with ⟨hnew, -⟩ | ⟨-, hrunning, hold, -⟩
      · rw [hnew]
        exact Nat.le_add_right _ _
      · rw [hold]
        unfold Slot.RunOut at hrunning
        omega
    · rw [hslot.2.1] at hcount
      exact henough.trans hcount

/-- The calls from the first failure on: its address is banned from the last one for the
configured time, and no address by fewer, exactly when the threshold fits the byte of the count,
and the byte does not stand at its end in a window that has not run out. -/
theorem ban_threshold_iff (hduration : 0 < cfg.durationSec) (pre as : List Action)
    (hpeer : peerAddr peer = some addr)
    (hgiven : slotFor (run (step hash cfg) (start now) pre).slots (keyOf hash addr) addr true
      (probes (keyOf hash addr)) = some (t, i, e))
    (hstays : ∀ s, Reaches (step hash cfg)
      (run (step hash cfg) (start now) (pre ++ [.noteFailure peer])) as s →
        ∃ e, SlotAt hash s.slots addr i e)
    (hno : ∀ a ∈ as, a.SuccessOf addr = false) {earlier : List ℕ} {last : ℕ}
    (htimes : failureTimes hash cfg addr (run (step hash cfg) (start now) pre)
      (.noteFailure peer :: as) = earlier ++ [last])
    (hcalls : FailuresInWindow cfg e earlier last) :
    (BannedUntil hash (run (step hash cfg) (start now) (pre ++ .noteFailure peer :: as)).slots addr
        (last + cfg.durationSec) ∧
      NotByFewer hash cfg now (pre ++ .noteFailure peer :: as)) ↔
    cfg.threshold ≤ 255 ∧ ¬ e.Wraps cfg (run (step hash cfg) (start now) pre).now := by
  have hpos : 0 < cfg.threshold := by
    have hcount := hcalls.count
    omega
  set s := run (step hash cfg) (start now) pre
  have hnext : run (step hash cfg) (start now) (pre ++ [.noteFailure peer]) =
      step hash cfg s (.noteFailure peer) := run_append ..
  have hlater : failureTimes hash cfg addr s (.noteFailure peer :: as) =
      s.now :: failureTimes hash cfg addr (step hash cfg s (.noteFailure peer)) as := by
    rw [failureTimes, Action.FailureOf, hpeer, beq_self_eq_true, if_pos rfl]
  rw [hlater] at htimes
  -- the slot in the end, after all the failures
  have hslot := slot_run (hnext ▸ hstays) hno (slotAt_given cfg hpeer hgiven)
  have hafter : (e.noteFailure cfg s.now).1.after cfg
      (failureTimes hash cfg addr (step hash cfg s (.noteFailure peer)) as) =
      ((e.after cfg earlier).noteFailure cfg last).1 := by
    rw [← after_cons, htimes, after_append]
    rfl
  rw [hafter] at hslot
  have hrun : run (step hash cfg) (start now) (pre ++ .noteFailure peer :: as) =
      run (step hash cfg) (step hash cfg s (.noteFailure peer)) as := by
    rw [run_append, run_cons]
  have hhead : (earlier ++ [last]).head? = some s.now := by
    rw [← htimes]
    rfl
  have hiff := created_iff hcalls
  rw [hhead] at hiff
  rw [hrun, bannedUntil_iff hslot hpeer, and_iff_left (notByFewer hpos _)]
  obtain ⟨-, -, hcase⟩ := noteFailure_cases cfg last (e.after cfg earlier)
  have hunbanned := hcalls.unbanned
  have hcreated : ((e.after cfg earlier).noteFailure cfg last).1.bannedUntil =
      last + cfg.durationSec ↔ ((e.after cfg earlier).noteFailure cfg last).2 = true := by
    rcases hcase with ⟨hbanned, -⟩ | ⟨-, ⟨hyes, huntil⟩ | ⟨hnone, huntil⟩⟩
    · exact absurd hbanned (not_lt.mpr hunbanned)
    · exact iff_of_true huntil hyes
    · rw [hnone, huntil]
      refine iff_of_false ?_ Bool.false_ne_true
      omega
  rw [hcreated, hiff]
  constructor
  · rintro ⟨hsmall, hfirst⟩
    exact ⟨hsmall, hfirst s.now rfl⟩
  · rintro ⟨hsmall, hwraps⟩
    refine ⟨hsmall, ?_⟩
    rintro first ⟨⟩
    exact hwraps

end Threshold

/-! ## Thresholds from 256 on -/

section Wide

variable {hash : Bytes → UInt64} {cfg : Config} {e : Slot} {i : Index} {time : ℕ} {addr : Bytes}
  {peer : Sockaddr}

theorem noteFailure_wide (hwide : 255 < cfg.threshold) (time : ℕ) :
    (e.noteFailure cfg time).2 = false ∧
      (e.noteFailure cfg time).1.bannedUntil = e.bannedUntil := by
  rcases (noteFailure_cases cfg time e).2.2 with ⟨-, heq⟩ | ⟨hunbanned, ⟨hyes, -⟩ | hnone⟩
  · rw [heq]
    exact ⟨rfl, rfl⟩
  · obtain ⟨-, -, hreached⟩ := noteFailure_of_unbanned cfg hunbanned
    have henough := hreached.mp hyes
    have hbyte := (e.countFailure cfg time).fails.toNat_lt
    omega
  · exact hnone

theorem never_banned (hwide : 255 < cfg.threshold) (now : ℕ) (as : List Action) :
    ∀ i e, (run (step hash cfg) (start now) as).slots i = some e → e.bannedUntil = 0 := by
  have hstep : ∀ (s : State) (a : Action), (∀ i e, s.slots i = some e → e.bannedUntil = 0) →
      ∀ i e, (step hash cfg s a).slots i = some e → e.bannedUntil = 0 := by
    intro s a hs i e' hi
    rcases slots_step_cases hi with hsame | hblank | ⟨peer, e, -, -, hbefore, rfl⟩
    · exact hs i e' hsame
    · exact hblank.2
    · rw [(noteFailure_wide hwide s.now).2]
      exact hbefore.elim (hs i e) fun h => h.2
  have hstart : ∀ i e, (start now).slots i = some e → e.bannedUntil = 0 := by
    rintro i e ⟨⟩
  exact run_invariant (step hash cfg) hstep hstart as

theorem noBan_wide (hwide : 255 < cfg.threshold) (hban : e.bannedUntil = 0) (times : List ℕ) :
    NoBan cfg e times := by
  induction times generalizing e with
  | nil => trivial
  | cons time rest ih =>
    obtain ⟨hnone, huntil⟩ := noteFailure_wide (e := e) hwide time
    exact ⟨hban ▸ Nat.zero_le _, hnone, ih (huntil.trans hban)⟩

theorem bannedUntil_after_wide (hwide : 255 < cfg.threshold) (times : List ℕ) :
    (e.after cfg times).bannedUntil = e.bannedUntil := by
  induction times generalizing e with
  | nil => rfl
  | cons time rest ih => rw [after_cons, ih, (noteFailure_wide hwide time).2]

theorem noRestart_replicate (hstart : e.windowStart = time) (n : ℕ) :
    NoRestart cfg e (List.replicate n time) := by
  induction n generalizing e with
  | zero => trivial
  | succ n ih =>
    have hrunning : ¬ e.RunOut cfg time := by
      unfold Slot.RunOut
      omega
    refine ⟨hrunning, ih ?_⟩
    by_cases hbanned : e.bannedUntil ≤ time
    · rcases windowStart_noteFailure cfg hbanned with ⟨hnew, -⟩ | ⟨-, -, hold, -⟩
      · exact hnew
      · exact hold.trans hstart
    · rw [noteFailure_of_banned (not_le.mp hbanned)]
      exact hstart

theorem now_noteFailure (s : State) (peer : Sockaddr) :
    (step hash cfg s (.noteFailure peer)).now = s.now := by
  unfold step
  dsimp only
  split <;> rfl

theorem failureTimes_replicate (hpeer : peerAddr peer = some addr) (s : State) (n : ℕ) :
    failureTimes hash cfg addr s (List.replicate n (.noteFailure peer)) =
      List.replicate n s.now := by
  induction n generalizing s with
  | zero => rfl
  | succ n ih =>
    rw [List.replicate_succ, failureTimes, Action.FailureOf, hpeer, beq_self_eq_true, if_pos rfl,
      ih, now_noteFailure]
    rfl

theorem not_bannedUntil_of_unbanned {t : Table}
    (h : ∀ i e, t i = some e → e.bannedUntil = 0) (hpeer : peerAddr peer = some addr)
    (hpos : 0 < time) : ¬ BannedUntil hash t addr time := by
  intro hbanned
  have hforbids := (hbanned peer hpeer 0).mpr hpos
  unfold middleware at hforbids
  have hkey : peerKey hash peer = some (addr, keyOf hash addr) :=
    peerKey_eq_some_iff.mpr ⟨hpeer, rfl⟩
  rw [hkey] at hforbids
  dsimp only at hforbids
  cases hslot : slotFor t (keyOf hash addr) addr false (probes (keyOf hash addr)) with
  | none =>
    rw [hslot] at hforbids
    exact absurd hforbids (by simp)
  | some r =>
    obtain ⟨t', i, e⟩ := r
    obtain rfl := slotFor_of_not_insert hslot
    rw [hslot] at hforbids
    dsimp only at hforbids
    rw [h i e (slotFor_spec hslot).2.2.1, if_neg (lt_irrefl 0)] at hforbids
    exact absurd hforbids (by simp)

end Wide

theorem slotFor_empty (key : Key) (addr : Bytes) :
    slotFor (fun _ => none) key addr true (probes key) =
      some (Function.update (fun _ => none) (probe key 0) (some (Slot.fresh key addr)),
        probe key 0, Slot.fresh key addr) := by
  rw [probes]
  rfl

def firstAddr : Bytes := [52, 192, 0, 2, 9]

def strict : Config := ⟨1, 600, 3600⟩

theorem ban_threshold_one :
    (BannedUntil fnv1a (run (step fnv1a strict) (start 1000) [.noteFailure first]).slots firstAddr
        (1000 + 3600) ∧
      NotByFewer fnv1a strict 1000 [.noteFailure first]) ↔
    1 ≤ 255 ∧ ¬ (Slot.fresh (keyOf fnv1a firstAddr) firstAddr).Wraps strict 1000 := by
  have hpeer : peerAddr first = some firstAddr := rfl
  have hgiven := slotFor_empty (keyOf fnv1a firstAddr) firstAddr
  have hcalls : FailuresInWindow strict (Slot.fresh (keyOf fnv1a firstAddr) firstAddr) [] 1000 := by
    refine ⟨rfl, trivial, Nat.zero_le _, ?_⟩
    rintro _ _ ⟨⟩
    exact trivial
  have hstays : ∀ s, Reaches (step fnv1a strict)
      (run (step fnv1a strict) (start 1000) ([] ++ [.noteFailure first])) [] s →
        ∃ e, SlotAt fnv1a s.slots firstAddr (probe (keyOf fnv1a firstAddr) 0) e := by
    rintro s ⟨pre, post, heq, rfl⟩
    obtain ⟨rfl, -⟩ := List.append_eq_nil_iff.mp heq.symm
    exact ⟨_, slotAt_given strict (s := start 1000) hpeer hgiven⟩
  exact ban_threshold_iff (by decide) [] [] hpeer hgiven hstays (by simp)
    (failureTimes_replicate hpeer (start 1000) 1) hcalls

/-- 256 failures at one moment, under a threshold of 256, ban nobody. -/
theorem threshold_256_unreached :
    FailuresInWindow ⟨256, 600, 3600⟩ (Slot.fresh (keyOf fnv1a firstAddr) firstAddr)
        (List.replicate 255 1000) 1000 ∧
      failureTimes fnv1a ⟨256, 600, 3600⟩ firstAddr (start 1000)
        (List.replicate 256 (.noteFailure first)) = List.replicate 255 1000 ++ [1000] ∧
      ¬ BannedUntil fnv1a (run (step fnv1a ⟨256, 600, 3600⟩) (start 1000)
        (List.replicate 256 (.noteFailure first))).slots firstAddr (1000 + 3600) := by
  have hpeer : peerAddr first = some firstAddr := rfl
  have hwide : 255 < (⟨256, 600, 3600⟩ : Config).threshold := by decide
  have hsplit : List.replicate 255 1000 ++ [1000] = List.replicate 256 1000 :=
    List.replicate_succ'.symm
  have hnoBan := noBan_wide hwide (e := Slot.fresh (keyOf fnv1a firstAddr) firstAddr) rfl
  refine ⟨⟨by rw [List.length_replicate], hnoBan _, ?_, ?_⟩, ?_, ?_⟩
  · rw [bannedUntil_after_wide hwide]
    exact Nat.zero_le _
  · intro first rest heq
    rw [hsplit, List.replicate_succ, List.cons.injEq] at heq
    obtain ⟨rfl, rfl⟩ := heq
    exact noRestart_replicate rfl 255
  · rw [hsplit]
    exact failureTimes_replicate hpeer (start 1000) 256
  · exact not_bannedUntil_of_unbanned (never_banned hwide 1000 _) hpeer (by decide)

end FlyBoard.IpBan

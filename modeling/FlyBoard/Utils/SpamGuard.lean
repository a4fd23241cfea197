import FlyBoard.Lib.Bytes
import FlyBoard.Lib.Run
import FlyBoard.Lib.SlotTable

/-!
# The spam guard of the forms (`src/utils/spam_guard.c`)

`rate_allow` counts the submissions of a writer in windows of ten minutes, in a table that all
workers share under one lock. A slot that was last used in an earlier window may be taken over,
and a writer who finds no slot is let through. The time is read before the lock is taken; the
runs here are those in which the windows never go back.
-/

namespace FlyBoard.SpamGuard

open Bytes Run SlotTable

/-! ## The rate limit -/

/-- `RATE_WINDOW_SECONDS` -/
def rateWindowSeconds : ℕ := 600

/-- `RATE_SLOTS` -/
def rateSlots : ℕ := 8192

/-- `RATE_PROBE` -/
def rateProbe : ℕ := 16

/-- The key of a writer; 0 marks an empty slot. -/
abbrev Key := { key : UInt64 // key ≠ 0 }

/-- A `rate_slot_t` with a key. -/
structure RateSlot where
  key : Key
  window : ℕ
  count : ℕ

abbrev Table := Fin rateSlots → Option RateSlot

@[irreducible] def probes (key : Key) : List (Fin rateSlots) :=
  (List.range rateProbe).map fun i =>
    ⟨(key.val.toNat % rateSlots + i) % rateSlots, Nat.mod_lt _ (by decide)⟩

/-- The slot that the loop of `rate_allow` ends at: the one of the key, or else the first that
is empty or was last used in another window. -/
def slotFor (t : Table) (key : Key) (window : ℕ) : Option (Fin rateSlots) :=
  lookup t (·.any (·.key == key)) (·.all (·.window != window)) true (probes key) none

/-- `rate_allow` for the key of a writer. -/
def rateAllow (t : Table) (key : Key) (window limit : ℕ) : Table × Bool :=
  match slotFor t key window with
  | none => (t, true)
  | some i =>
    match (t i).filter (·.key = key) with
    | some e =>
      let count := if e.window = window then e.count else 0
      if limit ≤ count then (Function.update t i (some ⟨key, window, count⟩), false)
      else (Function.update t i (some ⟨key, window, count + 1⟩), true)
    | none => (Function.update t i (some ⟨key, window, 1⟩), true)

/-! ## The check of a submission -/

inductive Peer where
  | inet (addr : Bytes)
  | inet6 (addr : Bytes)

/-- The fields of a submission, the policy in force and the time. -/
structure Submission where
  uid : ℤ
  role : Option Bytes
  trap : Option Bytes
  token : Option Bytes
  peer : Option Peer
  spamHoneypot : Bool
  spamRateLimit : ℤ
  now : ℕ

inductive Verdict where
  | ok
  | rejected
  | rateLimited
deriving DecidableEq

/-- The first twelve bytes of an IPv4 address that is mapped into IPv6. -/
def v4Mapped : Bytes := List.replicate 10 0 ++ [255, 255]

/-- `writer_id` -/
def writerId (s : Submission) : Option Bytes :=
  if 0 < s.uid then some (bytes "u:" ++ decimalInt s.uid)
  else s.peer.map fun
    | .inet addr => 52 :: addr
    | .inet6 addr => if addr.take 12 = v4Mapped then 52 :: addr.drop 12 else 54 :: addr.take 8

/-- Where `strtol(token, &dot, 10)` leaves `dot`. -/
def afterNumber (token : Bytes) : Bytes :=
  let digits := match trimLeft isSpace token with
    | 45 :: t => t
    | 43 :: t => t
    | t => t
  if (digits.takeWhile isDigit).isEmpty then token else digits.dropWhile isDigit

/-- `SPAM_MIN_FILL_SECONDS` -/
def spamMinFillSeconds : ℤ := 3

/-- The table and, for the statements, the keys and windows of the submissions that the limit
has let through. -/
structure State where
  slots : Table
  passed : List (Key × ℕ)

def start : State := ⟨fun _ => none, []⟩

section Guard

theorem keyOne_ne_zero : (1 : UInt64) ≠ 0 := by decide

-- The beginning of the HMAC of an id under the key of the table, and `token_mac`.
variable (hmac : Bytes → UInt64) (tokenMac : ℤ → Bytes)

/-- `token_ok` -/
def tokenOk (token : Option Bytes) (now : ℕ) : Bool :=
  match token with
  | none => false
  | some token =>
    match afterNumber token with
    | 46 :: mac =>
      mac.length == 32 && mac == tokenMac (strtol token) &&
        decide (spamMinFillSeconds ≤ now - strtol token)
    | _ => false

/-- The key that `rate_allow` makes of an id. -/
def rateKey (id : Bytes) : Key :=
  if h : hmac id = 0 then ⟨1, keyOne_ne_zero⟩ else ⟨hmac id, h⟩

/-- The submission is turned away before the limit is looked at. -/
def honeypotRejects (s : Submission) : Bool :=
  s.spamHoneypot && (s.trap.any (fun t => !t.isEmpty) || !tokenOk tokenMac s.token s.now)

def isAdmin (s : Submission) : Bool := s.role == some (bytes "admin")

def Submission.window (s : Submission) : ℕ := s.now / rateWindowSeconds

/-- The key that the limit counts the submission under, if it gets there. -/
def countedKey (s : Submission) : Option Key :=
  if isAdmin s || honeypotRejects tokenMac s || decide (s.spamRateLimit ≤ 0) then none
  else (writerId s).map (rateKey hmac)

/-- `spam_guard_check` -/
def spamGuardCheck (t : Table) (s : Submission) : Table × Verdict :=
  if isAdmin s then (t, .ok)
  else if honeypotRejects tokenMac s then (t, .rejected)
  else if 0 < s.spamRateLimit then
    match writerId s with
    | none => (t, .ok)
    | some id =>
      let r := rateAllow t (rateKey hmac id) s.window s.spamRateLimit.toNat
      (r.1, if r.2 then .ok else .rateLimited)
  else (t, .ok)

def step (st : State) (s : Submission) : State :=
  let r := spamGuardCheck hmac tokenMac st.slots s
  ⟨r.1, match countedKey hmac tokenMac s with
    | some key => if r.2 = .ok then st.passed ++ [(key, s.window)] else st.passed
    | none => st.passed⟩

end Guard

/-! ## The table counts what was let through -/

/-- All slots of a key are in use by other writers in the window. -/
def Crowded (t : Table) (key : Key) (window : ℕ) : Prop :=
  ∀ i ∈ probes key, ∃ e, t i = some e ∧ e.key ≠ key ∧ e.window = window

/-- The invariant, in the window of the last submission. -/
structure Inv (window : ℕ) (st : State) : Prop where
  slot : ∀ i e, st.slots i = some e → i ∈ probes e.key ∧ e.window ≤ window ∧
    e.count = st.passed.count (e.key, e.window)
  once : ∀ i j e f, st.slots i = some e → st.slots j = some f → e.key = f.key → i = j
  old : ∀ p ∈ st.passed, p.2 ≤ window
  placed : ∀ key, (key, window) ∈ st.passed →
    (∃ i e, st.slots i = some e ∧ e.key = key ∧ e.window = window) ∨
      Crowded st.slots key window

variable {st : State} {t : Table} {key : Key} {window window' limit : ℕ} {i : Fin rateSlots}
  {e : RateSlot} {passed : List (Key × ℕ)}

theorem inv_start : Inv 0 start where
  slot _ _ h := nomatch h
  once _ _ _ _ h := nomatch h
  old _ h := nomatch h
  placed _ h := nomatch h

theorem Inv.later (h : Inv window st) (hle : window ≤ window') : Inv window' st where
  slot i e hi := (h.slot i e hi).imp_right (And.imp_left (·.trans hle))
  once := h.once
  old p hp := (h.old p hp).trans hle
  placed key hkey := by
    have heq : window = window' := Nat.le_antisymm hle (h.old _ hkey)
    subst heq
    exact h.placed key hkey

/-- Where a search ends: at the slot of the key, at a free one when there is none, or nowhere
when the slots of the key are crowded. -/
theorem slotFor_cases (h : Inv window st) (key : Key) :
    (∃ i e, slotFor st.slots key window = some i ∧ st.slots i = some e ∧ e.key = key) ∨
    (∀ i e, st.slots i = some e → e.key ≠ key) ∧
      ((∃ i, slotFor st.slots key window = some i ∧ i ∈ probes key ∧
        ∀ e, st.slots i = some e → e.window ≠ window) ∨
      slotFor st.slots key window = none ∧ Crowded st.slots key window) := by
  by_cases hown : ∃ i e, st.slots i = some e ∧ e.key = key
  · obtain ⟨i, e, hi, rfl⟩ := hown
    refine .inl ⟨i, e, lookup_of_own (h.slot i e hi).1 (by simp [hi]) fun j _ hj => ?_, hi, rfl⟩
    obtain ⟨f, hf, hkey⟩ := (Option.any_eq_true _ _).mp hj
    exact h.once j i f e hf hi (beq_iff_eq.mp hkey)
  · have hnone : ∀ i e, st.slots i = some e → e.key ≠ key :=
      fun i e hi heq => hown ⟨i, e, hi, heq⟩
    have hfind : slotFor st.slots key window =
        (probes key).find? fun i => (st.slots i).all (·.window != window) := by
      refine lookup_of_not_own fun j _ => Bool.eq_false_iff.mpr fun hj => ?_
      obtain ⟨f, hf, hkey⟩ := (Option.any_eq_true _ _).mp hj
      exact hnone j f hf (beq_iff_eq.mp hkey)
    rw [hfind]
    refine .inr ⟨hnone, ?_⟩
    rcases hslot : (probes key).find? fun i => (st.slots i).all (·.window != window) with _ | i
    · refine .inr ⟨hslot, fun i hi => ?_⟩
      have hbusy := List.find?_eq_none.mp hslot i hi
      rcases hi' : st.slots i with _ | e
      · simp [hi'] at hbusy
      · exact ⟨e, rfl, hnone i e hi', by simpa [hi'] using hbusy⟩
    · have hfree := List.find?_some hslot
      refine .inl ⟨i, hslot, List.mem_of_find?_eq_some hslot, fun e hi => ?_⟩
      simpa [hi] using hfree

/-- A writer with room in the table who has no slot of this window has sent nothing in it. -/
theorem Inv.count_eq_zero (h : Inv window st)
    (hslot : ∀ i e, st.slots i = some e → e.key = key → e.window ≠ window)
    (hroom : ∃ i ∈ probes key, ∀ e, st.slots i = some e → e.key ≠ key → e.window ≠ window) :
    st.passed.count (key, window) = 0 := by
  rw [List.count_eq_zero]
  intro hpassed
  rcases h.placed key hpassed with ⟨i, e, hi, hkey, hw⟩ | hcrowded
  · exact hslot i e hi hkey hw
  · obtain ⟨i, hi, hfree⟩ := hroom
    obtain ⟨e, he, hne, hw⟩ := hcrowded i hi
    exact hfree e he hne hw

/-- The slot of a key is written, with the number of times that the key has been let through. -/
theorem Inv.write (h : Inv window st) (hi : i ∈ probes key)
    (honly : ∀ j e, st.slots j = some e → e.key = key → j = i)
    (hslot : ∀ e, st.slots i = some e → e.key ≠ key → e.window ≠ window)
    (hpassed : passed = st.passed ∨ passed = st.passed ++ [(key, window)]) :
    Inv window ⟨Function.update st.slots i (some ⟨key, window, passed.count (key, window)⟩),
      passed⟩ := by
  have hcases : ∀ j e, Function.update st.slots i
      (some ⟨key, window, passed.count (key, window)⟩) j = some e →
        j = i ∧ e = ⟨key, window, passed.count (key, window)⟩ ∨
        j ≠ i ∧ st.slots j = some e ∧ e.key ≠ key := by
    intro j e hj
    rcases eq_or_ne j i with rfl | hji
    · rw [Function.update_self] at hj
      exact .inl ⟨rfl, (Option.some.inj hj).symm⟩
    · rw [Function.update_of_ne hji] at hj
      exact .inr ⟨hji, hj, fun hkey => hji (honly j e hj hkey)⟩
  have hmem : ∀ p ∈ passed, p ∈ st.passed ∨ p = (key, window) := by
    rcases hpassed with rfl | rfl
    · exact fun p hp => .inl hp
    · exact fun p hp => (List.mem_append.mp hp).imp_right List.mem_singleton.mp
  have hcount : ∀ p, p ≠ (key, window) → passed.count p = st.passed.count p := by
    intro p hp
    rcases hpassed with rfl | rfl
    · rfl
    · rw [List.count_append, List.count_singleton, if_neg (by simpa using hp.symm), Nat.add_zero]
  constructor
  · intro j e hj
    rcases hcases j e hj with ⟨rfl, rfl⟩ | ⟨-, hj, hkey⟩
    · exact ⟨hi, le_rfl, rfl⟩
    · obtain ⟨hpath, hle, hc⟩ := h.slot j e hj
      exact ⟨hpath, hle, hc.trans (hcount _ fun heq => hkey (Prod.mk.inj heq).1).symm⟩
  · intro j l e f hj hl heq
    rcases hcases j e hj with ⟨rfl, rfl⟩ | ⟨-, hj, hkey⟩
    · rcases hcases l f hl with ⟨rfl, -⟩ | ⟨-, -, hkey⟩
      · rfl
      · exact absurd heq.symm hkey
    · rcases hcases l f hl with ⟨-, rfl⟩ | ⟨-, hl, -⟩
      · exact absurd heq hkey
      · exact h.once j l e f hj hl heq
  · intro p hp
    rcases hmem p hp with hold | rfl
    · exact h.old p hold
    · exact le_rfl
  · intro key' hkey'
    rcases eq_or_ne key' key with rfl | hk
    · exact .inl ⟨i, _, Function.update_self .., rfl, rfl⟩
    have hold := (hmem _ hkey').resolve_right fun heq => hk (Prod.mk.inj heq).1
    rcases h.placed key' hold with ⟨j, e, hj, rfl, hw⟩ | hcrowded
    · have hji : j ≠ i := by
        rintro rfl
        exact hslot e hj hk hw
      exact .inl ⟨j, e, (Function.update_of_ne hji ..).trans hj, rfl, hw⟩
    · refine .inr fun j hj => ?_
      rcases eq_or_ne j i with rfl | hji
      · exact ⟨_, Function.update_self .., hk.symm, rfl⟩
      · obtain ⟨e, he, hrest⟩ := hcrowded j hj
        exact ⟨e, (Function.update_of_ne hji ..).trans he, hrest⟩

/-- A key without a slot is let through, uncounted, while others have all of its slots. -/
theorem Inv.crowded (h : Inv window st) (hnone : ∀ i e, st.slots i = some e → e.key ≠ key)
    (hcrowded : Crowded st.slots key window) :
    Inv window ⟨st.slots, st.passed ++ [(key, window)]⟩ := by
  constructor
  · intro i e hi
    obtain ⟨hpath, hle, hcount⟩ := h.slot i e hi
    refine ⟨hpath, hle, hcount.trans ?_⟩
    rw [List.count_append, List.count_singleton, if_neg, Nat.add_zero]
    intro heq
    exact hnone i e hi (Prod.mk.inj (beq_iff_eq.mp heq)).1.symm
  · exact h.once
  · intro p hp
    rcases List.mem_append.mp hp with hold | hnew
    · exact h.old p hold
    · rw [List.mem_singleton.mp hnew]
  · intro key' hkey'
    rcases List.mem_append.mp hkey' with hold | hnew
    · exact h.placed key' hold
    · rw [(Prod.mk.inj (List.mem_singleton.mp hnew)).1]
      exact .inr hcrowded

/-- What one call does, for a limit that is not 0: it refuses a key that has been let through
as often as the limit says, unless its slots are crowded. -/
theorem rateAllow_spec (h : Inv window st) (hlimit : 0 < limit) (key : Key) :
    let r := rateAllow st.slots key window limit
    (r.2 = false ↔ limit ≤ st.passed.count (key, window) ∧ ¬Crowded st.slots key window) ∧
      Inv window ⟨r.1, if r.2 then st.passed ++ [(key, window)] else st.passed⟩ := by
  have happend : (st.passed ++ [(key, window)]).count (key, window) =
      st.passed.count (key, window) + 1 := by
    rw [List.count_append, List.count_singleton_self]
  rcases slotFor_cases h key with ⟨i, e, hslot, hi, rfl⟩ | ⟨hnone, ⟨i, hslot, hi, hfree⟩ |
    ⟨hslot, hcrowded⟩⟩
  · obtain ⟨hpath, -, hcount⟩ := h.slot i e hi
    have honly : ∀ j f, st.slots j = some f → f.key = e.key → j = i :=
      fun j f hj hkey => h.once j i f e hj hi hkey
    have hself : ∀ f, st.slots i = some f → f.key ≠ e.key → f.window ≠ window := by
      intro f hf hne
      cases hi.symm.trans hf
      exact absurd rfl hne
    have hroom : ¬Crowded st.slots e.key window := by
      intro hcrowded
      obtain ⟨f, hf, hne, hw⟩ := hcrowded i hpath
      exact hself f hf hne hw
    have hnow : (if e.window = window then e.count else 0) =
        st.passed.count (e.key, window) := by
      split
      · next hw => rw [hcount, hw]
      · next hw =>
        refine (h.count_eq_zero (fun j f hj hkey => ?_) ⟨i, hpath, hself⟩).symm
        cases honly j f hj hkey
        cases hi.symm.trans hj
        exact hw
    simp only [rateAllow, hslot, hi, Option.filter_some, decide_true, if_true, hnow]
    split
    · next hle => exact ⟨by simp [hle, hroom], h.write hpath honly hself (.inl rfl)⟩
    · next hlt =>
      refine ⟨by simp [hlt], ?_⟩
      rw [← happend]
      exact h.write hpath honly hself (.inr rfl)
  · have hzero : st.passed.count (key, window) = 0 :=
      h.count_eq_zero (fun j e hj hkey => absurd hkey (hnone j e hj))
        ⟨i, hi, fun e he _ => hfree e he⟩
    have hfilter : (st.slots i).filter (·.key = key) = none := by
      rw [Option.filter_eq_none_iff]
      intro e he
      simpa using hnone i e he
    simp only [rateAllow, hslot, hfilter]
    refine ⟨by simp [hzero, Nat.not_le.mpr hlimit], ?_⟩
    have hone : (st.passed ++ [(key, window)]).count (key, window) = 1 := by
      rw [happend, hzero]
    rw [if_pos trivial, ← hone]
    exact h.write hi (fun j e hj hkey => absurd hkey (hnone j e hj)) (fun e he _ => hfree e he)
      (.inr rfl)
  · simp only [rateAllow, hslot]
    refine ⟨by simp [hcrowded], ?_⟩
    rw [if_pos trivial]
    exact h.crowded hnone hcrowded

/-! ## Runs -/

section Runs

variable (hmac : Bytes → UInt64) (tokenMac : ℤ → Bytes)

/-- The check refuses by the limit just when it counts the submission and its writer has been
let through as often in the window, unless the slots of the writer are crowded. -/
theorem spamGuardCheck_spec {s : Submission} (h : Inv s.window st) :
    ((spamGuardCheck hmac tokenMac st.slots s).2 = .rateLimited ↔
      ∃ key ∈ countedKey hmac tokenMac s,
        s.spamRateLimit ≤ st.passed.count (key, s.window) ∧
          ¬Crowded st.slots key s.window) ∧
      Inv s.window (step hmac tokenMac st s) := by
  rw [step, spamGuardCheck, countedKey]
  rcases hadmin : isAdmin s with _ | _
  swap
  · simp [h]
  rcases hhoneypot : honeypotRejects tokenMac s with _ | _
  swap
  · simp [h]
  by_cases hlimit : 0 < s.spamRateLimit
  swap
  · simp [hlimit, Int.not_lt.mp hlimit, h]
  rcases hwriter : writerId s with _ | id
  · simp [hlimit, h]
  obtain ⟨hrefused, hinv⟩ := rateAllow_spec h (Int.lt_toNat.mpr hlimit) (rateKey hmac id)
  have hcast : s.spamRateLimit.toNat ≤ st.passed.count (rateKey hmac id, s.window) ↔
      s.spamRateLimit ≤ st.passed.count (rateKey hmac id, s.window) := Int.toNat_le
  rw [hcast] at hrefused
  simp only [Bool.false_eq_true, if_false, hlimit, if_true, Bool.or_self, Int.not_le.mpr hlimit,
    decide_false, Option.map_some, Option.mem_def, Option.some.injEq, exists_eq_left']
  rw [← hrefused]
  rcases hr : (rateAllow st.slots (rateKey hmac id) s.window s.spamRateLimit.toNat).2
    with _ | _ <;> simpa [hr] using hinv

theorem inv_run {ss : List Submission} (hmono : ss.Pairwise fun a b => a.window ≤ b.window)
    (hle : ∀ s ∈ ss, s.window ≤ window) : Inv window (run (step hmac tokenMac) start ss) := by
  induction ss using List.reverseRecOn generalizing window with
  | nil => exact inv_start.later (Nat.zero_le _)
  | append_singleton ss s ih =>
    rw [run_append]
    obtain ⟨hbefore, -, hlast⟩ := List.pairwise_append.mp hmono
    have hinv := ih hbefore fun a ha => hlast a ha s (List.mem_singleton_self s)
    exact (spamGuardCheck_spec hmac tokenMac hinv).2.later (hle s (by simp))

/-- In a run whose windows never go back, a submission is refused by the limit just when it is
one that the limit counts and as many of its writer were let through in the window before,
unless other writers of the window have all the slots of the writer. -/
theorem rateLimited_iff (ss : List Submission) (s : Submission)
    (hmono : (ss ++ [s]).Pairwise fun a b => a.window ≤ b.window) :
    let st := run (step hmac tokenMac) start ss
    (spamGuardCheck hmac tokenMac st.slots s).2 = .rateLimited ↔
      ∃ key ∈ countedKey hmac tokenMac s,
        s.spamRateLimit ≤ st.passed.count (key, s.window) ∧
          ¬Crowded st.slots key s.window := by
  obtain ⟨hbefore, -, hlast⟩ := List.pairwise_append.mp hmono
  have hinv := inv_run hmac tokenMac hbefore
    fun a ha => hlast a ha s (List.mem_singleton_self s)
  exact (spamGuardCheck_spec hmac tokenMac hinv).1

end Runs

/-- User 7 sends something under a limit of one submission. -/
def sent (now : ℕ) : Submission := ⟨7, none, none, none, none, false, 1, now⟩

theorem second_rateLimited :
    ∃ key ∈ countedKey (fun _ => 1) (fun _ => []) (sent 100),
      (sent 100).spamRateLimit ≤ (run (step (fun _ => 1) fun _ => []) start [sent 0]).passed.count
          (key, (sent 100).window) ∧
        ¬Crowded (run (step (fun _ => 1) fun _ => []) start [sent 0]).slots key
          (sent 100).window :=
  (rateLimited_iff (fun _ => 1) (fun _ => []) [sent 0] (sent 100) (by decide)).mp
    (by decide +kernel)

end FlyBoard.SpamGuard

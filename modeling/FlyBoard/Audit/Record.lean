import FlyBoard.Lib.Json
import FlyBoard.Lib.LineLog
import FlyBoard.Lib.Run
import FlyBoard.Lib.Sha256
import Mathlib.Data.List.Forall2
import Mathlib.Data.Rat.Init

/-!
# The audit log (`src/audit/audit.c`)

`audit_record` reads the whole log under a lock, checks the chain of its entries and appends
an entry that carries the hash of the last one. Each step may fail, and `writev` may write
only the first bytes of the line; the lock makes one call a step of its own.

cJSON and the ML-DSA signatures are parameters, SHA-256 is computed. The messages of
`audit_verify` and the log lines of the server are left out.
-/

namespace FlyBoard.Audit

open Bytes LineLog Run

/-! ## cJSON objects -/

/-- The double next to an integer, which is an integer, too: 53 bits of it, ties to even. -/
def double (n : ℤ) : ℤ :=
  let m := n.natAbs
  if m ≤ 2 ^ 53 then n
  else
    let unit := 2 ^ (m.log2 - 52)
    let q := m / unit
    let up := unit < 2 * (m % unit) || (unit == 2 * (m % unit) && q % 2 == 1)
    n.sign * ((if up then q + 1 else q) * unit : ℕ)

/-- A member of an object; `other` is a literal, an array or an object, as it is printed. -/
inductive Item where
  | num (value : ℚ)
  | str (s : Bytes)
  | other (text : Bytes)
deriving DecidableEq

abbrev Object := List (Bytes × Item)

namespace Object

/-- `cJSON_GetObjectItemCaseSensitive` -/
def item (o : Object) (key : Bytes) : Option Item := (o.find? fun m => m.1 == key).map Prod.snd

/-- `json_string` -/
def jsonString (o : Object) (key : Bytes) : Option Bytes :=
  match o.item key with
  | some (.str s) => some s
  | _ => none

/-- `json_u64` -/
def jsonU64 (o : Object) (key : Bytes) : ℕ :=
  match o.item key with
  | some (.num value) => value.floor.toNat
  | _ => 0

/-- `cJSON_DeleteItemFromObjectCaseSensitive` -/
def delete (o : Object) (key : Bytes) : Object := o.eraseP fun m => m.1 == key

end Object

/-- The library functions. `sign` is none where it fails. -/
structure Env where
  print : Object → Bytes
  parse : Bytes → Option Object
  sign : Bytes → Option Bytes
  verify : Bytes → Bytes → Bool

/-- A member whose text is a C string and whose number is the double of an integer. -/
def Plain (m : Bytes × Item) : Prop :=
  0 ∉ m.1 ∧
    match m.2 with
    | .num value => ∃ n : ℤ, value = double n
    | .str s => 0 ∉ s
    | .other _ => False

/-- What is relied on: an unformatted print has no line break and reads back as what was
printed, and a signature verifies. -/
structure Env.Faithful (env : Env) : Prop where
  parse_print : ∀ o : Object, (∀ m ∈ o, Plain m) → env.parse (env.print o) = some o
  print_line : ∀ o : Object, 10 ∉ env.print o
  verify_sign : ∀ hash signature, env.sign hash = some signature →
    0 ∉ signature ∧ env.verify hash signature = true

/-! ## Reading -/

/-- `AUDIT_HASH_HEX_LEN` and `AUDIT_LINE_MAX`. -/
def hashHexLen : ℕ := 64
def lineMax : ℕ := 65536

section Env

variable (env : Env)

/-- `payload` -/
def payload (entry : Object) : Bytes :=
  env.print ((entry.delete (bytes "hash")).delete (bytes "signature"))

/-- `entry_valid`: the computed hash of a valid entry. -/
def entryValid (entry : Object) (expectedSeq : ℕ) (expectedPrevious : Bytes) : Option Bytes :=
  if entry.jsonU64 (bytes "version") ≠ 1 ∨ entry.jsonU64 (bytes "seq") ≠ expectedSeq then none
  else if entry.jsonString (bytes "previous_hash") ≠ some expectedPrevious ∨
      (entry.jsonString (bytes "hash")).map List.length ≠ some hashHexLen ∨
      entry.jsonU64 (bytes "timestamp") = 0 ∨
      entry.jsonString (bytes "action") = none ∨ entry.jsonString (bytes "target") = none ∨
      entry.jsonString (bytes "outcome") = none ∨ entry.jsonString (bytes "detail") = none ∨
      entry.item (bytes "actor_uid") = none then none
  else
    let computed := Sha256.hexDigest (payload env entry)
    if entry.jsonString (bytes "hash") ≠ some computed then none
    else
      match entry.jsonString (bytes "signature") with
      | none | some [] => some computed
      | some signature => if env.verify computed signature then some computed else none

/-- The loop body of `audit_verify` and `last_entry`, on the expected number and the hash
before. -/
def readLine (expected : ℕ × Bytes) (line : Bytes) : Option (ℕ × Bytes) :=
  if line.length > lineMax ∨ line.getLast? ≠ some 10 then none
  else
    match env.parse line.dropLast with
    | none => none
    | some entry =>
      (entryValid env entry expected.1 expected.2).map fun computed => (expected.1 + 1, computed)

/-- `last_entry`: the number of the next entry and the hash of the last one. -/
def lastEntry (log : Bytes) : Option (ℕ × Bytes) := read 10 (readLine env) (1, []) log

/-- `audit_verify`: the number of entries of a valid log. A missing file is an empty one. -/
def auditVerify (log : Bytes) : Option ℕ := (lastEntry env log).map fun next => next.1 - 1

def entries (log : Bytes) : List Object :=
  (lines 10 log).filterMap fun line => env.parse line.dropLast

end Env

/-! ## Recording -/

/-- The steps of `audit_record` that may fail, `writev` apart. -/
inductive Point where
  | openLog
  | lock
  | readLog
  | createObject
  | add (key : Bytes)
  | payload
  | sign
  | print
  | sync

/-- A call: `g_enabled` and `g_sign` of its process, its arguments, the time, which steps
fail and, where `writev` writes less than the line, how many bytes. -/
structure Call where
  enabled : Bool
  signs : Bool
  actorUid : ℤ
  action : Option Bytes
  target : Option Bytes
  outcome : Option Bytes
  detail : Option Bytes
  time : ℤ
  fails : Point → Bool
  short : Option ℕ

namespace Call

def members (c : Call) (seq : ℕ) (previous : Bytes) : Object :=
  [(bytes "version", .num (double 1)), (bytes "seq", .num (double seq)),
    (bytes "timestamp", .num (double c.time)), (bytes "actor_uid", .num (double c.actorUid)),
    (bytes "action", .str (cstr (c.action.getD []))),
    (bytes "target", .str (cstr (c.target.getD []))),
    (bytes "outcome", .str (cstr (c.outcome.getD []))),
    (bytes "detail", .str (cstr (c.detail.getD []))), (bytes "previous_hash", .str previous)]

/-- The results of the additions are not looked at: a member that cannot be added is missing. -/
def added (c : Call) (o : Object) : Object := o.filter fun m => !c.fails (.add m.1)

def entry (env : Env) (c : Call) (seq : ℕ) (previous : Bytes) : Option Object :=
  let unhashed := c.added (c.members seq previous)
  let hash := Sha256.hexDigest (payload env unhashed)
  let hashed := unhashed ++ c.added [(bytes "hash", .str hash)]
  if c.signs then
    if c.fails .sign then none
    else
      (env.sign hash).map fun signature =>
        hashed ++ c.added [(bytes "signature", .str signature)]
  else some hashed

/-- The line that is handed to `writev`; none where a step before it fails. -/
def line (env : Env) (c : Call) (log : Bytes) : Option Bytes :=
  if (c.action.map cstr).getD [] = [] ∨ c.target = none ∨ c.outcome = none then none
  else if c.fails .openLog ∨ c.fails .lock ∨ c.fails .readLog then none
  else
    match lastEntry env log with
    | none => none
    | some (seq, previous) =>
      if c.fails .createObject ∨ c.fails .payload then none
      else
        match c.entry env seq previous with
        | none => none
        | some entry =>
          if c.fails .print ∨ (env.print entry).length + 1 > lineMax then none
          else some (env.print entry ++ [10])

end Call

/-- `audit_record`: the log after it, and its result. -/
def auditRecord (env : Env) (c : Call) (log : Bytes) : Bytes × Bool :=
  if c.enabled = false then (log, true)
  else
    match c.line env log with
    | none => (log, false)
    | some line =>
      let written := line.take (c.short.getD line.length)
      (log ++ written, written.length = line.length && !c.fails .sync)

/-- The log, and the calls so far of the processes that keep it, with their results. -/
structure State where
  log : Bytes
  calls : List (Call × Bool)

def State.init : State := ⟨[], []⟩

def step (env : Env) (s : State) (c : Call) : State where
  log := (auditRecord env c s.log).1
  calls := if c.enabled then s.calls ++ [(c, (auditRecord env c s.log).2)] else s.calls

/-! ## What is asked of the log -/

structure Records (entry : Object) (c : Call) : Prop where
  action : entry.jsonString (bytes "action") = c.action.map cstr
  target : entry.jsonString (bytes "target") = c.target.map cstr
  outcome : entry.jsonString (bytes "outcome") = c.outcome.map cstr
  detail : entry.jsonString (bytes "detail") = some (cstr (c.detail.getD []))
  actor : entry.item (bytes "actor_uid") = some (.num (double c.actorUid))
  time : entry.item (bytes "timestamp") = some (.num (double c.time))

/-- All of the call's own steps succeed: its arguments are there, no step fails, `writev`
writes everything, and the entry can be signed and is not too long. -/
structure OwnSteps (env : Env) (log : Bytes) (c : Call) : Prop where
  enabled : c.enabled = true
  action : (c.action.map cstr).getD [] ≠ []
  target : c.target ≠ none
  outcome : c.outcome ≠ none
  sound : ∀ p, c.fails p = false
  whole : c.short = none
  fits : ∀ seq previous, lastEntry env log = some (seq, previous) →
    ∃ entry ∈ c.entry env seq previous, (env.print entry).length + 1 ≤ lineMax

/-- The log verifies, its entries record in order the calls that returned true and some that
returned false at `fsync`, and the next call whose own steps succeed returns true. -/
structure Usable (env : Env) (s : State) : Prop where
  verifies : auditVerify env s.log = some (entries env s.log).length
  records : ∃ kept : List (Call × Bool), kept.Sublist s.calls ∧
    kept.filter Prod.snd = s.calls.filter Prod.snd ∧
    (∀ r ∈ kept, r.2 = true ∨ r.1.fails .sync = true) ∧
    List.Forall₂ Records (entries env s.log) (kept.map Prod.fst)
  next : ∀ c, OwnSteps env s.log c → (auditRecord env c s.log).2 = true

/-- A call that comes to `writev` writes nothing or the whole line there; the line has all
members that it must have, the time is after the epoch, and the numbers of the entries are
still exact as doubles. -/
def Whole (env : Env) (s : State) (c : Call) : Prop :=
  c.enabled = true → ∀ line ∈ c.line env s.log, c.short ≠ some 0 →
    line.length ≤ c.short.getD line.length ∧
    (∀ key, key ≠ bytes "signature" → c.fails (.add key) = false) ∧ 0 < c.time ∧
    ∀ next ∈ lastEntry env s.log, next.1 ≤ 2 ^ 53

/-! ## The entry of a call -/

theorem double_of_le {n : ℤ} (h : n.natAbs ≤ 2 ^ 53) : double n = n := if_pos h

theorem double_pos {n : ℤ} (h : 0 < n) : 0 < double n := by
  unfold double
  simp only
  split
  · exact h
  · rename_i hbig
    have hunit : 0 < 2 ^ (n.natAbs.log2 - 52) := Nat.two_pow_pos _
    have hle : 2 ^ (n.natAbs.log2 - 52) ≤ n.natAbs := by
      calc 2 ^ (n.natAbs.log2 - 52) ≤ 2 ^ n.natAbs.log2 :=
            Nat.pow_le_pow_right (by decide) (Nat.sub_le _ _)
        _ ≤ n.natAbs := Nat.log2_self_le (by omega)
    have hq : 0 < n.natAbs / 2 ^ (n.natAbs.log2 - 52) := Nat.div_pos hle hunit
    rw [Int.sign_eq_one_of_pos h, Int.one_mul, Int.natCast_pos]
    refine Nat.mul_pos ?_ hunit
    split
    · exact Nat.succ_pos _
    · exact hq

theorem zero_not_mem_cstr (s : Bytes) : 0 ∉ cstr s := by
  intro h
  exact absurd (List.mem_takeWhile_imp h) (by decide)

section Entry

variable {env : Env} {c : Call} {seq : ℕ} {previous hash : Bytes} {signature : Object}

/-- The whole entry: `signature` is empty or has one member. -/
def Call.record (c : Call) (seq : ℕ) (previous hash : Bytes) (signature : Object) : Object :=
  c.members seq previous ++ (bytes "hash", .str hash) :: signature

def Signed (env : Env) (hash : Bytes) (signature : Object) : Prop :=
  signature = [] ∨
    ∃ s, signature = [(bytes "signature", .str s)] ∧ env.sign hash = some s

theorem added_eq_self {o : Object} (h : ∀ m ∈ o, c.fails (.add m.1) = false) : c.added o = o := by
  refine List.filter_eq_self.mpr fun m hm => ?_
  rw [h m hm]
  rfl

theorem added_singleton (c : Call) (m : Bytes × Item) :
    c.added [m] = if c.fails (.add m.1) then [] else [m] := by
  unfold Call.added
  cases hfail : c.fails (.add m.1) with
  | true => rw [List.filter_cons_of_neg (by simp [hfail])]; rfl
  | false => rw [List.filter_cons_of_pos (by simp [hfail])]; rfl

theorem key_ne_signature {m : Bytes × Item} (h : m ∈ c.members seq previous) :
    m.1 ≠ bytes "signature" := by
  have hkeys : (c.members seq previous).map Prod.fst =
      [bytes "version", bytes "seq", bytes "timestamp", bytes "actor_uid", bytes "action",
        bytes "target", bytes "outcome", bytes "detail", bytes "previous_hash"] := rfl
  have hmem := List.mem_map_of_mem (f := Prod.fst) h
  rw [hkeys] at hmem
  revert hmem
  generalize m.1 = key
  revert key
  decide

theorem entry_eq_record (hadd : ∀ key, key ≠ bytes "signature" → c.fails (.add key) = false)
    {e : Object} (h : c.entry env seq previous = some e) :
    ∃ signature, Signed env (Sha256.hexDigest (env.print (c.members seq previous))) signature ∧
      e = c.record seq previous (Sha256.hexDigest (env.print (c.members seq previous)))
        signature := by
  have hmembers : c.added (c.members seq previous) = c.members seq previous :=
    added_eq_self fun m hm => hadd m.1 (key_ne_signature hm)
  have hhash : ∀ v, c.added [(bytes "hash", v)] = [(bytes "hash", v)] := by
    intro v
    have hkey := hadd (bytes "hash") (by decide)
    rw [added_singleton, if_neg (by simp [hkey])]
  have hpayload : payload env (c.members seq previous) = env.print (c.members seq previous) := rfl
  unfold Call.entry at h
  simp only [hmembers, hhash, hpayload] at h
  split at h
  · split at h
    · exact nomatch h
    · rcases Option.map_eq_some_iff.mp h with ⟨s, hs, rfl⟩
      rw [added_singleton]
      split
      · -- the signature could not be added
        exact ⟨[], .inl rfl, List.append_nil _⟩
      · exact ⟨_, .inr ⟨s, rfl, hs⟩, List.append_assoc _ _ _⟩
  · cases h
    exact ⟨[], .inl rfl, rfl⟩

theorem payload_record (h : Signed env hash signature) :
    payload env (c.record seq previous hash signature) = env.print (c.members seq previous) := by
  rcases h with rfl | ⟨s, rfl, -⟩
  · rfl
  · rfl

/-- The members that are looked for; the rest of the entry is no matter. -/
theorem records_record (haction : c.action ≠ none) (htarget : c.target ≠ none)
    (houtcome : c.outcome ≠ none) : Records (c.record seq previous hash signature) c := by
  have hsome : ∀ {o : Option Bytes}, o ≠ none → some (cstr (o.getD [])) = o.map cstr := by
    intro o ho
    cases o with
    | none => exact absurd rfl ho
    | some s => rfl
  constructor
  · exact hsome haction
  · exact hsome htarget
  · exact hsome houtcome
  · rfl
  · rfl
  · rfl

theorem entryValid_record (he : env.Faithful) (htime : 0 < c.time) (hseq : seq ≤ 2 ^ 53)
    (hsigned : Signed env (Sha256.hexDigest (env.print (c.members seq previous))) signature) :
    entryValid env (c.record seq previous
        (Sha256.hexDigest (env.print (c.members seq previous))) signature) seq previous =
      some (Sha256.hexDigest (env.print (c.members seq previous))) := by
  set hash := Sha256.hexDigest (env.print (c.members seq previous)) with hhash
  set e := c.record seq previous hash signature with hentry
  have hversion : e.jsonU64 (bytes "version") = 1 := rfl
  have hnumber : e.jsonU64 (bytes "seq") = seq := by
    have hfloor : e.jsonU64 (bytes "seq") = ((double seq : ℤ) : ℚ).floor.toNat := rfl
    rw [hfloor, double_of_le (by omega), Rat.floor_intCast, Int.toNat_natCast]
  have hclock : e.jsonU64 (bytes "timestamp") ≠ 0 := by
    have hfloor : e.jsonU64 (bytes "timestamp") = ((double c.time : ℤ) : ℚ).floor.toNat := rfl
    have hpos := double_pos htime
    rw [hfloor, Rat.floor_intCast]
    omega
  have hprevious : e.jsonString (bytes "previous_hash") = some previous := rfl
  have hstored : e.jsonString (bytes "hash") = some hash := rfl
  have hlength : (some hash).map List.length = some hashHexLen :=
    congrArg some (Sha256.length_hexDigest _)
  have hpresent : ¬ (e.jsonString (bytes "previous_hash") ≠ some previous ∨
      (e.jsonString (bytes "hash")).map List.length ≠ some hashHexLen ∨
      e.jsonU64 (bytes "timestamp") = 0 ∨
      e.jsonString (bytes "action") = none ∨ e.jsonString (bytes "target") = none ∨
      e.jsonString (bytes "outcome") = none ∨ e.jsonString (bytes "detail") = none ∨
      e.item (bytes "actor_uid") = none) := by
    rintro (h | h | h | h | h | h | h | h)
    · exact h hprevious
    · exact h (hstored ▸ hlength)
    · exact hclock h
    all_goals exact nomatch h
  have hcomputed : Sha256.hexDigest (payload env e) = hash := by
    rw [hentry, payload_record hsigned]
  unfold entryValid
  rw [if_neg (by simp [hversion, hnumber]), if_neg hpresent]
  simp only [hcomputed, hstored, ne_eq, not_true_eq_false, if_false]
  rcases hsigned with rfl | ⟨s, rfl, hs⟩
  · rfl
  · have hsignature : e.jsonString (bytes "signature") = some s := rfl
    have hverify := (he.verify_sign hash s hs).2
    rw [hsignature]
    split
    · rfl
    · rfl
    · rename_i _ _ _ heq
      cases heq
      rw [if_pos hverify]

theorem plain_record (c : Call) (seq : ℕ) (he : env.Faithful) (hprevious : 0 ∉ previous)
    (hsigned : Signed env hash signature) (hhash : 0 ∉ hash) :
    ∀ m ∈ c.record seq previous hash signature, Plain m := by
  have hnum : ∀ {key} (n : ℤ), 0 ∉ key → Plain (key, .num (double n)) :=
    fun n hkey => ⟨hkey, n, rfl⟩
  have hstr : ∀ {key s}, 0 ∉ key → 0 ∉ s → Plain (key, .str s) := fun hkey hs => ⟨hkey, hs⟩
  have hcstr := zero_not_mem_cstr
  have hsignature : ∀ m ∈ signature, Plain m := by
    rcases hsigned with rfl | ⟨s, rfl, hs⟩
    · exact List.forall_mem_nil _
    · rw [List.forall_mem_singleton]
      exact hstr (by decide) (he.verify_sign hash s hs).1
  unfold Call.record Call.members
  simp only [List.cons_append, List.nil_append, List.forall_mem_cons]
  refine ⟨hnum _ ?_, hnum _ ?_, hnum _ ?_, hnum _ ?_, hstr ?_ (hcstr _), hstr ?_ (hcstr _),
    hstr ?_ (hcstr _), hstr ?_ (hcstr _), hstr ?_ hprevious, hstr ?_ hhash, hsignature⟩
  all_goals decide

theorem zero_not_mem_hexDigest (msg : Bytes) : 0 ∉ Sha256.hexDigest msg := by
  intro h
  rcases Sha256.mem_hexDigest h with ⟨d, hd, heq⟩
  revert d
  decide

end Entry

/-! ## A log that verifies -/

variable {env : Env}

theorem closed_of_lastEntry {log : Bytes} {next : ℕ × Bytes} (h : lastEntry env log = some next) :
    Closed 10 log := by
  refine closed_of_read (fun st l st' hline => ?_) h
  unfold readLine at hline
  split at hline
  · exact nomatch hline
  · rename_i hbad
    rw [not_or, not_not] at hbad
    exact hbad.2

theorem lastEntry_append {log text : Bytes} {next : ℕ × Bytes}
    (h : lastEntry env log = some next) (htext : 10 ∉ text) :
    lastEntry env (log ++ (text ++ [10])) = readLine env next (text ++ [10]) := by
  unfold lastEntry at h ⊢
  rw [read_append (closed_of_lastEntry h), h, Option.bind_some, read_line htext]

theorem entries_append {log text : Bytes} (h : Closed 10 log) (htext : 10 ∉ text) :
    entries env (log ++ (text ++ [10])) = entries env log ++ (env.parse text).toList := by
  rw [entries, lines_append h, List.filterMap_append, lines_line htext]
  congr 1
  rw [List.filterMap_cons, List.dropLast_concat]
  cases env.parse text with
  | none => rfl
  | some e => rfl

theorem Call.line_eq_some {c : Call} {log line : Bytes} (h : c.line env log = some line) :
    ((c.action.map cstr).getD [] ≠ [] ∧ c.target ≠ none ∧ c.outcome ≠ none) ∧
      ∃ next entry, lastEntry env log = some next ∧ c.entry env next.1 next.2 = some entry ∧
        (env.print entry).length + 1 ≤ lineMax ∧ line = env.print entry ++ [10] := by
  unfold Call.line at h
  split at h
  · exact nomatch h
  · rename_i hargs
    rw [not_or, not_or] at hargs
    refine ⟨hargs, ?_⟩
    split at h
    · exact nomatch h
    · split at h
      · exact nomatch h
      · rename_i seq previous hlast
        split at h
        · exact nomatch h
        · split at h
          · exact nomatch h
          · rename_i entry hentry
            split at h
            · exact nomatch h
            · rename_i hprint
              rw [not_or, not_lt] at hprint
              exact ⟨(seq, previous), entry, hlast, hentry, hprint.2, (Option.some.inj h).symm⟩

theorem readLine_entry (he : env.Faithful) {c : Call} {next : ℕ × Bytes}
    (hhash : 0 ∉ next.2) (hseq : next.1 ≤ 2 ^ 53) (htime : 0 < c.time)
    (hadd : ∀ key, key ≠ bytes "signature" → c.fails (.add key) = false) {e : Object}
    (hentry : c.entry env next.1 next.2 = some e) (hfits : (env.print e).length + 1 ≤ lineMax) :
    env.parse (env.print e) = some e ∧
      ∃ hash, 0 ∉ hash ∧ readLine env next (env.print e ++ [10]) = some (next.1 + 1, hash) := by
  rcases entry_eq_record hadd hentry with ⟨signature, hsigned, rfl⟩
  have hnew := zero_not_mem_hexDigest (env.print (c.members next.1 next.2))
  have hparse := he.parse_print _ (plain_record c next.1 he hhash hsigned hnew)
  refine ⟨hparse, _, hnew, ?_⟩
  rw [readLine, if_neg]
  · rw [List.dropLast_concat, hparse]
    simp only
    rw [entryValid_record he htime hseq hsigned, Option.map_some]
  · rw [not_or, not_lt, not_not, List.length_append, List.getLast?_concat]
    exact ⟨hfits, rfl⟩

/-- The log verifies up to the next entry, and `kept` are the calls of its entries. -/
structure Sound (env : Env) (s : State) (kept : List (Call × Bool)) (next : ℕ × Bytes) :
    Prop where
  last : lastEntry env s.log = some next
  count : next.1 = (entries env s.log).length + 1
  hash : 0 ∉ next.2
  sublist : kept.Sublist s.calls
  results : kept.filter Prod.snd = s.calls.filter Prod.snd
  synced : ∀ r ∈ kept, r.2 = true ∨ r.1.fails .sync = true
  records : List.Forall₂ Records (entries env s.log) (kept.map Prod.fst)

section Sound

variable {s : State} {kept : List (Call × Bool)} {next : ℕ × Bytes}

theorem Sound.idle (h : Sound env s kept next) (c : Call) :
    Sound env ⟨s.log, s.calls ++ [(c, false)]⟩ kept next where
  last := h.last
  count := h.count
  hash := h.hash
  sublist := h.sublist.trans (List.sublist_append_left _ _)
  results := by rw [h.results, List.filter_append]; simp
  synced := h.synced
  records := h.records

theorem Sound.append (h : Sound env s kept next) {c : Call} {e : Object} {hash : Bytes}
    (hhash : 0 ∉ hash) (hparse : env.parse (env.print e) = some e) (hline : 10 ∉ env.print e)
    (hread : readLine env next (env.print e ++ [10]) = some (next.1 + 1, hash))
    (hrecords : Records e c) :
    Sound env ⟨s.log ++ (env.print e ++ [10]), s.calls ++ [(c, !c.fails .sync)]⟩
      (kept ++ [(c, !c.fails .sync)]) (next.1 + 1, hash) := by
  have hentries : entries env (s.log ++ (env.print e ++ [10])) = entries env s.log ++ [e] := by
    rw [entries_append (closed_of_lastEntry h.last) hline, hparse]
    rfl
  constructor
  · rw [lastEntry_append h.last hline, hread]
  · rw [hentries, List.length_append, List.length_singleton]
    exact congrArg (· + 1) h.count
  · exact hhash
  · exact h.sublist.append (List.Sublist.refl _)
  · rw [List.filter_append, List.filter_append, h.results]
  · intro r hr
    rcases List.mem_append.mp hr with hr | hr
    · exact h.synced r hr
    · rw [List.mem_singleton.mp hr]
      cases hsync : c.fails .sync with
      | true => exact .inr rfl
      | false => exact .inl rfl
  · rw [hentries, List.map_append]
    exact List.rel_append h.records (.cons hrecords .nil)

theorem Sound.step (he : env.Faithful) (h : Sound env s kept next) {c : Call}
    (hwhole : Whole env s c) : ∃ kept next, Sound env (step env s c) kept next := by
  unfold Audit.step auditRecord
  split
  · rename_i hdisabled
    rw [hdisabled]
    exact ⟨kept, next, h⟩
  · rename_i henabled
    rw [Bool.not_eq_false] at henabled
    simp only [henabled, if_true]
    split
    · exact ⟨kept, next, h.idle c⟩
    · rename_i line hline
      simp only
      by_cases hnone : c.short = some 0
      · -- nothing is written
        rcases Call.line_eq_some hline with ⟨-, -, e, -, -, -, rfl⟩
        simp only [hnone, Option.getD_some, List.take_zero, List.append_nil, List.length_nil,
          List.length_append, List.length_singleton]
        exact ⟨kept, next, by simpa using h.idle c⟩
      · rcases hwhole henabled line hline hnone with ⟨hshort, hadd, htime, hseq⟩
        rcases Call.line_eq_some hline with ⟨⟨haction, htarget, houtcome⟩, next', e, hlast,
          hentry, hfits, rfl⟩
        cases (hlast.symm.trans h.last)
        rcases readLine_entry he h.hash (hseq next h.last) htime hadd hentry hfits with
          ⟨hparse, hash, hhash, hread⟩
        have hrecords : Records e c := by
          rcases entry_eq_record hadd hentry with ⟨signature, -, rfl⟩
          refine records_record (fun hnone => haction ?_) htarget houtcome
          rw [hnone]
          rfl
        have happend := h.append hhash hparse (he.print_line e) hread hrecords
        rw [List.take_of_length_le hshort]
        simp only [decide_true, Bool.true_and]
        exact ⟨_, _, happend⟩

theorem Sound.usable (h : Sound env s kept next) : Usable env s where
  verifies := by rw [auditVerify, h.last, Option.map_some, h.count, Nat.add_sub_cancel]
  records := ⟨kept, h.sublist, h.results, h.synced, h.records⟩
  next := by
    intro c hc
    rcases hc.fits next.1 next.2 h.last with ⟨e, hentry, hfits⟩
    have hline : c.line env s.log = some (env.print e ++ [10]) := by
      rw [Call.line, if_neg, if_neg, h.last]
      · simp only [hc.sound, Option.mem_def.mp hentry, Bool.false_eq_true, false_or, if_false]
        rw [if_neg (not_lt.mpr hfits)]
      · simp only [hc.sound, Bool.false_eq_true, or_self, not_false_eq_true]
      · rw [not_or, not_or]
        exact ⟨hc.action, hc.target, hc.outcome⟩
    rw [auditRecord, if_neg (by rw [hc.enabled]; decide), hline]
    simp only [hc.whole, Option.getD_none, List.take_length, decide_true, hc.sound,
      Bool.not_false, Bool.and_self]

end Sound

/-- In every run of calls that each write nothing or a whole sound line, the log is usable in
every state. -/
theorem audit_log_usable (he : env.Faithful) {cs : List Call}
    (h : AllSteps (step env) (Whole env) .init cs) {t : State}
    (ht : Reaches (step env) .init cs t) : Usable env t := by
  have h0 : ∃ kept next, Sound env .init kept next :=
    ⟨[], (1, []), rfl, rfl, List.not_mem_nil, .slnil, rfl, List.forall_mem_nil _, .nil⟩
  have hkeep : ∀ s c, (∃ kept next, Sound env s kept next) → Whole env s c →
      ∃ kept next, Sound env (step env s c) kept next := by
    rintro s c ⟨kept, next, hs⟩ hc
    exact hs.step he hc
  rcases h.invariant_reaches hkeep h0 ht with ⟨kept, next, hsound⟩
  exact hsound.usable

/-! ## A site without signatures -/

def scalarOf : Item → Json.Scalar
  | .num value => .int value.floor
  | .str s | .other s => .str s

def intOf (text : Bytes) : ℤ :=
  if text.head? = some 45 then -(digitsValue text.tail : ℤ) else digitsValue text

def itemOf : Json.Value → Item
  | .num text => .num (intOf text)
  | .str s => .str s
  | .null | .bool _ | .arr _ | .obj _ => .other []

def plainPrint (o : Object) : Bytes :=
  Json.printObject (o.map fun m => (m.1, scalarOf m.2))

def plainParse (s : Bytes) : Option Object :=
  if s = [123, 125] then some []
  else
    match s with
    | [] => none
    | brace :: rest =>
      if brace ≠ 123 then none
      else
        match Json.members (rest.length + 1) rest with
        | some (ms, []) => some (ms.map fun m => (m.1, itemOf m.2))
        | _ => none

def plainEnv : Env := ⟨plainPrint, plainParse, fun _ => none, fun _ _ => false⟩

theorem intOf_decimalInt (n : ℤ) : intOf (decimalInt n) = n := by
  unfold decimalInt
  split
  · have hhead : (45 :: decimal n.natAbs).head? = some 45 := rfl
    rw [intOf, if_pos hhead, List.tail_cons, digitsValue_decimal]
    omega
  · have hhead : (decimal n.natAbs).head? ≠ some 45 := by
      intro h
      have hdigit := isDigit_of_mem_decimal (List.mem_of_head? h)
      exact absurd hdigit (by decide)
    rw [intOf, if_neg hhead, digitsValue_decimal]
    omega

theorem itemOf_scalarOf {m : Bytes × Item} (h : Plain m) :
    itemOf (scalarOf m.2).value = m.2 := by
  rcases m with ⟨key, value | s | text⟩
  · rcases h.2 with ⟨n, rfl⟩
    change Item.num (intOf (decimalInt (Rat.floor _))) = _
    rw [Rat.floor_intCast, intOf_decimalInt]
  · rfl
  · exact h.2.elim

theorem not_mem_quote (s : Bytes) : 10 ∉ Json.quote s := by
  have hbyte : ∀ c, 10 ∉ Json.escapeByte c := by
    intro c
    unfold Json.escapeByte
    split
    · rename_i hspecial
      rcases hspecial with rfl | rfl
      · decide
      · decide
    · split
      · intro h
        simp only [List.mem_cons] at h
        rcases h with h | h | h
        · exact absurd h (by decide)
        · exact absurd h (by decide)
        · rcases mem_hex h with ⟨d, hd, heq⟩
          revert d
          decide
      · rename_i hcontrol
        rw [List.mem_singleton]
        rintro rfl
        exact hcontrol (by decide)
  unfold Json.quote Json.escape
  simp only [List.mem_cons, List.mem_append, List.mem_flatMap, List.not_mem_nil, or_false]
  rintro (h | ⟨c, -, hc⟩ | h)
  · exact absurd h (by decide)
  · exact hbyte c hc
  · exact absurd h (by decide)

theorem not_mem_printMember (m : Bytes × Json.Scalar) : 10 ∉ Json.printMember m := by
  have hprint : 10 ∉ m.2.print := by
    cases m.2 with
    | str s => exact not_mem_quote s
    | int n =>
      have hdecimal : 10 ∉ decimal n.natAbs := not_mem_decimal (by decide)
      unfold Json.Scalar.print decimalInt
      simp only
      split
      · rw [List.mem_cons, not_or]
        exact ⟨by decide, hdecimal⟩
      · exact hdecimal
  unfold Json.printMember
  rw [List.mem_append, List.mem_cons]
  rintro (h | h | h)
  · exact not_mem_quote m.1 h
  · exact absurd h (by decide)
  · exact hprint h

theorem not_mem_printObject (ms : List (Bytes × Json.Scalar)) : 10 ∉ Json.printObject ms := by
  have hmembers : 10 ∉ Json.printMembers ms := by
    induction ms with
    | nil => decide
    | cons m ms ih =>
      cases ms with
      | nil =>
        unfold Json.printMembers
        rw [List.mem_append, not_or]
        exact ⟨not_mem_printMember m, by decide⟩
      | cons m' ms =>
        rw [Json.printMembers_cons_cons, List.mem_append, List.mem_cons]
        rintro (h | h | h)
        · exact not_mem_printMember m h
        · exact absurd h (by decide)
        · exact ih h
  unfold Json.printObject
  rw [List.mem_cons, not_or]
  exact ⟨by decide, hmembers⟩

theorem plainParse_plainPrint {o : Object}
    (ho : ∀ m ∈ o, itemOf (scalarOf m.2).value = m.2) : plainParse (plainPrint o) = some o := by
  cases o with
  | nil => rfl
  | cons m o =>
    set ms := (m :: o).map fun m => (m.1, scalarOf m.2) with hms
    have hne : ms ≠ [] := List.cons_ne_nil _ _
    have hprint : plainPrint (m :: o) = 123 :: Json.printMembers ms := rfl
    have hempty : (123 :: Json.printMembers ms : Bytes) ≠ [123, 125] := by
      rcases Json.printMembers_head hne with ⟨t, ht⟩
      rw [ht]
      intro h
      exact absurd (List.cons.inj (List.cons.inj h).2).1 (by decide)
    have hread : Json.members ((Json.printMembers ms).length + 1) (Json.printMembers ms) =
        some (Json.readMembers ms, []) :=
      Json.members_printMembers hne (Nat.lt_succ_of_le (Json.length_le_printMembers ms))
    rw [hprint, plainParse, if_neg hempty]
    simp only [ne_eq, not_true_eq_false, if_false, hread]
    rw [hms, Json.readMembers, List.map_map, List.map_map]
    refine congrArg some ((List.map_congr_left fun m hm => ?_).trans (List.map_id _))
    exact Prod.ext rfl (ho m hm)

theorem parse_plainPrint {o : Object} (ho : ∀ m ∈ o, Plain m) :
    plainParse (plainPrint o) = some o :=
  plainParse_plainPrint fun m hm => itemOf_scalarOf (ho m hm)

theorem faithful_plainEnv : plainEnv.Faithful where
  parse_print := fun _ ho => parse_plainPrint ho
  print_line := fun _ => not_mem_printObject _
  verify_sign := by
    intro hash signature h
    exact nomatch h

def plainCall : Call :=
  ⟨true, false, 1, some (bytes "a"), some [], some [], none, 1, fun _ => false, none⟩

theorem usable_plainCall : Usable plainEnv (run (step plainEnv) .init [plainCall]) := by
  have hwhole : Whole plainEnv .init plainCall := by
    intro _ line _ _
    refine ⟨le_rfl, fun _ _ => rfl, by decide, ?_⟩
    intro next hnext
    cases hnext
    decide
  have hall : AllSteps (step plainEnv) (Whole plainEnv) .init [plainCall] := ⟨hwhole, trivial⟩
  exact audit_log_usable faithful_plainEnv hall (reaches_run _ _)

/-- One byte is written of the first line. The call returns false, but the log does not
verify after it. -/
theorem torn_entry_refused :
    ¬ Usable plainEnv (run (step plainEnv) .init [{ plainCall with short := some 1 }]) := by
  intro h
  have hlog : (run (step plainEnv) .init [{ plainCall with short := some 1 }]).log = [123] := by
    decide +kernel
  have hnone : auditVerify plainEnv [123] = none := rfl
  have hverifies := h.verifies
  rw [hlog, hnone] at hverifies
  exact nomatch hverifies

end FlyBoard.Audit

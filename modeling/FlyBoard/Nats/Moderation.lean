import FlyBoard.Db.Review
import Mathlib.Data.Rat.Cast.Order
import Mathlib.Data.List.Perm.Subperm

/-!
# Decisions from the reviewer (`src/nats/moderation.c`)

`fly_moderation_process_decision`, from the bytes of a message to the call of
`db_moderation_external_apply`. cJSON and the verification of signatures are parameters.

The conditions are those of C, evaluated from left to right, and a string that is not
there is NULL: `none` stands for the undefined behaviour of a `strcmp` or `strlen` that
is handed one.
-/

namespace FlyBoard.NatsModeration

open Bytes
open Review (ExternalResult Outcome)

/-! ## cJSON -/

/-- A member of an object. A number is its `valuedouble`; a literal past the range of
doubles counts as one that large. -/
inductive Value
  | number (valuedouble : ℚ)
  | string (valuestring : Bytes)
  | other
deriving DecidableEq

abbrev Members := List (Bytes × Value)

inductive Parsed
  | object (members : Members)
  | other
deriving DecidableEq

structure CJson where
  /-- `cJSON_ParseWithLength` -/
  parse : Bytes → Option Parsed
  /-- `cJSON_CreateObject` returns an object: there is memory for it. -/
  createObject : Bool
  /-- `cJSON_PrintUnformatted` of an object -/
  printUnformatted : Members → Option Bytes

/-- `valueint` -/
def valueInt (d : ℚ) : ℤ := max (-(2 ^ 31)) (min (d.num.tdiv d.den) (2 ^ 31 - 1))

/-- `cJSON_GetObjectItemCaseSensitive`: the first member of the name. -/
def getObjectItem (m : Members) (name : String) : Option Value :=
  (m.find? fun c => c.1 == bytes name).map (·.2)

def jsonString (m : Members) (name : String) : Option Bytes :=
  match getObjectItem m name with
  | some (.string s) => some s
  | _ => none

def jsonInteger (m : Members) (name : String) : Option ℤ :=
  match getObjectItem m name with
  | some (.number d) =>
    if d < 0 ∨ 253402300799 < d then none
    else
      let out := d.num.tdiv d.den
      if (out : ℚ) = d then some out else none
  | _ => none

/-! ## Conditions -/

abbrev Cond := Option Bool

/-- `a && b` -/
def cAnd : Cond → Cond → Cond
  | some true, b => b
  | some false, _ => some false
  | none, _ => none

/-- `a || b` -/
def cOr : Cond → Cond → Cond
  | some true, _ => some true
  | some false, b => b
  | none, _ => none

/-- `strcmp(a, b) == 0` -/
def strcmpEq : Option Bytes → Bytes → Cond
  | some a, b => some (a == b)
  | none, _ => none

/-- `strcmp(a, b) != 0` -/
def strcmpNe (a : Option Bytes) (b : Bytes) : Cond := (strcmpEq a b).map (!·)

/-- `strlen(a) > n` -/
def longer (a : Option Bytes) (n : ℕ) : Cond := a.map fun s => decide (n < s.length)

/-! ## The checks -/

def validCorrelation : Option Bytes → Bool
  | some id => id.length == 32 && id.all fun c => isDigit c || (97 ≤ c && c ≤ 102)
  | none => false

def validDecisionId : Option Bytes → Bool
  | some id => 0 < id.length && id.length ≤ 64 && id.all fun c =>
      isDigit c || (65 ≤ c && c ≤ 90) || (97 ≤ c && c ≤ 122) || c == 45 || c == 95
  | none => false

/-- `cJSON_IsNumber(version) && version->valueint == MODERATION_PROTOCOL_VERSION` -/
def versionOk (m : Members) : Bool :=
  match getObjectItem m "version" with
  | some (.number d) => valueInt d == 1
  | _ => false

def validEnvelope (obj : Option Parsed) (type : Bytes) (fields : ℕ) : Cond :=
  match obj with
  | some (.object m) =>
    if m.length ≠ fields then some false
    else
      cAnd (some (versionOk m)) <|
      cAnd (some (jsonString m "type").isSome) <|
      cAnd (strcmpEq (jsonString m "type") type) <|
      cAnd (some (jsonString m "sig_alg").isSome) <|
      cAnd (strcmpEq (jsonString m "sig_alg") (bytes "ML-DSA-65")) <|
      cAnd (some (jsonString m "sig_b64").isSome) (some (jsonString m "pubkey_b64").isSome)
  | _ => some false

def actions : List Bytes := [bytes "allow", bytes "pending", bytes "reject"]

/-- The clause of the action, which alone does not ask whether it is there. -/
def unsupported (action : Option Bytes) : Cond :=
  cAnd (strcmpNe action (bytes "allow")) <|
  cAnd (strcmpNe action (bytes "pending")) (strcmpNe action (bytes "reject"))

def refused (m : Members) (reviewer : Bytes) : Cond :=
  cOr (some (!validCorrelation (jsonString m "correlation_id"))) <|
  cOr (some (!validDecisionId (jsonString m "decision_id"))) <|
  cOr (some (jsonString m "reason").isNone) <|
  cOr (longer (jsonString m "reason") 256) <|
  cOr (some (jsonInteger m "issued_at").isNone) <|
  cOr (strcmpNe (jsonString m "pubkey_b64") reviewer) <|
  unsupported (jsonString m "action")

/-! ## The decision -/

structure Decision where
  version : ℚ
  type : Bytes
  correlationId : Bytes
  decisionId : Bytes
  action : Bytes
  issuedAt : ℚ
  reason : Bytes

def Decision.body (d : Decision) : Members :=
  [(bytes "version", .number d.version),
   (bytes "type", .string d.type),
   (bytes "correlation_id", .string d.correlationId),
   (bytes "decision_id", .string d.decisionId),
   (bytes "action", .string d.action),
   (bytes "issued_at", .number d.issuedAt),
   (bytes "reason", .string d.reason)]

/-- `moderation_action_t` of an action. -/
def moderationAction (action : Bytes) : Moderation.Action :=
  if action = bytes "allow" then .allow
  else if action = bytes "reject" then .reject
  else .pending

/-- What the function comes to: a result, or the call of `db_moderation_external_apply`
whose result it returns. -/
inductive Processed
  | returned (r : ExternalResult)
  | apply (e : Review.External)
deriving DecidableEq

section Process

-- `verify` is `fly_crypto_verify_moderation_decision`
variable (cjson : CJson) (verify : (pubkey canonical signature : Bytes) → Bool)

def signed (pubkey signature : Bytes) (d : Decision) : Bool :=
  match cjson.printUnformatted d.body with
  | some canonical => verify pubkey canonical signature
  | none => false

def judge (m : Members) (now : ℤ) : Option Processed :=
  match jsonString m "correlation_id", jsonString m "decision_id", jsonString m "action",
    jsonInteger m "issued_at", jsonString m "reason", jsonString m "pubkey_b64",
    jsonString m "sig_b64" with
  | some correlationId, some decisionId, some action, some issuedAt, some reason, some pubkey,
    some signature =>
    if signed cjson verify pubkey signature
        ⟨1, bytes "moderation.decision", correlationId, decisionId, action, issuedAt, reason⟩ then
      some (.apply ⟨correlationId, decisionId, moderationAction action, issuedAt, reason, now⟩)
    else some (.returned .rejected)
  | _, _, _, _, _, _, _ => none

/-- The members of what has passed `validEnvelope`. -/
def members : Option Parsed → Members
  | some (.object m) => m
  | _ => []

/-- `fly_moderation_process_decision` -/
def processDecision (db : Option Review.Store) (data reviewer : Option Bytes) (now : ℤ) :
    Option Processed :=
  match db, data, reviewer with
  | some _, some data, some reviewer =>
    if data.length = 0 ∨ 65536 < data.length then some (.returned .rejected)
    else
      let obj := cjson.parse data
      match validEnvelope obj (bytes "moderation.decision") 10 with
      | none => none
      | some false => some (.returned .rejected)
      | some true =>
        match refused (members obj) reviewer with
        | none => none
        | some true => some (.returned .rejected)
        | some false =>
          if cjson.createObject then judge cjson verify (members obj) now
          else some (.returned .error)
  | _, _, _ => some (.returned .rejected)

/-! ## What the function owes -/

def Processed.thread : Processed → Review.Thread
  | .returned r => .answered (.external r)
  | .apply e => (Review.Call.externalApply e).start

def Processed.run (p : Processed) (s : Review.Store) (os : List Outcome) :
    Review.Store × Review.Thread :=
  os.foldl (fun st o => st.2.exec o st.1) (s, p.thread)

def Rejects (r : Option Processed) : Prop :=
  ∃ p, r = some p ∧ ∀ s os, p.run s os = (s, .answered (.external .rejected))

def Carries (m : Members) (name : String) (v : Value) : Prop :=
  (m.filter fun c => c.1 == bytes name) = [(bytes name, v)]

structure CarriesDecision (m : Members) (d : Decision) : Prop where
  version : Carries m "version" (.number d.version)
  type : Carries m "type" (.string d.type)
  correlationId : Carries m "correlation_id" (.string d.correlationId)
  decisionId : Carries m "decision_id" (.string d.decisionId)
  action : Carries m "action" (.string d.action)
  issuedAt : Carries m "issued_at" (.number d.issuedAt)
  reason : Carries m "reason" (.string d.reason)

def Authentic (data reviewer : Option Bytes) : Prop :=
  ∃ text key m d signature, data = some text ∧ reviewer = some key ∧
    cjson.parse text = some (.object m) ∧ CarriesDecision m d ∧
    Carries m "pubkey_b64" (.string key) ∧ Carries m "sig_b64" (.string signature) ∧
    signed cjson verify key signature d = true

/-- No absent string is compared or hashed, and what is not authentic is rejected. -/
def KeepsContract (db : Option Review.Store) (data reviewer : Option Bytes) (now : ℤ) : Prop :=
  processDecision cjson verify db data reviewer now ≠ none ∧
  (¬ Authentic cjson verify data reviewer →
    Rejects (processDecision cjson verify db data reviewer now))

structure Vetted (m : Members) (reviewer : Bytes) : Prop where
  fields : m.length = 10
  version : versionOk m = true
  type : jsonString m "type" = some (bytes "moderation.decision")
  algorithm : jsonString m "sig_alg" = some (bytes "ML-DSA-65")
  signature : (jsonString m "sig_b64").isSome = true
  correlationId : validCorrelation (jsonString m "correlation_id") = true
  decisionId : validDecisionId (jsonString m "decision_id") = true
  reason : ∃ r, jsonString m "reason" = some r ∧ r.length ≤ 256
  issuedAt : (jsonInteger m "issued_at").isSome = true
  pubkey : jsonString m "pubkey_b64" = some reviewer

/-- The message gets as far as the comparisons of its action. -/
def Arrives (db : Option Review.Store) (data reviewer : Option Bytes) (m : Members) : Prop :=
  db.isSome = true ∧ ∃ text key, data = some text ∧ reviewer = some key ∧
    0 < text.length ∧ text.length ≤ 65536 ∧ cjson.parse text = some (.object m) ∧ Vetted m key

/-- `valuedouble` of the version. -/
def ownVersion (m : Members) : ℚ :=
  match getObjectItem m "version" with
  | some (.number d) => d
  | _ => 0

def decisionAs (m : Members) (version : ℚ) : Decision where
  version := version
  type := (jsonString m "type").getD []
  correlationId := (jsonString m "correlation_id").getD []
  decisionId := (jsonString m "decision_id").getD []
  action := (jsonString m "action").getD []
  issuedAt := (jsonInteger m "issued_at").getD 0
  reason := (jsonString m "reason").getD []

def SignedAs (m : Members) (version : ℚ) : Prop :=
  signed cjson verify ((jsonString m "pubkey_b64").getD []) ((jsonString m "sig_b64").getD [])
    (decisionAs m version) = true

end Process

/-! ## The members of a message -/

section Lookup

variable {m : Members} {name : String} {v : Value}

theorem Carries.getObjectItem (h : Carries m name v) :
    getObjectItem m name = some v := by
  unfold NatsModeration.getObjectItem
  rw [← List.head?_filter, h]
  rfl

theorem carries_of_nodup (hm : (m.map (·.1)).Nodup)
    (h : getObjectItem m name = some v) : Carries m name v := by
  unfold NatsModeration.getObjectItem at h
  unfold Carries
  induction m with
  | nil => exact nomatch h
  | cons c m ih =>
    rw [List.map_cons, List.nodup_cons] at hm
    rw [List.filter_cons]
    by_cases hc : c.1 = bytes name
    · have hrest : (m.filter fun c => c.1 == bytes name) = [] := by
        rw [List.filter_eq_nil_iff]
        intro c' hc' heq
        rw [beq_iff_eq] at heq
        exact hm.1 (List.mem_map.mpr ⟨c', hc', heq.trans hc.symm⟩)
      rw [List.find?_cons_of_pos (by simpa using hc), Option.map_some, Option.some.injEq] at h
      rw [if_pos (by simpa using hc), hrest, ← hc, ← h]
    · rw [List.find?_cons_of_neg (by simpa using hc)] at h
      rw [if_neg (by simpa using hc)]
      exact ih hm.2 h

theorem mem_names_of_getObjectItem (h : getObjectItem m name = some v) :
    bytes name ∈ m.map (·.1) := by
  rcases Option.map_eq_some_iff.mp h with ⟨c, hc, -⟩
  have hname : c.1 = bytes name := by simpa using List.find?_some hc
  exact List.mem_map.mpr ⟨c, List.mem_of_find?_eq_some hc, hname⟩

theorem jsonString_eq_some {s : Bytes} :
    jsonString m name = some s ↔ getObjectItem m name = some (.string s) := by
  unfold jsonString
  constructor
  · intro h
    split at h
    · next hitem =>
      rw [hitem, Option.some.inj h]
    · exact nomatch h
  · intro h
    rw [h]

theorem jsonInteger_eq_some {n : ℤ} (h : jsonInteger m name = some n) :
    getObjectItem m name = some (.number n) := by
  unfold jsonInteger at h
  split at h
  · next d hitem =>
    split at h
    · exact nomatch h
    · dsimp only at h
      split at h
      · next heq =>
        rw [hitem, ← Option.some.inj h, heq]
      · exact nomatch h
  · exact nomatch h

end Lookup

/-! ## What the checks come to -/

section Checks

variable {m : Members} {reviewer : Bytes}

theorem cAnd_some_some (a b : Bool) : cAnd (some a) (some b) = some (a && b) := by
  cases a <;> rfl

/-- A conjunct that is asked for after a test of its argument is defined. -/
theorem cAnd_isSome_strcmpEq (a : Option Bytes) (b : Bytes) (c : Cond) :
    cAnd (some a.isSome) (cAnd (strcmpEq a b) c) = cAnd (some (a == some b)) c := by
  cases a with
  | none => rfl
  | some a =>
    by_cases h : a = b
    · simp [cAnd, strcmpEq, h]
    · simp [cAnd, strcmpEq, beq_false_of_ne h]

theorem validEnvelope_object (m : Members) (type : Bytes) (fields : ℕ) :
    validEnvelope (some (.object m)) type fields =
      some (decide (m.length = fields) && (versionOk m && (jsonString m "type" == some type &&
        (jsonString m "sig_alg" == some (bytes "ML-DSA-65") &&
        ((jsonString m "sig_b64").isSome && (jsonString m "pubkey_b64").isSome))))) := by
  dsimp only [validEnvelope]
  rw [cAnd_isSome_strcmpEq, cAnd_isSome_strcmpEq, cAnd_some_some, cAnd_some_some,
    cAnd_some_some, cAnd_some_some]
  split
  · next hne => rw [decide_eq_false hne, Bool.false_and]
  · next heq => rw [decide_eq_true (not_not.mp heq), Bool.true_and]

def clausesOk (m : Members) (reviewer : Bytes) : Bool :=
  validCorrelation (jsonString m "correlation_id") &&
    validDecisionId (jsonString m "decision_id") &&
    (jsonString m "reason").any (fun r => r.length ≤ 256) &&
    (jsonInteger m "issued_at").isSome && jsonString m "pubkey_b64" == some reviewer

theorem cOr_some_not (a : Bool) (b : Cond) : cOr (some !a) b = if a then b else some true := by
  cases a <;> rfl

theorem cOr_isNone_longer (a : Option Bytes) (n : ℕ) (b : Cond) :
    cOr (some a.isNone) (cOr (longer a n) b) =
      if a.any fun s => s.length ≤ n then b else some true := by
  cases a with
  | none => rfl
  | some a =>
    by_cases h : a.length ≤ n
    · simp [cOr, longer, h, Nat.not_lt.mpr h]
    · simp [cOr, longer, h, Nat.not_le.mp h]

theorem cOr_strcmpNe {a : Option Bytes} (h : a.isSome = true) (b : Bytes) (c : Cond) :
    cOr (strcmpNe a b) c = if a == some b then c else some true := by
  rcases Option.isSome_iff_exists.mp h with ⟨a, rfl⟩
  by_cases hab : a = b
  · simp [cOr, strcmpNe, strcmpEq, hab]
  · simp [cOr, strcmpNe, strcmpEq, beq_false_of_ne hab]

/-- After the envelope only the action can be compared without being there. -/
theorem refused_eq (h : (jsonString m "pubkey_b64").isSome = true) :
    refused m reviewer =
      if clausesOk m reviewer then unsupported (jsonString m "action") else some true := by
  have hand : ∀ (a b : Bool) (c d : Cond),
      (if a then (if b then c else d) else d) = if a && b then c else d := by
    intro a b c d
    cases a <;> rfl
  have hnone : some (jsonInteger m "issued_at").isNone =
      some !(jsonInteger m "issued_at").isSome := by
    rw [Option.not_isSome]
  unfold refused clausesOk
  rw [cOr_some_not, cOr_some_not, cOr_isNone_longer, hnone, cOr_some_not, cOr_strcmpNe h,
    hand, hand, hand, hand]

theorem vetted_iff : Vetted m reviewer ↔
    validEnvelope (some (.object m)) (bytes "moderation.decision") 10 = some true ∧
      clausesOk m reviewer = true := by
  rw [validEnvelope_object, Option.some.injEq]
  simp only [clausesOk, Bool.and_eq_true, beq_iff_eq, decide_eq_true_eq, Option.any_eq_true]
  constructor
  · intro h
    exact ⟨⟨h.fields, h.version, h.type, h.algorithm, h.signature, Option.isSome_of_eq_some h.pubkey⟩,
      ⟨⟨⟨h.correlationId, h.decisionId⟩, h.reason⟩, h.issuedAt⟩, h.pubkey⟩
  · rintro ⟨⟨hfields, hversion, htype, halgorithm, hsignature, -⟩,
      ⟨⟨⟨hcorrelation, hdecision⟩, hreason⟩, hissued⟩, hpubkey⟩
    exact ⟨hfields, hversion, htype, halgorithm, hsignature, hcorrelation, hdecision, hreason,
      hissued, hpubkey⟩

theorem strcmpNe_some (a b : Bytes) : strcmpNe (some a) b = some !(a == b) := rfl

theorem unsupported_eq (action : Option Bytes) :
    unsupported action = action.map fun a => decide (a ∉ actions) := by
  cases action with
  | none => rfl
  | some a =>
    unfold unsupported
    rw [strcmpNe_some, strcmpNe_some, strcmpNe_some, cAnd_some_some, cAnd_some_some,
      Option.map_some, Option.some.injEq]
    simp [actions, Bool.beq_eq_decide_eq]

end Checks

/-! ## Ten fields, each of them once -/

section Once

def fieldNames : List String :=
  ["version", "type", "sig_alg", "sig_b64", "pubkey_b64", "correlation_id", "decision_id",
   "action", "issued_at", "reason"]

theorem fieldNames_nodup : (fieldNames.map bytes).Nodup := by decide +kernel

variable {m : Members} {reviewer : Bytes} {id : Option Bytes}

theorem isSome_of_validCorrelation (h : validCorrelation id = true) :
    id.isSome = true := by
  cases id with
  | none => exact absurd h Bool.false_ne_true
  | some id => rfl

theorem isSome_of_validDecisionId (h : validDecisionId id = true) :
    id.isSome = true := by
  cases id with
  | none => exact absurd h Bool.false_ne_true
  | some id => rfl

theorem getObjectItem_version (h : versionOk m = true) :
    getObjectItem m "version" = some (.number (ownVersion m)) := by
  unfold versionOk at h
  unfold ownVersion
  split at h
  · next d hitem => rw [hitem]
  · exact absurd h Bool.false_ne_true

/-- A message with everything that is asked for has nothing else and nothing twice. -/
theorem Vetted.names_nodup (h : Vetted m reviewer)
    (haction : (jsonString m "action").isSome = true) : (m.map (·.1)).Nodup := by
  have hstring : ∀ {name : String}, (jsonString m name).isSome = true →
      bytes name ∈ m.map (·.1) := by
    intro name hname
    rcases Option.isSome_iff_exists.mp hname with ⟨s, hs⟩
    exact mem_names_of_getObjectItem (jsonString_eq_some.mp hs)
  have hissued : bytes "issued_at" ∈ m.map (·.1) := by
    rcases Option.isSome_iff_exists.mp h.issuedAt with ⟨n, hn⟩
    exact mem_names_of_getObjectItem (jsonInteger_eq_some hn)
  have hsub : fieldNames.map bytes ⊆ m.map (·.1) := by
    intro b hb
    rcases List.mem_map.mp hb with ⟨name, hname, rfl⟩
    -- a lookup has found every one of them
    simp only [fieldNames, List.mem_cons, List.not_mem_nil, or_false] at hname
    rcases hname with rfl | rfl | rfl | rfl | rfl | rfl | rfl | rfl | rfl | rfl
    · exact mem_names_of_getObjectItem (getObjectItem_version h.version)
    · exact hstring (Option.isSome_of_eq_some h.type)
    · exact hstring (Option.isSome_of_eq_some h.algorithm)
    · exact hstring h.signature
    · exact hstring (Option.isSome_of_eq_some h.pubkey)
    · exact hstring (isSome_of_validCorrelation h.correlationId)
    · exact hstring (isSome_of_validDecisionId h.decisionId)
    · exact hstring haction
    · exact hissued
    · exact hstring (Option.isSome_of_eq_some h.reason.choose_spec.1)
  -- ten distinct names among ten members leave no room for another or a second one
  have hperm : (fieldNames.map bytes).Perm (m.map (·.1)) := by
    refine (fieldNames_nodup.subperm hsub).perm_of_length_le ?_
    rw [List.length_map, h.fields]
    exact Nat.le_refl _
  exact hperm.nodup_iff.mp fieldNames_nodup

theorem carries_jsonString (hm : (m.map (·.1)).Nodup) {name : String}
    (h : (jsonString m name).isSome = true) :
    Carries m name (.string ((jsonString m name).getD [])) := by
  rcases Option.isSome_iff_exists.mp h with ⟨s, hs⟩
  rw [hs]
  exact carries_of_nodup hm (jsonString_eq_some.mp hs)

/-- Such a message carries one decision: the one that the function reads, with the
message's own version. -/
theorem Vetted.carriesDecision_iff (h : Vetted m reviewer)
    (haction : (jsonString m "action").isSome = true) {d : Decision} :
    CarriesDecision m d ↔ d = decisionAs m (ownVersion m) := by
  constructor
  · intro hd
    have hstring : ∀ {name : String} {s : Bytes}, Carries m name (.string s) →
        s = (jsonString m name).getD [] := by
      intro name s hs
      rw [jsonString_eq_some.mpr hs.getObjectItem]
      rfl
    have hversion : d.version = ownVersion m := by
      have hitem := hd.version.getObjectItem
      rw [getObjectItem_version h.version] at hitem
      simpa using hitem.symm
    have hissued : d.issuedAt = ((jsonInteger m "issued_at").getD 0 : ℤ) := by
      rcases Option.isSome_iff_exists.mp h.issuedAt with ⟨n, hn⟩
      have hitem := hd.issuedAt.getObjectItem
      rw [jsonInteger_eq_some hn] at hitem
      rw [hn]
      simpa using hitem.symm
    cases d
    simp only [decisionAs, Decision.mk.injEq]
    exact ⟨hversion, hstring hd.type, hstring hd.correlationId, hstring hd.decisionId,
      hstring hd.action, hissued, hstring hd.reason⟩
  · rintro rfl
    have hm := h.names_nodup haction
    have hissued : Carries m "issued_at" (.number ((jsonInteger m "issued_at").getD 0 : ℤ)) := by
      rcases Option.isSome_iff_exists.mp h.issuedAt with ⟨n, hn⟩
      rw [hn]
      exact carries_of_nodup hm (jsonInteger_eq_some hn)
    exact {
      version := carries_of_nodup hm (getObjectItem_version h.version)
      type := carries_jsonString hm (Option.isSome_of_eq_some h.type)
      correlationId := carries_jsonString hm (isSome_of_validCorrelation h.correlationId)
      decisionId := carries_jsonString hm (isSome_of_validDecisionId h.decisionId)
      action := carries_jsonString hm haction
      issuedAt := hissued
      reason := carries_jsonString hm (Option.isSome_of_eq_some h.reason.choose_spec.1) }

end Once

/-! ## The function -/

section Contract

variable {cjson : CJson} {verify : (pubkey canonical signature : Bytes) → Bool}
  {db : Option Review.Store} {data reviewer : Option Bytes} {now : ℤ} {m : Members}

theorem Arrives.processDecision (h : Arrives cjson db data reviewer m) :
    processDecision cjson verify db data reviewer now =
      match unsupported (jsonString m "action") with
      | none => none
      | some true => some (.returned .rejected)
      | some false =>
        if cjson.createObject then judge cjson verify m now else some (.returned .error) := by
  rcases h with ⟨hdb, text, key, rfl, rfl, hpos, hlen, hparse, hvetted⟩
  rcases Option.isSome_iff_exists.mp hdb with ⟨s, rfl⟩
  have hchecks := vetted_iff.mp hvetted
  have hsize : ¬ (text.length = 0 ∨ 65536 < text.length) := by omega
  have hpubkey : (jsonString m "pubkey_b64").isSome = true :=
    Option.isSome_of_eq_some hvetted.pubkey
  unfold NatsModeration.processDecision
  dsimp only
  rw [if_neg hsize, hparse, hchecks.1]
  dsimp only [members]
  rw [refused_eq hpubkey, if_pos hchecks.2]

theorem processDecision_of_not_vetted {s : Review.Store} {text key : Bytes}
    (hparse : cjson.parse text = some (.object m)) (h : ¬ Vetted m key) :
    processDecision cjson verify (some s) (some text) (some key) now =
      some (.returned .rejected) := by
  dsimp only [processDecision]
  rw [hparse]
  split
  · rfl
  cases henvelope : validEnvelope (some (.object m)) (bytes "moderation.decision") 10 with
  | none =>
    rw [validEnvelope_object] at henvelope
    exact nomatch henvelope
  | some ok =>
    cases ok with
    | false => rfl
    | true =>
      -- all of the envelope is there, so a later clause refuses
      have hpubkey : (jsonString m "pubkey_b64").isSome = true := by
        rw [validEnvelope_object, Option.some.injEq] at henvelope
        simp only [Bool.and_eq_true] at henvelope
        exact henvelope.2.2.2.2.2
      have hclauses : clausesOk m key ≠ true := fun hok => h (vetted_iff.mpr ⟨henvelope, hok⟩)
      dsimp only [members]
      rw [refused_eq hpubkey, if_neg hclauses]

/-- Every message that does not arrive is rejected before anything is signed or written. -/
theorem processDecision_of_not_arrives (h : ∀ m, ¬ Arrives cjson db data reviewer m) :
    processDecision cjson verify db data reviewer now = some (.returned .rejected) := by
  rcases db with _ | s
  · rfl
  rcases data with _ | text
  · rfl
  rcases reviewer with _ | key
  · rfl
  by_cases hsize : text.length = 0 ∨ 65536 < text.length
  · exact if_pos hsize
  cases hparse : cjson.parse text with
  | none =>
    dsimp only [processDecision]
    rw [if_neg hsize, hparse]
    rfl
  | some parsed =>
    cases parsed with
    | other =>
      dsimp only [processDecision]
      rw [if_neg hsize, hparse]
      rfl
    | object m =>
      refine processDecision_of_not_vetted hparse ?_
      intro hvetted
      exact h m ⟨rfl, text, key, rfl, rfl, by omega, by omega, hparse, hvetted⟩

theorem Vetted.judge_eq {key : Bytes} (h : Vetted m key)
    (haction : (jsonString m "action").isSome = true) :
    judge cjson verify m now =
      if signed cjson verify ((jsonString m "pubkey_b64").getD [])
          ((jsonString m "sig_b64").getD []) (decisionAs m 1) then
        some (.apply ⟨(jsonString m "correlation_id").getD [],
          (jsonString m "decision_id").getD [],
          moderationAction ((jsonString m "action").getD []),
          (jsonInteger m "issued_at").getD 0, (jsonString m "reason").getD [], now⟩)
      else some (.returned .rejected) := by
  rcases Option.isSome_iff_exists.mp (isSome_of_validCorrelation h.correlationId) with
    ⟨correlationId, hcorrelation⟩
  rcases Option.isSome_iff_exists.mp (isSome_of_validDecisionId h.decisionId) with
    ⟨decisionId, hdecision⟩
  rcases Option.isSome_iff_exists.mp haction with ⟨action, haction⟩
  rcases Option.isSome_iff_exists.mp h.issuedAt with ⟨issuedAt, hissued⟩
  rcases Option.isSome_iff_exists.mp h.signature with ⟨signature, hsignature⟩
  rcases h.reason with ⟨reason, hreason, -⟩
  have hdecisionAs : decisionAs m 1 =
      ⟨1, bytes "moderation.decision", correlationId, decisionId, action, issuedAt, reason⟩ := by
    simp only [decisionAs, h.type, hcorrelation, hdecision, haction, hissued, hreason,
      Option.getD_some]
  rw [hdecisionAs]
  simp only [judge, hcorrelation, hdecision, haction, hissued, hreason, h.pubkey, hsignature,
    Option.getD_some]

theorem Arrives.authentic_iff (h : Arrives cjson db data reviewer m)
    (haction : (jsonString m "action").isSome = true) :
    Authentic cjson verify data reviewer ↔ SignedAs cjson verify m (ownVersion m) := by
  rcases h with ⟨-, text, key, rfl, rfl, -, -, hparse, hvetted⟩
  unfold SignedAs
  constructor
  · rintro ⟨text', key', m', d, signature, htext, hkey, hparse', hd, -, hsignature, hsigned⟩
    cases htext
    cases hkey
    have hm : m' = m := by
      rw [hparse] at hparse'
      simpa using hparse'.symm
    subst hm
    rw [(hvetted.carriesDecision_iff haction).mp hd] at hsigned
    rw [hvetted.pubkey, jsonString_eq_some.mpr hsignature.getObjectItem]
    exact hsigned
  · intro hsigned
    have hm := hvetted.names_nodup haction
    refine ⟨text, key, m, decisionAs m (ownVersion m), (jsonString m "sig_b64").getD [], rfl, rfl,
      hparse, (hvetted.carriesDecision_iff haction).mpr rfl,
      carries_of_nodup hm (jsonString_eq_some.mp hvetted.pubkey),
      carries_jsonString hm hvetted.signature, ?_⟩
    rw [hvetted.pubkey] at hsigned
    exact hsigned

def emptyStore : Review.Store where
  tables := ⟨[], [], [], fun _ => none, 0, 0⟩
  requests := Keyed.Table.empty
  receipts := Keyed.Table.empty
  unique := List.nodup_nil

theorem run_answered (r : ExternalResult) (s : Review.Store) (os : List Outcome) :
    (Processed.returned r).run s os = (s, .answered (.external r)) := by
  unfold Processed.run
  induction os with
  | nil => rfl
  | cons o os ih => exact ih

theorem rejects_iff {r : Option Processed} : Rejects r ↔ r = some (.returned .rejected) := by
  constructor
  · rintro ⟨p, rfl, hp⟩
    have hthread : p.thread = .answered (.external .rejected) :=
      congrArg Prod.snd (hp emptyStore [])
    cases p with
    | returned r =>
      cases r with
      | rejected => rfl
      | error => exact nomatch hthread
      | applied => exact nomatch hthread
      | duplicate => exact nomatch hthread
    | apply e => exact nomatch hthread
  · rintro rfl
    exact ⟨_, rfl, run_answered .rejected⟩

theorem Arrives.unique (h : Arrives cjson db data reviewer m) {m' : Members}
    (h' : Arrives cjson db data reviewer m') : m' = m := by
  rcases h with ⟨-, text, key, rfl, rfl, -, -, hparse, -⟩
  rcases h' with ⟨-, text', key', htext, -, -, -, hparse', -⟩
  cases htext
  rw [hparse] at hparse'
  simpa using hparse'.symm

/-- The `strcmp` of an action that is not there. -/
theorem Arrives.absent (h : Arrives cjson db data reviewer m)
    (haction : jsonString m "action" = none) :
    NatsModeration.processDecision cjson verify db data reviewer now = none := by
  rw [h.processDecision, unsupported_eq, haction]
  rfl

theorem Arrives.unknown (h : Arrives cjson db data reviewer m) {action : Bytes}
    (haction : jsonString m "action" = some action) (hword : action ∉ actions) :
    NatsModeration.processDecision cjson verify db data reviewer now =
      some (.returned .rejected) := by
  rw [h.processDecision, unsupported_eq, haction, Option.map_some, decide_eq_true hword]

theorem Arrives.judged (h : Arrives cjson db data reviewer m) {action : Bytes}
    (haction : jsonString m "action" = some action) (hword : action ∈ actions)
    (hmemory : cjson.createObject = true) :
    NatsModeration.processDecision cjson verify db data reviewer now =
      judge cjson verify m now := by
  rw [h.processDecision, unsupported_eq, haction, Option.map_some,
    decide_eq_false (not_not.mpr hword)]
  dsimp only
  rw [if_pos hmemory]

/-- The function keeps its contract on a message exactly when the message, if it gets as
far as its action, has one that is a string, and is signed with its own version if it is
signed with the version 1. -/
theorem decision_contract_iff (cjson : CJson)
    (verify : (pubkey canonical signature : Bytes) → Bool) (db : Option Review.Store)
    (data reviewer : Option Bytes) (now : ℤ) (hmemory : cjson.createObject = true) :
    KeepsContract cjson verify db data reviewer now ↔
      ∀ m, Arrives cjson db data reviewer m → ∃ action, jsonString m "action" = some action ∧
        (action ∈ actions → SignedAs cjson verify m 1 →
          SignedAs cjson verify m (ownVersion m)) := by
  unfold KeepsContract
  rw [rejects_iff]
  constructor
  · rintro ⟨hdefined, hrejects⟩ m hm
    cases haction : jsonString m "action" with
    | none => exact absurd (hm.absent haction) hdefined
    | some action =>
      have hisSome : (jsonString m "action").isSome = true := Option.isSome_of_eq_some haction
      refine ⟨action, rfl, ?_⟩
      intro hword hsigned
      rw [← hm.authentic_iff hisSome]
      -- a message that is not authentic would be rejected, but this one is applied
      by_contra hforged
      have hrejected := hrejects hforged
      rw [hm.judged haction hword hmemory] at hrejected
      rcases hm with ⟨-, text, key, -, -, -, -, -, hvetted⟩
      rw [hvetted.judge_eq hisSome] at hrejected
      split at hrejected
      · exact nomatch hrejected
      next hnot => exact hnot hsigned
  · intro h
    by_cases harrives : ∃ m, Arrives cjson db data reviewer m
    · rcases harrives with ⟨m, hm⟩
      rcases h m hm with ⟨action, haction, hown⟩
      have hisSome : (jsonString m "action").isSome = true := Option.isSome_of_eq_some haction
      by_cases hword : action ∈ actions
      · rw [hm.judged haction hword hmemory, hm.authentic_iff hisSome]
        rcases hm with ⟨-, text, key, -, -, -, -, -, hvetted⟩
        rw [hvetted.judge_eq hisSome]
        split
        · next hsigned =>
          refine ⟨nofun, ?_⟩
          intro hforged
          exact absurd (hown hword hsigned) hforged
        · exact ⟨nofun, fun _ => rfl⟩
      · rw [hm.unknown haction hword]
        exact ⟨nofun, fun _ => rfl⟩
    · rw [processDecision_of_not_arrives (not_exists.mp harrives)]
      exact ⟨nofun, fun _ => rfl⟩

end Contract

/-! ## Three messages -/

def messageText (version action : Bytes) : Bytes :=
  bytes "\x7b\"version\":" ++ version ++ bytes ",\"type\":\"moderation.decision\"," ++
    bytes "\"correlation_id\":\"0123456789abcdef0123456789abcdef\"," ++
    bytes "\"decision_id\":\"d1\",\"action\":" ++ action ++
    bytes ",\"issued_at\":100,\"reason\":\"\"," ++
    bytes "\"sig_alg\":\"ML-DSA-65\",\"sig_b64\":\"AA\",\"pubkey_b64\":\"KEY\"\x7d"

def messageMembers (version : ℚ) (action : Value) : Members :=
  [(bytes "version", .number version),
   (bytes "type", .string (bytes "moderation.decision")),
   (bytes "correlation_id", .string (bytes "0123456789abcdef0123456789abcdef")),
   (bytes "decision_id", .string (bytes "d1")),
   (bytes "action", action),
   (bytes "issued_at", .number 100),
   (bytes "reason", .string []),
   (bytes "sig_alg", .string (bytes "ML-DSA-65")),
   (bytes "sig_b64", .string (bytes "AA")),
   (bytes "pubkey_b64", .string (bytes "KEY"))]

def printValue : Value → Bytes
  | .number d =>
    decimal (d.num.toNat / d.den) ++ if d.den = 1 then [] else bytes ".5"
  | .string s => bytes "\"" ++ s ++ bytes "\""
  | .other => bytes "null"

def printMembers (m : Members) : Bytes :=
  let printed := m.map fun c => bytes "\"" ++ c.1 ++ bytes "\":" ++ printValue c.2
  bytes "\x7b" ++ (printed.intersperse (bytes ",")).flatten ++ bytes "\x7d"

def messageCJson : CJson where
  parse text :=
    if text = messageText (bytes "1") (bytes "7") then some (.object (messageMembers 1 (.number 7)))
    else if text = messageText (bytes "1") (bytes "\"allow\"") then
      some (.object (messageMembers 1 (.string (bytes "allow"))))
    else if text = messageText (bytes "1.5") (bytes "\"allow\"") then
      some (.object (messageMembers (3 / 2) (.string (bytes "allow"))))
    else none
  createObject := true
  printUnformatted m := some (printMembers m)

def messageVerify (pubkey canonical signature : Bytes) : Bool :=
  pubkey == bytes "KEY" && signature == bytes "AA" &&
    canonical == printMembers (decisionAs (messageMembers 1 (.string (bytes "allow"))) 1).body

theorem parse_messageText :
    messageCJson.parse (messageText (bytes "1") (bytes "7")) =
      some (.object (messageMembers 1 (.number 7))) ∧
    messageCJson.parse (messageText (bytes "1") (bytes "\"allow\"")) =
      some (.object (messageMembers 1 (.string (bytes "allow")))) ∧
    messageCJson.parse (messageText (bytes "1.5") (bytes "\"allow\"")) =
      some (.object (messageMembers (3 / 2) (.string (bytes "allow")))) := by
  decide +kernel

theorem arrives_messageText {version action : Bytes} {v : ℚ} {a : Value}
    (hparse : messageCJson.parse (messageText version action) =
      some (.object (messageMembers v a)))
    (hlen : 0 < (messageText version action).length ∧
      (messageText version action).length ≤ 65536)
    (hchecks : validEnvelope (some (.object (messageMembers v a)))
      (bytes "moderation.decision") 10 = some true ∧
        clausesOk (messageMembers v a) (bytes "KEY") = true) :
    Arrives messageCJson (some emptyStore) (some (messageText version action))
      (some (bytes "KEY")) (messageMembers v a) :=
  ⟨rfl, _, _, rfl, rfl, hlen.1, hlen.2, hparse, vetted_iff.mpr hchecks⟩

/-- A message whose action is the number 7 has a NULL compared with "allow"; one of the
version 1.5 is taken to be signed when it is as one of the version 1. -/
theorem contract_broken :
    processDecision messageCJson messageVerify (some emptyStore)
      (some (messageText (bytes "1") (bytes "7"))) (some (bytes "KEY")) 100 = none ∧
    ¬ KeepsContract messageCJson messageVerify (some emptyStore)
      (some (messageText (bytes "1") (bytes "7"))) (some (bytes "KEY")) 100 ∧
    ¬ KeepsContract messageCJson messageVerify (some emptyStore)
      (some (messageText (bytes "1.5") (bytes "\"allow\""))) (some (bytes "KEY")) 100 := by
  have hnull := arrives_messageText parse_messageText.1 (by decide +kernel) (by decide +kernel)
  have hhalf := arrives_messageText parse_messageText.2.2 (by decide +kernel) (by decide +kernel)
  have habsent : jsonString (messageMembers 1 (.number 7)) "action" = none := by decide +kernel
  have hallow : jsonString (messageMembers (3 / 2) (.string (bytes "allow"))) "action" =
      some (bytes "allow") := by decide +kernel
  refine ⟨hnull.absent habsent, ?_, ?_⟩
  · rintro ⟨hdefined, -⟩
    exact hdefined (hnull.absent habsent)
  · rintro ⟨-, hrejects⟩
    have hforged : ¬ Authentic messageCJson messageVerify
        (some (messageText (bytes "1.5") (bytes "\"allow\""))) (some (bytes "KEY")) := by
      rw [hhalf.authentic_iff (Option.isSome_of_eq_some hallow)]
      unfold SignedAs
      decide +kernel
    have happlied : processDecision messageCJson messageVerify (some emptyStore)
        (some (messageText (bytes "1.5") (bytes "\"allow\""))) (some (bytes "KEY")) 100 ≠
          some (.returned .rejected) := by decide +kernel
    exact happlied (rejects_iff.mp (hrejects hforged))

/-- The message that the reviewer has signed. -/
theorem signed_message_keeps_contract :
    KeepsContract messageCJson messageVerify (some emptyStore)
      (some (messageText (bytes "1") (bytes "\"allow\""))) (some (bytes "KEY")) 100 := by
  refine (decision_contract_iff messageCJson messageVerify _ _ _ 100 rfl).mpr ?_
  have harrives :=
    arrives_messageText parse_messageText.2.1 (by decide +kernel) (by decide +kernel)
  intro m hm
  rw [harrives.unique hm]
  refine ⟨bytes "allow", by decide +kernel, ?_⟩
  intro _ hsigned
  have hversion : ownVersion (messageMembers 1 (.string (bytes "allow"))) = 1 := by decide +kernel
  rw [hversion]
  exact hsigned

end FlyBoard.NatsModeration

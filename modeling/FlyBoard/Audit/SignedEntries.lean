import FlyBoard.Audit.Record
import FlyBoard.Lib.HashChain

/-!
# What a signature in the audit log protects (`src/audit/audit.c`)

Somebody without the key to sign with writes a file of their own, with the entries of the
log and their signatures at hand. When `audit_verify` accepts it, a signed entry of it fixes
all entries before it, through the chain of hashes. An entry needs no signature, and what
follows the last signed one is not protected.
-/

namespace FlyBoard.Audit

open Bytes LineLog Run HashChain

/-- What is relied on besides: of what was read, with or without some members, each text is
printed so that it reads back. -/
def Env.KeepsStrings (env : Env) : Prop :=
  ∀ text o, env.parse text = some o → ∀ o' : Object, o'.Sublist o →
    ∃ back, env.parse (env.print o') = some back ∧
      ∀ key, back.jsonString key = o'.jsonString key

def Object.previousHash (o : Object) : Option Bytes := o.jsonString (bytes "previous_hash")

/-- `entry_valid` checks the signature of such an entry. -/
def Object.HasSignature (o : Object) : Prop :=
  ∃ s, o.jsonString (bytes "signature") = some s ∧ s ≠ []

section Env

variable (env : Env)

/-- The hash that `entry_valid` computes. -/
def entryHash (o : Object) : Bytes := Sha256.hexDigest (payload env o)

def Call.begins (c : Call) (log : Bytes) : Option Object :=
  if c.enabled = false ∨ c.short = some 0 ∨ c.line env log = none then none
  else (lastEntry env log).bind fun next => c.entry env next.1 next.2

/-- The entries that the calls begin to write, one after the other. -/
def begun : Bytes → List Call → List Object
  | _, [] => []
  | log, c :: cs => (c.begins env log).toList ++ begun (auditRecord env c log).1 cs

def logAfter : Bytes → List Call → Bytes
  | log, [] => log
  | log, c :: cs => logAfter (auditRecord env c log).1 cs

def CollisionFree (cs : List Call) (log' : Bytes) : Prop :=
  ∀ e ∈ entries env log', ∀ o ∈ begun env [] cs,
    entryHash env e = entryHash env o → payload env e = payload env o

/-- A signature that verifies in the other file is one of the log, for the hash it was made
for. -/
def Unforgeable (cs : List Call) (log' : Bytes) : Prop :=
  ∀ e ∈ entries env log', ∀ s, e.jsonString (bytes "signature") = some s → s ≠ [] →
    env.verify (entryHash env e) s = true →
    ∃ o ∈ begun env [] cs,
      entryHash env e = entryHash env o ∧ o.jsonString (bytes "signature") = some s

end Env

/-! ## Members -/

section Object

variable {o o' : Object} {key key' s : Bytes}

theorem Object.item_delete (h : key ≠ key') : (o.delete key').item key = o.item key := by
  unfold Object.item Object.delete
  congr 1
  induction o with
  | nil => rfl
  | cons m o ih =>
    by_cases hm : m.1 = key'
    · have hkey : (m.1 == key) = false := by
        rw [hm]
        exact beq_eq_false_iff_ne.mpr h.symm
      have herase : (m.1 == key') = true := beq_iff_eq.mpr hm
      rw [List.eraseP_cons, herase, cond_true, List.find?_cons, hkey]
    · have hkeep : (m.1 == key') = false := beq_eq_false_iff_ne.mpr hm
      rw [List.eraseP_cons, hkeep, cond_false, List.find?_cons, List.find?_cons, ih]

theorem Object.jsonString_delete (h : key ≠ key') :
    (o.delete key').jsonString key = o.jsonString key := by
  unfold Object.jsonString
  rw [Object.item_delete h]

theorem previousHash_stripped :
    ((o.delete (bytes "hash")).delete (bytes "signature")).previousHash = o.previousHash := by
  unfold Object.previousHash
  rw [Object.jsonString_delete (by decide), Object.jsonString_delete (by decide)]

theorem stripped_sublist :
    ((o.delete (bytes "hash")).delete (bytes "signature")).Sublist o :=
  List.eraseP_sublist.trans List.eraseP_sublist

theorem Object.mem_of_jsonString (h : o.jsonString key = some s) : (key, .str s) ∈ o := by
  unfold Object.jsonString Object.item at h
  rcases hfind : o.find? fun m => m.1 == key with _ | ⟨key', item⟩
  · rw [hfind] at h
    exact nomatch h
  · rw [hfind] at h
    have hkey : key' = key := by
      have hfound := List.find?_some hfind
      exact beq_iff_eq.mp hfound
    cases item with
    | str s' =>
      cases h
      exact hkey ▸ List.mem_of_find?_eq_some hfind
    | _ => exact nomatch h

end Object

variable {env : Env}

theorem entryValid_eq_some {entry : Object} {seq : ℕ} {previous computed : Bytes}
    (h : entryValid env entry seq previous = some computed) :
    entry.previousHash = some previous ∧
      computed = entryHash env entry ∧
      ∀ s, entry.jsonString (bytes "signature") = some s → s ≠ [] →
        env.verify computed s = true := by
  unfold entryValid at h
  split_ifs at h with hversion hpresent
  rw [not_or, not_not] at hpresent
  dsimp only at h
  split_ifs at h
  split at h
  · rename_i hnone
    refine ⟨hpresent.1, (Option.some.inj h).symm, fun s hs => ?_⟩
    exact nomatch hnone.symm.trans hs
  · rename_i hnil
    refine ⟨hpresent.1, (Option.some.inj h).symm, fun s hs hne => absurd ?_ hne⟩
    exact (Option.some.inj (hnil.symm.trans hs)).symm
  · rename_i _ signature _ hsome
    split_ifs at h with hverify
    cases h
    refine ⟨hpresent.1, rfl, fun s hs _ => ?_⟩
    cases hsome.symm.trans hs
    exact hverify

theorem readLine_eq_some {expected next : ℕ × Bytes} {line : Bytes}
    (h : readLine env expected line = some next) :
    ∃ entry, env.parse line.dropLast = some entry ∧
      entryValid env entry expected.1 expected.2 = some next.2 := by
  unfold readLine at h
  split at h
  · exact nomatch h
  · split at h
    · exact nomatch h
    · rename_i entry hparse
      obtain ⟨computed, hcomputed, rfl⟩ := Option.map_eq_some_iff.mp h
      exact ⟨entry, hparse, hcomputed⟩

/-! ## The entries of the calls -/

section Begun

variable {c : Call} {cs : List Call} {log : Bytes} {next : ℕ × Bytes} {e : Object}
  {previous : Bytes} {seq : ℕ} {k : ℕ}

/-- The entry has no other members than that of a call without failures. -/
theorem entry_sublist (h : c.entry env seq previous = some e) :
    ∃ hash signature, 0 ∉ hash ∧ Signed env hash signature ∧
      e.Sublist (c.record seq previous hash signature) := by
  unfold Call.entry at h
  simp only at h
  set hash := Sha256.hexDigest (payload env (c.added (c.members seq previous))) with hhash
  have hzero : 0 ∉ hash := zero_not_mem_hexDigest _
  have hadded : ∀ o, (c.added o).Sublist o := fun o => List.filter_sublist
  have hhashed : (c.added (c.members seq previous) ++ c.added [(bytes "hash", .str hash)]).Sublist
      (c.members seq previous ++ [(bytes "hash", .str hash)]) := (hadded _).append (hadded _)
  split at h
  · split at h
    · exact nomatch h
    · rcases Option.map_eq_some_iff.mp h with ⟨s, hs, rfl⟩
      refine ⟨hash, [(bytes "signature", .str s)], hzero, .inr ⟨s, rfl, hs⟩, ?_⟩
      have hall := hhashed.append (hadded [(bytes "signature", .str s)])
      rwa [List.append_assoc (c.members seq previous)] at hall
  · cases h
    exact ⟨hash, [], hzero, .inl rfl, hhashed⟩

theorem plain_entry (he : env.Faithful)
    (hprevious : 0 ∉ previous) (h : c.entry env seq previous = some e) : ∀ m ∈ e, Plain m := by
  obtain ⟨hash, signature, hzero, hsigned, hsub⟩ := entry_sublist h
  intro m hm
  exact plain_record c seq he hprevious hsigned hzero m (hsub.subset hm)

theorem previousHash_entry (h : c.entry env seq previous = some e) :
    ∀ k ∈ e.previousHash, k = previous := by
  obtain ⟨hash, signature, -, hsigned, hsub⟩ := entry_sublist h
  intro k hk
  have hmem := hsub.subset (Object.mem_of_jsonString hk)
  have hsignature : (bytes "previous_hash", Item.str k) ∉ signature := by
    rcases hsigned with rfl | ⟨s, rfl, -⟩
    · exact List.not_mem_nil
    · rw [List.mem_singleton]
      intro heq
      exact absurd (Prod.mk.inj heq).1 (by decide)
  unfold Call.record Call.members at hmem
  simp only [List.cons_append, List.nil_append, List.mem_cons] at hmem
  rcases hmem with heq | heq | heq | heq | heq | heq | heq | heq | heq | heq | hlast
  case inr.inr.inr.inr.inr.inr.inr.inr.inl => exact Item.str.inj (Prod.mk.inj heq).2
  case inr.inr.inr.inr.inr.inr.inr.inr.inr.inr => exact absurd hlast hsignature
  all_goals exact absurd (Prod.mk.inj heq).1 (by decide)

theorem Call.begins_eq_some (h : c.begins env log = some e) :
    ∃ next, lastEntry env log = some next ∧ c.entry env next.1 next.2 = some e ∧
      ∃ k, 0 < k ∧ (auditRecord env c log).1 = log ++ (env.print e ++ [10]).take k := by
  unfold Call.begins at h
  split at h
  · exact nomatch h
  · rename_i hwrites
    rw [not_or, not_or] at hwrites
    rcases hwrites with ⟨henabled, hshort, hsome⟩
    obtain ⟨line, hline⟩ := Option.ne_none_iff_exists'.mp hsome
    obtain ⟨-, next, e', hlast, hentry, -, rfl⟩ := Call.line_eq_some hline
    rw [hlast, Option.bind_some, hentry] at h
    cases h
    refine ⟨next, hlast, hentry, c.short.getD (env.print e ++ [10]).length, ?_, ?_⟩
    · cases hk : c.short with
      | none => simp
      | some k =>
        refine Nat.pos_of_ne_zero ?_
        rintro rfl
        exact hshort hk
    · rw [auditRecord, if_neg henabled, hline]

theorem Call.begins_eq_none (h : c.begins env log = none) : (auditRecord env c log).1 = log := by
  unfold Call.begins at h
  unfold auditRecord
  by_cases henabled : c.enabled = false
  · rw [if_pos henabled]
  · rw [if_neg henabled]
    cases hline : c.line env log with
    | none => rfl
    | some line =>
      by_cases hshort : c.short = some 0
      · simp [hshort]
      · obtain ⟨-, next, e', hlast, hentry, -, -⟩ := Call.line_eq_some hline
        rw [if_neg (by simp [henabled, hshort, hline]), hlast, Option.bind_some, hentry] at h
        exact nomatch h

theorem begins_of_none (h : lastEntry env log = none) (c : Call) : c.begins env log = none := by
  rcases hb : c.begins env log with _ | e
  · rfl
  · obtain ⟨next, hlast, -⟩ := Call.begins_eq_some hb
    exact nomatch h.symm.trans hlast

theorem begun_of_none (h : lastEntry env log = none) : begun env log cs = [] := by
  induction cs with
  | nil => rfl
  | cons c cs ih =>
    rw [begun, begins_of_none h, Call.begins_eq_none (begins_of_none h c), ih]
    rfl

theorem log_of_none (h : lastEntry env log = none) : logAfter env log cs = log := by
  induction cs with
  | nil => rfl
  | cons c cs ih =>
    rw [logAfter, Call.begins_eq_none (begins_of_none h c), ih]

theorem not_closed_torn (he : env.Faithful) (hk : 0 < k)
    (htorn : ¬(env.print e ++ [10]).length ≤ k) :
    ¬Closed 10 (log ++ (env.print e ++ [10]).take k) := by
  rw [List.length_append, List.length_singleton] at htorn
  have htake : (env.print e ++ [10]).take k = (env.print e).take k :=
    List.take_append_of_le_length (by omega)
  have hne : (env.print e).take k ≠ [] := by
    intro hnil
    have hlength := congrArg List.length hnil
    rw [List.length_take, List.length_nil] at hlength
    omega
  rw [htake]
  rintro (hnil | hlast)
  · exact hne (List.append_eq_nil_iff.mp hnil).2
  · rw [List.getLast?_append_of_ne_nil _ hne] at hlast
    exact he.print_line e (List.mem_of_mem_take (List.mem_of_getLast? hlast))

/-- After the line of an entry the log verifies up to its hash, or not at all. -/
theorem lastEntry_begins (he : env.Faithful) (hlast : lastEntry env log = some next)
    (hzero : 0 ∉ next.2) (hentry : c.entry env next.1 next.2 = some e) (hk : 0 < k) :
    ∀ next' ∈ lastEntry env (log ++ (env.print e ++ [10]).take k), next'.2 = entryHash env e := by
  intro next' hnext
  have hparse := he.parse_print e (plain_entry he hzero hentry)
  by_cases hfull : (env.print e ++ [10]).length ≤ k
  · rw [List.take_of_length_le hfull, lastEntry_append hlast (he.print_line e)] at hnext
    obtain ⟨e', hparse', hvalid⟩ := readLine_eq_some hnext
    rw [List.dropLast_concat, hparse] at hparse'
    cases hparse'
    exact (entryValid_eq_some hvalid).2.1
  · exact absurd (closed_of_lastEntry hnext) (not_closed_torn he hk hfull)

theorem follows_begun (he : env.Faithful) (hlast : lastEntry env log = some next)
    (hzero : 0 ∉ next.2) : Follows Sha256.hexDigest (payload env)
      Object.previousHash next.2 (begun env log cs) := by
  induction cs generalizing log next with
  | nil => trivial
  | cons c cs ih =>
    unfold begun
    cases hb : c.begins env log with
    | none =>
      rw [Call.begins_eq_none hb]
      exact ih hlast hzero
    | some e =>
      obtain ⟨next₀, hlast₀, hentry, k, hk, hlog⟩ := Call.begins_eq_some hb
      cases hlast.symm.trans hlast₀
      rw [Option.toList_some, List.singleton_append, hlog]
      refine ⟨previousHash_entry hentry, ?_⟩
      have hafter := lastEntry_begins he hlast hzero hentry hk
      rcases hnext : lastEntry env (log ++ (env.print e ++ [10]).take k) with _ | next'
      · rw [begun_of_none hnext]
        trivial
      · have hhash := hafter next' hnext
        change Follows _ _ _ (entryHash env e) _
        rw [← hhash]
        refine ih hnext ?_
        rw [hhash]
        exact zero_not_mem_hexDigest _

theorem plain_begun (he : env.Faithful) (hzero : ∀ next ∈ lastEntry env log, 0 ∉ next.2) :
    ∀ o ∈ begun env log cs, ∀ m ∈ o, Plain m := by
  induction cs generalizing log with
  | nil => exact List.forall_mem_nil _
  | cons c cs ih =>
    unfold begun
    cases hb : c.begins env log with
    | none =>
      rw [Call.begins_eq_none hb]
      exact ih hzero
    | some e =>
      obtain ⟨next, hlast, hentry, k, hk, hlog⟩ := Call.begins_eq_some hb
      rw [Option.toList_some, List.singleton_append, List.forall_mem_cons, hlog]
      refine ⟨plain_entry he (hzero next hlast) hentry, ih fun next' hnext => ?_⟩
      rw [lastEntry_begins he hlast (hzero next hlast) hentry hk next' hnext]
      exact zero_not_mem_hexDigest _

/-- Where the last line of the log is complete, its entries are those that were begun. -/
theorem entries_begun (he : env.Faithful) (hlast : (lastEntry env log).isSome = true)
    (hzero : ∀ next ∈ lastEntry env log, 0 ∉ next.2)
    (hclosed : Closed 10 (logAfter env log cs)) :
    entries env (logAfter env log cs) = entries env log ++ begun env log cs := by
  induction cs generalizing log with
  | nil => exact (List.append_nil _).symm
  | cons c cs ih =>
    unfold logAfter at hclosed ⊢
    unfold begun
    cases hb : c.begins env log with
    | none =>
      rw [Call.begins_eq_none hb] at hclosed ⊢
      exact ih hlast hzero hclosed
    | some e =>
      obtain ⟨next, hnext, hentry, k, hk, hlog⟩ := Call.begins_eq_some hb
      rw [hlog] at hclosed ⊢
      by_cases hfull : (env.print e ++ [10]).length ≤ k
      · have hparse := he.parse_print e (plain_entry he (hzero next hnext) hentry)
        have hentries : entries env (log ++ (env.print e ++ [10]).take k) =
            entries env log ++ [e] := by
          rw [List.take_of_length_le hfull,
            entries_append (closed_of_lastEntry hnext) (he.print_line e), hparse]
          rfl
        rcases hrest : lastEntry env (log ++ (env.print e ++ [10]).take k) with _ | next'
        · rw [log_of_none hrest, begun_of_none hrest, hentries]
          rfl
        · rw [ih (by rw [hrest]; rfl) (fun _ hmem => ?_) hclosed, hentries, List.append_assoc]
          · rfl
          · rw [lastEntry_begins he hnext (hzero next hnext) hentry hk _ hmem]
            exact zero_not_mem_hexDigest _
      · -- nothing is written after a torn line
        have hrest : lastEntry env (log ++ (env.print e ++ [10]).take k) = none := by
          refine Option.eq_none_iff_forall_ne_some.mpr fun next' hsome => ?_
          exact not_closed_torn he hk hfull (closed_of_lastEntry hsome)
        rw [log_of_none hrest] at hclosed
        exact absurd hclosed (not_closed_torn he hk hfull)

theorem log_run (s : State) : (run (step env) s cs).log = logAfter env s.log cs := by
  induction cs generalizing s with
  | nil => rfl
  | cons c cs ih => exact ih (step env s c)

end Begun

/-! ## The entries of a file that is accepted -/

section Accepted

variable {st st' : ℕ × Bytes} {log' : Bytes}

theorem linked_of_read {ls : List Bytes} (h : ls.foldlM (readLine env) st = some st') :
    Linked Sha256.hexDigest (payload env) Object.previousHash st.2
        (ls.filterMap fun line => env.parse line.dropLast) ∧
      ∀ e ∈ ls.filterMap fun line => env.parse line.dropLast,
        ∀ s, e.jsonString (bytes "signature") = some s → s ≠ [] →
          env.verify (entryHash env e) s = true := by
  induction ls generalizing st with
  | nil => exact ⟨trivial, List.forall_mem_nil _⟩
  | cons line ls ih =>
    rw [List.foldlM_cons] at h
    obtain ⟨mid, hmid, hrest⟩ := Option.bind_eq_some_iff.mp h
    obtain ⟨entry, hparse, hvalid⟩ := readLine_eq_some hmid
    obtain ⟨hprevious, hcomputed, hverify⟩ := entryValid_eq_some hvalid
    rw [hcomputed] at hverify
    obtain ⟨hlinked, hverified⟩ := ih hrest
    rw [hcomputed] at hlinked
    rw [List.filterMap_cons, hparse]
    refine ⟨⟨hprevious, hlinked⟩, ?_⟩
    rw [List.forall_mem_cons]
    exact ⟨hverify, hverified⟩

theorem previousHash_eq_of_payload (he : env.Faithful) (hstrings : env.KeepsStrings) {o e : Object}
    (he' : e ∈ entries env log') (ho : ∀ m ∈ o, Plain m) (h : payload env e = payload env o) :
    e.previousHash = o.previousHash := by
  obtain ⟨line, -, hparse⟩ := List.mem_filterMap.mp he'
  obtain ⟨back, hback, hkeys⟩ := hstrings line.dropLast e hparse _ stripped_sublist
  have hplain : ∀ m ∈ (o.delete (bytes "hash")).delete (bytes "signature"), Plain m :=
    fun m hm => ho m (stripped_sublist.subset hm)
  have hsame : env.parse (payload env o) = some back := h ▸ hback
  have ho' : env.parse (payload env o) = some _ := he.parse_print _ hplain
  have hnamed := hkeys (bytes "previous_hash")
  rw [Option.some.inj (hsame.symm.trans ho')] at hnamed
  rw [← @previousHash_stripped e, ← @previousHash_stripped o]
  exact hnamed.symm

/-- In a file that is accepted all entries up to a signed one are, as they are hashed, the
first of those that were begun to be written to the log: the entries of the log, where its
last line is complete. -/
theorem signed_entries_kept (he : env.Faithful) (hstrings : env.KeepsStrings) (cs : List Call)
    (log' : Bytes) (hcollision : CollisionFree env cs log') (hforge : Unforgeable env cs log')
    (haccept : (auditVerify env log').isSome = true) :
    (∀ pre e post, entries env log' = pre ++ e :: post → e.HasSignature →
      (pre ++ [e]).map (payload env) <+: (begun env [] cs).map (payload env)) ∧
    (Closed 10 (run (step env) .init cs).log →
      entries env (run (step env) .init cs).log = begun env [] cs) := by
  have hstart : lastEntry env [] = some (1, []) := rfl
  have hzero : ∀ next ∈ lastEntry env [], (0 : UInt8) ∉ next.2 := by
    intro next hnext
    cases hstart.symm.trans hnext
    exact List.not_mem_nil
  constructor
  · rintro pre e post hsplit ⟨s, hs, hne⟩
    obtain ⟨next, hnext⟩ := Option.isSome_iff_exists.mp haccept
    obtain ⟨last, hlast, -⟩ := Option.map_eq_some_iff.mp hnext
    obtain ⟨hlinked, hverified⟩ := linked_of_read hlast
    have hmem : e ∈ entries env log' := by
      rw [hsplit]
      exact List.mem_append_right _ List.mem_cons_self
    obtain ⟨o, ho, hhash, -⟩ := hforge e hmem s hs hne (hverified e hmem s hs hne)
    have hnonempty : ∀ text, Sha256.hexDigest text ≠ [] := by
      intro text hnil
      have hlength := Sha256.length_hexDigest text
      rw [hnil] at hlength
      exact nomatch hlength
    refine map_text_prefix hnonempty (fun a ha b hb hab => ?_) hcollision hlinked
      (follows_begun he hstart (hzero _ hstart)) hsplit ho hhash
    exact previousHash_eq_of_payload he hstrings ha (plain_begun he hzero b hb) hab
  · rw [log_run]
    intro hclosed
    exact entries_begun he rfl hzero hclosed

end Accepted

/-! ## A site with signatures -/

def scalar : Item → Bool
  | .num _ | .str _ => true
  | .other _ => false

def scalarParse (s : Bytes) : Option Object :=
  (plainParse s).filter fun o => o.all fun m => scalar m.2

def signedEnv : Env where
  print := plainPrint
  parse := scalarParse
  sign := fun hash => if 0 ∈ hash then none else some (83 :: hash)
  verify := fun hash signature => signature == 83 :: hash

variable {o : Object}

theorem itemOf_of_scalarParse {text : Bytes} (h : scalarParse text = some o) :
    ∀ m ∈ o, scalar m.2 = true ∧ itemOf (scalarOf m.2).value = m.2 := by
  obtain ⟨hplain, hall⟩ := Option.filter_eq_some_iff.mp h
  have hitems : ∃ ms : List (Bytes × Json.Value), o = ms.map fun m => (m.1, itemOf m.2) := by
    unfold plainParse at hplain
    split at hplain
    · exact ⟨[], (Option.some.inj hplain).symm⟩
    · split at hplain
      · exact nomatch hplain
      · split at hplain
        · exact nomatch hplain
        · split at hplain
          · rename_i ms _
            exact ⟨ms, (Option.some.inj hplain).symm⟩
          · exact nomatch hplain
  obtain ⟨ms, rfl⟩ := hitems
  intro m hm
  have hscalar := List.all_eq_true.mp hall m hm
  refine ⟨hscalar, ?_⟩
  obtain ⟨⟨key, value⟩, -, rfl⟩ := List.mem_map.mp hm
  cases value with
  | num digits =>
    change Item.num (intOf (decimalInt (Rat.floor _))) = _
    rw [Rat.floor_intCast, intOf_decimalInt]
    rfl
  | str s => rfl
  | _ => exact nomatch hscalar

theorem scalarParse_plainPrint
    (ho : ∀ m ∈ o, scalar m.2 = true ∧ itemOf (scalarOf m.2).value = m.2) :
    scalarParse (plainPrint o) = some o := by
  unfold scalarParse
  rw [plainParse_plainPrint fun m hm => (ho m hm).2, Option.filter_some,
    if_pos (List.all_eq_true.mpr fun m hm => (ho m hm).1)]

theorem faithful_signedEnv : signedEnv.Faithful where
  parse_print := by
    intro o ho
    refine scalarParse_plainPrint fun m hm => ⟨?_, itemOf_scalarOf (ho m hm)⟩
    have hm := (ho m hm).2
    cases hitem : m.2 with
    | other text =>
      rw [hitem] at hm
      exact hm.elim
    | _ => rfl
  print_line := fun _ => not_mem_printObject _
  verify_sign := by
    intro hash signature h
    unfold signedEnv at h ⊢
    dsimp only at h ⊢
    split_ifs at h with hzero
    cases h
    refine ⟨?_, beq_self_eq_true _⟩
    rw [List.mem_cons, not_or]
    exact ⟨by decide, hzero⟩

theorem keepsStrings_signedEnv : signedEnv.KeepsStrings := by
  intro text o hparse o' hsub
  refine ⟨o', scalarParse_plainPrint fun m hm => ?_, fun _ => rfl⟩
  exact itemOf_of_scalarParse hparse m (hsub.subset hm)

def signedCall (action : Bytes) (signs : Bool) : Call :=
  ⟨true, signs, 1, some action, some [], some [], none, 1, fun _ => false, none⟩

def signedCalls : List Call := [signedCall (bytes "a") true]
def signedLog : Bytes := logAfter signedEnv [] signedCalls

def unsignedLog : Bytes := logAfter signedEnv [] [signedCall (bytes "b") false]

theorem signedLog_kept :
    (entries signedEnv signedLog).map (payload signedEnv) <+:
      (begun signedEnv [] signedCalls).map (payload signedEnv) := by
  have hlength : (entries signedEnv signedLog).length = 1 := by decide +kernel
  have hsigned : ∀ e ∈ entries signedEnv signedLog,
      (e.jsonString (bytes "signature")).getD [] ≠ [] := by decide +kernel
  have hpayload : ∀ e ∈ entries signedEnv signedLog, ∀ o ∈ begun signedEnv [] signedCalls,
      payload signedEnv e = payload signedEnv o := by decide +kernel
  have hsame : ∀ e ∈ entries signedEnv signedLog, ∃ o ∈ begun signedEnv [] signedCalls,
      o.jsonString (bytes "signature") = e.jsonString (bytes "signature") := by decide +kernel
  have hforge : Unforgeable signedEnv signedCalls signedLog := by
    intro e he s hs _ _
    obtain ⟨o, ho, hsig⟩ := hsame e he
    exact ⟨o, ho, congrArg Sha256.hexDigest (hpayload e he o ho), hsig.trans hs⟩
  obtain ⟨e, he⟩ := List.length_eq_one_iff.mp hlength
  have hkept := (signed_entries_kept faithful_signedEnv keepsStrings_signedEnv signedCalls
    signedLog (fun e he o ho _ => hpayload e he o ho) hforge (by decide +kernel)).1
  rw [he]
  refine hkept [] e [] he ⟨(e.jsonString (bytes "signature")).getD [], ?_, ?_⟩
  · have hne := hsigned e (he ▸ List.mem_singleton_self e)
    cases hsig : e.jsonString (bytes "signature") with
    | none => exact absurd (by rw [hsig]; rfl) hne
    | some s => rfl
  · exact hsigned e (he ▸ List.mem_singleton_self e)

/-- The file without a signature is accepted, and its entry is not of the log. -/
theorem unsignedLog_accepted :
    ¬∀ cs : List Call, (∀ c ∈ cs, c.signs = true) → ∀ log', CollisionFree signedEnv cs log' →
      Unforgeable signedEnv cs log' → (auditVerify signedEnv log').isSome = true →
      (entries signedEnv log').map (payload signedEnv) <+:
        (entries signedEnv (run (step signedEnv) .init cs).log).map (payload signedEnv) := by
  intro h
  have hdiffer : ∀ e ∈ entries signedEnv unsignedLog, ∀ o ∈ begun signedEnv [] signedCalls,
      entryHash signedEnv e ≠ entryHash signedEnv o := by decide +kernel
  have hunsigned : ∀ e ∈ entries signedEnv unsignedLog,
      e.jsonString (bytes "signature") = none := by decide +kernel
  have hrewritten : ¬(entries signedEnv unsignedLog).map (payload signedEnv) <+:
      (entries signedEnv (run (step signedEnv) .init signedCalls).log).map (payload signedEnv) := by
    decide +kernel
  refine hrewritten (h signedCalls (by decide) unsignedLog ?_ ?_ (by decide +kernel))
  · intro e he o ho heq
    exact absurd heq (hdiffer e he o ho)
  · intro e he s hs
    exact nomatch (hunsigned e he).symm.trans hs

end FlyBoard.Audit

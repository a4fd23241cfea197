import FlyBoard.Lib.Run
import FlyBoard.Utils.Reqshare
import Mathlib.Data.List.Nodup
import Mathlib.Data.List.Perm.Subperm

/-!
# Leaders of a key (`src/utils/reqshare.c`)

Any number of callers ask for keys and wait, in any order and with any clock. A caller
that wakes up to an entry in the list looks at it again; one whose entry has been
unlinked while it slept leads at once, without another look at the key.
-/

namespace FlyBoard.SingleFlight

open FlyBoard.Reqshare FlyBoard.Run

/-- Where a caller is: it was told that it leads with the entry of that name, it sleeps on
an entry, or it has its answer. -/
inductive Phase
  | leads (name : ℕ)
  | waits (name : ℕ)
  | answered
deriving DecidableEq

structure Caller where
  key : Bytes
  phase : Phase
deriving DecidableEq

/-- The list of entries and all callers so far; for each key the number of callers that
woke up to find their entry gone. -/
structure State where
  table : Table
  callers : List Caller
  orphans : Bytes → ℕ

inductive Action
  /-- A new caller of `reqshare_wait_or_start`; `oom` tells whether an allocation fails. -/
  | ask (key : Bytes) (now : ℕ) (oom : Bool)
  /-- A new caller of `reqshare_try_start`. -/
  | tryStart (key : Bytes) (now : ℕ) (oom : Bool)
  /-- The caller with this index wakes up. -/
  | wake (i : ℕ) (now : ℕ) (oom : Bool)
  | finish (key : Bytes) (html : Option Bytes) (now : ℕ)
deriving DecidableEq

/-- How the call goes on. Without memory the caller does not lead, and nothing is put in
front of the list. -/
def settle (t : Table) (oom : Bool) (r : Turn × Table) : Phase × Table :=
  match r.1 with
  | .leads =>
    if oom then (.answered, { r.2 with entries := r.2.entries.tail })
    else (.leads t.nextName, r.2)
  | .shared _ => (.answered, r.2)
  | .waits name => (.waits name, r.2)

def gone (t : Table) (name : ℕ) : Bool := t.entries.all fun e => e.name != name

def enter (s : State) (key : Bytes) (r : Phase × Table) : State :=
  { s with table := r.2, callers := s.callers ++ [⟨key, r.1⟩] }

def step (s : State) : Action → State
  | .ask key now oom => enter s key (settle s.table oom (waitOrStart s.table key now))
  | .tryStart key now oom =>
    let r := tryStart s.table key now
    enter s key (settle s.table oom (if r.1 then .leads else .shared [], r.2))
  | .wake i now oom =>
    match s.callers[i]? with
    | some ⟨key, .waits name⟩ =>
      let r := settle s.table oom (wake s.table key name now)
      { table := r.2
        callers := s.callers.set i ⟨key, r.1⟩
        orphans := if gone s.table name then
            Function.update s.orphans key (s.orphans key + 1) else s.orphans }
    | _ => s
  | .finish key html now => { s with table := finish s.table key html now }

def start : State := ⟨⟨[], 0⟩, [], fun _ => 0⟩

/-- The caller was told that it leads, and its entry is neither finished nor expired. -/
def live (t : Table) (key : Bytes) (now : ℕ) (c : Caller) : Bool :=
  c.key == key &&
    match c.phase with
    | .leads name => t.entries.any fun e => e.name == name && !e.done && decide (now < e.expiresAt)
    | _ => false

def State.liveLeaders (s : State) (key : Bytes) (now : ℕ) : ℕ :=
  s.callers.countP (live s.table key now)

/-! ## The list of entries -/

variable {t t' : Table} {key : Bytes} {name now : ℕ} {s : State} {oom : Bool} {e : Entry} {n : ℕ}
  {r : Phase × Table} {c : Caller}

def ids (t : Table) : List (ℕ × Bytes) := t.entries.map fun e => (e.name, e.key)

def entriesOf (l : List (ℕ × Bytes)) (key : Bytes) : ℕ := l.countP fun x => x.2 == key

theorem entriesOf_le {l l' : List (ℕ × Bytes)} (h : l.Sublist l') (key : Bytes) :
    entriesOf l key ≤ entriesOf l' key := h.countP_le

theorem entriesOf_cons (x : ℕ × Bytes) (l : List (ℕ × Bytes)) (key : Bytes) :
    entriesOf (x :: l) key = entriesOf l key + if x.2 = key then 1 else 0 := by
  simp [entriesOf, List.countP_cons]

theorem ids_unlink (t : Table) (name : ℕ) : (ids (t.unlink name)).Sublist (ids t) :=
  List.filter_sublist.map _

theorem ids_lead (t : Table) (key : Bytes) (now : ℕ) :
    ids (t.lead key now) = (t.nextName, key) :: ids t := rfl

theorem ids_update (t : Table) (name : ℕ) {f : Entry → Entry}
    (hf : ∀ e, (f e).name = e.name ∧ (f e).key = e.key) : ids (t.update name f) = ids t := by
  unfold ids Table.update
  rw [List.map_map]
  refine List.map_congr_left fun e _ => ?_
  dsimp only [Function.comp]
  split
  · rw [(hf e).1, (hf e).2]
  · rfl

theorem entriesOf_unlink (he : e ∈ t.entries) :
    entriesOf (ids (t.unlink e.name)) e.key + 1 ≤ entriesOf (ids t) e.key := by
  rcases List.append_of_mem he with ⟨pre, post, heq⟩
  have hsub : (ids (t.unlink e.name)).Sublist ((pre ++ post).map fun e => (e.name, e.key)) := by
    unfold ids Table.unlink
    rw [heq, List.filter_append, List.filter_cons_of_neg (by simp)]
    exact (List.Sublist.append List.filter_sublist List.filter_sublist).map _
  have hle := entriesOf_le hsub e.key
  have hall : entriesOf (ids t) e.key =
      entriesOf ((pre ++ post).map fun e => (e.name, e.key)) e.key + 1 := by
    simp [ids, entriesOf, heq]
    omega
  omega

theorem find_spec (h : t.find key = some e) : e ∈ t.entries ∧ e.key = key :=
  ⟨List.mem_of_find?_eq_some h, by simpa using List.find?_some h⟩

theorem entriesOf_of_none (h : t.find key = none) : entriesOf (ids t) key = 0 := by
  unfold entriesOf ids
  rw [List.countP_map, List.countP_eq_zero]
  exact List.find?_eq_none.1 h

/-- The caller leads with a new entry; it is the only one of the key, or one was unlinked
for it. -/
structure Led (t' t : Table) (key : Bytes) : Prop where
  entries : ∃ l, ids t' = (t.nextName, key) :: l ∧ l.Sublist (ids t) ∧
    entriesOf l key + 1 ≤ max 1 (entriesOf (ids t) key)
  next : t'.nextName = t.nextName + 1

theorem led_fresh (h : t.find key = none) (now : ℕ) : Led (t.lead key now) t key where
  entries := ⟨ids t, rfl, List.Sublist.refl _, by rw [entriesOf_of_none h]; exact le_max_left _ _⟩
  next := rfl

theorem led_unlink (he : e ∈ t.entries) (hkey : e.key = key) (now : ℕ) :
    Led ((t.unlink e.name).lead key now) t key where
  entries := by
    have hless := entriesOf_unlink he
    rw [hkey] at hless
    exact ⟨ids (t.unlink e.name), rfl, ids_unlink t e.name, hless.trans (le_max_right _ _)⟩
  next := rfl

/-- A turn: the caller leads, or the list of entries stays and has the one it waits for. -/
def TurnOk (key : Bytes) (t : Table) (r : Turn × Table) : Prop :=
  (r.1 = .leads ∧ Led r.2 t key) ∨
    (r.1 ≠ .leads ∧ r.2 = t ∧ ∀ name, r.1 = .waits name → (name, key) ∈ ids t)

theorem mem_ids (he : e ∈ t.entries) (hkey : e.key = key) : (e.name, key) ∈ ids t :=
  List.mem_map.2 ⟨e, he, by rw [hkey]⟩

theorem turnOk_waitOrStart (t : Table) (key : Bytes) (now : ℕ) :
    TurnOk key t (waitOrStart t key now) := by
  unfold waitOrStart
  split
  · next h => exact .inl ⟨rfl, led_fresh h now⟩
  · next e h =>
    rcases find_spec h with ⟨he, hkey⟩
    split
    · split
      · exact .inr ⟨(nomatch ·), rfl, (nomatch ·, ·)⟩
      · exact .inl ⟨rfl, led_unlink he hkey now⟩
    · refine .inr ⟨(nomatch ·), rfl, ?_⟩
      rintro name ⟨rfl⟩
      exact mem_ids he hkey

theorem turnOk_tryStart (t : Table) (key : Bytes) (now : ℕ) :
    TurnOk key t (if (tryStart t key now).1 then .leads else .shared [], (tryStart t key now).2) := by
  unfold tryStart
  split
  · next h => exact .inl ⟨rfl, led_fresh h now⟩
  · next e h =>
    rcases find_spec h with ⟨he, hkey⟩
    split
    · exact .inr ⟨(nomatch ·), rfl, (nomatch ·, ·)⟩
    · exact .inl ⟨rfl, led_unlink he hkey now⟩

theorem wake_gone (h : gone t name = true) : wake t key name now = (.leads, t.lead key now) := by
  unfold wake
  split
  · rfl
  · next e hfind =>
    have hne := List.all_eq_true.1 h e (List.mem_of_find?_eq_some hfind)
    have hname : e.name = name := by simpa using List.find?_some hfind
    simp [hname] at hne

theorem turnOk_wake (hkey : ∀ e ∈ t.entries, e.name = name → e.key = key)
    (h : gone t name = false) : TurnOk key t (wake t key name now) := by
  unfold wake
  split
  · next hfind =>
    have hall : gone t name = true := by
      refine List.all_eq_true.2 fun e he => ?_
      simpa using List.find?_eq_none.1 hfind e he
    rw [hall] at h
    exact nomatch h
  · next e hfind =>
    have he := List.mem_of_find?_eq_some hfind
    have hname : e.name = name := by simpa using List.find?_some hfind
    subst hname
    have hled : Led ((t.unlink e.name).lead key now) t key := led_unlink he (hkey e he rfl) now
    split
    · split
      · exact .inr ⟨(nomatch ·), rfl, (nomatch ·, ·)⟩
      · exact .inl ⟨rfl, hled⟩
    · split
      · exact .inl ⟨rfl, hled⟩
      · refine .inr ⟨(nomatch ·), rfl, ?_⟩
        rintro name ⟨rfl⟩
        exact mem_ids he (hkey e he rfl)

/-! ## The invariant -/

/-- What a step makes of the list of entries: some go, and one may come in front under the
next name. -/
structure Follows (t' t : Table) (key : Bytes) : Prop where
  entries : (ids t').Sublist ((t.nextName, key) :: ids t)
  next : t.nextName ≤ t'.nextName
  fresh : (ids t').Sublist (ids t) ∨ t'.nextName = t.nextName + 1

theorem Follows.of_sublist (h : (ids t').Sublist (ids t)) (hn : t.nextName ≤ t'.nextName) :
    Follows t' t key :=
  ⟨h.trans (List.sublist_cons_self _ _), hn, .inl h⟩

/-- A settled turn: what becomes of the list, and how many entries of the key there are. -/
structure Settled (key : Bytes) (n : ℕ) (t : Table) (r : Phase × Table) : Prop where
  follows : Follows r.2 t key
  leads : ∀ name, r.1 = .leads name → name = t.nextName ∧ r.2.nextName = t.nextName + 1
  waits : ∀ name, r.1 = .waits name → (name, key) ∈ ids t
  count : entriesOf (ids r.2) key ≤ max 1 n
  others : ∀ key', key' ≠ key → entriesOf (ids r.2) key' ≤ entriesOf (ids t) key'

theorem settle_led {t' : Table} {l : List (ℕ × Bytes)}
    (hids : ids t' = (t.nextName, key) :: l) (hsub : l.Sublist (ids t))
    (hcount : entriesOf l key + 1 ≤ max 1 n) (hnext : t'.nextName = t.nextName + 1) :
    Settled key n t (settle t oom (.leads, t')) := by
  have hhead : entriesOf (ids t') key = entriesOf l key + 1 := by
    rw [hids, entriesOf_cons, if_pos rfl]
  have hothers : ∀ key', key' ≠ key → entriesOf (ids t') key' ≤ entriesOf (ids t) key' := by
    intro key' hne
    rw [hids, entriesOf_cons, if_neg hne.symm]
    exact entriesOf_le hsub key'
  cases oom with
  | false =>
    refine ⟨⟨hids ▸ hsub.cons_cons _, hnext ▸ Nat.le_succ _, .inr hnext⟩, ?_, (nomatch ·, ·), ?_,
      hothers⟩
    · rintro name ⟨rfl⟩
      exact ⟨rfl, hnext⟩
    · exact hhead.trans_le hcount
  | true =>
    -- the entry that would be in front is not there
    have htail : ids { t' with entries := t'.entries.tail } = l := by
      have h : (ids t').tail = l := by
        rw [hids]
        rfl
      rw [← h]
      exact List.map_tail
    have htail' : (ids { t' with entries := t'.entries.tail }).Sublist (ids t) := htail ▸ hsub
    refine ⟨.of_sublist htail' (hnext ▸ Nat.le_succ _), (nomatch ·, ·), (nomatch ·, ·), ?_, ?_⟩
    · change entriesOf (ids { t' with entries := t'.entries.tail }) key ≤ _
      rw [htail]
      omega
    · intro key' _
      exact entriesOf_le htail' key'

theorem TurnOk.settle {r : Turn × Table} (h : TurnOk key t r) (oom : Bool) :
    Settled key (entriesOf (ids t) key) t (settle t oom r) := by
  rcases r with ⟨turn, t'⟩
  rcases h with ⟨hturn, hled⟩ | ⟨hturn, ht, hwaits⟩
  · cases hturn
    rcases hled.entries with ⟨l, hids, hsub, hcount⟩
    exact settle_led hids hsub hcount hled.next
  · cases ht
    have hsame : Follows t' t' key := .of_sublist (List.Sublist.refl _) (le_refl _)
    cases turn with
    | leads => exact absurd rfl hturn
    | shared html =>
      exact ⟨hsame, (nomatch ·, ·), (nomatch ·, ·), le_max_right _ _, fun _ _ => le_refl _⟩
    | waits name =>
      refine ⟨hsame, (nomatch ·, ·), ?_, le_max_right _ _, fun _ _ => le_refl _⟩
      rintro name ⟨rfl⟩
      exact hwaits name rfl

/-- Names are given out once, to one caller for its key; there is at most one entry of a
key and one more for each caller that found its entry gone. -/
structure Inv (s : State) : Prop where
  nodup : ((ids s.table).map Prod.fst).Nodup
  fresh : ∀ x ∈ ids s.table, x.1 < s.table.nextName
  named : ∀ c ∈ s.callers, ∀ name, c.phase = .leads name ∨ c.phase = .waits name →
    name < s.table.nextName ∧ ∀ x ∈ ids s.table, x.1 = name → x.2 = c.key
  own : ∀ (i j : ℕ) (c d : Caller) (name : ℕ), s.callers[i]? = some c → s.callers[j]? = some d →
    c.phase = .leads name → d.phase = .leads name → i = j
  count : ∀ key, entriesOf (ids s.table) key ≤ 1 + s.orphans key

theorem inv_start : Inv start where
  nodup := .nil
  fresh _ h := absurd h List.not_mem_nil
  named _ h := absurd h List.not_mem_nil
  own _ _ _ _ _ h := nomatch h
  count _ := Nat.zero_le _

theorem eq_of_name (h : ((ids t).map Prod.fst).Nodup) {x y : ℕ × Bytes} (hx : x ∈ ids t)
    (hy : y ∈ ids t) (hname : x.1 = y.1) : x = y :=
  List.inj_on_of_nodup_map h hx hy hname

/-- A settled turn of one caller keeps the invariant, with the count that it leaves. -/
theorem Inv.settled {n k : ℕ} {callers : List Caller} {orphans : Bytes → ℕ}
    (hinv : Inv s) (h : Settled key n s.table r)
    (hcallers : ∀ (j : ℕ) c, callers[j]? = some c → j = k ∧ c = ⟨key, r.1⟩ ∨ s.callers[j]? = some c)
    (hn : max 1 n ≤ 1 + orphans key) (horphans : ∀ key', s.orphans key' ≤ orphans key') :
    Inv ⟨r.2, callers, orphans⟩ := by
  have hmem : ∀ x ∈ ids r.2, x = (s.table.nextName, key) ∨ x ∈ ids s.table :=
    fun x hx => List.mem_cons.1 (h.follows.entries.subset hx)
  -- an old name still names what it did
  have hold : ∀ c ∈ s.callers, ∀ name, c.phase = .leads name ∨ c.phase = .waits name →
      name < r.2.nextName ∧ ∀ x ∈ ids r.2, x.1 = name → x.2 = c.key := by
    intro c hc name hphase
    rcases hinv.named c hc name hphase with ⟨hlt, hkey⟩
    refine ⟨hlt.trans_le h.follows.next, fun x hx hname => ?_⟩
    rcases hmem x hx with rfl | hx
    · exact absurd hname (Nat.ne_of_gt hlt)
    · exact hkey x hx hname
  constructor
  · have hnotin : s.table.nextName ∉ (ids s.table).map Prod.fst := by
      intro hmem
      rcases List.mem_map.1 hmem with ⟨x, hx, hname⟩
      exact absurd hname (Nat.ne_of_lt (hinv.fresh x hx))
    have hcons : (((s.table.nextName, key) :: ids s.table).map Prod.fst).Nodup :=
      List.nodup_cons.2 ⟨hnotin, hinv.nodup⟩
    exact hcons.sublist (h.follows.entries.map _)
  · intro x hx
    rcases h.follows.fresh with hsub | hnext
    · exact (hinv.fresh x (hsub.subset hx)).trans_le h.follows.next
    · change x.1 < r.2.nextName
      rw [hnext]
      rcases hmem x hx with rfl | hx
      · exact Nat.lt_succ_self _
      · exact (hinv.fresh x hx).trans (Nat.lt_succ_self _)
  · intro c hc name hphase
    rcases List.getElem?_of_mem hc with ⟨j, hj⟩
    rcases hcallers j c hj with ⟨-, rfl⟩ | hj
    · rcases hphase with hlead | hwait
      · rcases h.leads name hlead with ⟨rfl, hnext⟩
        refine ⟨?_, fun x hx hname => ?_⟩
        · change s.table.nextName < r.2.nextName
          omega
        · rcases hmem x hx with rfl | hx
          · rfl
          · exact absurd hname (Nat.ne_of_lt (hinv.fresh x hx))
      · have hx := h.waits name hwait
        refine ⟨(hinv.fresh _ hx).trans_le h.follows.next, fun y hy hname => ?_⟩
        rcases hmem y hy with rfl | hy
        · exact absurd hname (Nat.ne_of_gt (hinv.fresh _ hx))
        · rw [eq_of_name hinv.nodup hy hx hname]
    · exact hold c (List.mem_of_getElem? hj) name hphase
  · intro i j c d name hi hj hc hd
    have hnew : ∀ (j : ℕ) d, s.callers[j]? = some d → d.phase = .leads name →
        r.1 = .leads name → False := by
      intro j d hj hd hr
      have hlt := (hinv.named d (List.mem_of_getElem? hj) name (.inl hd)).1
      exact Nat.ne_of_lt hlt (h.leads name hr).1
    rcases hcallers i c hi with ⟨rfl, rfl⟩ | hi'
    · rcases hcallers j d hj with ⟨rfl, rfl⟩ | hj'
      · rfl
      · exact absurd hc (hnew j d hj' hd)
    · rcases hcallers j d hj with ⟨rfl, rfl⟩ | hj'
      · exact absurd hd (hnew i c hi' hc)
      · exact hinv.own i j c d name hi' hj' hc hd
  · intro key'
    rcases eq_or_ne key' key with rfl | hne
    · exact h.count.trans hn
    · have hle := h.others key' hne
      have hbound := hinv.count key'
      have horphan := horphans key'
      change entriesOf (ids r.2) key' ≤ 1 + orphans key'
      omega

theorem Inv.enter (hinv : Inv s)
    (h : Settled key (entriesOf (ids s.table) key) s.table r) : Inv (enter s key r) := by
  refine hinv.settled (k := s.callers.length) h ?_ ?_ fun _ => le_refl _
  · intro j c hj
    rcases Nat.lt_trichotomy j s.callers.length with hlt | rfl | hgt
    · rw [List.getElem?_append_left hlt] at hj
      exact .inr hj
    · rw [List.getElem?_concat_length, Option.some.injEq] at hj
      exact .inl ⟨rfl, hj.symm⟩
    · rw [List.getElem?_eq_none (by rw [List.length_append]; exact hgt)] at hj
      exact nomatch hj
  · exact max_le (Nat.le_add_right _ _) (hinv.count key)

theorem ids_finish (t : Table) (key : Bytes) (html : Option Bytes) (now : ℕ) :
    ids (finish t key html now) = ids t ∧ (finish t key html now).nextName = t.nextName := by
  unfold finish
  split
  · exact ⟨rfl, rfl⟩
  · split
    · exact ⟨rfl, rfl⟩
    · exact ⟨ids_update _ _ fun _ => ⟨rfl, rfl⟩, rfl⟩

theorem inv_step (s : State) (a : Action) (hinv : Inv s) : Inv (step s a) := by
  cases a with
  | ask key now oom => exact hinv.enter ((turnOk_waitOrStart s.table key now).settle oom)
  | tryStart key now oom => exact hinv.enter ((turnOk_tryStart s.table key now).settle oom)
  | wake i now oom =>
    simp only [step]
    split
    · next key name hi =>
      have hset : ∀ (r : Phase) (j : ℕ) c, (s.callers.set i ⟨key, r⟩)[j]? = some c →
          j = i ∧ c = ⟨key, r⟩ ∨ s.callers[j]? = some c := by
        intro r j c hj
        rcases eq_or_ne j i with rfl | hne
        · rw [List.getElem?_set_self (List.getElem?_eq_some_iff.1 hi).1, Option.some.injEq] at hj
          exact .inl ⟨rfl, hj.symm⟩
        · rw [List.getElem?_set_ne hne.symm] at hj
          exact .inr hj
      cases hgone : gone s.table name with
      | true =>
        -- nothing is unlinked for the new entry
        rw [if_pos rfl, wake_gone hgone]
        have hled : Settled key (entriesOf (ids s.table) key + 1) s.table
            (settle s.table oom (.leads, s.table.lead key now)) :=
          settle_led (ids_lead _ _ _) (List.Sublist.refl _) (le_max_right _ _) rfl
        refine hinv.settled hled (hset _) ?_ ?_
        · have hcount := hinv.count key
          rw [Function.update_self]
          omega
        · intro key'
          rcases eq_or_ne key' key with rfl | hne
          · rw [Function.update_self]
            exact Nat.le_succ _
          · rw [Function.update_of_ne hne]
      | false =>
        have hkey : ∀ e ∈ s.table.entries, e.name = name → e.key = key := by
          intro e he hname
          have hnamed := (hinv.named _ (List.mem_of_getElem? hi) name (.inr rfl)).2
          exact hnamed (e.name, e.key) (mem_ids he rfl) hname
        rw [if_neg (by decide)]
        exact hinv.settled ((turnOk_wake hkey hgone).settle oom) (hset _)
          (max_le (Nat.le_add_right _ _) (hinv.count key)) fun _ => le_refl _
    · exact hinv
  | finish key html now =>
    rcases ids_finish s.table key html now with ⟨hids, hnext⟩
    refine ⟨?_, ?_, ?_, hinv.own, ?_⟩
    · rw [step, hids]
      exact hinv.nodup
    · rw [step, hids, hnext]
      exact hinv.fresh
    · rw [step, hids, hnext]
      exact hinv.named
    · rw [step, hids]
      exact hinv.count

theorem inv_run (as : List Action) : Inv (run step start as) :=
  run_invariant _ inv_step inv_start as

/-! ## Live leaders -/

def liveName (t : Table) (key : Bytes) (now : ℕ) (c : Caller) : Option ℕ :=
  if live t key now c then
    match c.phase with
    | .leads name => some name
    | _ => none
  else none

theorem live_spec (h : live t key now c = true) :
    ∃ name, c.key = key ∧ c.phase = .leads name ∧ ∃ e ∈ t.entries, e.name = name := by
  unfold live at h
  rw [Bool.and_eq_true] at h
  rcases h with ⟨hkey, hlive⟩
  split at hlive
  · next name hphase =>
    rcases List.any_eq_true.1 hlive with ⟨e, he, hcond⟩
    simp only [Bool.and_eq_true, beq_iff_eq] at hcond
    exact ⟨name, by simpa using hkey, hphase, e, he, hcond.1.1⟩
  · exact nomatch hlive

theorem liveName_eq_some (h : liveName t key now c = some n) :
    live t key now c = true ∧ c.phase = .leads n := by
  unfold liveName at h
  split at h
  · next hlive =>
    split at h
    · next hphase =>
      cases Option.some.inj h
      exact ⟨hlive, hphase⟩
    · exact nomatch h
  · exact nomatch h

theorem liveName_isSome (c : Caller) : (liveName t key now c).isSome = live t key now c := by
  cases h : live t key now c with
  | false =>
    unfold liveName
    rw [h]
    rfl
  | true =>
    rcases live_spec h with ⟨name, -, hphase, -⟩
    unfold liveName
    rw [h, hphase]
    rfl

theorem liveLeaders_le (hinv : Inv s) (key : Bytes) (now : ℕ) :
    s.liveLeaders key now ≤ entriesOf (ids s.table) key := by
  have hlen : s.liveLeaders key now = (s.callers.filterMap (liveName s.table key now)).length := by
    rw [List.length_filterMap_eq_countP]
    exact List.countP_congr fun c _ => by rw [liveName_isSome]
  have hnodup : (s.callers.filterMap (liveName s.table key now)).Nodup := by
    rw [List.Nodup, List.pairwise_filterMap, List.pairwise_iff_getElem]
    intro i j hi hj hij n hn n' hn' heq
    subst heq
    have hphase := (liveName_eq_some hn).2
    have hphase' := (liveName_eq_some hn').2
    exact Nat.ne_of_lt hij (hinv.own i j _ _ n (List.getElem?_eq_getElem hi)
      (List.getElem?_eq_getElem hj) hphase hphase')
  have hsub : s.callers.filterMap (liveName s.table key now) ⊆
      ((ids s.table).filter fun x => x.2 == key).map Prod.fst := by
    intro n hn
    rcases List.mem_filterMap.1 hn with ⟨c, hc, hname⟩
    rcases liveName_eq_some hname with ⟨hlive, hphase⟩
    rcases live_spec hlive with ⟨name, hkey, hphase', e, he, hename⟩
    rw [hphase, Phase.leads.injEq] at hphase'
    subst hphase'
    have hekey := (hinv.named c hc n (.inl hphase)).2 (e.name, e.key) (mem_ids he rfl) hename
    refine List.mem_map.2 ⟨(e.name, e.key), List.mem_filter.2 ⟨mem_ids he rfl, ?_⟩, hename⟩
    rw [beq_iff_eq]
    exact hekey.trans hkey
  have hle := (List.Nodup.subperm hnodup hsub).length_le
  rw [List.length_map, ← List.countP_eq_length_filter] at hle
  rw [hlen]
  exact hle

/-- The entry the caller waits for is gone, or its leader has timed out. -/
def Lost (t : Table) (name now : ℕ) : Prop :=
  ∀ e ∈ t.entries, e.name = name → e.done = false ∧ e.expiresAt < now

theorem wake_lost (key : Bytes) (h : Lost t name now) : (wake t key name now).1 = .leads := by
  unfold wake
  split
  · rfl
  · next e hfind =>
    have hname : e.name = name := by simpa using List.find?_some hfind
    rcases h e (List.mem_of_find?_eq_some hfind) hname with ⟨hdone, hexp⟩
    rw [hdone, if_neg (by decide), if_pos hexp]

/-- In every run, with any clock: at most one caller leads a key with an entry that is
neither finished nor expired, and one more for each caller that woke up to an entry that
was already unlinked. Each waiter of a leader that has timed out leads when it wakes up
(and has the memory for an entry). -/
theorem live_leaders_le (as : List Action) (s : State) (hs : s = run step start as) :
    (∀ key now, s.liveLeaders key now ≤ 1 + s.orphans key) ∧
      ∀ (i : ℕ) (key : Bytes) (name now : ℕ), s.callers[i]? = some ⟨key, .waits name⟩ →
        Lost s.table name now →
          (step s (.wake i now false)).callers[i]? = some ⟨key, .leads s.table.nextName⟩ := by
  have hinv : Inv s := hs ▸ inv_run as
  constructor
  · intro key now
    exact (liveLeaders_le hinv key now).trans (hinv.count key)
  · intro i key name now hi hlost
    have hturn := wake_lost key hlost
    simp only [step, hi]
    rw [List.getElem?_set_self (List.getElem?_eq_some_iff.1 hi).1, settle, hturn]
    rfl

def twoWaiters : List Action :=
  [.ask (bytes "home:") 0 false, .ask (bytes "home:") 0 false, .ask (bytes "home:") 0 false,
    .wake 1 6 false, .wake 2 6 false]

theorem live_leaders_le_timed_out :
    (run step start (twoWaiters.take 4)).liveLeaders (bytes "home:") 6 ≤
        1 + (run step start (twoWaiters.take 4)).orphans (bytes "home:") ∧
      (step (run step start (twoWaiters.take 4)) (.wake 2 6 false)).callers[2]? =
        some ⟨bytes "home:", .leads (run step start (twoWaiters.take 4)).table.nextName⟩ := by
  have h := live_leaders_le (twoWaiters.take 4) _ rfl
  refine ⟨h.1 _ _, h.2 2 (bytes "home:") 0 6 (by decide +kernel) ?_⟩
  unfold Lost
  decide +kernel

/-- Then both lead at once. -/
theorem two_leaders_after_timeout :
    (run step start twoWaiters).liveLeaders (bytes "home:") 6 = 2 := by
  decide +kernel

end FlyBoard.SingleFlight

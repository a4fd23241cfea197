import Mathlib.Data.List.Basic
import Mathlib.Logic.Function.Basic

/-!
# Read-modify-write transactions

Clients read a shared store, compute their writes from what they read, and write step
by step, without a lock. `Undisturbed` says that nobody else has written since the
client read; then the store is what the transactions give one after the other. Every
transaction writes at least once.
-/

namespace FlyBoard.Transactions

variable {F T : Type}

/-- A transaction under way: the writes that are left, whether it has written, and the
version of the store that it has read or written last. -/
structure Open (F T : Type) where
  txn : T
  rest : List (F → F)
  begun : Bool
  seen : ℕ

/-- The store, how often it was written, the transaction of each client, and the
transactions that are through, with their clients. -/
structure State (F T : Type) where
  store : F
  version : ℕ
  opened : ℕ → Option (Open F T)
  commits : List (ℕ × T)

def start (f : F) : State F T := ⟨f, 0, fun _ => none, []⟩

section

variable (writes : T → F → List (F → F))

/-- What a transaction does alone: the writes computed from the store, in their order. -/
def apply (f : F) (t : T) : F := (writes t f).foldl (fun g w => w g) f

def load (s : State F T) (i : ℕ) (t : T) : State F T :=
  match s.opened i with
  | some _ => s
  | none =>
    { s with opened := Function.update s.opened i (some ⟨t, writes t s.store, false, s.version⟩) }

end

/-- The client does its next write; after the last one it is through. -/
def write (s : State F T) (i : ℕ) : State F T :=
  match s.opened i with
  | none => s
  | some o =>
    match o.rest with
    | [] => s
    | [w] => ⟨w s.store, s.version + 1, Function.update s.opened i none, s.commits ++ [(i, o.txn)]⟩
    | w :: rest =>
      { s with
        store := w s.store
        version := s.version + 1
        opened := Function.update s.opened i (some ⟨o.txn, rest, true, s.version + 1⟩) }

/-- Nobody has written since the client last read or wrote. -/
def Undisturbed (s : State F T) (i : ℕ) : Prop :=
  ∀ o, s.opened i = some o → o.seen = s.version

def Quiet (s : State F T) : Prop := ∀ i, s.opened i = none

section

variable {writes : T → F → List (F → F)} {f : F} {s : State F T} {o : Open F T}
  {x : Option (Open F T)} {i : ℕ}

/-- What the transactions that are through give one after the other. -/
def sequential (writes : T → F → List (F → F)) (f : F) (s : State F T) : F :=
  (s.commits.map Prod.snd).foldl (apply writes) f

/-- The store is the sequential one; or the single client that has begun to write
completes it to the next one; or a client that has begun was overtaken, and will not be
undisturbed again. -/
inductive Progress (writes : T → F → List (F → F)) (f : F) (s : State F T) : Prop
  | clean (h : s.store = sequential writes f s)
      (hnone : ∀ i o, s.opened i = some o → o.begun = false)
  | underWay (i : ℕ) (o : Open F T) (hi : s.opened i = some o) (hb : o.begun = true)
      (hseen : o.seen = s.version)
      (hrest : o.rest.foldl (fun g w => w g) s.store = apply writes (sequential writes f s) o.txn)
      (honly : ∀ j o', s.opened j = some o' → o'.begun = true → j = i)
  | overtaken (i : ℕ) (o : Open F T) (hi : s.opened i = some o) (hb : o.begun = true)
      (hseen : o.seen < s.version)

structure Inv (writes : T → F → List (F → F)) (f : F) (s : State F T) : Prop where
  seen_le : ∀ i o, s.opened i = some o → o.seen ≤ s.version
  read : ∀ i o, s.opened i = some o → o.begun = false → o.seen = s.version →
    o.rest = writes o.txn s.store
  progress : Progress writes f s

theorem inv_start (f : F) : Inv writes f (start f) where
  seen_le _ _ h := nomatch h
  read _ _ h := nomatch h
  progress := .clean rfl fun _ _ h => nomatch h

/-- At rest the store is what the transactions give one after the other. -/
theorem Inv.store_eq (h : Inv writes f s) (hquiet : Quiet s) : s.store = sequential writes f s := by
  cases h.progress with
  | clean hstore _ => exact hstore
  | underWay i o hi => exact absurd (hquiet i ▸ hi) (Option.some_ne_none o).symm
  | overtaken i o hi => exact absurd (hquiet i ▸ hi) (Option.some_ne_none o).symm

theorem opened_update {i j : ℕ} (h : Function.update s.opened i x j = some o) :
    j = i ∧ x = some o ∨ j ≠ i ∧ s.opened j = some o := by
  by_cases hji : j = i
  · subst hji
    exact .inl ⟨rfl, (Function.update_self j x s.opened).symm.trans h⟩
  · exact .inr ⟨hji, (Function.update_of_ne hji x s.opened).symm.trans h⟩

theorem Inv.load (h : Inv writes f s) (i : ℕ) (t : T) :
    Inv writes f (Transactions.load writes s i t) := by
  unfold Transactions.load
  cases hi : s.opened i with
  | some o => exact h
  | none =>
    have hother : ∀ j o, s.opened j = some o → j ≠ i := by
      rintro j o hj rfl
      exact absurd (hi ▸ hj) (Option.some_ne_none o).symm
    have hkeep : ∀ j o, s.opened j = some o →
        Function.update s.opened i (some ⟨t, writes t s.store, false, s.version⟩) j = some o :=
      fun j o hj => (Function.update_of_ne (hother j o hj) _ _).trans hj
    refine ⟨?_, ?_, ?_⟩
    · intro j o hj
      rcases opened_update hj with ⟨rfl, ho⟩ | ⟨-, hj⟩
      · cases ho
        exact Nat.le_refl s.version
      · exact h.seen_le j o hj
    · intro j o hj hb hseen
      rcases opened_update hj with ⟨rfl, ho⟩ | ⟨-, hj⟩
      · rw [← Option.some.inj ho]
      · exact h.read j o hj hb hseen
    · have hbegun : ∀ j o, Function.update s.opened i
          (some ⟨t, writes t s.store, false, s.version⟩) j = some o → o.begun = true →
          s.opened j = some o := by
        intro j o hj hb
        rcases opened_update hj with ⟨rfl, ho⟩ | ⟨-, hj⟩
        · rw [← Option.some.inj ho] at hb
          exact nomatch hb
        · exact hj
      cases h.progress with
      | clean hstore hnone =>
        refine .clean hstore ?_
        intro j o hj
        cases hb : o.begun with
        | false => rfl
        | true => exact hb.symm.trans (hnone j o (hbegun j o hj hb))
      | underWay j o hj hb hseen hrest honly =>
        refine .underWay j o (hkeep j o hj) hb hseen hrest ?_
        intro k o' hk hb'
        exact honly k o' (hbegun k o' hk hb') hb'
      | overtaken j o hj hb hseen => exact .overtaken j o (hkeep j o hj) hb hseen

/-- What a write leads to, for a client that has just read or written the store. -/
theorem Progress.write {w : F → F} {rest : List (F → F)}
    (h : Inv writes f s) (hi : s.opened i = some o) (hrest : o.rest = w :: rest)
    (hseen : o.seen = s.version) :
    (∀ j o', s.opened j = some o' → o'.begun = true → j = i) ∧
        rest.foldl (fun g w => w g) (w s.store) = apply writes (sequential writes f s) o.txn ∨
      ∃ j o', j ≠ i ∧ s.opened j = some o' ∧ o'.begun = true ∧ o'.seen ≤ s.version := by
  cases h.progress with
  | clean hstore hnone =>
    left
    constructor
    · intro j o' hj hb
      rw [hnone j o' hj] at hb
      exact nomatch hb
    · -- the client has read the sequential store
      have hread := h.read i o hi (hnone i o hi) hseen
      rw [← hstore, apply, ← hread, hrest]
      rfl
  | underWay j o' hj hb hseen' hrest' honly =>
    by_cases hji : j = i
    · subst hji
      have heq : o' = o := Option.some.inj (hj.symm.trans hi)
      subst heq
      left
      refine ⟨honly, ?_⟩
      rw [← hrest', hrest]
      rfl
    · exact .inr ⟨j, o', hji, hj, hb, Nat.le_of_eq hseen'⟩
  | overtaken j o' hj hb hlt =>
    right
    refine ⟨j, o', ?_, hj, hb, Nat.le_of_lt hlt⟩
    rintro rfl
    have heq : o' = o := Option.some.inj (hj.symm.trans hi)
    rw [heq, hseen] at hlt
    exact Nat.lt_irrefl _ hlt

/-- After a write nobody has seen a later version, and who has not begun to write has not
seen this one. -/
theorem Inv.seen_write (h : Inv writes f s)
    (hx : ∀ o, x = some o → o.begun = true ∧ o.seen = s.version + 1) {j : ℕ}
    (hj : Function.update s.opened i x j = some o) :
    o.seen ≤ s.version + 1 ∧ (o.begun = false → o.seen ≠ s.version + 1) := by
  rcases opened_update hj with ⟨-, ho⟩ | ⟨-, hj⟩
  · rcases hx o ho with ⟨hb, hseen⟩
    refine ⟨Nat.le_of_eq hseen, ?_⟩
    intro hnot
    exact nomatch hb.symm.trans hnot
  · have hle := h.seen_le j o hj
    exact ⟨by omega, fun _ => by omega⟩

theorem Inv.write (h : Inv writes f s) (hu : Undisturbed s i) :
    Inv writes f (Transactions.write s i) := by
  unfold Transactions.write
  cases hi : s.opened i with
  | none => exact h
  | some o =>
    cases hrest : o.rest with
    | nil => simp only [hrest]; exact h
    | cons w rest =>
      have hp := Progress.write h hi hrest (hu o hi)
      cases rest with
      | nil =>
        -- the last write: the transaction is through
        simp only [hrest]
        have hseen := fun j o' => h.seen_write (i := i) (x := none) (fun _ ho => nomatch ho)
          (j := j) (o := o')
        refine ⟨fun j o' hj => (hseen j o' hj).1, ?_, ?_⟩
        · intro j o' hj hb heq
          exact absurd heq ((hseen j o' hj).2 hb)
        · rcases hp with ⟨honly, hstore⟩ | ⟨j, o', hji, hj, hb, hle⟩
          · refine .clean ?_ ?_
            · simpa [sequential] using hstore
            · intro j o' hj
              rcases opened_update hj with ⟨-, ho⟩ | ⟨hji, hj⟩
              · exact nomatch ho
              · cases hb : o'.begun with
                | false => rfl
                | true => exact absurd (honly j o' hj hb) hji
          · exact .overtaken j o' ((Function.update_of_ne hji _ _).trans hj) hb
              (Nat.lt_succ_of_le hle)
      | cons w' rest =>
        -- more writes are to come: the client is the one under way
        simp only [hrest]
        have hseen := fun j o' => h.seen_write (i := i)
          (x := some ⟨o.txn, w' :: rest, true, s.version + 1⟩)
          (by rintro _ ⟨⟩; exact ⟨rfl, rfl⟩) (j := j) (o := o')
        refine ⟨fun j o' hj => (hseen j o' hj).1, ?_, ?_⟩
        · intro j o' hj hb heq
          exact absurd heq ((hseen j o' hj).2 hb)
        · rcases hp with ⟨honly, hstore⟩ | ⟨j, o', hji, hj, hb, hle⟩
          · refine .underWay i _ (Function.update_self _ _ _) rfl rfl hstore ?_
            intro j o' hj hb
            rcases opened_update hj with ⟨hji, -⟩ | ⟨-, hj⟩
            · exact hji
            · exact honly j o' hj hb
          · exact .overtaken j o' ((Function.update_of_ne hji _ _).trans hj) hb
              (Nat.lt_succ_of_le hle)

end

/-! ## The history of a client -/

/-- The transactions that a client has begun, those that are through first. -/
def history (s : State F T) (i : ℕ) : List T :=
  (s.commits.filter (·.1 = i)).map Prod.snd ++ ((s.opened i).map Open.txn).toList

variable {s : State F T}

theorem history_load {writes : T → F → List (F → F)} {i : ℕ}
    (hi : s.opened i = none) (t : T) (j : ℕ) :
    history (load writes s i t) j = if j = i then history s j ++ [t] else history s j := by
  simp only [history, load, hi]
  by_cases hji : j = i
  · subst hji
    simp [hi]
  · rw [Function.update_of_ne hji, if_neg hji]

theorem history_write (s : State F T) (i j : ℕ) : history (write s i) j = history s j := by
  unfold write
  cases hi : s.opened i with
  | none => rfl
  | some o =>
    by_cases hji : j = i
    · subst hji
      rcases hrest : o.rest with _ | ⟨w, _ | ⟨w', rest⟩⟩ <;> simp [history, hi, hrest]
    · have hij : i ≠ j := fun h => hji h.symm
      rcases hrest : o.rest with _ | ⟨w, _ | ⟨w', rest⟩⟩ <;>
        simp [history, hrest, Function.update_of_ne hji, hij]

theorem history_of_quiet (h : Quiet s) (i : ℕ) :
    history s i = (s.commits.filter (·.1 = i)).map Prod.snd := by
  simp [history, h i]

end FlyBoard.Transactions

import FlyBoard.Lib.Bytes
import FlyBoard.Lib.Run
import FlyBoard.Lib.Stamps
import Mathlib.Data.List.Forall2
import Mathlib.Tactic.Common

/-!
# Versions of stored replies (`src/engine/bdr.c`, `src/engine/async_route.c`)

Counters shared by all workers stamp the replies that each worker stores. The stamp is
composed of one or two counters that are read one after another, and a bump counts up one
or two counters, one after another; in between any other worker may act.

A load and an increment are one step each. The state beside the counters and the stores
remembers when the counters of a stamp were read and when a bump counted them up.
-/

namespace FlyBoard.BdrVersions

open Bytes Run Stamps
open Stamps.Counters (later_tick later_count fits_load)

/-! ## Keys and counters -/

/-- `bdr_shared_versions_t` -/
inductive Counter
  | global
  | listings
  | appearance
  | post (bucket : ℕ)
deriving DecidableEq

def fnv1a (s : Bytes) : UInt64 :=
  s.foldl (fun h b => (h ^^^ b.toUInt64) * 1099511628211) 1469598103934665603

/-- `post_bucket_of_len` -/
def postBucket (slug : Bytes) : ℕ := (fnv1a slug).toNat % 256

/-- The path of a key that begins with `fb|`. -/
def pathOf (key : Bytes) : Bytes := (key.drop 3).takeWhile (· != 63)

/-- The counters that `engine_bdr_version_for_key` loads, in its order. -/
def versionCounters (key : Bytes) : List Counter :=
  if !startsWith key (bytes "fb|") then [.global, .listings]
  else
    let path := pathOf key
    if 6 < path.length && startsWith path (bytes "/post/") then
      [.global, .post (postBucket (path.drop 6))]
    else if path = bytes "/theme.json" ∨ path = bytes "/themes.json" ∨
        path = bytes "/robots.txt" then [.global]
    else [.global, .listings]

/-- The token of the loaded values: `(g << 32) ^ l`, or `g` alone. -/
def token : List ℕ → ℕ
  | [g] => g
  | [g, x] => ((g <<< 32) % 2 ^ 64) ^^^ x
  | _ => 0

inductive Bump
  /-- `engine_bdr_bump` -/
  | all
  /-- `engine_bdr_bump_appearance` -/
  | appearance
  /-- `engine_bdr_bump_listings` -/
  | listings
  /-- `engine_bdr_bump_post` -/
  | post (slug : Option Bytes)
  /-- `engine_bdr_bump_board` -/
  | board (slug : Option Bytes)
deriving DecidableEq

def Bump.counters : Bump → List Counter
  | .all => [.global, .listings]
  | .appearance => [.appearance, .global, .listings]
  | .listings => [.listings]
  | .post slug =>
    match slug with
    | some (c :: cs) => [.listings, .post (postBucket (c :: cs))]
    | _ => [.listings, .global]
  | .board _ => [.listings]

def Bump.Covers (b : Bump) (key : Bytes) : Prop := ∃ c ∈ b.counters, c ∈ versionCounters key

instance (b : Bump) (key : Bytes) : Decidable (b.Covers key) := List.decidableBEx _ _

/-! ## Workers -/

/-- A reply in the store of a worker: its token, and where that comes from. -/
structure Reply where
  token : ℕ
  loads : List (Load Counter)
deriving DecidableEq

inductive Thread
  /-- A request that missed: it loads the token, renders and stores. -/
  | request (worker : ℕ) (key : Bytes) (loads : List (Load Counter)) (todo : List Counter)
  /-- `engine_bdr_serve` once it has a reply: it loads the version and compares. -/
  | serve (key : Bytes) (began : ℕ) (reply : Reply) (values : List ℕ) (todo : List Counter)
  /-- The reply was served. -/
  | served (key : Bytes) (began : ℕ) (loads : List (Load Counter))
  | bump (b : Bump) (began : ℕ) (counted : List (Counter × ℕ)) (todo : List Counter)
  | bumped (b : Bump) (began : ℕ) (counted : List (Counter × ℕ)) (ended : ℕ)
  | done
deriving DecidableEq

structure State where
  counters : Counters Counter
  store : (worker : ℕ) → (key : Bytes) → Option Reply
  threads : List Thread

inductive Event
  /-- `async_gate` reads the token of a key. -/
  | request (worker : ℕ) (key : Bytes)
  /-- `engine_bdr_serve` looks into the store. -/
  | serve (worker : ℕ) (key : Bytes)
  | bump (b : Bump)
  /-- The next step of a thread. `ok`: the reply is stored, or what was found is whole and
  within the TTL. -/
  | exec (i : ℕ) (ok : Bool)
  /-- Another reply takes the slot. -/
  | evict (worker : ℕ) (key : Bytes)

def start : State where
  counters := ⟨0, fun _ => 1, []⟩
  store _ _ := none
  threads := []

def atomicLoad (s : Counters Counter) (c : Counter) : ℕ := s.value c % 2 ^ 64

def Thread.exec (th : Thread) (ok : Bool) (s : State) : State × Thread :=
  match th with
  | .request worker key loads (c :: todo) =>
    ({ s with counters := s.counters.tick },
      .request worker key (loads ++ [s.counters.load c]) todo)
  | .request worker key loads [] =>
    -- the handler has rendered; `engine_bdr_store`
    ({ s with
        counters := s.counters.tick
        store := fun w k =>
          if ok ∧ w = worker ∧ k = key then
            some ⟨token (loads.map fun l => l.value % 2 ^ 64), loads⟩
          else s.store w k },
      .done)
  | .serve key began reply values (c :: todo) =>
    ({ s with counters := s.counters.tick },
      .serve key began reply (values ++ [atomicLoad s.counters c]) todo)
  | .serve key began reply values [] =>
    ({ s with counters := s.counters.tick },
      if ok ∧ reply.token = token values then .served key began reply.loads else .done)
  | .bump b began counted (c :: todo) =>
    ({ s with counters := s.counters.count c },
      .bump b began (counted ++ [(c, s.counters.now)]) todo)
  | .bump b began counted [] =>
    ({ s with counters := s.counters.tick }, .bumped b began counted s.counters.now)
  | .served key began loads => (s, .served key began loads)
  | .bumped b began counted ended => (s, .bumped b began counted ended)
  | .done => (s, .done)

def spawn (s : State) (th : Thread) : State :=
  { s with counters := s.counters.tick, threads := s.threads ++ [th] }

def step (s : State) : Event → State
  | .request worker key => spawn s (.request worker key [] (versionCounters key))
  | .serve worker key =>
    match s.store worker key with
    | some reply => spawn s (.serve key s.counters.now reply [] (versionCounters key))
    | none => spawn s .done
  | .bump b => spawn s (.bump b s.counters.now [] b.counters)
  | .exec i ok =>
    match s.threads[i]? with
    | some th =>
      let r := th.exec ok s
      { r.1 with threads := s.threads.set i r.2 }
    | none => s
  | .evict worker key =>
    { s with
      counters := s.counters.tick
      store := fun w k => if w = worker ∧ k = key then none else s.store w k }

/-! ## What must not happen -/

/-- The bump counted up a counter of the token after the token had loaded it. -/
def CountedAfter (counted : List (Counter × ℕ)) (loads : List (Load Counter)) : Prop :=
  ∃ l ∈ loads, ∃ x ∈ counted, x.1 = l.counter ∧ l.time ≤ x.2

def ReadBefore (loads : List (Load Counter)) (began : ℕ) : Prop := ∀ l ∈ loads, l.time < began

/-- No call of `engine_bdr_serve` that begins after a bump serves a reply whose token the
bump has outdated; a bump that covers the key and begins after the token was read does. -/
def RespectsBumps (s : State) : Prop :=
  ∀ key began loads, .served key began loads ∈ s.threads →
    ∀ b bumpBegan counted ended, .bumped b bumpBegan counted ended ∈ s.threads →
      (CountedAfter counted loads → began < ended) ∧
      (b.Covers key → ReadBefore loads bumpBegan → CountedAfter counted loads)

def Below32 (s : State) : Prop := ∀ c, s.counters.value c < 2 ^ 32

/-! ## Tokens -/

theorem token_pair_div {g x : ℕ} (hg : g < 2 ^ 32) (hx : x < 2 ^ 32) :
    token [g, x] / 2 ^ 32 = g := by
  have hshift : (g <<< 32) % 2 ^ 64 = g * 2 ^ 32 := by
    rw [Nat.shiftLeft_eq]
    omega
  rw [token, hshift, Nat.xor_div_two_pow, Nat.mul_div_cancel _ (by decide),
    Nat.div_eq_of_lt hx, Nat.xor_zero]

theorem token_pair_mod {g x : ℕ} (hg : g < 2 ^ 32) (hx : x < 2 ^ 32) :
    token [g, x] % 2 ^ 32 = x := by
  have hshift : (g <<< 32) % 2 ^ 64 = g * 2 ^ 32 := by
    rw [Nat.shiftLeft_eq]
    omega
  rw [token, hshift, Nat.xor_mod_two_pow, Nat.mul_mod_left, Nat.mod_eq_of_lt hx, Nat.zero_xor]

theorem length_versionCounters (key : Bytes) :
    (versionCounters key).length = 1 ∨ (versionCounters key).length = 2 := by
  unfold versionCounters
  split
  · exact .inr rfl
  · dsimp only
    split
    · exact .inr rfl
    · split
      · exact .inl rfl
      · exact .inr rfl

theorem token_injective (key : Bytes) {vs ws : List ℕ}
    (hvs : vs.length = (versionCounters key).length)
    (hws : ws.length = (versionCounters key).length) (hv : ∀ v ∈ vs, v < 2 ^ 32)
    (hw : ∀ w ∈ ws, w < 2 ^ 32) (h : token vs = token ws) : vs = ws := by
  rcases length_versionCounters key with hone | htwo
  · rw [hone] at hvs hws
    rcases List.length_eq_one_iff.mp hvs with ⟨g, rfl⟩
    rcases List.length_eq_one_iff.mp hws with ⟨g', rfl⟩
    exact congrArg (fun g => [g]) h
  · rw [htwo] at hvs hws
    rcases List.length_eq_two.mp hvs with ⟨g, x, rfl⟩
    rcases List.length_eq_two.mp hws with ⟨g', x', rfl⟩
    have hg := hv g (by simp)
    have hx := hv x (by simp)
    have hg' := hw g' (by simp)
    have hx' := hw x' (by simp)
    have hdiv : g = g' := by
      rw [← token_pair_div hg hx, h, token_pair_div hg' hx']
    have hmod : x = x' := by
      rw [← token_pair_mod hg hx, h, token_pair_mod hg' hx']
    rw [hdiv, hmod]

/-! ## The invariant -/

def LoadsOk (c : Counters Counter) (loads : List (Load Counter)) : Prop :=
  ∀ l ∈ loads, c.Fits l ∧ l.value < 2 ^ 32

structure ReplyOk (c : Counters Counter) (key : Bytes) (reply : Reply) : Prop where
  counters : reply.loads.map (·.counter) = versionCounters key
  loads : LoadsOk c reply.loads
  token : reply.token = BdrVersions.token (reply.loads.map fun l => l.value % 2 ^ 64)

def Quiet (c : Counters Counter) (began : ℕ) (l : Load Counter) : Prop :=
  ∀ t, (l.counter, t) ∈ c.log → t < began → t < l.time

def Seen (c : Counters Counter) (began : ℕ) (l : Load Counter) (v : ℕ) : Prop :=
  v < 2 ^ 32 ∧ (l.value = v → Quiet c began l)

def ThreadOk (c : Counters Counter) : Thread → Prop
  | .request _ key loads todo =>
    loads.map (·.counter) ++ todo = versionCounters key ∧ LoadsOk c loads
  | .serve key began reply values todo =>
    ReplyOk c key reply ∧ began ≤ c.now ∧
      ∃ seen rest, reply.loads = seen ++ rest ∧ rest.map (·.counter) = todo ∧
        List.Forall₂ (Seen c began) seen values
  | .served key began loads =>
    loads.map (·.counter) = versionCounters key ∧ began ≤ c.now ∧ ∀ l ∈ loads, Quiet c began l
  | .bump b began counted todo =>
    counted.map (·.1) ++ todo = b.counters ∧ began ≤ c.now ∧
      ∀ x ∈ counted, x ∈ c.log ∧ began ≤ x.2
  | .bumped b began counted ended =>
    counted.map (·.1) = b.counters ∧ ∀ x ∈ counted, x ∈ c.log ∧ began ≤ x.2 ∧ x.2 < ended
  | .done => True

structure Inv (s : State) : Prop where
  past : s.counters.Past
  store : ∀ worker key reply, s.store worker key = some reply → ReplyOk s.counters key reply
  threads : ∀ th ∈ s.threads, ThreadOk s.counters th

section Later

variable {c c' : Counters Counter} (hlater : c.Later c')

include hlater

theorem LoadsOk.later {loads : List (Load Counter)} (h : LoadsOk c loads) : LoadsOk c' loads :=
  fun l hl => ⟨hlater.fits l (h l hl).1, (h l hl).2⟩

theorem ReplyOk.later {key : Bytes} {reply : Reply} (h : ReplyOk c key reply) :
    ReplyOk c' key reply :=
  ⟨h.counters, h.loads.later hlater, h.token⟩

theorem Quiet.later {began : ℕ} {l : Load Counter} (h : Quiet c began l) (hbegan : began ≤ c.now) :
    Quiet c' began l := by
  intro t ht hlt
  rcases hlater.new _ ht with hold | hnew
  · exact h t hold hlt
  · exact absurd (Nat.le_trans hbegan hnew) (Nat.not_le_of_lt hlt)

theorem ThreadOk.later {th : Thread} (h : ThreadOk c th) : ThreadOk c' th := by
  cases th with
  | request worker key loads todo => exact ⟨h.1, h.2.later hlater⟩
  | serve key began reply values todo =>
    rcases h with ⟨hreply, hbegan, seen, rest, heq, hrest, hseen⟩
    refine ⟨hreply.later hlater, Nat.le_trans hbegan hlater.now_le, seen, rest, heq, hrest, ?_⟩
    refine hseen.imp ?_
    intro l v hv
    exact ⟨hv.1, fun hvalue => (hv.2 hvalue).later hlater hbegan⟩
  | served key began loads =>
    rcases h with ⟨hcounters, hbegan, hquiet⟩
    refine ⟨hcounters, Nat.le_trans hbegan hlater.now_le, ?_⟩
    intro l hl
    exact (hquiet l hl).later hlater hbegan
  | bump b began counted todo =>
    refine ⟨h.1, Nat.le_trans h.2.1 hlater.now_le, ?_⟩
    intro x hx
    exact ⟨hlater.mem x (h.2.2 x hx).1, (h.2.2 x hx).2⟩
  | bumped b began counted ended =>
    refine ⟨h.1, ?_⟩
    intro x hx
    exact ⟨hlater.mem x (h.2 x hx).1, (h.2 x hx).2⟩
  | done => trivial

end Later

theorem Inv.extend {s s' : State} (h : Inv s) (hlater : s.counters.Later s'.counters)
    (hpast : s'.counters.Past)
    (hstore : ∀ worker key reply, s'.store worker key = some reply →
      s.store worker key = some reply ∨ ReplyOk s'.counters key reply)
    (hthreads : ∀ th ∈ s'.threads, th ∈ s.threads ∨ ThreadOk s'.counters th) : Inv s' where
  past := hpast
  store worker key reply hreply := by
    rcases hstore worker key reply hreply with hold | hnew
    · exact (h.store worker key reply hold).later hlater
    · exact hnew
  threads th hth := by
    rcases hthreads th hth with hold | hnew
    · exact (h.threads th hold).later hlater
    · exact hnew

/-! ## Steps -/

section Steps

variable {s : State}

/-- What a thread's step does to the counters, the store and itself. -/
structure ExecOk (s : State) (r : State × Thread) : Prop where
  later : s.counters.Later r.1.counters
  past : r.1.counters.Past
  store : ∀ worker key reply, r.1.store worker key = some reply →
    s.store worker key = some reply ∨ ReplyOk r.1.counters key reply
  thread : ThreadOk r.1.counters r.2

theorem later_refl (c : Counters Counter) : c.Later c :=
  ⟨Nat.le_refl _, fun _ h => h, fun _ h => h, fun _ h => .inl h⟩

/-- The comparison finds a token whose counters were not counted up before it began. -/
theorem quiet_of_token_eq {key : Bytes} {began : ℕ} {reply : Reply} {values : List ℕ}
    (hreply : ReplyOk s.counters key reply)
    (hseen : List.Forall₂ (Seen s.counters began) reply.loads values)
    (htoken : reply.token = token values) : ∀ l ∈ reply.loads, Quiet s.counters began l := by
  have hlen : reply.loads.length = (versionCounters key).length := by
    rw [← hreply.counters, List.length_map]
  have hvalues : (reply.loads.map fun l => l.value % 2 ^ 64) = reply.loads.map (·.value) := by
    refine List.map_congr_left ?_
    intro l hl
    have hlt := (hreply.loads l hl).2
    omega
  have hsmall : ∀ v ∈ values, v < 2 ^ 32 := by
    intro v hv
    rcases List.forall₂_iff_get.mp hseen with ⟨hl, hget⟩
    rcases List.mem_iff_get.mp hv with ⟨i, rfl⟩
    have hi : i.1 < reply.loads.length := by
      rw [hl]
      exact i.2
    exact (hget i.1 hi i.2).1
  rw [hreply.token, hvalues] at htoken
  have heq : reply.loads.map (·.value) = values := by
    refine token_injective key ?_ ?_ ?_ hsmall htoken
    · rw [List.length_map, hlen]
    · rw [← hseen.length_eq, hlen]
    · intro v hv
      rcases List.mem_map.mp hv with ⟨l, hl, rfl⟩
      exact (hreply.loads l hl).2
  intro l hl
  rcases List.forall₂_iff_get.mp hseen with ⟨hlength, hget⟩
  rcases List.mem_iff_get.mp hl with ⟨i, rfl⟩
  have hi : i.1 < values.length := by
    rw [← hlength]
    exact i.2
  refine (hget i.1 i.2 hi).2 ?_
  simp [← heq]

theorem ThreadOk.exec (hs : Inv s) (h32 : Below32 s) {th : Thread}
    (h : ThreadOk s.counters th) (ok : Bool) : ExecOk s (th.exec ok s) := by
  have hkeep : ∀ worker key reply, s.store worker key = some reply →
      s.store worker key = some reply ∨ ReplyOk s.counters.tick key reply :=
    fun _ _ _ hreply => .inl hreply
  have htick := later_tick s.counters
  cases th with
  | request worker key loads todo =>
    cases todo with
    | cons c todo =>
      refine ⟨htick, hs.past.tick, hkeep, ?_, ?_⟩
      · rw [List.map_append, List.append_assoc]
        exact h.1
      · intro l hl
        rcases List.mem_append.mp hl with hold | hnew
        · exact h.2.later htick l hold
        · rw [List.mem_singleton.mp hnew]
          exact ⟨(fits_load hs.past c).tick, h32 c⟩
    | nil =>
      refine ⟨htick, hs.past.tick, ?_, trivial⟩
      intro w k reply hreply
      dsimp only [Thread.exec] at hreply
      split at hreply
      · next hput =>
        rw [Option.some.injEq] at hreply
        subst hreply
        refine .inr ⟨?_, h.2.later htick, rfl⟩
        rw [hput.2.2, ← h.1, List.append_nil]
      · exact .inl hreply
  | serve key began reply values todo =>
    rcases h with ⟨hreply, hbegan, seen, rest, heq, hrest, hseen⟩
    cases todo with
    | cons c todo =>
      cases rest with
      | nil => exact nomatch hrest
      | cons l rest =>
        rw [List.map_cons, List.cons.injEq] at hrest
        rcases hrest with ⟨hc, hrest⟩
        refine ⟨htick, hs.past.tick, hkeep, hreply.later htick, Nat.le_succ_of_le hbegan,
          seen ++ [l], rest, ?_, hrest, ?_⟩
        · rw [heq, List.append_assoc]
          rfl
        · have hfits : s.counters.Fits l := by
            refine (hreply.loads l ?_).1
            rw [heq]
            exact List.mem_append_right _ List.mem_cons_self
          have hatomic : atomicLoad s.counters c = s.counters.value l.counter := by
            have hlt := h32 c
            rw [atomicLoad, hc]
            omega
          have hnew : Seen s.counters.tick began l (atomicLoad s.counters c) := by
            rw [hatomic]
            refine ⟨h32 _, ?_⟩
            intro hvalue t ht _
            exact hfits.not_counted hvalue.symm ht
          refine List.rel_append ?_ (.cons hnew .nil)
          refine hseen.imp ?_
          intro l v hv
          exact ⟨hv.1, fun hvalue => (hv.2 hvalue).later htick hbegan⟩
    | nil =>
      refine ⟨htick, hs.past.tick, hkeep, ?_⟩
      dsimp only [Thread.exec]
      split
      · next hhit =>
        have hnil : rest = [] := List.map_eq_nil_iff.mp hrest
        rw [hnil, List.append_nil] at heq
        rw [← heq] at hseen
        have hquiet := quiet_of_token_eq hreply hseen hhit.2
        refine ⟨hreply.counters, Nat.le_succ_of_le hbegan, ?_⟩
        intro l hl
        exact (hquiet l hl).later htick hbegan
      · trivial
  | served key began loads => exact ⟨later_refl _, hs.past, fun _ _ _ h => .inl h, h⟩
  | bump b began counted todo =>
    rcases h with ⟨hcounters, hbegan, hcounted⟩
    cases todo with
    | cons c todo =>
      have hcount := later_count s.counters c
      refine ⟨hcount, hs.past.count c, fun _ _ _ h => .inl h, ?_, Nat.le_succ_of_le hbegan, ?_⟩
      · rw [List.map_append, List.append_assoc]
        exact hcounters
      · intro x hx
        rcases List.mem_append.mp hx with hold | hnew
        · exact ⟨hcount.mem x (hcounted x hold).1, (hcounted x hold).2⟩
        · rw [List.mem_singleton.mp hnew]
          exact ⟨List.mem_append_right _ (List.mem_singleton_self _), hbegan⟩
    | nil =>
      refine ⟨htick, hs.past.tick, hkeep, ?_, ?_⟩
      · rw [List.append_nil] at hcounters
        exact hcounters
      · intro x hx
        have hlog := hcounted x hx
        exact ⟨hlog.1, hlog.2, hs.past x hlog.1⟩
  | bumped b began counted ended => exact ⟨later_refl _, hs.past, fun _ _ _ h => .inl h, h⟩
  | done => exact ⟨later_refl _, hs.past, fun _ _ _ h => .inl h, trivial⟩

theorem Inv.spawn (hs : Inv s) {th : Thread} (h : ThreadOk s.counters.tick th) :
    Inv (spawn s th) := by
  refine hs.extend (later_tick s.counters) hs.past.tick (fun _ _ _ hreply => .inl hreply) ?_
  intro th' hth'
  rcases List.mem_append.mp hth' with hold | hnew
  · exact .inl hold
  · rw [List.mem_singleton.mp hnew]
    exact .inr h

theorem Inv.step (hs : Inv s) (h32 : Below32 s) (e : Event) : Inv (step s e) := by
  cases e with
  | request worker key => exact hs.spawn ⟨rfl, nofun⟩
  | serve worker key =>
    dsimp only [BdrVersions.step]
    split
    · next reply hreply =>
      have hok := hs.store worker key reply hreply
      exact hs.spawn ⟨hok.later (later_tick s.counters), Nat.le_succ _, [], reply.loads, rfl,
        hok.counters, .nil⟩
    · exact hs.spawn trivial
  | bump b => exact hs.spawn ⟨rfl, Nat.le_succ _, nofun⟩
  | exec i ok =>
    dsimp only [BdrVersions.step]
    split
    · next th hth =>
      have hexec := (hs.threads th (List.mem_of_getElem? hth)).exec hs h32 ok
      refine hs.extend hexec.later hexec.past hexec.store ?_
      intro th' hth'
      rcases List.mem_or_eq_of_mem_set hth' with hold | rfl
      · exact .inl hold
      · exact .inr hexec.thread
    · exact hs
  | evict worker key =>
    refine hs.extend (later_tick s.counters) hs.past.tick ?_ fun _ hth => .inl hth
    intro w k reply hreply
    dsimp only [BdrVersions.step] at hreply
    split at hreply
    · exact nomatch hreply
    · exact .inl hreply

theorem inv_start : Inv start where
  past := nofun
  store := nofun
  threads := nofun

/-! ## Runs -/

/-- A bump that covers the key, and begins after its token was read, counts up one of the
token's counters. -/
theorem countedAfter_of_covers {key : Bytes} {loads : List (Load Counter)} {b : Bump}
    {began ended : ℕ} {counted : List (Counter × ℕ)}
    (hloads : loads.map (·.counter) = versionCounters key)
    (hcounters : counted.map (·.1) = b.counters)
    (hcounted : ∀ x ∈ counted, x ∈ s.counters.log ∧ began ≤ x.2 ∧ x.2 < ended)
    (hcovers : b.Covers key) (hread : ReadBefore loads began) : CountedAfter counted loads := by
  rcases hcovers with ⟨c, hbump, hkey⟩
  rw [← hcounters] at hbump
  rw [← hloads] at hkey
  rcases List.mem_map.mp hbump with ⟨x, hx, hxc⟩
  rcases List.mem_map.mp hkey with ⟨l, hl, hlc⟩
  have hlate : l.time ≤ x.2 := Nat.le_of_lt (Nat.lt_of_lt_of_le (hread l hl) (hcounted x hx).2.1)
  exact ⟨l, hl, x, hx, hxc.trans hlc.symm, hlate⟩

theorem Inv.respectsBumps (h : Inv s) : RespectsBumps s := by
  intro key began loads hserved b bumpBegan counted ended hbumped
  have hs := h.threads _ hserved
  have hb := h.threads _ hbumped
  refine ⟨?_, countedAfter_of_covers hs.1 hb.1 hb.2⟩
  rintro ⟨l, hl, x, hx, hcounter, htime⟩
  by_contra hbefore
  have hquiet := hs.2.2 l hl x.2
  rw [← hcounter] at hquiet
  have hlog := hb.2 x hx
  have hearly := hquiet hlog.1 (by omega)
  omega

/-- In every run whose counters stay below 2^32, no reply is served by a call that begins
after a bump which counted up a counter of the reply's token since the token loaded it;
every bump that covers the key and begins after the token was read does so. -/
theorem stored_replies_respect_bumps {es : List Event}
    (h32 : AllSteps step (fun s _ => Below32 s) start es) {t : State}
    (ht : Reaches step start es t) : RespectsBumps t := by
  have hstep : ∀ s e, Inv s → Below32 s → Inv (BdrVersions.step s e) :=
    fun _ e hs hbelow => hs.step hbelow e
  exact (h32.invariant_reaches hstep inv_start ht).respectsBumps

theorem value_step_le (s : State) (e : Event) (c : Counter) :
    (step s e).counters.value c ≤ s.counters.value c + 1 := by
  have hsame : s.counters.tick.value c ≤ s.counters.value c + 1 := Nat.le_succ _
  have hcount : ∀ c', (s.counters.count c').value c ≤ s.counters.value c + 1 := by
    intro c'
    by_cases hc : c = c'
    · rw [hc]
      exact Nat.le_of_eq (Function.update_self c' _ s.counters.value)
    · have hvalue : (s.counters.count c').value c = s.counters.value c :=
        Function.update_of_ne hc _ s.counters.value
      rw [hvalue]
      exact Nat.le_succ _
  cases e with
  | request worker key => exact hsame
  | serve worker key =>
    dsimp only [step]
    split <;> exact hsame
  | bump b => exact hsame
  | evict worker key => exact hsame
  | exec i ok =>
    dsimp only [step]
    split
    · next th hth =>
      cases th with
      | request worker key loads todo => cases todo <;> exact hsame
      | serve key began reply values todo => cases todo <;> exact hsame
      | served key began loads => exact Nat.le_succ _
      | bump b began counted todo =>
        cases todo with
        | nil => exact hsame
        | cons c' todo => exact hcount c'
      | bumped b began counted ended => exact Nat.le_succ _
      | done => exact Nat.le_succ _
    · exact Nat.le_succ _

theorem allSteps_below32 {es : List Event} (h : ∀ c, s.counters.value c + es.length ≤ 2 ^ 32) :
    AllSteps step (fun s _ => Below32 s) s es := by
  induction es generalizing s with
  | nil => trivial
  | cons e es ih =>
    simp only [List.length_cons] at h
    refine ⟨?_, ih ?_⟩
    · intro c
      have hc := h c
      omega
    · intro c
      have hc := h c
      have hstep := value_step_le s e c
      omega

end Steps

/-! ## A bump that ends after the token was read -/

def aKey : Bytes := bytes "fb|/post/a?|ae=0|t=-|m=0|o=|x=,,,,"

/-- `engine_bdr_bump` has counted up `global_ver` when a request reads its token, and counts
up `listings_ver` before the reply is served. -/
def straddledBump : List Event :=
  [.bump .all, .exec 0 true, .request 1 aKey, .exec 1 true, .exec 1 true, .exec 0 true,
   .exec 0 true, .exec 1 true, .serve 1 aKey, .exec 2 true, .exec 2 true, .exec 2 true]

/-- No reply is served after a bump that covers its key and ended after the token was
read. -/
def OutdatedByLateBumps (s : State) : Prop :=
  ∀ key began loads, .served key began loads ∈ s.threads →
    ∀ b bumpBegan counted ended, .bumped b bumpBegan counted ended ∈ s.threads →
      b.Covers key → ReadBefore loads ended → began < ended

/-- The bump covers the key and ends after the token was read, and the reply is served
after it: its token has the bump's `global_ver` already. -/
theorem served_after_straddled_bump :
    ¬ OutdatedByLateBumps (run step start straddledBump) := by
  have hthreads : (run step start straddledBump).threads =
      [.bumped .all 0 [(.global, 1), (.listings, 5)] 6, .done,
       .served aKey 8 [⟨.global, 3, 2⟩, ⟨.post (postBucket (bytes "a")), 4, 1⟩]] := by
    decide +kernel
  intro h
  unfold OutdatedByLateBumps at h
  rw [hthreads] at h
  have hserved := h _ _ _ (List.mem_cons_of_mem _ (List.mem_cons_of_mem _ List.mem_cons_self))
  have hread : ReadBefore
      [⟨.global, 3, 2⟩, ⟨.post (postBucket (bytes "a")), 4, 1⟩] 6 := by
    intro l hl
    rcases List.mem_pair.mp hl with rfl | rfl
    · decide
    · show 4 < 6
      decide
  have hlate := hserved _ _ _ _ List.mem_cons_self (by decide +kernel) hread
  exact absurd hlate (by decide)

/-- There the rule holds. -/
theorem straddledBump_respectsBumps : RespectsBumps (run step start straddledBump) :=
  stored_replies_respect_bumps (allSteps_below32 fun _ => Nat.le_of_ble_eq_true rfl)
    (reaches_run _ _)

end FlyBoard.BdrVersions

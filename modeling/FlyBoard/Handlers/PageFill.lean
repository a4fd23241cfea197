import FlyBoard.Handlers.PostAddresses

/-!
# Filling the page cache (`src/handlers/post.c`, `src/utils/cache.c`)

A request that finds no page reads the database, renders, and stores what it rendered. An
edit commits and then invalidates. Each of these is a step, and the steps of all requests,
refresh jobs and edits of one worker interleave freely. A refresh job stores its page only if
the generation of the cache is the one it was scheduled at; a request stores in any case.

The state beside the cache remembers when the data of a page were read, when edits committed
and ended, and which pages were handed out.
-/

namespace FlyBoard.PageFill

open FlyBoard.Run FlyBoard.PinnedCache
open FlyBoard.PageCache (Limits bucketOf)
open FlyBoard.PostAddresses (invalidatePost invalidatedPrefixes)
open FlyBoard.CacheKeys (postKey guest)

/-! ## Steps -/

structure Edit where
  slug : Option Bytes
  committed : ℕ
  ended : ℕ
deriving DecidableEq

/-- A request that was answered from the page cache, and when the data of its page were
read. -/
structure Answer where
  key : Bytes
  began : ℕ
  readAt : ℕ
deriving DecidableEq

inductive Thread
  /-- A request before `page_cache_get`, or before `page_cache_get_stale`. -/
  | looking (key : Bytes) (began : ℕ) (stale : Bool)
  /-- A stale page was found; a refresh job is to be scheduled. -/
  | refreshing (key : Bytes)
  /-- A request that missed, or a job with its generation, before it reads the database. -/
  | filling (key : Bytes) (generation : Option ℕ)
  /-- The page is rendered from data that were read at a time. -/
  | storing (key : Bytes) (generation : Option ℕ) (readAt : ℕ)
  | editing (slug : Option Bytes)
  /-- The edit is committed, `page_cache_invalidate_post` is to be called. -/
  | committed (slug : Option Bytes) (time : ℕ)
  | done
deriving DecidableEq

structure State where
  clock : ℕ
  cache : Cache
  /-- When the data of an entry were read, by the entry's name. -/
  readAt : (name : ℕ) → ℕ
  threads : List Thread
  answers : List Answer
  edits : List Edit

/-- What a step depends on beside the state: the clock of the machine, whether the handler
goes on (it leads, the post is public, there is memory), and the page. -/
structure Choice where
  now : ℕ
  ok : Bool
  data : Bytes
  ttlSec : ℕ
  oom : Bool

inductive Event
  /-- `handler_post_get` or `handler_post_list` begins, with the key of its page. -/
  | request (key : Bytes)
  | edit (slug : Option Bytes)
  /-- The next step of a thread. -/
  | exec (i : ℕ) (c : Choice)
  /-- `page_cache_release`, `page_cache_delete`, `page_cache_clear` and other clearings. -/
  | release (key : Bytes) (now : ℕ)
  | delete (key : Bytes)
  | clear
  | clearPrefixes (prefixes : List Bytes)

def start : State := ⟨0, empty, fun _ => 0, [], [], []⟩

def exec (limits : Limits) (s : State) (c : Choice) : Thread → State × Thread
  | .looking key began stale =>
    let r := s.cache.lookup limits key c.now stale
    match r.1 with
    | some hit =>
      ({ s with cache := r.2, answers := s.answers ++ [⟨key, began, s.readAt hit.name⟩] },
        if stale then .refreshing key else .done)
    | none =>
      ({ s with cache := r.2 }, if stale then .filling key none else .looking key began true)
  | .refreshing key =>
    if c.ok then
      ({ s with threads := s.threads ++ [.filling key (some s.cache.generation)] }, .done)
    else (s, .done)
  | .filling key generation => (s, if c.ok then .storing key generation s.clock else .done)
  | .storing key generation readAt =>
    if c.ok then
      -- `page_cache_set`, or `page_cache_set_if_generation`
      let r := s.cache.set limits key c.data c.ttlSec (generation.getD 0) c.now c.oom
      ({ s with
          cache := r.2
          readAt := if r.1 then Function.update s.readAt s.cache.keys.length readAt else s.readAt },
        .done)
    else (s, .done)
  | .editing slug => (s, .committed slug s.clock)
  | .committed slug time =>
    ({ s with
        cache := apply limits s.cache (invalidatePost slug)
        edits := s.edits ++ [⟨slug, time, s.clock⟩] },
      .done)
  | .done => (s, .done)

def upkeep (limits : Limits) (s : State) (op : Op) : State :=
  { s with cache := apply limits s.cache op }

def act (limits : Limits) (s : State) : Event → State
  | .request key => { s with threads := s.threads ++ [.looking key s.clock false] }
  | .edit slug => { s with threads := s.threads ++ [.editing slug] }
  | .exec i c =>
    match s.threads[i]? with
    | some th =>
      let r := exec limits s c th
      { r.1 with threads := r.1.threads.set i r.2 }
    | none => s
  | .release key now => upkeep limits s (.release key now)
  | .delete key => upkeep limits s (.delete key)
  | .clear => upkeep limits s .clear
  | .clearPrefixes prefixes => upkeep limits s (.clearPrefixes prefixes)

def step (limits : Limits) (s : State) (e : Event) : State :=
  { act limits s e with clock := s.clock + 1 }

/-! ## What must not happen -/

def Clears (slug : Option Bytes) (key : Bytes) : Prop := (invalidatePost slug).Invalidates key

variable (changes : Option Bytes → Bytes → Prop)

/-- No request that began after an edit's invalidation was answered with a page that the edit
changes and whose data were read before the edit was committed. -/
def NoStaleAnswer (s : State) : Prop :=
  ∀ a ∈ s.answers, ∀ ed ∈ s.edits, changes ed.slug a.key → ed.ended < a.began →
    ed.committed ≤ a.readAt

/-- The page that a request is to store was made of data of after the edits that cleared its
key. -/
def FillsInTime (edits : List Edit) : Thread → Prop
  | .storing key none readAt => ∀ ed ∈ edits, Clears ed.slug key → ed.committed ≤ readAt
  | _ => True

/-- A page that an ended edit changes is requested under a key that the edit cleared, and
when a request stores its page, no edit that cleared its key and was committed after its data
were read has ended. -/
def InTime (s : State) : Event → Prop
  | .request key => ∀ ed ∈ s.edits, changes ed.slug key → Clears ed.slug key
  | .exec i c => c.ok = true → ∀ th ∈ s.threads[i]?, FillsInTime s.edits th
  | _ => True

instance (slug : Option Bytes) (key : Bytes) : Decidable (Clears slug key) :=
  inferInstanceAs (Decidable (Cache.hasPrefix (invalidatedPrefixes slug) key = true))

instance (edits : List Edit) : ∀ th, Decidable (FillsInTime edits th)
  | .storing key none readAt =>
    inferInstanceAs (Decidable (∀ ed ∈ edits, Clears ed.slug key → ed.committed ≤ readAt))
  | .storing _ (some _) _ | .looking .. | .refreshing _ | .filling .. | .editing _
  | .committed .. | .done => instDecidableTrue

instance [∀ slug key, Decidable (changes slug key)] (s : State) :
    ∀ e, Decidable (InTime changes s e)
  | .request key =>
    inferInstanceAs (Decidable (∀ ed ∈ s.edits, changes ed.slug key → Clears ed.slug key))
  | .exec i c =>
    inferInstanceAs (Decidable (c.ok = true → ∀ th ∈ s.threads[i]?, FillsInTime s.edits th))
  | .edit _ | .release .. | .delete _ | .clear | .clearPrefixes _ => instDecidableTrue

/-! ## Generations -/

section Generations

variable {limits : Limits} {c : Cache}

theorem generation_makeRoom (c : Cache) (key data : Bytes) :
    (c.makeRoom limits key data).generation = c.generation := by
  have hsupersede : (c.supersede key).generation = c.generation := by
    unfold Cache.supersede
    split
    · rfl
    · split <;> rfl
  have hevict : ∀ len fuel (c : Cache),
      (Cache.evict limits len fuel c).generation = c.generation := by
    intro len fuel
    induction fuel with
    | zero => exact fun _ => rfl
    | succ fuel ih =>
      intro c
      rw [Cache.evict]
      split
      · split
        · exact ih _
        · rfl
      · rfl
  rw [Cache.makeRoom, hevict, hsupersede]

theorem generation_set (c : Cache) (key data : Bytes) (ttl generation : ℕ) (now : ℤ)
    (oom : Bool) : (c.set limits key data ttl generation now oom).2.generation = c.generation := by
  rcases set_cases limits c key data ttl generation now oom with heq | heq | ⟨heq, -⟩
  · rw [heq]
  · rw [heq, generation_makeRoom]
  · rw [heq]
    exact generation_makeRoom c key data

theorem generation_lookup (c : Cache) (key : Bytes) (now : ℤ) (stale : Bool) :
    (c.lookup limits key now stale).2.generation = c.generation := by
  have hexpired : ∀ stale, (c.getExpired limits key now stale).2.generation = c.generation := by
    intro stale
    unfold Cache.getExpired
    split
    · rfl
    · split
      · rfl
      · dsimp only
        split
        · split <;> rfl
        · rfl
  unfold Cache.lookup
  split
  · unfold Cache.getStale
    split
    · rfl
    · exact hexpired true
  · exact hexpired false

theorem generation_invalidatePost (c : Cache) (slug : Option Bytes) :
    (apply limits c (invalidatePost slug)).generation = c.generation + 1 := by
  cases slug <;> rfl

end Generations

/-! ## The invariant -/

/-- An entry that can be handed out was made of data that no ended edit has outdated. -/
def Fresh (c : Cache) (readAt : ℕ → ℕ) (edits : List Edit) : Prop :=
  ∀ i, ∀ e ∈ c.buckets i, e.expiresAt ≠ 0 → ∀ ed ∈ edits, Clears ed.slug e.key →
    ed.committed ≤ readAt e.name

def Cleared (edits : List Edit) (key : Bytes) (began : ℕ) : Prop :=
  ∀ ed ∈ edits, changes ed.slug key → ed.ended < began → Clears ed.slug key

/-- A job's page is made of data of after all edits while the generation is the job's. -/
def ThreadOk (clock generation : ℕ) (edits : List Edit) : Thread → Prop
  | .looking key began _ => began ≤ clock ∧ Cleared changes edits key began
  | .filling _ (some g) => 0 < g ∧ g ≤ generation
  | .storing _ (some g) readAt =>
    0 < g ∧ g ≤ generation ∧ (g = generation → ∀ ed ∈ edits, ed.committed ≤ readAt)
  | .committed _ time => time ≤ clock
  | _ => True

structure Inv (limits : Limits) (s : State) : Prop where
  cache : PinnedCache.Inv limits s.cache
  generation : 0 < s.cache.generation
  fresh : Fresh s.cache s.readAt s.edits
  began : ∀ a ∈ s.answers, a.began ≤ s.clock
  answers : NoStaleAnswer changes s
  committed : ∀ ed ∈ s.edits, ed.committed ≤ s.clock
  threads : ∀ th ∈ s.threads, ThreadOk changes s.clock s.cache.generation s.edits th

variable {changes} {limits : Limits} {s s' : State} {th : Thread} {c : Cache} {i : ℕ}
  {clock clock' generation generation' : ℕ} {edits : List Edit} {e : Event}

theorem inv_start (limits : Limits) : Inv changes limits start where
  cache := inv_empty limits
  generation := Nat.one_pos
  fresh _ _ he := absurd he List.not_mem_nil
  began := nofun
  answers := nofun
  committed := nofun
  threads := nofun

/-- A thread stays as it is while the others go on: an edit that ends does so after every
request began, and counts the generation up. -/
theorem ThreadOk.mono {edits edits' : List Edit}
    (h : ThreadOk changes clock generation edits th) (hclock : clock ≤ clock')
    (hle : generation ≤ generation') (hedits : generation' = generation → edits' = edits)
    (hended : ∀ ed ∈ edits', ed ∈ edits ∨ clock ≤ ed.ended) :
    ThreadOk changes clock' generation' edits' th := by
  cases th with
  | looking key began stale =>
    rcases h with ⟨hbegan, hcleared⟩
    refine ⟨Nat.le_trans hbegan hclock, ?_⟩
    intro ed hed hchanges hlt
    rcases hended ed hed with hold | hnew
    · exact hcleared ed hold hchanges hlt
    · omega
  | refreshing key => trivial
  | filling key g =>
    cases g with
    | none => trivial
    | some g => exact ⟨h.1, Nat.le_trans h.2 hle⟩
  | storing key g readAt =>
    cases g with
    | none => trivial
    | some g =>
      rcases h with ⟨hpos, hg, hdata⟩
      refine ⟨hpos, Nat.le_trans hg hle, ?_⟩
      intro heq
      rw [hedits (by omega)]
      exact hdata (by omega)
  | editing slug => trivial
  | committed slug time => exact Nat.le_trans h hclock
  | done => trivial

theorem ThreadOk.later (h : ThreadOk changes clock generation edits th) (hclock : clock ≤ clock')
    (hle : generation ≤ generation') : ThreadOk changes clock' generation' edits th :=
  h.mono hclock hle (fun _ => rfl) fun _ hed => .inl hed

theorem Fresh.thin {readAt : ℕ → ℕ} {c' : Cache} (h : Fresh c readAt edits)
    (ht : BucketsThin c' c) : Fresh c' readAt edits := by
  intro i e' he' hlive ed hed hkey
  rcases (ht.buckets i).mem he' with ⟨e, he, hfrom⟩
  rw [hfrom.name]
  rw [hfrom.key] at hkey
  rcases hfrom.expiry with heq | hzero
  · exact h i e he (heq ▸ hlive) ed hed hkey
  · exact absurd hzero hlive

theorem Inv.thin (h : Inv changes limits s) (hc : PinnedCache.Inv limits c)
    (ht : BucketsThin c s.cache) (hle : s.cache.generation ≤ c.generation) :
    Inv changes limits { s with cache := c } where
  cache := hc
  generation := Nat.lt_of_lt_of_le h.generation hle
  fresh := h.fresh.thin ht
  began := h.began
  answers := h.answers
  committed := h.committed
  threads th hth := (h.threads th hth).later (Nat.le_refl _) hle

theorem Inv.tick (h : Inv changes limits s) :
    Inv changes limits { s with clock := s.clock + 1 } where
  cache := h.cache
  generation := h.generation
  fresh := h.fresh
  began a ha := Nat.le_succ_of_le (h.began a ha)
  answers := h.answers
  committed ed hed := Nat.le_succ_of_le (h.committed ed hed)
  threads th hth := (h.threads th hth).later (Nat.le_succ _) (Nat.le_refl _)

theorem Inv.withThreads (h : Inv changes limits s) {threads : List Thread}
    (hthreads : ∀ th ∈ threads, th ∈ s.threads ∨
      ThreadOk changes s.clock s.cache.generation s.edits th) :
    Inv changes limits { s with threads := threads } where
  cache := h.cache
  generation := h.generation
  fresh := h.fresh
  began := h.began
  answers := h.answers
  committed := h.committed
  threads th hth := by
    rcases hthreads th hth with hold | hnew
    · exact h.threads th hold
    · exact hnew

theorem Inv.spawn (h : Inv changes limits s)
    (hth : ThreadOk changes s.clock s.cache.generation s.edits th) :
    Inv changes limits { s with threads := s.threads ++ [th] } := by
  refine h.withThreads ?_
  intro th' hmem
  rcases List.mem_append.mp hmem with hold | hnew
  · exact .inl hold
  · rw [List.mem_singleton.mp hnew]
    exact .inr hth

theorem Inv.set (h : Inv changes limits s) (i : ℕ)
    (hth : ThreadOk changes s.clock s.cache.generation s.edits th) :
    Inv changes limits { s with threads := s.threads.set i th } := by
  refine h.withThreads ?_
  intro th' hmem
  rcases List.mem_or_eq_of_mem_set hmem with hold | rfl
  · exact .inl hold
  · exact .inr hth

/-! ## Lookups -/

theorem thinned_lookup (c : Cache) (key : Bytes) (now : ℤ) (stale : Bool) :
    Thinned (c.lookup limits key now stale).2 c := by
  unfold Cache.lookup
  split
  · exact thinned_getStale
  · exact thinned_getExpired false

theorem inv_lookup (h : PinnedCache.Inv limits c) (key : Bytes) (now : ℤ) (stale : Bool) :
    PinnedCache.Inv limits (c.lookup limits key now stale).2 := by
  cases stale with
  | true => exact inv_apply limits c (.getStale key now) h
  | false => exact inv_apply limits c (.get key now) h

theorem Inv.lookup (h : Inv changes limits s) (key : Bytes) (now : ℤ) (stale : Bool) :
    Inv changes limits { s with cache := (s.cache.lookup limits key now stale).2 } :=
  h.thin (inv_lookup h.cache key now stale) (thinned_lookup s.cache key now stale).bucketsThin
    (Nat.le_of_eq (generation_lookup s.cache key now stale).symm)

theorem Inv.answer (h : Inv changes limits s) {key : Bytes} {began now : ℕ} {stale : Bool}
    {hit : Hit} (hbegan : began ≤ s.clock) (hcleared : Cleared changes s.edits key began)
    (hhit : (s.cache.lookup limits key now stale).1 = some hit) :
    Inv changes limits { s with
      cache := (s.cache.lookup limits key now stale).2
      answers := s.answers ++ [⟨key, began, s.readAt hit.name⟩] } where
  cache := (h.lookup key now stale).cache
  generation := (h.lookup key now stale).generation
  fresh := (h.lookup key now stale).fresh
  began a ha := by
    rcases List.mem_append.mp ha with hold | hnew
    · exact h.began a hold
    · rw [List.mem_singleton.mp hnew]
      exact hbegan
  answers a ha ed hed hchanges hended := by
    rcases List.mem_append.mp ha with hold | hnew
    · exact h.answers a hold ed hed hchanges hended
    · rw [List.mem_singleton.mp hnew] at hchanges hended ⊢
      rcases lookup_hit (Int.natCast_nonneg now) hhit with ⟨e, he, hekey, hname, hlive⟩
      have hclears := hcleared ed hed hchanges hended
      rw [← hname]
      exact h.fresh _ e he hlive ed hed (hekey ▸ hclears)
  committed := h.committed
  threads := (h.lookup key now stale).threads

/-! ## Stores -/

/-- Either the page is put into a cache with room, and the generation is the expected one, or
the cache is thinned at most. -/
theorem set_spec (limits : Limits) (c : Cache) (key data : Bytes) (ttl generation : ℕ) (now : ℤ)
    (oom : Bool) :
    c.set limits key data ttl generation now oom =
        (true, (c.makeRoom limits key data).push key data (now + ttl)) ∧
        (generation = 0 ∨ generation = c.generation) ∨
      (c.set limits key data ttl generation now oom).1 = false ∧
        BucketsThin (c.set limits key data ttl generation now oom).2 c := by
  by_cases hgeneration : generation = 0 ∨ generation = c.generation
  · unfold Cache.set
    split
    · exact .inr ⟨rfl, (Thinned.refl c).bucketsThin⟩
    · split
      · exact .inr ⟨rfl, (Thinned.refl c).bucketsThin⟩
      · split
        · exact .inr ⟨rfl, (Thinned.refl c).bucketsThin⟩
        · split
          · exact .inr ⟨rfl, bucketsThin_makeRoom c key data⟩
          · split
            · exact .inr ⟨rfl, bucketsThin_makeRoom c key data⟩
            · exact .inl ⟨rfl, hgeneration⟩
  · rw [not_or] at hgeneration
    have hother : (generation != 0 && generation != c.generation) = true := by
      simp [hgeneration]
    unfold Cache.set
    rw [hother]
    split
    · exact .inr ⟨rfl, (Thinned.refl c).bucketsThin⟩
    · split
      · exact .inr ⟨rfl, (Thinned.refl c).bucketsThin⟩
      · exact .inr ⟨rfl, (Thinned.refl c).bucketsThin⟩

/-- A page is stored: one whose data no ended edit that clears its key has outdated. -/
theorem Inv.store (h : Inv changes limits s) {key data : Bytes} {ttl generation now : ℕ}
    {oom : Bool} {readAt : ℕ}
    (hdata : generation = 0 ∨ generation = s.cache.generation →
      ∀ ed ∈ s.edits, Clears ed.slug key → ed.committed ≤ readAt) :
    let r := s.cache.set limits key data ttl generation now oom
    Inv changes limits { s with
      cache := r.2
      readAt := if r.1 then Function.update s.readAt s.cache.keys.length readAt
        else s.readAt } := by
  intro r
  have hcache : PinnedCache.Inv limits r.2 :=
    inv_apply limits s.cache (.set key data ttl generation now oom) h.cache
  have hgeneration : r.2.generation = s.cache.generation :=
    generation_set s.cache key data ttl generation now oom
  have hfresh : Fresh r.2 (if r.1 then Function.update s.readAt s.cache.keys.length readAt
      else s.readAt) s.edits := by
    rcases set_spec limits s.cache key data ttl generation now oom with
      ⟨heq, hexpected⟩ | ⟨hfalse, hthin⟩
    · have hroom : BucketsThin (s.cache.makeRoom limits key data) s.cache :=
        bucketsThin_makeRoom s.cache key data
      have hr : r = (true, (s.cache.makeRoom limits key data).push key data (now + ttl)) := heq
      rw [hr, if_pos rfl]
      intro b e he hlive ed hed hclears
      rcases mem_push he with hold | ⟨rfl, -⟩
      · -- the old entries have other names than the new one
        have hname := (h.cache.makeRoom key data).shape.name_lt hold
        rw [hroom.keys] at hname
        rw [Function.update_of_ne (Nat.ne_of_lt hname)]
        exact (h.fresh.thin hroom) b e hold hlive ed hed hclears
      · dsimp only
        rw [hroom.keys, Function.update_self]
        exact hdata hexpected ed hed hclears
    · rw [hfalse]
      exact h.fresh.thin hthin
  exact {
    cache := hcache
    generation := hgeneration ▸ h.generation
    fresh := hfresh
    began := h.began
    answers := h.answers
    committed := h.committed
    threads := fun th hth =>
      (h.threads th hth).later (Nat.le_refl _) (Nat.le_of_eq hgeneration.symm) }

/-! ## Edits -/

/-- An edit ends: what it clears is gone, and no job of before stores its page. -/
theorem Inv.invalidate (h : Inv changes limits s) {slug : Option Bytes} {time : ℕ}
    (htime : time ≤ s.clock) :
    Inv changes limits { s with
      cache := apply limits s.cache (invalidatePost slug)
      edits := s.edits ++ [⟨slug, time, s.clock⟩] } where
  cache := inv_apply limits s.cache (invalidatePost slug) h.cache
  generation := by
    rw [generation_invalidatePost]
    exact Nat.succ_pos _
  fresh b e he hlive ed hed hclears := by
    have hthin : BucketsThin (apply limits s.cache (invalidatePost slug)) s.cache :=
      (thinned_clearPrefixes s.cache (invalidatedPrefixes slug)).bucketsThin
    rcases List.mem_append.mp hed with hold | hnew
    · exact h.fresh.thin hthin b e he hlive ed hold hclears
    · rw [List.mem_singleton.mp hnew] at hclears
      have hinv := inv_apply limits s.cache (invalidatePost slug) h.cache
      have hgone := gone_invalidate limits h.cache.shape hclears
      rw [← hinv.shape.placed b e he] at he
      have hname := hinv.shape.name_lt he
      rw [hthin.keys] at hname
      -- what is left under a cleared key is marked
      rcases hgone.marked e he rfl with hlate | hmarked
      · omega
      · exact absurd hmarked hlive
  began := h.began
  answers a ha ed hed hchanges hended := by
    rcases List.mem_append.mp hed with hold | hnew
    · exact h.answers a ha ed hold hchanges hended
    · rw [List.mem_singleton.mp hnew] at hended
      have hbegan := h.began a ha
      dsimp only at hended
      omega
  committed ed hed := by
    rcases List.mem_append.mp hed with hold | hnew
    · exact h.committed ed hold
    · rw [List.mem_singleton.mp hnew]
      exact htime
  threads th hth := by
    have hcount : (apply limits s.cache (invalidatePost slug)).generation =
        s.cache.generation + 1 := generation_invalidatePost s.cache slug
    have hle : s.cache.generation ≤ (apply limits s.cache (invalidatePost slug)).generation :=
      hcount ▸ Nat.le_succ _
    refine (h.threads th hth).mono (Nat.le_refl _) hle (fun hsame => ?_) ?_
    · exact absurd (hcount.symm.trans hsame) (Nat.succ_ne_self _)
    intro ed hed
    rcases List.mem_append.mp hed with hold | hnew
    · exact .inl hold
    · rw [List.mem_singleton.mp hnew]
      exact .inr (Nat.le_refl _)

/-! ## Runs -/

theorem Inv.upkeep (h : Inv changes limits s) {op : Op}
    (hthin : Thinned (apply limits s.cache op) s.cache)
    (hle : s.cache.generation ≤ (apply limits s.cache op).generation) :
    Inv changes limits (upkeep limits s op) :=
  h.thin (inv_apply limits s.cache op h.cache) hthin.bucketsThin hle

theorem generation_release (c : Cache) (key : Bytes) (now : ℤ) :
    (c.release limits key now).generation = c.generation := by
  unfold Cache.release
  split
  · rfl
  · rfl

theorem generation_clearPrefixes (c : Cache) (prefixes : List Bytes) :
    c.generation ≤ (c.clearPrefixes prefixes).generation := by
  unfold Cache.clearPrefixes
  split
  · exact Nat.le_refl _
  · exact Nat.le_succ _

/-- The next step of a thread keeps the invariant, and the thread is as it should be then. -/
theorem Inv.exec (h : Inv changes limits s) (ch : Choice)
    (hth : ThreadOk changes s.clock s.cache.generation s.edits th)
    (hfill : ch.ok = true → FillsInTime s.edits th) :
    Inv changes limits (exec limits s ch th).1 ∧
      ThreadOk changes (exec limits s ch th).1.clock (exec limits s ch th).1.cache.generation
        (exec limits s ch th).1.edits (exec limits s ch th).2 := by
  cases th with
  | looking key began stale =>
    rcases hth with ⟨hbegan, hcleared⟩
    unfold PageFill.exec
    dsimp only
    split
    · next hit hhit =>
      refine ⟨h.answer hbegan hcleared hhit, ?_⟩
      cases stale with
      | true => trivial
      | false => trivial
    · refine ⟨h.lookup key ch.now stale, ?_⟩
      cases stale with
      | true => trivial
      | false => exact ⟨hbegan, hcleared⟩
  | refreshing key =>
    unfold PageFill.exec
    dsimp only
    split
    · exact ⟨h.spawn ⟨h.generation, Nat.le_refl _⟩, trivial⟩
    · exact ⟨h, trivial⟩
  | filling key generation =>
    refine ⟨h, ?_⟩
    unfold PageFill.exec
    dsimp only
    split
    · cases generation with
      | none => trivial
      | some g =>
        -- the data are read now, after all edits that have ended were committed
        exact ⟨hth.1, hth.2, fun _ => h.committed⟩
    · trivial
  | storing key generation readAt =>
    unfold PageFill.exec
    dsimp only
    split
    · next hok =>
      refine ⟨h.store ?_, trivial⟩
      intro hexpected ed hed hclears
      cases generation with
      | none => exact hfill hok ed hed hclears
      | some g =>
        rcases hth with ⟨hpos, -, hdata⟩
        -- no edit has ended since the job was scheduled
        rcases hexpected with hzero | hsame
        · exact absurd hzero (Nat.ne_of_gt hpos)
        · exact hdata hsame ed hed
    · exact ⟨h, trivial⟩
  | editing slug => exact ⟨h, Nat.le_refl _⟩
  | committed slug time => exact ⟨h.invalidate hth, trivial⟩
  | done => exact ⟨h, trivial⟩

theorem Inv.act (h : Inv changes limits s) (hok : InTime changes s e) :
    Inv changes limits (act limits s e) := by
  cases e with
  | request key =>
    refine h.spawn ⟨Nat.le_refl _, ?_⟩
    intro ed hed hchanges _
    exact hok ed hed hchanges
  | edit slug => exact h.spawn trivial
  | exec i ch =>
    unfold PageFill.act
    dsimp only
    split
    · next th hget =>
      have hmem := List.mem_of_getElem? hget
      have hexec := h.exec ch (h.threads th hmem) fun hch => hok hch th hget
      exact hexec.1.set i hexec.2
    · exact h
  | release key now =>
    exact h.upkeep thinned_release (Nat.le_of_eq (generation_release s.cache key now).symm)
  | delete key => exact h.upkeep (thinned_delete s.cache key) (Nat.le_succ _)
  | clear => exact h.upkeep (thinned_clear s.cache) (Nat.le_succ _)
  | clearPrefixes prefixes =>
    exact h.upkeep (thinned_clearPrefixes s.cache prefixes)
      (generation_clearPrefixes s.cache prefixes)

theorem clock_exec (s : State) (ch : Choice) (th : Thread) :
    (exec limits s ch th).1.clock = s.clock := by
  cases th with
  | looking key began stale =>
    unfold exec
    dsimp only
    split
    · rfl
    · rfl
  | refreshing key =>
    unfold exec
    dsimp only
    split
    · rfl
    · rfl
  | filling key generation => rfl
  | storing key generation readAt =>
    unfold exec
    dsimp only
    split
    · rfl
    · rfl
  | editing slug => rfl
  | committed slug time => rfl
  | done => rfl

theorem clock_act (s : State) (e : Event) : (act limits s e).clock = s.clock := by
  cases e with
  | exec i ch =>
    unfold act
    dsimp only
    split
    · exact clock_exec s ch _
    · rfl
  | request key => rfl
  | edit slug => rfl
  | release key now => rfl
  | delete key => rfl
  | clear => rfl
  | clearPrefixes prefixes => rfl

theorem Inv.step (h : Inv changes limits s) (hok : InTime changes s e) :
    Inv changes limits (step limits s e) := by
  have hnext := (h.act hok).tick
  rw [clock_act] at hnext
  exact hnext

/-- In every run in which pages that edits change are requested under keys that these
invalidate, and in which no request stores its page after an edit has ended that was committed
after its data were read, no request that began after an edit's invalidation is answered with a
page of data that were read before the edit was committed. -/
theorem no_stale_answer (changes : Option Bytes → Bytes → Prop) (limits : Limits)
    (es : List Event) (h : AllSteps (step limits) (InTime changes) start es) (t : State)
    (ht : Reaches (step limits) start es t) : NoStaleAnswer changes t := by
  have hstep : ∀ s e, Inv changes limits s → InTime changes s e →
      Inv changes limits (PageFill.step limits s e) :=
    fun _ _ hs hok => hs.step hok
  exact (h.invariant_reaches hstep (inv_start limits) ht).answers

def helloKey : Bytes := postKey ⟨bytes "hello", false, false, guest, 1, 1⟩

def go (i : ℕ) : Event := .exec i ⟨1000, true, bytes "page", 60, false⟩

/-- A page is stored, its post is edited, and the page is stored and requested again. -/
def storesInTime : List Event :=
  [.request helloKey, go 0, go 0, go 0, go 0, .edit (some (bytes "hello")), go 1, go 1,
    .request helloKey, go 2, go 2, go 2, go 2, .request helloKey, go 3]

def served : State := run (step sampleLimits) start storesInTime

theorem served_no_stale :
    served.answers = [⟨helloKey, 13, 11⟩] ∧
      served.edits = [⟨some (bytes "hello"), 6, 7⟩] ∧ NoStaleAnswer Clears served := by
  have hrun : (served.answers = [⟨helloKey, 13, 11⟩] ∧
      served.edits = [⟨some (bytes "hello"), 6, 7⟩]) ∧
      AllSteps (step sampleLimits) (InTime Clears) start storesInTime := by
    decide +kernel
  exact ⟨hrun.1.1, hrun.1.2,
    no_stale_answer Clears sampleLimits storesInTime hrun.2 served (reaches_run start _)⟩

/-- A request that read its post before the edit stores its page after the invalidation. -/
def lateStore : List Event :=
  [.request helloKey, go 0, go 0, go 0, .edit (some (bytes "hello")), go 1, go 1, go 0,
    .request helloKey, go 2]

/-- The next request is answered with the page of before the edit. -/
theorem late_store_served :
    ¬ ∀ limits es, NoStaleAnswer Clears (run (step limits) start es) := by
  intro h
  have hrun : (run (step sampleLimits) start lateStore).answers = [⟨helloKey, 8, 3⟩] ∧
      (run (step sampleLimits) start lateStore).edits = [⟨some (bytes "hello"), 5, 6⟩] ∧
      Clears (some (bytes "hello")) helloKey := by
    decide +kernel
  rcases hrun with ⟨hanswers, hedits, hclears⟩
  have hstale := h sampleLimits lateStore
  rw [NoStaleAnswer, hanswers, hedits] at hstale
  have hread := hstale _ (List.mem_singleton_self _) _ (List.mem_singleton_self _) hclears
    (by decide)
  exact absurd hread (by decide)

end FlyBoard.PageFill

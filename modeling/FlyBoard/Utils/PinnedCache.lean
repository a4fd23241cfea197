import FlyBoard.Lib.Chain
import FlyBoard.Lib.Run
import FlyBoard.Utils.Cache

/-!
# The page cache with its pins (`src/utils/cache.c`)

Here a lookup and the release of what it found are operations of their own, so that
entries are replaced, deleted and cleared while somebody reads them. An entry that is
replaced goes to the retired list until its last reader releases it; one that is
deleted or cleared stays in its bucket with expiry time 0.

Every operation holds the lock, so it is one step. Times are what `time(NULL)` returns.
-/

namespace FlyBoard.PinnedCache

open FlyBoard.Totals FlyBoard.Chain FlyBoard.Run FlyBoard.PageCache

/-- `cache_entry_t`; the name stands for its address and counts what was stored before. -/
structure Entry where
  name : ℕ
  key : Bytes
  data : Bytes
  expiresAt : ℤ
  pinCount : ℕ
deriving DecidableEq, Repr

namespace Entry

def len (e : Entry) : ℕ := e.data.length

def hasKey (key : Bytes) (e : Entry) : Bool := e.key == key

def unpinned (e : Entry) : Bool := e.pinCount == 0

def expire (e : Entry) : Entry := { e with expiresAt := 0 }

def pin (e : Entry) : Entry := { e with pinCount := e.pinCount + 1 }

def unpin (e : Entry) : Entry := { e with pinCount := e.pinCount - 1 }

/-- What deletion leaves of an entry: one that is read is marked, another freed. -/
def invalidate (e : Entry) : Option Entry := if 0 < e.pinCount then some e.expire else none

end Entry

/-- The buckets, `g_retired`, `g_total_bytes` and `g_generation`, with the keys of all
entries that were ever stored, in the order of their names. -/
structure Cache where
  buckets : Fin 1024 → List Entry
  retired : List Entry
  totalBytes : ℕ
  generation : ℕ
  keys : List Bytes

/-- `page_cache_init` -/
def empty : Cache := ⟨fun _ => [], [], 0, 1, []⟩

/-- What a lookup hands out: the entry, its data and the rest of its time to live. -/
structure Hit where
  name : ℕ
  data : Bytes
  ttlRemaining : ℕ
deriving DecidableEq, Repr

/-- The bytes that `free_entry` gives back when the first such entry is edited. -/
def freed (q : Entry → Bool) (f : Entry → Option Entry) (l : List Entry) : ℕ :=
  match l.find? q with
  | some e => if (f e).isNone then e.len else 0
  | none => 0

namespace Cache

def editBucket (c : Cache) (i : Fin 1024) (q : Entry → Bool) (f : Entry → Option Entry) : Cache :=
  { c with
    buckets := Function.update c.buckets i (editFirst q f (c.buckets i))
    totalBytes := c.totalBytes - freed q f (c.buckets i) }

def editRetired (c : Cache) (q : Entry → Bool) (f : Entry → Option Entry) : Cache :=
  { c with
    retired := editFirst q f c.retired
    totalBytes := c.totalBytes - freed q f c.retired }

def find (c : Cache) (key : Bytes) : Option Entry :=
  (c.buckets (bucketOf key)).find? (Entry.hasKey key)

def retire (c : Cache) (key : Bytes) (old : Entry) : Cache :=
  { c with
    buckets := Function.update c.buckets (bucketOf key)
      (editFirst (Entry.hasKey key) (fun _ => none) (c.buckets (bucketOf key)))
    retired := old.expire :: c.retired }

/-- `page_cache_set_internal` makes way for a new entry of the key. -/
def supersede (c : Cache) (key : Bytes) : Cache :=
  match c.find key with
  | none => c
  | some old =>
    if 0 < old.pinCount then c.retire key old
    else c.editBucket (bucketOf key) (Entry.hasKey key) fun _ => none

def evictFrom (c : Cache) (i : Fin 1024) : Cache :=
  { c with
    buckets := Function.update c.buckets i
      (editFirst Entry.unpinned (fun _ => none) (c.buckets i).reverse).reverse
    totalBytes := c.totalBytes - freed Entry.unpinned (fun _ => none) (c.buckets i).reverse }

@[irreducible] def victim (c : Cache) : Option (Fin 1024) :=
  (List.finRange 1024).find? fun i => (c.buckets i).any Entry.unpinned

/-- The eviction loop, which frees at least one byte each time. -/
def evict (limits : Limits) (len : ℕ) : ℕ → Cache → Cache
  | 0, c => c
  | fuel + 1, c =>
    if limits.maxBytes < c.totalBytes + len ∧ 0 < c.totalBytes then
      match c.victim with
      | some i => evict limits len fuel (c.evictFrom i)
      | none => c
    else c

/-- The new entry is put at the head of its bucket. -/
def push (c : Cache) (key data : Bytes) (expiresAt : ℤ) : Cache :=
  { c with
    buckets := Function.update c.buckets (bucketOf key)
      (⟨c.keys.length, key, data, expiresAt, 0⟩ :: c.buckets (bucketOf key))
    totalBytes := c.totalBytes + data.length
    keys := c.keys ++ [key] }

def makeRoom (limits : Limits) (c : Cache) (key data : Bytes) : Cache :=
  evict limits data.length (c.supersede key).totalBytes (c.supersede key)

/-- `page_cache_set_internal`; an expected generation of 0 stands for any, and `oom` tells
whether an allocation fails. -/
def set (limits : Limits) (c : Cache) (key data : Bytes) (ttlSec expectedGeneration : ℕ) (now : ℤ)
    (oom : Bool) : Bool × Cache :=
  if data.isEmpty || ttlSec == 0 then (false, c)
  else if limits.maxBytes / 4 < data.length then (false, c)
  else if expectedGeneration != 0 && expectedGeneration != c.generation then (false, c)
  else if limits.maxBytes < (c.makeRoom limits key data).totalBytes + data.length then
    (false, c.makeRoom limits key data)
  else if oom then (false, c.makeRoom limits key data)
  else (true, (c.makeRoom limits key data).push key data (now + ttlSec))

/-- `page_cache_get_expired` -/
def getExpired (limits : Limits) (c : Cache) (key : Bytes) (now : ℤ) (stale : Bool) :
    Option Hit × Cache :=
  match c.find key with
  | none => (none, c)
  | some e =>
    if stale && e.expiresAt == 0 then (none, c)
    else
      let expired : Bool := e.expiresAt ≤ now
      if expired != stale then
        (none,
          if expired && e.unpinned && limits.swrSeconds ≤ now - e.expiresAt then
            c.editBucket (bucketOf key) (Entry.hasKey key) fun _ => none
          else c)
      else
        (some ⟨e.name, e.data, if expired then 0 else (e.expiresAt - now).toNat % 2 ^ 32⟩,
          c.editBucket (bucketOf key) (Entry.hasKey key) fun e => some e.pin)

/-- `page_cache_get` -/
def get (limits : Limits) (c : Cache) (key : Bytes) (now : ℤ) : Option Hit × Cache :=
  c.getExpired limits key now false

/-- `page_cache_get_stale` -/
def getStale (limits : Limits) (c : Cache) (key : Bytes) (now : ℤ) : Option Hit × Cache :=
  if limits.swrSeconds = 0 then (none, c) else c.getExpired limits key now true

/-- The test that `page_cache_release` looks for an entry with. -/
def pinnedKey (key : Bytes) (e : Entry) : Bool := e.hasKey key && !e.unpinned

/-- One pin less; the last one frees an entry that nobody is to get any more. -/
def unpinOrFree (limits : Limits) (now : ℤ) (retired : Bool) (e : Entry) : Option Entry :=
  let collect := retired || e.expiresAt == 0 ||
    (e.expiresAt ≤ now && limits.swrSeconds ≤ now - e.expiresAt)
  if e.unpin.unpinned && collect then none else some e.unpin

/-- `page_cache_release` -/
def release (limits : Limits) (c : Cache) (key : Bytes) (now : ℤ) : Cache :=
  if (c.buckets (bucketOf key)).any (pinnedKey key) then
    c.editBucket (bucketOf key) (pinnedKey key) (unpinOrFree limits now false)
  else c.editRetired (pinnedKey key) (unpinOrFree limits now true)

/-- `page_cache_delete` -/
def delete (c : Cache) (key : Bytes) : Cache :=
  { c.editBucket (bucketOf key) (Entry.hasKey key) Entry.invalidate with
    generation := c.generation + 1 }

/-- `page_cache_clear`, which counts the remaining bytes anew. -/
def clear (c : Cache) : Cache :=
  { c with
    buckets := fun i => (c.buckets i).filterMap Entry.invalidate
    totalBytes := slotTotal (total Entry.len) (fun i => (c.buckets i).filterMap Entry.invalidate) +
      total Entry.len c.retired
    generation := c.generation + 1 }

def hasPrefix (prefixes : List Bytes) (key : Bytes) : Bool :=
  (prefixes.take 8).any fun prefix' => prefix'.isPrefixOf key

def invalidateIf (p : Entry → Bool) (e : Entry) : Option Entry :=
  if p e then e.invalidate else some e

/-- `page_cache_clear_prefixes_raw` -/
def clearPrefixes (c : Cache) (prefixes : List Bytes) : Cache :=
  if prefixes.isEmpty then c
  else
    let hit (e : Entry) := hasPrefix prefixes e.key
    { c with
      buckets := fun i => (c.buckets i).filterMap (invalidateIf hit)
      totalBytes := c.totalBytes - slotTotal (total Entry.len) fun i =>
        (c.buckets i).filter fun e => hit e && e.unpinned
      generation := c.generation + 1 }

end Cache

inductive Op
  | set (key data : Bytes) (ttlSec expectedGeneration : ℕ) (now : ℤ) (oom : Bool)
  | get (key : Bytes) (now : ℤ)
  | getStale (key : Bytes) (now : ℤ)
  | release (key : Bytes) (now : ℤ)
  | delete (key : Bytes)
  | clear
  | clearPrefixes (prefixes : List Bytes)
deriving DecidableEq, Repr

def apply (limits : Limits) (c : Cache) : Op → Cache
  | .set key data ttl generation now oom => (c.set limits key data ttl generation now oom).2
  | .get key now => (c.get limits key now).2
  | .getStale key now => (c.getStale limits key now).2
  | .release key now => c.release limits key now
  | .delete key => c.delete key
  | .clear => c.clear
  | .clearPrefixes prefixes => c.clearPrefixes prefixes

/-! ## What becomes of entries -/

variable {limits : Limits} {c c' : Cache} {key : Bytes} {e e' old : Entry} {i : Fin 1024}
  {q : Entry → Bool} {f : Entry → Option Entry} {now : ℤ} {c'' : Cache} {l : List Entry}
  {p : Entry → Bool}

/-- The same stored entry later: its expiry time is the old one or 0. -/
structure Entry.From (e' e : Entry) : Prop where
  name : e'.name = e.name
  key : e'.key = e.key
  data : e'.data = e.data
  expiry : e'.expiresAt = e.expiresAt ∨ e'.expiresAt = 0

theorem Entry.From.refl (e : Entry) : e.From e := ⟨rfl, rfl, rfl, .inl rfl⟩

theorem Entry.From.trans (a b c : Entry) (h : a.From b) (h' : b.From c) : a.From c := by
  refine ⟨h.name.trans h'.name, h.key.trans h'.key, h.data.trans h'.data, ?_⟩
  rcases h.expiry with hab | ha
  · rw [hab]
    exact h'.expiry
  · exact .inr ha

theorem Entry.from_expire (e : Entry) : e.expire.From e := ⟨rfl, rfl, rfl, .inr rfl⟩

/-- The edit keeps entries the same up to their expiry time and pins. -/
def Keeps (f : Entry → Option Entry) : Prop := ∀ e, ∀ e' ∈ f e, e'.From e

theorem keeps_free : Keeps fun _ => none := fun _ _ h => nomatch h

theorem keeps_pin : Keeps fun e => some e.pin := by
  rintro e e' h
  cases h
  exact ⟨rfl, rfl, rfl, .inl rfl⟩

theorem keeps_invalidate : Keeps Entry.invalidate := by
  intro e e' h
  rw [Entry.invalidate, Option.mem_def] at h
  split at h
  · rw [← Option.some.inj h]
    exact e.from_expire
  · exact nomatch h

theorem keeps_invalidateIf (p : Entry → Bool) : Keeps (Cache.invalidateIf p) := by
  intro e e' h
  rw [Cache.invalidateIf, Option.mem_def] at h
  split at h
  · exact keeps_invalidate e e' h
  · rw [← Option.some.inj h]
    exact .refl e

theorem keeps_unpinOrFree (retired : Bool) : Keeps (Cache.unpinOrFree limits now retired) := by
  intro e e' h
  rw [Cache.unpinOrFree, Option.mem_def] at h
  split at h
  · exact nomatch h
  · rw [← Option.some.inj h]
    exact ⟨rfl, rfl, rfl, .inl rfl⟩

/-- The chains of the cache are thinned, and nothing is stored. -/
structure Thinned (c' c : Cache) : Prop where
  buckets : ∀ i, Thins Entry.From (c'.buckets i) (c.buckets i)
  retired : Thins Entry.From c'.retired c.retired
  keys : c'.keys = c.keys

theorem Thinned.refl (c : Cache) : Thinned c c :=
  ⟨fun _ => .refl Entry.From.refl _, .refl Entry.From.refl _, rfl⟩

theorem Thinned.trans (h : Thinned c'' c') (h' : Thinned c' c) : Thinned c'' c :=
  ⟨fun i => (h.buckets i).trans Entry.From.trans (h'.buckets i),
    h.retired.trans Entry.From.trans h'.retired, h.keys.trans h'.keys⟩

theorem Thinned.of_bucket (hi : c'.buckets = Function.update c.buckets i l)
    (hl : Thins Entry.From l (c.buckets i)) (hr : c'.retired = c.retired) (hk : c'.keys = c.keys) :
    Thinned c' c := by
  refine ⟨fun j => ?_, hr ▸ .refl Entry.From.refl _, hk⟩
  rw [hi]
  rcases eq_or_ne j i with rfl | hj
  · rw [Function.update_self]
    exact hl
  · rw [Function.update_of_ne hj]
    exact .refl Entry.From.refl _

theorem thinned_editBucket (hf : Keeps f) (i : Fin 1024) (q : Entry → Bool) :
    Thinned (c.editBucket i q f) c :=
  .of_bucket rfl (thins_editFirst Entry.From.refl hf _) rfl rfl

theorem thinned_editRetired (hf : Keeps f) (q : Entry → Bool) :
    Thinned (c.editRetired q f) c :=
  ⟨fun _ => .refl Entry.From.refl _, thins_editFirst Entry.From.refl hf _, rfl⟩

theorem thinned_evictFrom (c : Cache) (i : Fin 1024) : Thinned (c.evictFrom i) c := by
  refine .of_bucket rfl (.sublist Entry.From.refl ?_) rfl rfl
  have hsub : (editFirst Entry.unpinned (fun _ => none) (c.buckets i).reverse).Sublist
      (c.buckets i).reverse := by
    cases h : (c.buckets i).reverse.find? Entry.unpinned with
    | none => rw [editFirst_of_none h]
    | some e =>
      rcases editFirst_of_some h with ⟨pre, post, heq, -, hedit⟩
      rw [hedit, heq]
      exact List.Sublist.append (List.Sublist.refl _) (List.sublist_cons_self _ _)
  simpa using hsub.reverse

theorem evict_rel {R : Cache → Cache → Prop} (hrefl : ∀ c, R c c)
    (htrans : ∀ c'' c' c, R c'' c' → R c' c → R c'' c) (hstep : ∀ c i, R (c.evictFrom i) c)
    (len fuel : ℕ) (c : Cache) : R (Cache.evict limits len fuel c) c := by
  induction fuel generalizing c with
  | zero =>
    rw [Cache.evict]
    exact hrefl c
  | succ fuel ih =>
    unfold Cache.evict
    split
    · split
      · next i _ => exact htrans _ _ _ (ih (c.evictFrom i)) (hstep c i)
      · exact hrefl c
    · exact hrefl c

theorem thinned_evict (len fuel : ℕ) (c : Cache) : Thinned (Cache.evict limits len fuel c) c :=
  evict_rel Thinned.refl (fun _ _ _ h h' => h.trans h') thinned_evictFrom len fuel c

theorem thinned_getExpired (stale : Bool) : Thinned (c.getExpired limits key now stale).2 c := by
  unfold Cache.getExpired
  split
  · exact .refl c
  · split
    · exact .refl c
    · dsimp only
      split
      · dsimp only
        split
        · exact thinned_editBucket keeps_free _ _
        · exact .refl c
      · exact thinned_editBucket keeps_pin _ _

theorem thinned_release : Thinned (c.release limits key now) c := by
  unfold Cache.release
  split
  · exact thinned_editBucket (keeps_unpinOrFree false) _ _
  · exact thinned_editRetired (keeps_unpinOrFree true) _

theorem thinned_invalidateAll {l : Fin 1024 → List Entry}
    (hl : l = fun i => (c.buckets i).filterMap (Cache.invalidateIf p)) {bytes generation : ℕ} :
    Thinned { c with buckets := l, totalBytes := bytes, generation := generation } c := by
  rw [hl]
  exact ⟨fun i => thins_filterMap (keeps_invalidateIf p) _, .refl Entry.From.refl _, rfl⟩

/-! ## Weights -/

variable {w : Entry → ℕ} {expiresAt : ℤ} {op : Op} {hit : Hit} {stale : Bool} {n : ℕ}

def Cache.weigh (w : Entry → ℕ) (c : Cache) : ℕ :=
  slotTotal (total w) c.buckets + total w c.retired

theorem weigh_update (w : Entry → ℕ) (c : Cache) (i : Fin 1024) (l : List Entry) :
    slotTotal (total w) (Function.update c.buckets i l) + total w (c.buckets i) =
      slotTotal (total w) c.buckets + total w l :=
  slotTotal_update _ _ _ _

theorem weigh_editBucket (w : Entry → ℕ) (h : (c.buckets i).find? q = some e) :
    (c.editBucket i q f).weigh w + w e = c.weigh w + ((f e).map w).getD 0 := by
  have hedit := total_editFirst w (f := f) h
  have hset := weigh_update w c i (editFirst q f (c.buckets i))
  unfold Cache.weigh Cache.editBucket
  dsimp only
  omega

theorem editBucket_none (h : (c.buckets i).find? q = none) : c.editBucket i q f = c := by
  unfold Cache.editBucket freed
  rw [h, editFirst_of_none h, Function.update_eq_self]
  rfl

theorem weigh_editRetired (w : Entry → ℕ) (h : c.retired.find? q = some e) :
    (c.editRetired q f).weigh w + w e = c.weigh w + ((f e).map w).getD 0 := by
  have hedit := total_editFirst w (f := f) h
  unfold Cache.weigh Cache.editRetired
  dsimp only
  omega

theorem editRetired_none (h : c.retired.find? q = none) : c.editRetired q f = c := by
  unfold Cache.editRetired freed
  rw [h, editFirst_of_none h]
  rfl

theorem weigh_retire (w : Entry → ℕ) (h : c.find key = some old) :
    (c.retire key old).weigh w + w old = c.weigh w + w old.expire := by
  have hedit := total_editFirst w (f := fun _ => none) h
  have hset := weigh_update w c (bucketOf key)
    (editFirst (Entry.hasKey key) (fun _ => none) (c.buckets (bucketOf key)))
  unfold Cache.weigh Cache.retire
  dsimp only [Option.map_none, Option.getD_none] at hedit
  dsimp only
  rw [total_cons]
  omega

theorem total_reverse (w : Entry → ℕ) (l : List Entry) : total w l.reverse = total w l := by
  rw [total, total, List.map_reverse, List.sum_reverse]

theorem weigh_evictFrom (w : Entry → ℕ) (h : (c.buckets i).reverse.find? Entry.unpinned = some e) :
    (c.evictFrom i).weigh w + w e = c.weigh w := by
  have hedit := total_editFirst w (f := fun _ => none) h
  have hset := weigh_update w c i
    (editFirst Entry.unpinned (fun _ => none) (c.buckets i).reverse).reverse
  rw [total_reverse] at hset hedit
  unfold Cache.weigh Cache.evictFrom
  dsimp only [Option.map_none, Option.getD_none] at hedit
  dsimp only
  omega

theorem evictFrom_none (h : (c.buckets i).reverse.find? Entry.unpinned = none) :
    c.evictFrom i = c := by
  unfold Cache.evictFrom freed
  rw [h, editFirst_of_none h, List.reverse_reverse, Function.update_eq_self]
  rfl

theorem weigh_push (w : Entry → ℕ) (c : Cache) (key data : Bytes) (expiresAt : ℤ) :
    (c.push key data expiresAt).weigh w =
      c.weigh w + w ⟨c.keys.length, key, data, expiresAt, 0⟩ := by
  have hset := weigh_update w c (bucketOf key)
    (⟨c.keys.length, key, data, expiresAt, 0⟩ :: c.buckets (bucketOf key))
  unfold Cache.weigh Cache.push
  dsimp only
  rw [total_cons] at hset
  omega

/-- Invalidation frees unpinned entries and keeps the weight of the others. -/
theorem total_invalidateIf (hw : ∀ e : Entry, w e.expire = w e) (p : Entry → Bool)
    (l : List Entry) :
    total w (l.filterMap (Cache.invalidateIf p)) + total w (l.filter fun e => p e && e.unpinned) =
      total w l := by
  induction l with
  | nil => rfl
  | cons e l ih =>
    have hinv : Cache.invalidateIf p e =
        if p e && e.unpinned then none else some (if p e then e.expire else e) := by
      unfold Cache.invalidateIf Entry.invalidate Entry.unpinned
      cases p e with
      | false => rfl
      | true =>
        rcases Nat.eq_zero_or_pos e.pinCount with hzero | hpos
        · simp [hzero]
        · simp [hpos, Nat.ne_of_gt hpos]
    have hkept : w (if p e then e.expire else e) = w e := by
      split
      · exact hw e
      · rfl
    rw [List.filter_cons, total_cons]
    split
    · next hfree =>
      rw [List.filterMap_cons_none (by rw [hinv, if_pos hfree]), total_cons]
      omega
    · next hkeep =>
      rw [List.filterMap_cons_some (by rw [hinv, if_neg hkeep]), total_cons, hkept]
      omega

theorem slotTotal_invalidateIf (hw : ∀ e : Entry, w e.expire = w e) (p : Entry → Bool)
    (t : Fin 1024 → List Entry) :
    slotTotal (total w) (fun i => (t i).filterMap (Cache.invalidateIf p)) +
        slotTotal (total w) (fun i => (t i).filter fun e => p e && e.unpinned) =
      slotTotal (total w) t := by
  unfold slotTotal
  rw [← Finset.sum_add_distrib]
  exact Finset.sum_congr rfl fun i _ => total_invalidateIf hw p (t i)

/-! ## The bytes -/

def Balanced (c : Cache) : Prop := c.totalBytes = c.weigh Entry.len

/-- The step keeps the counter right and does not raise it. -/
def Lowers (c' c : Cache) : Prop := Balanced c → Balanced c' ∧ c'.totalBytes ≤ c.totalBytes

theorem Lowers.refl (c : Cache) : Lowers c c := fun h => ⟨h, le_refl _⟩

theorem Lowers.trans (h : Lowers c'' c') (h' : Lowers c' c) : Lowers c'' c := by
  intro hb
  rcases h' hb with ⟨hb', hle'⟩
  rcases h hb' with ⟨hb'', hle⟩
  exact ⟨hb'', hle.trans hle'⟩

theorem freed_add (hf : Keeps f) (e : Entry) :
    (if (f e).isNone then e.len else 0) + ((f e).map Entry.len).getD 0 = e.len := by
  cases h : f e with
  | none => rfl
  | some e' =>
    have hdata := (hf e e' h).data
    simp [Entry.len, hdata]

theorem lowers_editBucket (hf : Keeps f) (i : Fin 1024) (q : Entry → Bool) :
    Lowers (c.editBucket i q f) c := by
  cases h : (c.buckets i).find? q with
  | none =>
    rw [editBucket_none h]
    exact .refl c
  | some e =>
    intro hb
    have hweigh := weigh_editBucket Entry.len (f := f) h
    have hsum := freed_add hf e
    unfold Balanced at hb ⊢
    have hbytes : (c.editBucket i q f).totalBytes =
        c.totalBytes - if (f e).isNone then e.len else 0 := by
      simp only [Cache.editBucket, freed, h]
    omega

theorem lowers_editRetired (hf : Keeps f) (q : Entry → Bool) : Lowers (c.editRetired q f) c := by
  cases h : c.retired.find? q with
  | none =>
    rw [editRetired_none h]
    exact .refl c
  | some e =>
    intro hb
    have hweigh := weigh_editRetired Entry.len (f := f) h
    have hsum := freed_add hf e
    unfold Balanced at hb ⊢
    have hbytes : (c.editRetired q f).totalBytes =
        c.totalBytes - if (f e).isNone then e.len else 0 := by
      simp only [Cache.editRetired, freed, h]
    omega

theorem lowers_retire (h : c.find key = some old) : Lowers (c.retire key old) c := by
  intro hb
  have hweigh := weigh_retire Entry.len h
  have hlen : old.expire.len = old.len := rfl
  have hbytes : (c.retire key old).totalBytes = c.totalBytes := rfl
  unfold Balanced at hb ⊢
  omega

theorem lowers_evictFrom (c : Cache) (i : Fin 1024) : Lowers (c.evictFrom i) c := by
  cases h : (c.buckets i).reverse.find? Entry.unpinned with
  | none =>
    rw [evictFrom_none h]
    exact .refl c
  | some e =>
    intro hb
    have hweigh := weigh_evictFrom Entry.len h
    have hbytes : (c.evictFrom i).totalBytes = c.totalBytes - e.len := by
      simp only [Cache.evictFrom, freed, h, Option.isNone_none, if_true]
    unfold Balanced at hb ⊢
    omega

theorem lowers_evict (len fuel : ℕ) (c : Cache) : Lowers (Cache.evict limits len fuel c) c :=
  evict_rel Lowers.refl (fun _ _ _ h h' => h.trans h') lowers_evictFrom len fuel c

theorem lowers_supersede (c : Cache) (key : Bytes) : Lowers (c.supersede key) c := by
  unfold Cache.supersede
  split
  · exact .refl c
  · next old hfind =>
    split
    · exact lowers_retire hfind
    · exact lowers_editBucket keeps_free _ _

theorem lowers_makeRoom (c : Cache) (key data : Bytes) : Lowers (c.makeRoom limits key data) c :=
  (lowers_evict _ _ _).trans (lowers_supersede c key)

theorem lowers_getExpired (stale : Bool) : Lowers (c.getExpired limits key now stale).2 c := by
  unfold Cache.getExpired
  split
  · exact .refl c
  · split
    · exact .refl c
    · dsimp only
      split
      · dsimp only
        split
        · exact lowers_editBucket keeps_free _ _
        · exact .refl c
      · exact lowers_editBucket keeps_pin _ _

theorem lowers_release : Lowers (c.release limits key now) c := by
  unfold Cache.release
  split
  · exact lowers_editBucket (keeps_unpinOrFree false) _ _
  · exact lowers_editRetired (keeps_unpinOrFree true) _

theorem invalidateIf_true : Cache.invalidateIf (fun _ => true) = Entry.invalidate :=
  funext fun _ => if_pos rfl

theorem lowers_clear (c : Cache) : Lowers c.clear c := by
  intro hb
  have hsum := slotTotal_invalidateIf (w := Entry.len) (fun _ => rfl) (fun _ => true) c.buckets
  rw [invalidateIf_true] at hsum
  refine ⟨rfl, ?_⟩
  unfold Balanced Cache.weigh at hb
  unfold Cache.clear
  dsimp only
  omega

theorem lowers_clearPrefixes (c : Cache) (prefixes : List Bytes) :
    Lowers (c.clearPrefixes prefixes) c := by
  unfold Cache.clearPrefixes
  split
  · exact .refl c
  · intro hb
    have hsum := slotTotal_invalidateIf (w := Entry.len) (fun _ => rfl)
      (fun e => Cache.hasPrefix prefixes e.key) c.buckets
    unfold Balanced Cache.weigh at hb ⊢
    dsimp only
    omega

/-! ## The shape of the chains -/

def Cache.Mem (c : Cache) (e : Entry) : Prop := (∃ i, e ∈ c.buckets i) ∨ e ∈ c.retired

/-- Every entry is in the bucket of its key and has the name under which the key was
stored; a bucket has one entry for a key, and the retired ones are older, the oldest last. -/
structure Shape (c : Cache) : Prop where
  placed : ∀ i, ∀ e ∈ c.buckets i, bucketOf e.key = i
  unique : ∀ i, (c.buckets i).Pairwise fun a b => a.key ≠ b.key
  named : ∀ e, c.Mem e → c.keys[e.name]? = some e.key
  older : ∀ i, ∀ e ∈ c.buckets i, ∀ r ∈ c.retired, r.key = e.key → r.name < e.name
  sorted : c.retired.Pairwise fun a b => a.key = b.key → b.name < a.name
  filled : ∀ i, ∀ e ∈ c.buckets i, 0 < e.len

theorem Shape.name_lt (h : Shape c) (he : e ∈ c.buckets i) : e.name < c.keys.length :=
  (List.getElem?_eq_some_iff.mp (h.named e (.inl ⟨i, he⟩))).1

theorem shape_empty : Shape empty where
  placed _ _ he := absurd he List.not_mem_nil
  unique _ := .nil
  named _ he := by
    rcases he with ⟨_, he⟩ | he
    · exact absurd he List.not_mem_nil
    · exact absurd he List.not_mem_nil
  older _ _ he := absurd he List.not_mem_nil
  sorted := .nil
  filled _ _ he := absurd he List.not_mem_nil

theorem Thinned.mem (h : Thinned c' c) (he : c'.Mem e') : ∃ e, c.Mem e ∧ e'.From e := by
  rcases he with ⟨i, he⟩ | he
  · rcases (h.buckets i).mem he with ⟨e, he, hfrom⟩
    exact ⟨e, .inl ⟨i, he⟩, hfrom⟩
  · rcases h.retired.mem he with ⟨e, he, hfrom⟩
    exact ⟨e, .inr he, hfrom⟩

theorem Shape.thinned (hs : Shape c) (h : Thinned c' c) : Shape c' where
  placed i e' he := by
    rcases (h.buckets i).mem he with ⟨e, he, hfrom⟩
    rw [hfrom.key]
    exact hs.placed i e he
  unique i := by
    refine (h.buckets i).pairwise (fun a b a' b' ha hb hne => ?_) (hs.unique i)
    rwa [ha.key, hb.key]
  named e' he := by
    rcases h.mem he with ⟨e, he, hfrom⟩
    rw [h.keys, hfrom.key, hfrom.name]
    exact hs.named e he
  older i e' he r' hr hkey := by
    rcases (h.buckets i).mem he with ⟨e, he, hfrom⟩
    rcases h.retired.mem hr with ⟨r, hr, hfrom'⟩
    rw [hfrom.key, hfrom'.key] at hkey
    rw [hfrom.name, hfrom'.name]
    exact hs.older i e he r hr hkey
  sorted := by
    refine h.retired.pairwise (fun a b a' b' ha hb hlt hkey => ?_) hs.sorted
    rw [ha.key, hb.key] at hkey
    rw [ha.name, hb.name]
    exact hlt hkey
  filled i e' he := by
    rcases (h.buckets i).mem he with ⟨e, he, hfrom⟩
    rw [Entry.len, hfrom.data]
    exact hs.filled i e he

theorem find_spec (h : c.find key = some e) : e ∈ c.buckets (bucketOf key) ∧ e.key = key :=
  ⟨List.mem_of_find?_eq_some h, by simpa [Entry.hasKey] using List.find?_some h⟩

theorem editFirst_key (hs : Shape c)
    (he : e ∈ editFirst (Entry.hasKey key) f (c.buckets (bucketOf key))) (hkey : e.key = key) :
    ∃ old, f old = some e := by
  have hhas : Entry.hasKey key e = true := by simp [Entry.hasKey, hkey]
  cases h : (c.buckets (bucketOf key)).find? (Entry.hasKey key) with
  | none =>
    rw [editFirst_of_none h] at he
    exact absurd hhas (List.find?_eq_none.1 h e he)
  | some old =>
    rcases editFirst_of_some (f := f) h with ⟨pre, post, heq, hpre, hedit⟩
    rw [hedit] at he
    have hunique := hs.unique (bucketOf key)
    rw [heq, List.pairwise_append, List.pairwise_cons] at hunique
    rcases List.mem_append.1 he with he | he
    · rw [hpre e he] at hhas
      exact nomatch hhas
    · rcases List.mem_append.1 he with he | he
      · exact ⟨old, Option.mem_toList.1 he⟩
      · exact absurd ((find_spec h).2.trans hkey.symm) (hunique.2.1.1 e he)

theorem unlink_ne (hs : Shape c)
    (he : e ∈ editFirst (Entry.hasKey key) (fun _ => none) (c.buckets (bucketOf key))) :
    e.key ≠ key := by
  intro hkey
  rcases editFirst_key hs he hkey with ⟨old, hold⟩
  exact nomatch hold

structure BucketsThin (c' c : Cache) : Prop where
  buckets : ∀ i, Thins Entry.From (c'.buckets i) (c.buckets i)
  keys : c'.keys = c.keys

theorem Thinned.bucketsThin (h : Thinned c' c) : BucketsThin c' c := ⟨h.buckets, h.keys⟩

theorem BucketsThin.trans (h : BucketsThin c'' c') (h' : BucketsThin c' c) :
    BucketsThin c'' c :=
  ⟨fun i => (h.buckets i).trans Entry.From.trans (h'.buckets i), h.keys.trans h'.keys⟩

theorem bucketsThin_retire : BucketsThin (c.retire key old) c := by
  have hthin := thinned_editBucket (c := c) keeps_free (bucketOf key) (Entry.hasKey key)
  exact ⟨hthin.buckets, hthin.keys⟩

theorem bucketsThin_supersede (c : Cache) (key : Bytes) : BucketsThin (c.supersede key) c := by
  unfold Cache.supersede
  split
  · exact (Thinned.refl c).bucketsThin
  · split
    · exact bucketsThin_retire
    · exact (thinned_editBucket keeps_free _ _).bucketsThin

theorem bucketsThin_makeRoom (c : Cache) (key data : Bytes) :
    BucketsThin (c.makeRoom limits key data) c :=
  (thinned_evict _ _ _).bucketsThin.trans (bucketsThin_supersede c key)

theorem Shape.retire (hs : Shape c) (h : c.find key = some old) : Shape (c.retire key old) := by
  have hthin : BucketsThin (c.retire key old) c := bucketsThin_retire
  have hedit : Shape (c.editBucket (bucketOf key) (Entry.hasKey key) fun _ => none) :=
    hs.thinned (thinned_editBucket keeps_free _ _)
  rcases find_spec h with ⟨hmem, hkey⟩
  constructor
  case placed => exact hedit.placed
  case unique => exact hedit.unique
  case named =>
    rintro e (⟨i, he⟩ | he)
    · exact hedit.named e (.inl ⟨i, he⟩)
    · rcases List.mem_cons.1 he with rfl | he
      · exact hs.named old (.inl ⟨_, hmem⟩)
      · exact hs.named e (.inr he)
  case older =>
    intro i e he r hr hrkey
    rcases List.mem_cons.1 hr with rfl | hr
    · -- no entry of the key is left in the bucket
      have hplace := hedit.placed i e he
      rw [← hrkey] at hplace
      have hi : bucketOf key = i := hkey ▸ hplace
      subst hi
      have he' : e ∈ editFirst (Entry.hasKey key) (fun _ => none) (c.buckets (bucketOf key)) := by
        simpa [Cache.retire] using he
      exact absurd (hrkey.symm.trans hkey) (unlink_ne hs he')
    · rcases (hthin.buckets i).mem he with ⟨e₀, he₀, hfrom⟩
      rw [hfrom.name]
      exact hs.older i e₀ he₀ r hr (hrkey.trans hfrom.key)
  case sorted =>
    refine List.pairwise_cons.2 ⟨?_, hs.sorted⟩
    intro r hr hrkey
    exact hs.older _ old hmem r hr hrkey.symm
  case filled => exact hedit.filled

theorem Shape.supersede (hs : Shape c) (key : Bytes) : Shape (c.supersede key) := by
  unfold Cache.supersede
  split
  · exact hs
  · next old hfind =>
    split
    · exact hs.retire hfind
    · exact hs.thinned (thinned_editBucket keeps_free _ _)

def Absent (c : Cache) (key : Bytes) : Prop := ∀ e ∈ c.buckets (bucketOf key), e.key ≠ key

theorem Absent.thin (h : Absent c key) (ht : BucketsThin c' c) : Absent c' key := by
  intro e' he'
  rcases (ht.buckets _).mem he' with ⟨e, he, hfrom⟩
  rw [hfrom.key]
  exact h e he

theorem absent_supersede (hs : Shape c) (key : Bytes) : Absent (c.supersede key) key := by
  have hedit : ∀ e ∈ editFirst (Entry.hasKey key) (fun _ => none) (c.buckets (bucketOf key)),
      e.key ≠ key := fun e he => unlink_ne hs he
  unfold Cache.supersede
  split
  · next hfind =>
    rw [Cache.find] at hfind
    rwa [editFirst_of_none hfind] at hedit
  · split <;> simpa [Absent, Cache.retire, Cache.editBucket] using hedit

theorem mem_push {data : Bytes} (he : e ∈ (c.push key data expiresAt).buckets i) :
    e ∈ c.buckets i ∨ e = ⟨c.keys.length, key, data, expiresAt, 0⟩ ∧ i = bucketOf key := by
  unfold Cache.push at he
  dsimp only at he
  rcases eq_or_ne i (bucketOf key) with rfl | hi
  · rw [Function.update_self] at he
    rcases List.mem_cons.1 he with rfl | he
    · exact .inr ⟨rfl, rfl⟩
    · exact .inl he
  · rw [Function.update_of_ne hi] at he
    exact .inl he

theorem Shape.push {data : Bytes} (hs : Shape c) (h : Absent c key) (hdata : data ≠ [])
    (expiresAt : ℤ) : Shape (c.push key data expiresAt) := by
  have hkeep : ∀ e, c.Mem e → (c.keys ++ [key])[e.name]? = some e.key := by
    intro e he
    have hname := hs.named e he
    rcases List.getElem?_eq_some_iff.1 hname with ⟨hlt, -⟩
    rw [List.getElem?_append_left hlt, hname]
  constructor
  case placed =>
    intro i e he
    rcases mem_push he with he | ⟨rfl, rfl⟩
    · exact hs.placed i e he
    · rfl
  case unique =>
    intro i
    unfold Cache.push
    dsimp only
    rcases eq_or_ne i (bucketOf key) with rfl | hi
    · rw [Function.update_self, List.pairwise_cons]
      exact ⟨fun e he => (h e he).symm, hs.unique _⟩
    · rw [Function.update_of_ne hi]
      exact hs.unique i
  case named =>
    rintro e (⟨i, he⟩ | he)
    · rcases mem_push he with he | ⟨rfl, rfl⟩
      · exact hkeep e (.inl ⟨i, he⟩)
      · exact List.getElem?_concat_length
    · exact hkeep e (.inr he)
  case older =>
    intro i e he r hr hkey
    rcases mem_push he with he | ⟨rfl, rfl⟩
    · exact hs.older i e he r hr hkey
    · -- the new entry gets a name that no entry has yet
      rcases List.getElem?_eq_some_iff.1 (hs.named r (.inr hr)) with ⟨hlt, -⟩
      exact hlt
  case sorted => exact hs.sorted
  case filled =>
    intro i e he
    rcases mem_push he with he | ⟨rfl, rfl⟩
    · exact hs.filled i e he
    · exact List.length_pos_iff.2 hdata

/-- A store makes room for an entry and may store it, unless it is refused at once. -/
theorem set_cases (limits : Limits) (c : Cache) (key data : Bytes) (ttl generation : ℕ) (now : ℤ)
    (oom : Bool) :
    (c.set limits key data ttl generation now oom).2 = c ∨
      (c.set limits key data ttl generation now oom).2 = c.makeRoom limits key data ∨
        (c.set limits key data ttl generation now oom).2 =
            (c.makeRoom limits key data).push key data (now + ttl) ∧ data ≠ [] ∧
          (c.makeRoom limits key data).totalBytes + data.length ≤ limits.maxBytes := by
  unfold Cache.set
  split
  · exact .inl rfl
  · next hempty =>
    have hdata : data ≠ [] := by
      rintro rfl
      exact hempty rfl
    split
    · exact .inl rfl
    · split
      · exact .inl rfl
      · split
        · exact .inr (.inl rfl)
        · split
          · exact .inr (.inl rfl)
          · exact .inr (.inr ⟨rfl, hdata, by omega⟩)

theorem thinned_getStale : Thinned (c.getStale limits key now).2 c := by
  unfold Cache.getStale
  split
  · exact .refl c
  · exact thinned_getExpired true

theorem lowers_getStale : Lowers (c.getStale limits key now).2 c := by
  unfold Cache.getStale
  split
  · exact .refl c
  · exact lowers_getExpired true

theorem thinned_delete (c : Cache) (key : Bytes) : Thinned (c.delete key) c := by
  have hthin := thinned_editBucket (c := c) keeps_invalidate (bucketOf key) (Entry.hasKey key)
  exact ⟨hthin.buckets, hthin.retired, hthin.keys⟩

theorem lowers_delete (c : Cache) (key : Bytes) : Lowers (c.delete key) c :=
  lowers_editBucket (c := c) keeps_invalidate (bucketOf key) (Entry.hasKey key)

theorem thinned_clear (c : Cache) : Thinned c.clear c :=
  thinned_invalidateAll (by rw [invalidateIf_true])

theorem thinned_clearPrefixes (c : Cache) (prefixes : List Bytes) :
    Thinned (c.clearPrefixes prefixes) c := by
  unfold Cache.clearPrefixes
  split
  · exact .refl c
  · exact thinned_invalidateAll rfl

/-- An operation thins the cache, or makes room for an entry and may store it. -/
theorem apply_cases (limits : Limits) (c : Cache) (op : Op) :
    Thinned (apply limits c op) c ∧ Lowers (apply limits c op) c ∨
      ∃ key data, apply limits c op = c.makeRoom limits key data ∨
        ∃ expiresAt, apply limits c op = (c.makeRoom limits key data).push key data expiresAt ∧
          data ≠ [] ∧ (c.makeRoom limits key data).totalBytes + data.length ≤ limits.maxBytes := by
  cases op with
  | set key data ttl generation now oom =>
    rcases set_cases limits c key data ttl generation now oom with heq | heq | ⟨heq, hdata, hroom⟩
    · left
      rw [apply, heq]
      exact ⟨.refl c, .refl c⟩
    · exact .inr ⟨key, data, .inl heq⟩
    · exact .inr ⟨key, data, .inr ⟨now + ttl, heq, hdata, hroom⟩⟩
  | get key now => exact .inl ⟨thinned_getExpired false, lowers_getExpired false⟩
  | getStale key now => exact .inl ⟨thinned_getStale, lowers_getStale⟩
  | release key now => exact .inl ⟨thinned_release, lowers_release⟩
  | delete key => exact .inl ⟨thinned_delete c key, lowers_delete c key⟩
  | clear => exact .inl ⟨thinned_clear c, lowers_clear c⟩
  | clearPrefixes prefixes =>
    exact .inl ⟨thinned_clearPrefixes c prefixes, lowers_clearPrefixes c prefixes⟩

/-- The chains are in shape, and the counter is right and within the limit. -/
structure Inv (limits : Limits) (c : Cache) : Prop where
  shape : Shape c
  balanced : Balanced c
  room : c.totalBytes ≤ limits.maxBytes

theorem inv_empty (limits : Limits) : Inv limits empty where
  shape := shape_empty
  balanced := by
    have hzero : slotTotal (total Entry.len) (fun _ : Fin 1024 => []) = 0 := slotTotal_const rfl
    unfold Balanced Cache.weigh
    rw [show empty.buckets = fun _ => [] from rfl, hzero]
    rfl
  room := Nat.zero_le _

theorem Inv.makeRoom (h : Inv limits c) (key data : Bytes) :
    Inv limits (c.makeRoom limits key data) := by
  have hlow : Lowers (c.makeRoom limits key data) c := lowers_makeRoom c key data
  rcases hlow h.balanced with ⟨hb, hle⟩
  exact ⟨(h.shape.supersede key).thinned (thinned_evict _ _ _), hb, hle.trans h.room⟩

theorem absent_makeRoom (hs : Shape c) (key data : Bytes) :
    Absent (c.makeRoom limits key data) key :=
  (absent_supersede hs key).thin (thinned_evict _ _ _).bucketsThin

theorem inv_apply (limits : Limits) (c : Cache) (op : Op) (h : Inv limits c) :
    Inv limits (apply limits c op) := by
  rcases apply_cases limits c op with
    ⟨hthin, hlow⟩ | ⟨key, data, heq | ⟨expiresAt, heq, hdata, hroom⟩⟩
  · exact ⟨h.shape.thinned hthin, (hlow h.balanced).1, (hlow h.balanced).2.trans h.room⟩
  · rw [heq]
    exact h.makeRoom key data
  · have hm := h.makeRoom key data
    have hweigh := weigh_push Entry.len (c.makeRoom limits key data) key data expiresAt
    have hb := hm.balanced
    rw [heq]
    refine ⟨hm.shape.push (absent_makeRoom h.shape key data) hdata expiresAt, ?_, hroom⟩
    unfold Balanced at hb ⊢
    rw [hweigh, ← hb]
    rfl

theorem inv_run (limits : Limits) (ops : List Op) : Inv limits (run (apply limits) empty ops) :=
  run_invariant _ (inv_apply limits) (inv_empty limits) ops

theorem victim_spec (h : c.victim = some i) :
    ∃ e, (c.buckets i).reverse.find? Entry.unpinned = some e := by
  unfold Cache.victim at h
  have hany := List.find?_some h
  rcases List.any_eq_true.1 hany with ⟨e, he, hpin⟩
  rw [← Option.isSome_iff_exists, List.find?_isSome]
  exact ⟨e, List.mem_reverse.2 he, hpin⟩

/-- The eviction loop ends as in the source: there is room, or nothing to evict. -/
theorem evict_exits (hs : Shape c) (len : ℕ) {fuel : ℕ} (hfuel : c.totalBytes ≤ fuel) :
    ¬ (limits.maxBytes < (Cache.evict limits len fuel c).totalBytes + len ∧
        0 < (Cache.evict limits len fuel c).totalBytes) ∨
      (Cache.evict limits len fuel c).victim = none := by
  induction fuel generalizing c with
  | zero =>
    rw [Cache.evict]
    exact .inl (by omega)
  | succ fuel ih =>
    rw [Cache.evict]
    split
    · split
      · next i hvictim =>
        refine ih (hs.thinned (thinned_evictFrom c i)) ?_
        -- an entry has at least one byte
        rcases victim_spec hvictim with ⟨e, he⟩
        have hlen := hs.filled i e (List.mem_reverse.1 (List.mem_of_find?_eq_some he))
        have hbytes : (c.evictFrom i).totalBytes = c.totalBytes - e.len := by
          simp only [Cache.evictFrom, freed, he, Option.isNone_none, if_true]
        omega
      · next hvictim => exact .inr hvictim
    · next hroom => exact .inl hroom

/-- In every run a page finds room, unless it is too big or readers pin all that is left. -/
theorem makeRoom_of_run (limits : Limits) (ops : List Op) (key data : Bytes) :
    let c := (run (apply limits) empty ops).makeRoom limits key data
    c.totalBytes + data.length ≤ limits.maxBytes ∨ limits.maxBytes < data.length ∨
      c.victim = none := by
  dsimp only
  generalize hc : (run (apply limits) empty ops).makeRoom limits key data = c
  have hexits : ¬ (limits.maxBytes < c.totalBytes + data.length ∧ 0 < c.totalBytes) ∨
      c.victim = none := by
    rw [← hc]
    exact evict_exits ((inv_run limits ops).shape.supersede key) data.length le_rfl
  rcases hexits with hroom | hnone
  · omega
  · exact .inr (.inr hnone)

/-! ## Invalidation -/

def Op.Invalidates (key : Bytes) : Op → Prop
  | .delete key' => key' = key
  | .clear => True
  | .clearPrefixes prefixes => Cache.hasPrefix prefixes key = true
  | _ => False

/-- What is in the bucket of the key is no older than the first `n` stored entries, or is
marked. -/
structure Gone (n : ℕ) (key : Bytes) (c : Cache) : Prop where
  stored : n ≤ c.keys.length
  marked : ∀ e ∈ c.buckets (bucketOf key), e.key = key → n ≤ e.name ∨ e.expiresAt = 0

theorem Gone.thin (h : Gone n key c) (ht : BucketsThin c' c) : Gone n key c' where
  stored := ht.keys ▸ h.stored
  marked e' he' hkey := by
    rcases (ht.buckets _).mem he' with ⟨e, he, hfrom⟩
    rw [hfrom.name]
    rcases h.marked e he (hfrom.key ▸ hkey) with hname | hzero
    · exact .inl hname
    · rcases hfrom.expiry with heq | heq
      · exact .inr (heq.trans hzero)
      · exact .inr heq

theorem Gone.push {key' data : Bytes} (h : Gone n key c) :
    Gone n key (c.push key' data expiresAt) where
  stored := by
    unfold Cache.push
    rw [List.length_append]
    exact h.stored.trans (Nat.le_add_right _ _)
  marked e he hkey := by
    rcases mem_push he with he | ⟨rfl, -⟩
    · exact h.marked e he hkey
    · exact .inl h.stored

theorem gone_apply (limits : Limits) (key : Bytes) (c : Cache) (op : Op)
    (h : Gone n key c) : Gone n key (apply limits c op) := by
  rcases apply_cases limits c op with
    ⟨hthin, -⟩ | ⟨key', data, heq | ⟨expiresAt, heq, -⟩⟩
  · exact h.thin hthin.bucketsThin
  · rw [heq]
    exact h.thin (bucketsThin_makeRoom c key' data)
  · rw [heq]
    exact (h.thin (bucketsThin_makeRoom c key' data)).push

theorem invalidate_expired (h : e.invalidate = some e') : e'.expiresAt = 0 := by
  rw [Entry.invalidate] at h
  split at h
  · rw [← Option.some.inj h]
    rfl
  · exact nomatch h

/-- Right after an invalidation nothing of the key is left, or it is marked. -/
theorem gone_invalidate (limits : Limits) (hs : Shape c) (h : op.Invalidates key) :
    Gone c.keys.length key (apply limits c op) := by
  have hall : ∀ p : Entry → Bool, (∀ e : Entry, e.key = key → p e = true) →
      ∀ e' ∈ (c.buckets (bucketOf key)).filterMap (Cache.invalidateIf p),
        e'.key = key → e'.expiresAt = 0 := by
    intro p hp e' he' hkey
    rcases List.mem_filterMap.1 he' with ⟨e, -, he⟩
    have hp' := hp e ((keeps_invalidateIf p e e' he).key ▸ hkey)
    rw [Cache.invalidateIf, if_pos hp'] at he
    exact invalidate_expired he
  cases op with
  | delete key' =>
    have hkey' : key' = key := h
    subst hkey'
    refine ⟨(thinned_delete c key').keys ▸ le_refl _, ?_⟩
    intro e he hkey
    have he' : e ∈ editFirst (Entry.hasKey key') Entry.invalidate (c.buckets (bucketOf key')) := by
      simpa [apply, Cache.delete, Cache.editBucket] using he
    rcases editFirst_key hs he' hkey with ⟨old, hold⟩
    exact .inr (invalidate_expired hold)
  | clear =>
    refine ⟨le_refl _, fun e he hkey => .inr (hall (fun _ => true) (fun _ _ => rfl) e ?_ hkey)⟩
    rw [invalidateIf_true]
    exact he
  | clearPrefixes prefixes =>
    have hprefix : Cache.hasPrefix prefixes key = true := h
    have hsome : prefixes.isEmpty = false := by
      cases prefixes with
      | nil => exact nomatch hprefix
      | cons p ps => rfl
    have happly : apply limits c (.clearPrefixes prefixes) = c.clearPrefixes prefixes := rfl
    rw [happly, Cache.clearPrefixes, hsome]
    refine ⟨le_refl _, fun e he hkey => .inr ?_⟩
    exact hall (fun e => Cache.hasPrefix prefixes e.key) (fun e he => by rw [he]; exact hprefix)
      e he hkey
  | set key data ttl generation now oom => exact absurd h id
  | get key now => exact absurd h id
  | getStale key now => exact absurd h id
  | release key now => exact absurd h id

/-- A lookup after the epoch hands out no marked entry. -/
theorem getExpired_hit (hnow : 0 ≤ now) (h : (c.getExpired limits key now stale).1 = some hit) :
    ∃ e ∈ c.buckets (bucketOf key), e.key = key ∧ e.name = hit.name ∧ e.expiresAt ≠ 0 := by
  unfold Cache.getExpired at h
  split at h
  · exact nomatch h
  · next e hfind =>
    split at h
    · exact nomatch h
    · next hmark =>
      dsimp only at h
      split at h
      · exact nomatch h
      · next hfresh =>
        rcases find_spec hfind with ⟨hmem, hkey⟩
        refine ⟨e, hmem, hkey, ?_, ?_⟩
        · rw [← Option.some.inj h]
        · intro hzero
          cases stale with
          | true => exact hmark (by simp [hzero])
          | false => exact hfresh (by simp [hzero, hnow])

/-- `page_cache_get_stale` or `page_cache_get` -/
def Cache.lookup (limits : Limits) (c : Cache) (key : Bytes) (now : ℤ) (stale : Bool) :
    Option Hit × Cache :=
  if stale then c.getStale limits key now else c.get limits key now

theorem lookup_hit (hnow : 0 ≤ now) (h : (c.lookup limits key now stale).1 = some hit) :
    ∃ e ∈ c.buckets (bucketOf key), e.key = key ∧ e.name = hit.name ∧ e.expiresAt ≠ 0 := by
  unfold Cache.lookup at h
  split at h
  · unfold Cache.getStale at h
    split at h
    · exact nomatch h
    · exact getExpired_hit hnow h
  · exact getExpired_hit hnow h

theorem lookup_after_invalidation (hs : Shape c) (hop : op.Invalidates key)
    (later : List Op) (hnow : 0 ≤ now)
    (h : hit ∈ ((run (apply limits) (apply limits c op) later).lookup limits key now stale).1) :
    c.keys.length ≤ hit.name := by
  have hgone := gone_invalidate limits hs hop
  have hlater := run_invariant _ (gone_apply limits key) hgone later
  rcases lookup_hit hnow h with ⟨e, he, hkey, hname, hne⟩
  rcases hlater.marked e he hkey with hold | hzero
  · exact hname ▸ hold
  · exact absurd hzero hne

def Cache.entriesOf (c : Cache) (key : Bytes) : ℕ :=
  slotTotal (List.countP (Entry.hasKey key)) c.buckets

theorem countP_le_one (h : l.Pairwise fun a b => ¬ (p a = true ∧ p b = true)) : l.countP p ≤ 1 := by
  induction l with
  | nil => exact Nat.zero_le _
  | cons e l ih =>
    rw [List.pairwise_cons] at h
    cases he : p e with
    | false =>
      rw [List.countP_cons_of_neg (by simp [he])]
      exact ih h.2
    | true =>
      have hzero : l.countP p = 0 :=
        List.countP_eq_zero.2 fun e' he' hp => h.1 e' he' ⟨he, hp⟩
      rw [List.countP_cons_of_pos he, hzero]

theorem Shape.entriesOf_le_one (hs : Shape c) (key : Bytes) : c.entriesOf key ≤ 1 := by
  have hkey : ∀ e, Entry.hasKey key e = true → e.key = key := by
    intro e he
    simpa [Entry.hasKey] using he
  have hother : ∀ i, i ≠ bucketOf key → (c.buckets i).countP (Entry.hasKey key) = 0 := by
    intro i hi
    refine List.countP_eq_zero.2 fun e he hhas => hi ?_
    rw [← hs.placed i e he, hkey e hhas]
  rw [Cache.entriesOf, slotTotal_of_ne hother]
  refine countP_le_one ((hs.unique _).imp ?_)
  rintro a b hne ⟨ha, hb⟩
  exact hne ((hkey a ha).trans (hkey b hb).symm)

/-- In every state that the operations lead to, with any clock, the byte counter is the
sum over all entries and within the limit, and a key has at most one entry in the
buckets. From an invalidation of a key on, no lookup at a time after the epoch hands out
an entry that was stored before it, whatever else happens. -/
theorem accounting_and_invalidation (limits : Limits) (ops : List Op) (c : Cache)
    (hc : c = run (apply limits) empty ops) :
    c.totalBytes = c.weigh Entry.len ∧ c.totalBytes ≤ limits.maxBytes ∧
      (∀ key, c.entriesOf key ≤ 1) ∧
      ∀ (key : Bytes) (op : Op), op.Invalidates key → ∀ (later : List Op) (now : ℤ), 0 ≤ now →
        ∀ stale, ∀ hit ∈ ((run (apply limits) (apply limits c op) later).lookup limits key now
          stale).1, c.keys.length ≤ hit.name := by
  have hinv : Inv limits c := hc ▸ inv_run limits ops
  refine ⟨hinv.balanced, hinv.room, hinv.shape.entriesOf_le_one, ?_⟩
  intro key op hop later now hnow stale hit hhit
  exact lookup_after_invalidation hinv.shape hop later hnow hhit

/-- A megabyte, and a minute in which pages may be served stale. -/
def sampleLimits : Limits := ⟨1024 * 1024, 60⟩

def storedAndRead : List Op :=
  [.set (bytes "home:") (bytes "old") 60 0 1000 false, .get (bytes "home:") 1000]

theorem accounting_and_invalidation_deleted :
    let c := run (apply sampleLimits) empty storedAndRead
    c.totalBytes = c.weigh Entry.len ∧ c.totalBytes ≤ sampleLimits.maxBytes ∧
      (∀ key, c.entriesOf key ≤ 1) ∧
      (⟨1, bytes "new", 60⟩ : Hit) ∈ ((run (apply sampleLimits)
        (apply sampleLimits c (.delete (bytes "home:")))
        [.set (bytes "home:") (bytes "new") 60 0 1000 false]).lookup sampleLimits (bytes "home:")
          1000 false).1 ∧ c.keys.length ≤ 1 := by
  have h := accounting_and_invalidation sampleLimits storedAndRead _ rfl
  have hhit : (⟨1, bytes "new", 60⟩ : Hit) ∈ ((run (apply sampleLimits)
      (apply sampleLimits (run (apply sampleLimits) empty storedAndRead)
        (.delete (bytes "home:")))
      [.set (bytes "home:") (bytes "new") 60 0 1000 false]).lookup sampleLimits (bytes "home:")
        1000 false).1 := by
    decide +kernel
  exact ⟨h.1, h.2.1, h.2.2.1, hhit,
    h.2.2.2 (bytes "home:") (.delete (bytes "home:")) rfl _ 1000 (by decide) false _ hhit⟩

/-- Before the epoch the mark is in the future: the page that was deleted while it was read
is handed out again. -/
theorem deleted_page_before_epoch :
    (((run (apply sampleLimits) empty (storedAndRead ++ [.delete (bytes "home:")])).lookup
      sampleLimits (bytes "home:") (-1) false).1.map Hit.data) = some (bytes "old") := by
  decide +kernel

end FlyBoard.PinnedCache

import FlyBoard.Utils.PinnedCache

/-!
# Readers of the page cache (`src/utils/cache.c`)

A reader holds the data of the entry that its lookup found until it calls
`page_cache_release`, which names only the key. The release takes the pin off the first
pinned entry of the key in its bucket, or else off the first on the retired list; this is
the newest one.
-/

namespace FlyBoard.CacheReaders

open FlyBoard.Totals FlyBoard.Chain FlyBoard.Run FlyBoard.PinnedCache
open FlyBoard.PageCache (Limits bucketOf)

/-- The key a reader looked up and the entry whose data it holds. -/
structure Hold where
  key : Bytes
  entry : ℕ
deriving DecidableEq, Repr

structure State where
  cache : Cache
  held : List Hold

inductive Action
  | set (key data : Bytes) (ttlSec expectedGeneration : ℕ) (now : ℤ) (oom : Bool)
  | lookup (key : Bytes) (now : ℤ) (stale : Bool)
  /-- The reader with this index is done. -/
  | release (i : ℕ) (now : ℤ)
  | delete (key : Bytes)
  | clear
  | clearPrefixes (prefixes : List Bytes)
deriving DecidableEq, Repr

variable (limits : Limits)

def step (s : State) : Action → State
  | .set key data ttl generation now oom =>
    { s with cache := (s.cache.set limits key data ttl generation now oom).2 }
  | .lookup key now stale =>
    let r := s.cache.lookup limits key now stale
    ⟨r.2, s.held ++ (r.1.map fun hit => ⟨key, hit.name⟩).toList⟩
  | .release i now =>
    match s.held[i]? with
    | none => s
    | some h => ⟨s.cache.release limits h.key now, s.held.eraseIdx i⟩
  | .delete key => { s with cache := s.cache.delete key }
  | .clear => { s with cache := s.cache.clear }
  | .clearPrefixes prefixes => { s with cache := s.cache.clearPrefixes prefixes }

def start : State := ⟨empty, []⟩

def State.readers (s : State) (name : ℕ) : ℕ := s.held.countP fun h => h.entry == name

def PinsMatch (s : State) : Prop :=
  (∀ e, s.cache.Mem e → e.pinCount = s.readers e.name) ∧
    ∀ h ∈ s.held, ∃ e, s.cache.Mem e ∧ e.name = h.entry

def ReleasesNewest (s : State) : Action → Prop
  | .release i _ => ∀ h, s.held[i]? = some h → ∀ h' ∈ s.held, h'.key = h.key → h'.entry ≤ h.entry
  | _ => True

/-! ## Pins -/

variable {limits : Limits} {c c' : Cache} {key : Bytes} {e p old : Entry} {i : Fin 1024} {n : ℕ}
  {q : Entry → Bool} {f : Entry → Option Entry} {now : ℤ} {s : State}

def pinsFor (n : ℕ) (e : Entry) : ℕ := if e.name = n then e.pinCount else 0

def pinsOf (c : Cache) (n : ℕ) : ℕ := c.weigh (pinsFor n)

theorem pinsFor_expire (n : ℕ) (e : Entry) : pinsFor n e.expire = pinsFor n e := rfl

theorem pinsFor_unpinned (h : e.unpinned = true) : pinsFor n e = 0 := by
  have hzero : e.pinCount = 0 := by simpa [Entry.unpinned] using h
  unfold pinsFor
  rw [hzero]
  exact ite_self 0

def SamePins (c' c : Cache) : Prop := ∀ n, pinsOf c' n = pinsOf c n

theorem SamePins.refl (c : Cache) : SamePins c c := fun _ => rfl

theorem SamePins.trans {c'' : Cache} (h : SamePins c'' c') (h' : SamePins c' c) : SamePins c'' c :=
  fun n => (h n).trans (h' n)

theorem samePins_editBucket
    (hf : ∀ e n, (c.buckets i).find? q = some e → ((f e).map (pinsFor n)).getD 0 = pinsFor n e) :
    SamePins (c.editBucket i q f) c := by
  intro n
  cases h : (c.buckets i).find? q with
  | none => rw [editBucket_none h]
  | some e =>
    have hweigh := weigh_editBucket (pinsFor n) (f := f) h
    have hkeep := hf e n h
    unfold pinsOf
    omega

theorem samePins_invalidate (e : Entry) (n : ℕ) :
    ((e.invalidate).map (pinsFor n)).getD 0 = pinsFor n e := by
  unfold Entry.invalidate
  split
  · rfl
  · next hpin =>
    have hzero : e.unpinned = true := by
      simp only [Entry.unpinned, beq_iff_eq]
      omega
    exact (pinsFor_unpinned hzero).symm

theorem samePins_evictFrom (c : Cache) (i : Fin 1024) : SamePins (c.evictFrom i) c := by
  intro n
  cases h : (c.buckets i).reverse.find? Entry.unpinned with
  | none => rw [evictFrom_none h]
  | some e =>
    have hweigh := weigh_evictFrom (pinsFor n) h
    rw [pinsFor_unpinned (List.find?_some h)] at hweigh
    exact hweigh

theorem samePins_supersede (c : Cache) (key : Bytes) : SamePins (c.supersede key) c := by
  intro n
  unfold Cache.supersede
  split
  · rfl
  · next old hfind =>
    split
    · have hweigh := weigh_retire (pinsFor n) hfind
      rw [pinsFor_expire] at hweigh
      exact Nat.add_right_cancel hweigh
    · next hpin =>
      refine samePins_editBucket (fun e m he => ?_) n
      have heq : old = e := Option.some.inj (hfind.symm.trans he)
      subst heq
      refine (pinsFor_unpinned ?_).symm
      simp only [Entry.unpinned, beq_iff_eq]
      omega

theorem samePins_makeRoom (c : Cache) (key data : Bytes) :
    SamePins (c.makeRoom limits key data) c :=
  (evict_rel SamePins.refl (fun _ _ _ h h' => h.trans h') samePins_evictFrom _ _ _).trans
    (samePins_supersede c key)

theorem samePins_set (c : Cache) (key data : Bytes) (ttl generation : ℕ) (oom : Bool) :
    SamePins (c.set limits key data ttl generation now oom).2 c := by
  rcases set_cases limits c key data ttl generation now oom with heq | heq | ⟨heq, -⟩
  · rw [heq]
    exact .refl c
  · rw [heq]
    exact samePins_makeRoom c key data
  · rw [heq]
    intro n
    have hpush := weigh_push (pinsFor n) (c.makeRoom limits key data) key data (now + ttl)
    have hnew : pinsFor n ⟨(c.makeRoom limits key data).keys.length, key, data, now + ttl, 0⟩ = 0 :=
      pinsFor_unpinned rfl
    rw [hnew] at hpush
    exact hpush.trans (samePins_makeRoom c key data n)

theorem samePins_delete (c : Cache) (key : Bytes) : SamePins (c.delete key) c :=
  samePins_editBucket (c := c) (i := bucketOf key) (q := Entry.hasKey key)
    fun e n _ => samePins_invalidate e n

theorem samePins_invalidateAll (c : Cache) (p : Entry → Bool) (bytes generation : ℕ) :
    SamePins { c with
      buckets := fun i => (c.buckets i).filterMap (Cache.invalidateIf p)
      totalBytes := bytes
      generation := generation } c := by
  intro n
  have hsum := slotTotal_invalidateIf (w := pinsFor n) (pinsFor_expire n) p c.buckets
  -- what is freed has no pins
  have hfreed : slotTotal (total (pinsFor n))
      (fun i => (c.buckets i).filter fun e => p e && e.unpinned) = 0 := by
    refine slotTotal_eq_zero fun i => (total_eq_zero_iff _).2 fun e he => ?_
    have hcond := (List.mem_filter.1 he).2
    rw [Bool.and_eq_true] at hcond
    exact pinsFor_unpinned hcond.2
  unfold pinsOf Cache.weigh
  dsimp only
  omega

theorem samePins_clear (c : Cache) : SamePins c.clear c := by
  have h := samePins_invalidateAll c (fun _ => true) c.clear.totalBytes (c.generation + 1)
  rw [invalidateIf_true] at h
  exact h

theorem samePins_clearPrefixes (c : Cache) (prefixes : List Bytes) :
    SamePins (c.clearPrefixes prefixes) c := by
  unfold Cache.clearPrefixes
  split
  · exact .refl c
  · exact samePins_invalidateAll c _ _ _

theorem pinsOf_getExpired (stale : Bool) (n : ℕ) :
    pinsOf (c.getExpired limits key now stale).2 n = pinsOf c n +
      ((c.getExpired limits key now stale).1.toList.countP fun hit => hit.name == n) := by
  unfold Cache.getExpired
  split
  · rfl
  · next e hfind =>
    split
    · rfl
    · dsimp only
      split
      · dsimp only
        split
        · next hfree =>
          rw [Bool.and_eq_true, Bool.and_eq_true] at hfree
          refine samePins_editBucket (fun e' m he => ?_) n
          have heq : e = e' := Option.some.inj (hfind.symm.trans he)
          subst heq
          exact (pinsFor_unpinned hfree.1.2).symm
        · rfl
      · have hweigh := weigh_editBucket (pinsFor n) (f := fun e => some e.pin) hfind
        have hpin : pinsFor n e.pin = pinsFor n e + if e.name = n then 1 else 0 := by
          unfold pinsFor Entry.pin
          dsimp only
          split <;> rfl
        have hcount : ([(⟨e.name, e.data, if decide (e.expiresAt ≤ now) = true then 0
            else (e.expiresAt - now).toNat % 2 ^ 32⟩ : Hit)].countP fun hit => hit.name == n) =
            if e.name = n then 1 else 0 := by
          simp [List.countP_cons]
        dsimp only [Option.map_some, Option.getD_some] at hweigh
        dsimp only [Option.toList_some]
        rw [hcount]
        unfold pinsOf
        omega

theorem pinsOf_lookup (limits : Limits) (c : Cache) (key : Bytes) (now : ℤ) (stale : Bool)
    (n : ℕ) :
    pinsOf (c.lookup limits key now stale).2 n = pinsOf c n +
      ((c.lookup limits key now stale).1.toList.countP fun hit => hit.name == n) := by
  unfold Cache.lookup
  split
  · unfold Cache.getStale
    split
    · rfl
    · exact pinsOf_getExpired true n
  · exact pinsOf_getExpired false n

/-- The entry whose pin `page_cache_release` takes off. -/
def picked (c : Cache) (key : Bytes) : Option Entry :=
  ((c.buckets (bucketOf key)).find? (Cache.pinnedKey key)).or
    (c.retired.find? (Cache.pinnedKey key))

theorem pinnedKey_iff : Cache.pinnedKey key e = true ↔ e.key = key ∧ 0 < e.pinCount := by
  simp [Cache.pinnedKey, Entry.hasKey, Entry.unpinned, Nat.pos_iff_ne_zero]

theorem pinsFor_unpinOrFree (limits : Limits) (now : ℤ) (retired : Bool) (h : 0 < e.pinCount)
    (n : ℕ) :
    ((Cache.unpinOrFree limits now retired e).map (pinsFor n)).getD 0 +
      (if e.name = n then 1 else 0) = pinsFor n e := by
  have hpin : pinsFor n e.unpin + (if e.name = n then 1 else 0) = pinsFor n e := by
    unfold pinsFor Entry.unpin
    dsimp only
    split <;> omega
  unfold Cache.unpinOrFree
  dsimp only
  split
  · next hfree =>
    rw [Bool.and_eq_true] at hfree
    rw [← hpin, pinsFor_unpinned hfree.1]
    rfl
  · exact hpin

theorem pinsOf_release (limits : Limits) (now : ℤ) (h : picked c key = some p) (n : ℕ) :
    pinsOf (c.release limits key now) n + (if p.name = n then 1 else 0) = pinsOf c n := by
  unfold picked at h
  unfold Cache.release
  cases hb : (c.buckets (bucketOf key)).find? (Cache.pinnedKey key) with
  | some e =>
    rw [hb, Option.some_or, Option.some.injEq] at h
    subst h
    have hany : (c.buckets (bucketOf key)).any (Cache.pinnedKey key) = true :=
      List.any_eq_true.2 ⟨e, List.mem_of_find?_eq_some hb, List.find?_some hb⟩
    have hpos := (pinnedKey_iff.1 (List.find?_some hb)).2
    have hweigh := weigh_editBucket (pinsFor n) (f := Cache.unpinOrFree limits now false) hb
    have hunpin := pinsFor_unpinOrFree limits now false hpos n
    rw [if_pos hany]
    unfold pinsOf
    omega
  | none =>
    rw [hb, Option.none_or] at h
    have hany : ¬ (c.buckets (bucketOf key)).any (Cache.pinnedKey key) = true := by
      rw [List.any_eq_true]
      rintro ⟨e, he, hkey⟩
      exact List.find?_eq_none.1 hb e he hkey
    have hpos := (pinnedKey_iff.1 (List.find?_some h)).2
    have hweigh := weigh_editRetired (pinsFor n) (f := Cache.unpinOrFree limits now true) h
    have hunpin := pinsFor_unpinOrFree limits now true hpos n
    rw [if_neg hany]
    unfold pinsOf
    omega

theorem find_newest {l : List Entry}
    (hl : l.Pairwise fun a b => a.key = b.key → b.name < a.name)
    (h : l.find? (Cache.pinnedKey key) = some p) (he : e ∈ l) (hkey : Cache.pinnedKey key e = true) :
    e.name ≤ p.name := by
  rcases List.find?_eq_some_iff_append.1 h with ⟨hp, pre, post, rfl, hpre⟩
  rw [List.pairwise_append, List.pairwise_cons] at hl
  rcases List.mem_append.1 he with he | he
  · have hno := hpre e he
    rw [hkey] at hno
    exact nomatch hno
  · rcases List.mem_cons.1 he with rfl | he
    · exact le_refl _
    · have hsame : p.key = e.key := (pinnedKey_iff.1 hp).1.trans (pinnedKey_iff.1 hkey).1.symm
      exact (hl.2.1.1 e he hsame).le

theorem picked_newest (hs : Shape c) (he : c.Mem e) (hkey : Cache.pinnedKey key e = true) :
    ∃ p, picked c key = some p ∧ c.Mem p ∧ Cache.pinnedKey key p = true ∧ e.name ≤ p.name := by
  have hbucket : ∀ i, e ∈ c.buckets i → i = bucketOf key := by
    intro i hi
    rw [← hs.placed i e hi, (pinnedKey_iff.1 hkey).1]
  unfold picked
  cases hb : (c.buckets (bucketOf key)).find? (Cache.pinnedKey key) with
  | some p =>
    have hp : Cache.pinnedKey key p = true := List.find?_some hb
    have hmem : p ∈ c.buckets (bucketOf key) := List.mem_of_find?_eq_some hb
    refine ⟨p, rfl, .inl ⟨_, hmem⟩, hp, ?_⟩
    have hsame : e.key = p.key := (pinnedKey_iff.1 hkey).1.trans (pinnedKey_iff.1 hp).1.symm
    rcases he with ⟨i, he⟩ | he
    · rw [hbucket i he] at he
      refine find_newest ((hs.unique _).imp ?_) hb he hkey
      exact fun hne heq => absurd heq hne
    · exact (hs.older _ p hmem e he hsame).le
  | none =>
    rw [Option.none_or]
    have hretired : e ∈ c.retired := by
      rcases he with ⟨i, he⟩ | he
      · rw [hbucket i he] at he
        exact absurd hkey (List.find?_eq_none.1 hb e he)
      · exact he
    have hsome : (c.retired.find? (Cache.pinnedKey key)).isSome :=
      List.find?_isSome.2 ⟨e, hretired, hkey⟩
    rcases Option.isSome_iff_exists.1 hsome with ⟨p, hp⟩
    exact ⟨p, hp, .inr (List.mem_of_find?_eq_some hp), List.find?_some hp,
      find_newest hs.sorted hp hretired hkey⟩

theorem pinsOf_name (hs : Shape c) (he : c.Mem e) : pinsOf c e.name = e.pinCount := by
  have hkey : ∀ a b, c.Mem a → c.Mem b → a.name = b.name → a.key = b.key := by
    intro a b ha hb hname
    have hna := hs.named a ha
    rw [hname, hs.named b hb] at hna
    exact (Option.some.inj hna).symm
  have hzero : ∀ a : Entry, ¬ a.name = e.name → pinsFor e.name a = 0 := fun a h => if_neg h
  have hself : pinsFor e.name e = e.pinCount := if_pos rfl
  unfold pinsOf Cache.weigh
  rcases he with ⟨i, he⟩ | he
  · -- the other buckets have other keys, and the retired entries of the key are older
    have hother : ∀ j, j ≠ i → total (pinsFor e.name) (c.buckets j) = 0 := by
      intro j hj
      refine (total_eq_zero_iff _).2 fun a ha => hzero a fun hname => hj ?_
      rw [← hs.placed j a ha, ← hs.placed i e he,
        hkey a e (.inl ⟨j, ha⟩) (.inl ⟨i, he⟩) hname]
    have hretired : total (pinsFor e.name) c.retired = 0 := by
      refine (total_eq_zero_iff _).2 fun a ha => hzero a fun hname => ?_
      have hlt := hs.older i e he a ha (hkey a e (.inr ha) (.inl ⟨i, he⟩) hname)
      omega
    have hone : total (pinsFor e.name) (c.buckets i) = pinsFor e.name e := by
      refine total_of_mem _ (P := fun a => a.name = e.name) (fun a _ => hzero a) ?_ he rfl
      refine (hs.unique i).imp_of_mem ?_
      rintro a b ha hb hne ⟨hna, hnb⟩
      exact hne (hkey a b (.inl ⟨i, ha⟩) (.inl ⟨i, hb⟩) (hna.trans hnb.symm))
    rw [slotTotal_of_ne hother, hretired, hone, hself]
    rfl
  · have hbuckets : ∀ i, total (pinsFor e.name) (c.buckets i) = 0 := by
      intro i
      refine (total_eq_zero_iff _).2 fun a ha => hzero a fun hname => ?_
      have hlt := hs.older i a ha e he (hkey e a (.inr he) (.inl ⟨i, ha⟩) hname.symm)
      omega
    have hone : total (pinsFor e.name) c.retired = pinsFor e.name e := by
      refine total_of_mem _ (P := fun a => a.name = e.name) (fun a _ => hzero a) ?_ he rfl
      refine hs.sorted.imp_of_mem ?_
      rintro a b ha hb hlt ⟨hna, hnb⟩
      have h := hlt (hkey a b (.inr ha) (.inr hb) (hna.trans hnb.symm))
      omega
    rw [slotTotal_eq_zero hbuckets, hone, hself, Nat.zero_add]

theorem mem_of_pinsOf (h : 0 < pinsOf c n) : ∃ e, c.Mem e ∧ e.name = n ∧ 0 < e.pinCount := by
  by_contra hnone
  have hzero : ∀ e, c.Mem e → pinsFor n e = 0 := by
    intro e he
    unfold pinsFor
    split
    · next hname =>
      rcases Nat.eq_zero_or_pos e.pinCount with hz | hpos
      · exact hz
      · exact absurd ⟨e, he, hname, hpos⟩ hnone
    · rfl
  have hbuckets : slotTotal (total (pinsFor n)) c.buckets = 0 :=
    slotTotal_eq_zero fun i => (total_eq_zero_iff _).2 fun e he => hzero e (.inl ⟨i, he⟩)
  have hretired : total (pinsFor n) c.retired = 0 :=
    (total_eq_zero_iff _).2 fun e he => hzero e (.inr he)
  unfold pinsOf Cache.weigh at h
  omega

/-! ## One step -/

/-- The cache is in shape, and what a reader holds was stored for the key it looked up. -/
structure Inv (limits : Limits) (s : State) : Prop where
  cache : PinnedCache.Inv limits s.cache
  held : ∀ h ∈ s.held, s.cache.keys[h.entry]? = some h.key

theorem inv_start (limits : Limits) : Inv limits start where
  cache := inv_empty limits
  held _ h := absurd h List.not_mem_nil

theorem keys_apply (limits : Limits) (c : Cache) (op : Op) (h : c.keys[n]? = some key) :
    (apply limits c op).keys[n]? = some key := by
  rcases apply_cases limits c op with
    ⟨hthin, -⟩ | ⟨key', data, heq | ⟨expiresAt, heq, -⟩⟩
  · rwa [hthin.keys]
  · rwa [heq, (bucketsThin_makeRoom c key' data).keys]
  · rcases List.getElem?_eq_some_iff.1 h with ⟨hlt, -⟩
    rw [heq, Cache.push, (bucketsThin_makeRoom c key' data).keys,
      List.getElem?_append_left hlt, h]

theorem Inv.apply (h : Inv limits s) (op : Op) :
    Inv limits { s with cache := PinnedCache.apply limits s.cache op } :=
  ⟨inv_apply limits s.cache op h.cache, fun x hx => keys_apply limits s.cache op (h.held x hx)⟩

theorem lookup_eq_apply (limits : Limits) (c : Cache) (key : Bytes) (now : ℤ) (stale : Bool) :
    ∃ op, (c.lookup limits key now stale).2 = apply limits c op := by
  cases stale with
  | false => exact ⟨.get key now, rfl⟩
  | true => exact ⟨.getStale key now, rfl⟩

theorem lookup_named {stale : Bool} {hit : Hit} (hs : Shape c)
    (h : (c.lookup limits key now stale).1 = some hit) : c.keys[hit.name]? = some key := by
  have hexp : ∀ stale, (c.getExpired limits key now stale).1 = some hit →
      c.keys[hit.name]? = some key := by
    intro stale h
    unfold Cache.getExpired at h
    split at h
    · exact nomatch h
    · next e hfind =>
      split at h
      · exact nomatch h
      · dsimp only at h
        split at h
        · exact nomatch h
        · rcases find_spec hfind with ⟨hmem, hkey⟩
          rw [← Option.some.inj h, ← hkey]
          exact hs.named e (.inl ⟨_, hmem⟩)
  unfold Cache.lookup at h
  split at h
  · unfold Cache.getStale at h
    split at h
    · exact nomatch h
    · exact hexp true h
  · exact hexp false h

theorem inv_step (limits : Limits) (s : State) (a : Action) (h : Inv limits s) :
    Inv limits (step limits s a) := by
  cases a with
  | set key data ttl generation now oom => exact h.apply (.set key data ttl generation now oom)
  | lookup key now stale =>
    rcases lookup_eq_apply limits s.cache key now stale with ⟨op, hop⟩
    have happly := h.apply op
    rw [← hop] at happly
    refine ⟨happly.cache, fun x hx => ?_⟩
    rcases List.mem_append.1 hx with hx | hx
    · exact happly.held x hx
    · rcases Option.map_eq_some_iff.1 (Option.mem_toList.1 hx) with ⟨hit, hhit, rfl⟩
      have hname := keys_apply limits s.cache op (lookup_named h.cache.shape hhit)
      rwa [← hop] at hname
  | release i now =>
    simp only [step]
    split
    · exact h
    · next x _ =>
      have happly := h.apply (.release x.key now)
      exact ⟨happly.cache, fun y hy => happly.held y (List.mem_of_mem_eraseIdx hy)⟩
  | delete key => exact h.apply (.delete key)
  | clear => exact h.apply .clear
  | clearPrefixes prefixes => exact h.apply (.clearPrefixes prefixes)

def Matched (s : State) : Prop := ∀ n, pinsOf s.cache n = s.readers n

theorem readers_pos (h : ∃ x ∈ s.held, x.entry = n) : 0 < s.readers n := by
  rcases h with ⟨x, hx, rfl⟩
  exact List.countP_pos_iff.2 ⟨x, hx, beq_self_eq_true _⟩

theorem held_of_readers (h : 0 < s.readers n) : ∃ x ∈ s.held, x.entry = n := by
  rcases List.countP_pos_iff.1 h with ⟨x, hx, heq⟩
  exact ⟨x, hx, by simpa using heq⟩

theorem matched_iff (hs : Shape s.cache) : Matched s ↔ PinsMatch s := by
  constructor
  · intro h
    refine ⟨fun e he => (pinsOf_name hs he).symm.trans (h e.name), fun x hx => ?_⟩
    have hpos : 0 < pinsOf s.cache x.entry := h x.entry ▸ readers_pos ⟨x, hx, rfl⟩
    rcases mem_of_pinsOf hpos with ⟨e, he, hname, -⟩
    exact ⟨e, he, hname⟩
  · rintro ⟨hentries, hheld⟩ n
    by_cases hn : ∃ e, s.cache.Mem e ∧ e.name = n
    · rcases hn with ⟨e, he, rfl⟩
      exact (pinsOf_name hs he).trans (hentries e he)
    · -- nobody has the name, so nobody reads it
      have hpins : pinsOf s.cache n = 0 := by
        rcases Nat.eq_zero_or_pos (pinsOf s.cache n) with hz | hpos
        · exact hz
        · rcases mem_of_pinsOf hpos with ⟨e, he, hname, -⟩
          exact absurd ⟨e, he, hname⟩ hn
      have hreaders : s.readers n = 0 := by
        rcases Nat.eq_zero_or_pos (s.readers n) with hz | hpos
        · exact hz
        · rcases held_of_readers hpos with ⟨x, hx, rfl⟩
          exact absurd (hheld x hx) hn
      rw [hpins, hreaders]

theorem countP_eraseIdx_add {l : List Hold} {i : ℕ} {x : Hold} (h : l[i]? = some x) (n : ℕ) :
    ((l.eraseIdx i).countP fun y => y.entry == n) + (if x.entry = n then 1 else 0) =
      l.countP fun y => y.entry == n := by
  rcases List.getElem?_eq_some_iff.1 h with ⟨hlt, rfl⟩
  have hperm := (List.getElem_cons_eraseIdx_perm hlt).countP_eq fun y : Hold => y.entry == n
  rw [← hperm, List.countP_cons]
  simp

/-- Where the pins match, a reader that is done keeps them so exactly when it held the
newest entry of its key that is read. -/
theorem matched_release_iff (hinv : Inv limits s) (h : Matched s) {i : ℕ} {x : Hold}
    (hi : s.held[i]? = some x) :
    Matched ⟨s.cache.release limits x.key now, s.held.eraseIdx i⟩ ↔
      ∀ y ∈ s.held, y.key = x.key → y.entry ≤ x.entry := by
  have hs := hinv.cache.shape
  -- what a reader of the key holds is pinned, and no newer than what is picked
  have hpinned : ∀ y ∈ s.held, y.key = x.key →
      ∃ p, picked s.cache x.key = some p ∧ s.cache.Mem p ∧
        Cache.pinnedKey x.key p = true ∧ y.entry ≤ p.name := by
    intro y hy hkey
    have hpos : 0 < pinsOf s.cache y.entry := h y.entry ▸ readers_pos ⟨y, hy, rfl⟩
    rcases mem_of_pinsOf hpos with ⟨e, he, hname, hpin⟩
    have hekey : e.key = x.key := by
      have hnamed := hs.named e he
      rw [hname, hinv.held y hy] at hnamed
      exact (Option.some.inj hnamed).symm.trans hkey
    rw [← hname]
    exact picked_newest hs he (pinnedKey_iff.2 ⟨hekey, hpin⟩)
  rcases hpinned x (List.mem_of_getElem? hi) rfl with ⟨p, hp, hmem, hpkey, hle⟩
  have hsame : Matched ⟨s.cache.release limits x.key now, s.held.eraseIdx i⟩ ↔
      p.name = x.entry := by
    have hpins := pinsOf_release limits now hp
    have hcount : ∀ n, ((s.held.eraseIdx i).countP fun y => y.entry == n) +
        (if x.entry = n then 1 else 0) = s.readers n := countP_eraseIdx_add hi
    constructor
    · intro hafter
      have hpick := hpins p.name
      have herase := hcount p.name
      have hbefore := h p.name
      have hnow := hafter p.name
      unfold State.readers at hnow
      dsimp only at hnow
      rw [if_pos rfl] at hpick
      split at herase
      · next heq => exact heq.symm
      · omega
    · intro heq n
      have hpick := hpins n
      have herase := hcount n
      have hbefore := h n
      rw [heq] at hpick
      unfold State.readers
      dsimp only
      omega
  rw [hsame]
  constructor
  · intro heq y hy hkey
    rcases hpinned y hy hkey with ⟨p', hp', -, -, hle'⟩
    rw [hp] at hp'
    cases hp'
    exact heq ▸ hle'
  · intro hnewest
    -- the picked entry has a reader too
    have hpos : 0 < s.readers p.name := by
      rw [← h p.name, pinsOf_name hs hmem]
      exact (pinnedKey_iff.1 hpkey).2
    rcases held_of_readers hpos with ⟨y, hy, hname⟩
    have hykey : y.key = x.key := by
      have hheld := hinv.held y hy
      rw [hname, hs.named p hmem] at hheld
      exact (Option.some.inj hheld).symm.trans (pinnedKey_iff.1 hpkey).1
    have hle' := hnewest y hy hykey
    omega

theorem matched_step_iff (limits : Limits) (s : State) (a : Action) (hinv : Inv limits s)
    (h : Matched s) : Matched (step limits s a) ↔ ReleasesNewest s a := by
  have hkeep : ∀ c', SamePins c' s.cache → Matched { s with cache := c' } :=
    fun c' hc n => (hc n).trans (h n)
  cases a with
  | set key data ttl generation now oom =>
    exact iff_of_true (hkeep _ (samePins_set s.cache key data ttl generation oom)) trivial
  | lookup key now stale =>
    refine iff_of_true (fun n => ?_) trivial
    have hlookup := pinsOf_lookup limits s.cache key now stale n
    unfold step State.readers
    dsimp only
    rw [hlookup, List.countP_append, h n]
    cases (s.cache.lookup limits key now stale).1 with
    | none => rfl
    | some hit => rfl
  | release i now =>
    cases hi : s.held[i]? with
    | none =>
      have hstep : step limits s (.release i now) = s := by
        simp only [step, hi]
      rw [hstep]
      exact iff_of_true h fun x hx => nomatch hi.symm.trans hx
    | some x =>
      have hstep : step limits s (.release i now) =
          ⟨s.cache.release limits x.key now, s.held.eraseIdx i⟩ := by
        simp only [step, hi]
      rw [hstep, matched_release_iff hinv h hi]
      constructor
      · intro hle y hy
        cases hi.symm.trans hy
        exact hle
      · exact fun hle => hle x hi
  | delete key => exact iff_of_true (hkeep _ (samePins_delete s.cache key)) trivial
  | clear => exact iff_of_true (hkeep _ (samePins_clear s.cache)) trivial
  | clearPrefixes prefixes =>
    exact iff_of_true (hkeep _ (samePins_clearPrefixes s.cache prefixes)) trivial

/-! ## Every run -/

/-- The pins of every entry are its readers, in every state of a run, exactly when each
reader that is done held the newest entry of its key that was still read. -/
theorem pins_match_iff (limits : Limits) (as : List Action) :
    AllSteps (step limits) ReleasesNewest start as ↔
      ∀ s, Reaches (step limits) start as s → PinsMatch s := by
  have hstart : Matched start := by
    intro n
    have hzero : slotTotal (total (pinsFor n)) (fun _ : Fin 1024 => []) = 0 := slotTotal_const rfl
    exact (congrArg (· + 0) hzero)
  have hiff : AllSteps (step limits) ReleasesNewest start as ↔
      ∀ s, Reaches (step limits) start as s → Matched s :=
    allSteps_iff_forall_reaches (fun s a hinv => inv_step limits s a hinv)
      (fun s a hinv h => matched_step_iff limits s a hinv h) (inv_start limits) hstart as
  have hshape : ∀ s, Reaches (step limits) start as s → Shape s.cache := by
    rintro s ⟨pre, post, -, rfl⟩
    exact (run_invariant _ (inv_step limits) (inv_start limits) pre).cache.shape
  rw [hiff]
  exact forall_congr' fun s => forall_congr' fun hs => matched_iff (hshape s hs)

def replacedWhileRead : List Action :=
  [.set (bytes "home:") (bytes "old") 60 0 1000 false, .lookup (bytes "home:") 1000 false,
    .set (bytes "home:") (bytes "new") 60 0 1000 false, .lookup (bytes "home:") 1000 false,
    .release 0 1000]

/-- The release of the first reader takes the pin of the second: its entry can be freed
while it is read. -/
theorem release_unpins_newer :
    ¬ PinsMatch (run (step sampleLimits) start replacedWhileRead) := by
  rintro ⟨hpins, -⟩
  have hold : ⟨0, bytes "home:", bytes "old", 0, 1⟩ ∈
      (run (step sampleLimits) start replacedWhileRead).cache.retired := by decide +kernel
  have hmatch := hpins _ (.inr hold)
  revert hmatch
  decide +kernel

end FlyBoard.CacheReaders

import FlyBoard.Auth.Session
import FlyBoard.Engine.BdrVersions
import FlyBoard.Utils.CacheKeys
import FlyBoard.Utils.PinnedCache

/-!
# Addresses of a post and the caches (`src/db/post.c`, `src/utils/cache.c`)

`db_post_get_by_slug` finds a post by its slug, its id and texts that begin with the id. The
page cache keeps a page under the text of its address, and an invalidation clears the pages
whose key begins with the slug. Stored replies carry a version of the bucket that the path's
text hashes to, and the invalidation counts up the bucket of the slug.
-/

namespace FlyBoard.PostAddresses

open Bytes Run PageCache BdrVersions CacheKeys

/-! ## Addresses -/

/-- The columns of `posts` that a lookup compares. -/
structure PostRow where
  id : ℤ
  slug : Bytes
deriving DecidableEq

/-- `extract_post_id_from_slug` -/
def extractPostIdFromSlug (slug : Bytes) : ℤ :=
  if slug.isEmpty then 0
  else if startsWith slug (bytes "post-") && isDigit (slug.getD 5 0) then atoi (slug.drop 5)
  else if startsWith slug (bytes "post") && isDigit (slug.getD 4 0) then atoi (slug.drop 4)
  else if isDigit (slug.getD 0 0) then atoi slug
  else 0

/-- `db_post_get_by_slug`, on the rows in the order in which the query meets them. -/
def dbPostGetBySlug (posts : List PostRow) (slug : Bytes) : Option PostRow :=
  if slug.isEmpty then none
  else posts.find? fun p => p.slug == slug || p.id == extractPostIdFromSlug slug

/-- The decoding loop of `post_bdr_hit`. -/
def percentDecode : Bytes → Bytes
  | c :: h :: l :: rest =>
    if c == 37 then
      match Auth.hexVal h, Auth.hexVal l with
      | some x, some y => (x <<< 4 ||| y) :: percentDecode rest
      | _, _ => c :: percentDecode (h :: l :: rest)
    else c :: percentDecode (h :: l :: rest)
  | c :: rest => c :: percentDecode rest
  | [] => []

/-- What `post_bdr_hit` reads in `char decoded[512]`. -/
def decoded (x : Bytes) : Bytes := cstr (snprintfS 512 (percentDecode x))

/-- The path `/post/x` leads to the post: `x`, or what it decodes to, is looked up as
`slug`. -/
structure Address (posts : List PostRow) (x slug : Bytes) (p : PostRow) : Prop where
  nonempty : x ≠ []
  path : 47 ∉ x ∧ 63 ∉ x
  text : slug = x ∨ slug = decoded x
  found : dbPostGetBySlug posts slug = some p

/-! ## The invalidation -/

/-- The prefixes that `page_cache_invalidate_post` clears. -/
def invalidatedPrefixes : Option Bytes → List Bytes
  | some slug =>
    [snprintfS 256 (bytes "post:" ++ slug ++ bytes ":"), bytes "home:", bytes "board:",
      bytes "boards:"]
  | none => [bytes "home:", bytes "board:", bytes "boards:"]

/-- What `page_cache_invalidate_post` does to the page cache. -/
def invalidatePost (slug : Option Bytes) : PinnedCache.Op :=
  .clearPrefixes (invalidatedPrefixes slug)

/-- What it does to the versions of stored replies. -/
def bumpPost (slug : Option Bytes) : Bump := .post slug

/-- From the invalidation of `s` on, the page cache hands out no page of address text `slug`
that was stored before it, to no viewer. -/
def PagesCleared (s slug : Bytes) : Prop :=
  ∀ limits ops later (call : PostCall) (now : ℤ) stale, call.slug = slug → 0 ≤ now →
    ∀ hit ∈ ((run (PinnedCache.apply limits)
        (PinnedCache.apply limits (run (PinnedCache.apply limits) PinnedCache.empty ops)
          (invalidatePost (some s))) later).lookup limits (postKey call) now stale).1,
      (run (PinnedCache.apply limits) PinnedCache.empty ops).keys.length ≤ hit.name

/-- The key of a reply to the path `/post/x`. -/
def replyKey (x rest : Bytes) : Bytes := bytes "fb|/post/" ++ x ++ bytes "?" ++ rest

/-- `engine_bdr_serve` serves no reply to the path `/post/x` from the time on at which the
invalidation of `s` has ended, if the reply's token was read before it began. -/
def RepliesCleared (s x : Bytes) : Prop :=
  ∀ rest es, AllSteps step (fun s _ => Below32 s) start es →
    ∀ began loads, .served (replyKey x rest) began loads ∈ (run step start es).threads →
      ∀ bumpBegan counted ended,
        .bumped (bumpPost (some s)) bumpBegan counted ended ∈ (run step start es).threads →
          ReadBefore loads bumpBegan → began < ended

def InvalidationReaches : Prop :=
  ∀ posts x slug p, Address posts x slug p → PagesCleared p.slug slug ∧ RepliesCleared p.slug x

/-! ## Pages -/

/-- The address text begins with the slug and a colon, up to the length of the prefix
buffer, or is the slug. -/
def SlugLeads (s slug : Bytes) : Prop := (s ++ [58]).take 250 <+: slug ++ bytes ":d="

instance (s slug : Bytes) : Decidable (SlugLeads s slug) :=
  inferInstanceAs (Decidable (_ <+: _))

def keyRest (call : PostCall) : Bytes :=
  bytes ":m=" ++ digit call.mobile ++ bytes ":r=" ++ call.session.roleText ++ bytes ":u=" ++
    decimal call.session.uid ++ bytes ":w=" ++ decimal call.writePolicy ++ bytes ":pg=" ++
    decimal call.schedule

theorem postKey_eq_take (call : PostCall) : postKey call =
    bytes "post:" ++
      (call.slug ++ bytes ":d=" ++ (digit call.dark ++ keyRest call)).take 506 := by
  rw [← List.take_length_add_append, postKey_eq, snprintfS, postText]
  simp only [keyRest, List.append_assoc]
  rfl

theorem slugPrefix_eq (s : Bytes) : snprintfS 256 (bytes "post:" ++ s ++ bytes ":") =
    bytes "post:" ++ (s ++ [58]).take 250 := by
  rw [← List.take_length_add_append, snprintfS, List.append_assoc]
  rfl

theorem hasPrefix_iff (s : Bytes) (call : PostCall) :
    PinnedCache.Cache.hasPrefix (invalidatedPrefixes (some s)) (postKey call) = true ↔
      (s ++ [58]).take 250 <+:
        call.slug ++ bytes ":d=" ++ (digit call.dark ++ keyRest call) := by
  have hother : ∀ c name, c ≠ 112 → ((c :: name).isPrefixOf (postKey call)) = false := by
    intro c name hc
    have hkey : postKey call = 112 :: (postKey call).drop 1 := by
      rw [postKey_eq_take]
      rfl
    rw [hkey, List.isPrefixOf_cons_cons, beq_eq_false_iff_ne.mpr hc, Bool.false_and]
  have hhome : (bytes "home:").isPrefixOf (postKey call) = false := hother _ _ (by decide)
  have hboard : (bytes "board:").isPrefixOf (postKey call) = false := hother _ _ (by decide)
  have hboards : (bytes "boards:").isPrefixOf (postKey call) = false := hother _ _ (by decide)
  have hlen : ((s ++ [58]).take 250).length ≤ 506 := by
    rw [List.length_take]
    omega
  rw [PinnedCache.Cache.hasPrefix, invalidatedPrefixes, List.take_of_length_le (by simp),
    List.any_cons, List.any_cons, List.any_cons, List.any_cons, List.any_nil, hhome, hboard,
    hboards, Bool.or_false, Bool.or_false, Bool.or_false, Bool.or_false,
    List.isPrefixOf_iff_prefix, slugPrefix_eq, postKey_eq_take, List.prefix_append_right_inj,
    List.prefix_take_iff, and_iff_left hlen]

/-- What leads the key of both devices ends before the digit in which they differ. -/
theorem slugLeads_iff (s slug : Bytes) :
    SlugLeads s slug ↔ ∀ call : PostCall, call.slug = slug →
      PinnedCache.Cache.hasPrefix (invalidatedPrefixes (some s)) (postKey call) = true := by
  constructor
  · rintro h call rfl
    rw [hasPrefix_iff]
    exact h.trans (List.prefix_append _ _)
  · intro h
    have hlight := (hasPrefix_iff s _).mp (h ⟨slug, false, false, guest, 1, 1⟩ rfl)
    have hdark := (hasPrefix_iff s _).mp (h ⟨slug, true, false, guest, 1, 1⟩ rfl)
    dsimp only at hlight hdark
    rcases List.prefix_or_prefix_of_prefix hlight (List.prefix_append _ _) with hshort | ⟨t, ht⟩
    · exact hshort
    · rw [← ht, List.prefix_append_right_inj] at hlight hdark
      cases t with
      | nil => exact ⟨[], by rw [← ht, List.append_nil, List.append_nil]⟩
      | cons c t =>
        have hzero := (List.cons_prefix_cons.mp hlight).1
        have hone := (List.cons_prefix_cons.mp hdark).1
        exact absurd (hzero.symm.trans hone) (by decide)

theorem run_set (key : Bytes) :
    run (PinnedCache.apply ⟨1024, 60⟩) PinnedCache.empty [.set key [60] 60 0 0 false] =
      PinnedCache.empty.push key [60] 60 := by
  simp [PinnedCache.apply, PinnedCache.Cache.set, PinnedCache.Cache.makeRoom,
    PinnedCache.Cache.supersede, PinnedCache.Cache.find, PinnedCache.empty,
    PinnedCache.Cache.evict]

theorem lookup_clearPrefixes {prefixes : List Bytes} {key : Bytes}
    (h : PinnedCache.Cache.hasPrefix prefixes key = false) :
    (((PinnedCache.empty.push key [60] 60).clearPrefixes prefixes).lookup ⟨1024, 60⟩ key 1
      false).1 = some ⟨0, [60], 59⟩ := by
  have hbucket : ((PinnedCache.empty.push key [60] 60).clearPrefixes prefixes).buckets
      (bucketOf key) = [⟨0, key, [60], 60, 0⟩] := by
    unfold PinnedCache.Cache.clearPrefixes
    split
    · simp [PinnedCache.Cache.push, PinnedCache.empty]
    · simp [PinnedCache.Cache.push, PinnedCache.empty, PinnedCache.Cache.invalidateIf, h]
  have hfind : ((PinnedCache.empty.push key [60] 60).clearPrefixes prefixes).find key =
      some ⟨0, key, [60], 60, 0⟩ := by
    rw [PinnedCache.Cache.find, hbucket]
    simp [PinnedCache.Entry.hasKey]
  simp [PinnedCache.Cache.lookup, PinnedCache.Cache.get, PinnedCache.Cache.getExpired, hfind]

/-- The pages of an address are cleared exactly when the slug leads its text. -/
theorem pagesCleared_iff (s slug : Bytes) : PagesCleared s slug ↔ SlugLeads s slug := by
  rw [slugLeads_iff]
  constructor
  · intro h call hslug
    by_contra hprefix
    have hserved := lookup_clearPrefixes (Bool.eq_false_iff.mpr hprefix)
    have hold := h ⟨1024, 60⟩ [.set (postKey call) [60] 60 0 0 false] [] call 1 false hslug
      (by decide)
    rw [run_set] at hold
    exact absurd (hold ⟨0, [60], 59⟩ hserved) (Nat.not_succ_le_zero 0)
  · intro h limits ops later call now stale hslug hnow hit hhit
    have hop : (invalidatePost (some s)).Invalidates (postKey call) := h call hslug
    exact PinnedCache.lookup_after_invalidation (PinnedCache.inv_run limits ops).shape hop later
      hnow hhit

/-! ## Stored replies -/

theorem versionCounters_replyKey {x : Bytes} (rest : Bytes) (hne : x ≠ []) (hx : 63 ∉ x) :
    versionCounters (replyKey x rest) = [.global, .post (postBucket x)] := by
  have hfb : startsWith (replyKey x rest) (bytes "fb|") = true := rfl
  have hdrop : (replyKey x rest).drop 3 = (bytes "/post/" ++ x) ++ 63 :: rest := by
    simp only [replyKey, List.append_assoc]
    rfl
  have hno : ∀ c ∈ bytes "/post/" ++ x, (c != 63) = true := by
    refine bne_of_not_mem ?_
    rw [List.mem_append]
    rintro (hslash | hmem)
    · exact absurd hslash (by decide)
    · exact hx hmem
  have hpath : pathOf (replyKey x rest) = bytes "/post/" ++ x := by
    rw [pathOf, hdrop, List.takeWhile_append_of_pos hno]
    simp
  have hlen : 6 < (bytes "/post/" ++ x).length := by
    have hpos := List.length_pos_iff.mpr hne
    rw [List.length_append]
    exact Nat.lt_add_of_pos_right hpos
  have hpost : startsWith (bytes "/post/" ++ x) (bytes "/post/") = true := rfl
  have hslug : (bytes "/post/" ++ x).drop 6 = x := rfl
  rw [versionCounters, hfb, hpath]
  simp only [Bool.not_true, Bool.false_eq_true, if_false, hpost, decide_eq_true hlen,
    Bool.and_true, if_true, hslug]

theorem covers_replyKey_iff {s x : Bytes} (rest : Bytes) (hne : x ≠ []) (hx : 63 ∉ x) :
    (bumpPost (some s)).Covers (replyKey x rest) ↔ s = [] ∨ postBucket s = postBucket x := by
  rw [Bump.Covers, versionCounters_replyKey rest hne hx]
  cases s with
  | nil => simp [bumpPost, Bump.counters]
  | cons c s => simp [bumpPost, Bump.counters]

def storeBumpServe (s x rest : Bytes) : List Event :=
  [.request 0 (replyKey x rest), .exec 0 true, .exec 0 true, .exec 0 true,
   .bump (bumpPost (some s)), .exec 1 true, .exec 1 true, .exec 1 true,
   .serve 0 (replyKey x rest), .exec 2 true, .exec 2 true, .exec 2 true]

theorem counters_bumpPost {s : Bytes} (hs : s ≠ []) :
    (bumpPost (some s)).counters = [.listings, .post (postBucket s)] := by
  cases s with
  | nil => exact absurd rfl hs
  | cons c s => rfl

theorem threads_storeBumpServe {s x : Bytes} (rest : Bytes) (hs : s ≠ []) (hne : x ≠ [])
    (hx : 63 ∉ x) (hb : postBucket s ≠ postBucket x) :
    (run step start (storeBumpServe s x rest)).threads =
      [.done, .bumped (bumpPost (some s)) 4 [(.listings, 5), (.post (postBucket s), 6)] 7,
       .served (replyKey x rest) 8 [⟨.global, 1, 1⟩, ⟨.post (postBucket x), 2, 1⟩]] := by
  simp [storeBumpServe, step, spawn, start, Thread.exec, versionCounters_replyKey rest hne hx,
    counters_bumpPost hs, Stamps.Counters.tick, Stamps.Counters.load, Stamps.Counters.count,
    atomicLoad, hb.symm]

/-- The replies of a path are outdated exactly when its text and the slug hash to one
bucket. -/
theorem repliesCleared_iff (s : Bytes) {x : Bytes} (hne : x ≠ []) (hx : 63 ∉ x) :
    RepliesCleared s x ↔ s = [] ∨ postBucket s = postBucket x := by
  constructor
  · intro h
    by_contra hother
    rw [not_or] at hother
    have hthreads := threads_storeBumpServe [] hother.1 hne hx hother.2
    have hbelow : AllSteps step (fun s _ => Below32 s) start (storeBumpServe s x []) :=
      allSteps_below32 fun _ => Nat.le_of_ble_eq_true rfl
    have hlate := h [] (storeBumpServe s x []) hbelow
    rw [hthreads] at hlate
    have hserved := hlate 8 _ (List.mem_cons_of_mem _ (List.mem_cons_of_mem _ List.mem_cons_self))
      4 _ 7 (List.mem_cons_of_mem _ List.mem_cons_self)
    have hread : ReadBefore [⟨.global, 1, 1⟩, ⟨.post (postBucket x), 2, 1⟩] 4 := by
      intro l hl
      rcases List.mem_pair.mp hl with rfl | rfl
      · show 1 < 4
        decide
      · show 2 < 4
        decide
    exact absurd (hserved hread) (by decide)
  · intro h rest es h32 began loads hserved bumpBegan counted ended hbumped hread
    have hstep : ∀ s e, BdrVersions.Inv s → Below32 s → BdrVersions.Inv (step s e) :=
      fun _ e hs hbelow => hs.step hbelow e
    have hinv := h32.invariant hstep inv_start
    have hrespects := hinv.respectsBumps _ _ _ hserved _ _ _ _ hbumped
    exact hrespects.1 (hrespects.2 ((covers_replyKey_iff rest hne hx).mpr h) hread)

/-! ## Addresses that are reached -/

/-- After the invalidation of a post's slug, its page at an address is served from neither
cache exactly when the slug leads the text that is looked up, and the path's text hashes to
the slug's bucket. -/
theorem invalidation_reaches_iff {posts : List PostRow} {x slug : Bytes} {p : PostRow}
    (h : Address posts x slug p) :
    PagesCleared p.slug slug ∧ RepliesCleared p.slug x ↔
      SlugLeads p.slug slug ∧ (p.slug = [] ∨ postBucket p.slug = postBucket x) := by
  rw [pagesCleared_iff, repliesCleared_iff p.slug h.nonempty h.path.2]

def hello : PostRow := ⟨7, bytes "hello"⟩

theorem address_hello : Address [hello] (bytes "hello") (bytes "hello") hello where
  nonempty := by decide
  path := by decide
  text := .inl rfl
  found := by decide

/-- The address that is the slug is reached. -/
theorem hello_reached :
    PagesCleared (bytes "hello") (bytes "hello") ∧ RepliesCleared (bytes "hello") (bytes "hello") :=
  (invalidation_reaches_iff address_hello).mpr ⟨by decide, .inr rfl⟩

/-- A post's page is still served at the address `/post/7` after its slug was
invalidated. -/
theorem id_address_not_reached : ¬ InvalidationReaches := by
  intro h
  have haddress : Address [hello] (bytes "7") (bytes "7") hello :=
    ⟨by decide, by decide, .inl rfl, by decide +kernel⟩
  have hleads := (pagesCleared_iff _ _).mp (h _ _ _ _ haddress).1
  exact absurd hleads (by decide)

end FlyBoard.PostAddresses

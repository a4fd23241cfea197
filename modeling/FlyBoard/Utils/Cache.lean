import FlyBoard.Lib.Bytes
import Mathlib.Data.List.FinRange
import Mathlib.Logic.Function.Basic

/-!
# The page cache (`src/utils/cache.c`)

Rendered pages by key, in buckets by the hash of the key, with a budget of
bytes. A lookup and the release that follows it in the same handler are one
operation here, so that no entry is pinned between two operations.
-/

namespace FlyBoard.PageCache

open Bytes

structure Entry where
  key : Bytes
  data : Bytes
  /-- Seconds since the epoch; 0 marks an entry that only waits to be freed. -/
  expiresAt : ℕ
deriving DecidableEq

/-- `FLYBOARD_CACHE_MAX_MB` and `FLY_PAGE_SWR_SECONDS`. -/
structure Limits where
  maxBytes : ℕ
  swrSeconds : ℕ

structure Cache where
  buckets : Fin 1024 → List Entry
  totalBytes : ℕ
  generation : ℕ

/-- `hash_str` -/
def hashStr (s : Bytes) : UInt32 :=
  s.foldl (fun h c => (h <<< 5) + h + c.toUInt32) 5381

def bucketOf (key : Bytes) : Fin 1024 := ⟨(hashStr key).toNat % 1024, Nat.mod_lt _ (by decide)⟩

def empty : Cache := ⟨fun _ => [], 0, 1⟩

namespace Cache

def find (c : Cache) (key : Bytes) : Option Entry :=
  (c.buckets (bucketOf key)).find? fun e => e.key == key

def drop (c : Cache) (key : Bytes) : Cache :=
  match c.find key with
  | none => c
  | some e =>
    { c with
      buckets := Function.update c.buckets (bucketOf key)
        ((c.buckets (bucketOf key)).eraseP fun e => e.key == key),
      totalBytes := c.totalBytes - e.data.length }

def evictOne (c : Cache) : Option Cache := do
  let i ← (List.finRange 1024).find? fun i => !(c.buckets i).isEmpty
  let e ← (c.buckets i).getLast?
  return { c with
    buckets := Function.update c.buckets i (c.buckets i).dropLast,
    totalBytes := c.totalBytes - e.data.length }

/-- Frees entries until there is room for `len` more bytes. -/
def evict (limits : Limits) (len : ℕ) : ℕ → Cache → Cache
  | 0, c => c
  | fuel + 1, c =>
    if limits.maxBytes < c.totalBytes + len ∧ 0 < c.totalBytes then
      match c.evictOne with
      | some c' => evict limits len fuel c'
      | none => c
    else c

def size (c : Cache) : ℕ := ((List.finRange 1024).map fun i => (c.buckets i).length).sum

/-- `page_cache_set_internal`; an expected generation of 0 stands for any. -/
def set (limits : Limits) (c : Cache) (key data : Bytes) (ttlSec expectedGeneration now : ℕ) :
    Cache :=
  if data.isEmpty || ttlSec == 0 then c
  else if limits.maxBytes / 4 < data.length then c
  else if expectedGeneration != 0 && expectedGeneration != c.generation then c
  else
    let c := c.drop key
    let c := evict limits data.length c.size c
    if limits.maxBytes < c.totalBytes + data.length then c
    else
      { c with
        buckets := Function.update c.buckets (bucketOf key)
          (⟨key, data, now + ttlSec⟩ :: c.buckets (bucketOf key)),
        totalBytes := c.totalBytes + data.length }

/-- Whether an expired entry is past the time in which it may be served stale. -/
def past (limits : Limits) (e : Entry) (now : ℕ) : Bool :=
  e.expiresAt ≤ now && limits.swrSeconds ≤ now - e.expiresAt

/-- `page_cache_get_expired`, with the `page_cache_release` of a hit. -/
def getExpired (limits : Limits) (c : Cache) (key : Bytes) (now : ℕ) (stale : Bool) :
    Option Bytes × Cache :=
  match c.find key with
  | none => (none, c)
  | some e =>
    if stale && e.expiresAt == 0 then (none, c)
    else if (e.expiresAt ≤ now : Bool) != stale then
      (none, if past limits e now then c.drop key else c)
    else (some e.data, if e.expiresAt == 0 || past limits e now then c.drop key else c)

/-- `page_cache_get` -/
def get (limits : Limits) (c : Cache) (key : Bytes) (now : ℕ) : Option Bytes × Cache :=
  c.getExpired limits key now false

/-- `page_cache_get_stale` -/
def getStale (limits : Limits) (c : Cache) (key : Bytes) (now : ℕ) : Option Bytes × Cache :=
  if limits.swrSeconds = 0 then (none, c) else c.getExpired limits key now true

end Cache

/-- `page_cache_key_post`, in a buffer of 512 bytes. -/
def keyPost (slug : Bytes) (dark mobile : Bool) (role : Bytes) (uid writePolicy schedule : ℕ) :
    Bytes :=
  let digit (b : Bool) := if b then bytes "1" else bytes "0"
  snprintfS 512 (bytes "post:" ++ slug ++ bytes ":d=" ++ digit dark ++ bytes ":m=" ++
    digit mobile ++ bytes ":r=" ++ (if role.isEmpty then bytes "guest" else role) ++
    bytes ":u=" ++ decimal uid ++ bytes ":w=" ++ decimal writePolicy ++ bytes ":pg=" ++
    decimal schedule)

end FlyBoard.PageCache

import FlyBoard.Lib.Bytes

/-!
# Request coalescing (`src/utils/reqshare.c`)

The first request for a key leads and renders, the others wait for its result.
An entry that was unlinked while requests wait for it is gone from the list;
each of them then leads, so that a key can have several entries, the newest
first. Entries have names here in place of their addresses.
-/

namespace FlyBoard.Reqshare

/-- Seconds that a finished entry stays for late requests. -/
def resultTtlSec : ℕ := 2

def leaderTtlSec : ℕ := 5

structure Entry where
  name : ℕ
  key : Bytes
  done : Bool
  /-- Empty when the leader finished with NULL. -/
  result : Bytes
  expiresAt : ℕ
deriving DecidableEq

structure Table where
  entries : List Entry
  nextName : ℕ

namespace Table

def update (t : Table) (name : ℕ) (f : Entry → Entry) : Table :=
  { t with entries := t.entries.map fun e => if e.name = name then f e else e }

/-- `unlink_entry` -/
def unlink (t : Table) (name : ℕ) : Table :=
  { t with entries := t.entries.filter fun e => e.name ≠ name }

/-- A new entry in progress, in front of all others. -/
def lead (t : Table) (key : Bytes) (now : ℕ) : Table where
  entries := ⟨t.nextName, key, false, [], now + leaderTtlSec⟩ :: t.entries
  nextName := t.nextName + 1

def find (t : Table) (key : Bytes) : Option Entry := t.entries.find? fun e => e.key == key

end Table

/-- How a request stands after it has asked for a key. -/
inductive Turn where
  | leads
  | shared (result : Bytes)
  | waits (name : ℕ)
deriving DecidableEq

/-- `reqshare_wait_or_start`, up to the first sleep. -/
def waitOrStart (t : Table) (key : Bytes) (now : ℕ) : Turn × Table :=
  match t.find key with
  | none => (.leads, t.lead key now)
  | some e =>
    if e.done then
      if now < e.expiresAt then (.shared e.result, t)
      else (.leads, (t.unlink e.name).lead key now)
    else (.waits e.name, t)

def wake (t : Table) (key : Bytes) (name now : ℕ) : Turn × Table :=
  match t.entries.find? fun e => e.name = name with
  | none => (.leads, t.lead key now)
  | some e =>
    if e.done then
      if now < e.expiresAt then (.shared e.result, t)
      else (.leads, (t.unlink name).lead key now)
    else if e.expiresAt < now then (.leads, (t.unlink name).lead key now)
    else (.waits name, t)

/-- `reqshare_try_start` -/
def tryStart (t : Table) (key : Bytes) (now : ℕ) : Bool × Table :=
  match t.find key with
  | none => (true, t.lead key now)
  | some e =>
    if now < e.expiresAt then (false, t)
    else (true, (t.unlink e.name).lead key now)

/-- `reqshare_finish` -/
def finish (t : Table) (key : Bytes) (html : Option Bytes) (now : ℕ) : Table :=
  match t.find key with
  | none => t
  | some e =>
    if e.done then t
    else t.update e.name fun e =>
      { e with done := true, result := html.getD [], expiresAt := now + resultTtlSec }

end FlyBoard.Reqshare

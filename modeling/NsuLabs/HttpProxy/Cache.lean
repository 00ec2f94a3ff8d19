/-
Module: NsuLabs.HttpProxy.Cache
Purpose: The response cache of the HTTP proxy (OS-Labs/11-http-proxy/cache.c) with every function taken as
  atomic; an entry is its address. Then the calls with the two ways to go wrong told apart: a pointer to a
  freed entry, and a read through a missing key; `cache_add_entry` there makes its entry before it looks for
  the key. Last the functions line by line with their locks, which are not recursive, over the locks that the
  call chain holds.
Trusted boundary: Allocations succeed; `none` is undefined behaviour (a dangling pointer
  or a null key); other threads release the locks that they hold. The length of an append is a number, but
  `buffer_ensure` takes an `int`: an append of 2^31 bytes or more is not covered
Main exports: Cache, Usage.perform
-/
import NsuLabs.Lib.Runs

namespace NsuLabs.HttpProxy

abbrev Bytes := List UInt8

/-- The address of an entry. -/
abbrev EntryId := Nat

/-- What the host has sent for a request so far. -/
structure CacheEntry where
  data : Bytes
  key : Bytes
  isFinished : Bool
  refCount : Nat
deriving DecidableEq

/-- Entries in a map and in an LRU list. -/
structure Cache where
  /-- The entries that have not been freed. -/
  heap : EntryId → Option CacheEntry
  /-- The address that the next allocation returns. -/
  next : EntryId
  map : List (Bytes × EntryId)
  /-- The LRU list from its front to its back. -/
  lru : List EntryId
  totalSize : UInt64
  totalSizeMax : UInt64

def cacheEntrySize (entry : CacheEntry) : Nat := entry.data.length + entry.key.length

def cacheCreate (maxSizeBytes : UInt64) : Cache where
  heap := fun _ => none
  next := 0
  map := []
  lru := []
  totalSize := 0
  totalSizeMax := maxSizeBytes

/-- `hashmap_find`. -/
def Cache.find (c : Cache) (key : Bytes) : Option EntryId :=
  (c.map.find? fun slot => slot.1 = key).map Prod.snd

def Cache.setEntry (c : Cache) (id : EntryId) (entry : Option CacheEntry) : Cache :=
  { c with heap := Function.update c.heap id entry }

/-- `ref_count--`, with `cache_entry_destroy` when no reference is left. -/
def Cache.dropRef (c : Cache) (id : EntryId) (entry : CacheEntry) : Cache :=
  if entry.refCount - 1 = 0 then c.setEntry id none
  else c.setEntry id (some { entry with refCount := entry.refCount - 1 })

/-- The new entry and its address. For a key that is in the map the function destroys the entry that
    it has just made, and `cache_entry_destroy` reads through the key of that entry, which is a null
    pointer. -/
def cacheAddEntry (c : Cache) (key : Bytes) : Option (EntryId × Cache) :=
  match c.find key with
  | some _ => none
  | none =>
    let c' := { c with next := c.next + 1, map := c.map ++ [(key, c.next)], lru := c.next :: c.lru }
    some (c.next, c'.setEntry c.next (some { data := [], key := key, isFinished := false, refCount := 2 }))

/-- `true` stands for `OK` and `false` for `ENOENT`. -/
def cacheRemoveEntry (c : Cache) (key : Bytes) : Option (Bool × Cache) :=
  match c.find key with
  | none => some (false, c)
  | some id =>
    match c.heap id with
    | none => none
    | some entry =>
      let c := { c with
        map := c.map.eraseP fun slot => slot.1 = key
        lru := c.lru.erase id
        totalSize := c.totalSize - UInt64.ofNat (cacheEntrySize entry) }
      some (true, c.dropRef id entry)

def cacheGetEntry (c : Cache) (key : Bytes) : Option (Option EntryId × Cache) :=
  match c.find key with
  | none => some (none, c)
  | some id =>
    match c.heap id with
    | none => none
    | some entry =>
      let c := { c with lru := id :: c.lru.erase id }
      some (some id, c.setEntry id (some { entry with refCount := entry.refCount + 1 }))

def cacheEntryPut (c : Cache) (id : EntryId) : Option Cache :=
  (c.heap id).map fun entry => c.dropRef id entry

/-- The loop of `cache_free_memory`; `true` stands for `OK`. Each round takes an entry out of the
    LRU list. -/
def cacheFreeMemory (size : UInt64) : (fuel : Nat) → (freed : UInt64) → Cache → Option (Bool × Cache)
  | 0, _, _ => none
  | fuel + 1, freed, c =>
    if freed < size then
      match c.lru.getLast? with
      | none => some (false, c)
      | some id =>
        match c.heap id with
        | none => none
        | some entry =>
          match cacheRemoveEntry c entry.key with
          | none => none
          | some (_, c) => cacheFreeMemory size fuel (freed + UInt64.ofNat (cacheEntrySize entry)) c
    else some (true, c)

/-- The bytes that `size` more bytes need and that are not there. -/
def Cache.neededMemory (c : Cache) (size : UInt64) : Option UInt64 :=
  if c.totalSize + size > c.totalSizeMax then some (c.totalSize + size - c.totalSizeMax) else none

/-- Room for `size` bytes is made at the expense of an entry. -/
def MustEvict (c : Cache) (size : UInt64) : Prop := c.neededMemory size ≠ none ∧ c.lru ≠ []

instance (c : Cache) (size : UInt64) : Decidable (MustEvict c size) :=
  inferInstanceAs (Decidable (c.neededMemory size ≠ none ∧ c.lru ≠ []))

def cacheEnsureMemory (c : Cache) (size : UInt64) : Option (Bool × Cache) :=
  match c.neededMemory size with
  | some neededMemory => cacheFreeMemory neededMemory (c.lru.length + 1) 0 c
  | none => some (true, c)

/-- A failure of `cache_ensure_memory` is only logged. -/
def cacheEntryAppendData (c : Cache) (id : EntryId) (bytes : Bytes) : Option Cache :=
  match cacheEnsureMemory c (UInt64.ofNat bytes.length) with
  | none => none
  | some (_, c) =>
    match c.heap id with
    | none => none
    | some entry =>
      let c := { c with totalSize := c.totalSize + UInt64.ofNat bytes.length }
      some (c.setEntry id (some { entry with data := entry.data ++ bytes }))

def cacheEntryFinished (c : Cache) (id : EntryId) : Option Cache :=
  (c.heap id).map fun entry => c.dropRef id { entry with isFinished := true }

/-! ### Use of the cache

A caller of `cache_entry_put` gives back a reference that `cache_get_entry` has handed out, and a caller of
`cache_entry_append_data` and `cache_entry_finished` is the appending side that `cache_add_entry` has made
the entry for. -/

/-- The cache and who still uses its entries. -/
structure Usage where
  cache : Cache
  /-- The entries whose appending side has not finished. -/
  appending : List EntryId
  /-- The references of the readers. -/
  readers : List EntryId

/-- The calls of the interface of the cache. -/
inductive CacheCall where
  | add (key : Bytes)
  | get (key : Bytes)
  | append (id : EntryId) (bytes : Bytes)
  | finished (id : EntryId)
  | put (id : EntryId)
  | remove (key : Bytes)
deriving DecidableEq

def Usage.initial (maxSizeBytes : UInt64) : Usage where
  cache := cacheCreate maxSizeBytes
  appending := []
  readers := []

def Usage.step (u : Usage) : CacheCall → Option Usage
  | .add key => (cacheAddEntry u.cache key).map fun r =>
    { u with cache := r.2, appending := r.1 :: u.appending }
  | .get key => (cacheGetEntry u.cache key).map fun r =>
    { u with cache := r.2, readers := r.1.toList ++ u.readers }
  | .append id bytes =>
    -- the length is a size_t
    if id ∈ u.appending ∧ bytes.length < 2 ^ 64 then
      (cacheEntryAppendData u.cache id bytes).map fun c => { u with cache := c }
    else none
  | .finished id =>
    if id ∈ u.appending then
      (cacheEntryFinished u.cache id).map fun c => { u with cache := c, appending := u.appending.erase id }
    else none
  | .put id =>
    if id ∈ u.readers then
      (cacheEntryPut u.cache id).map fun c => { u with cache := c, readers := u.readers.erase id }
    else none
  | .remove key => (cacheRemoveEntry u.cache key).map fun r => { u with cache := r.2 }

/-- Undefined behaviour of a call. -/
inductive CacheFault where
  | dangling
  | nullKey
deriving DecidableEq

/-- `cache_entry_destroy`, for an entry with this key: `buffer_free` reads the buffer that the key
    points to. -/
def cacheEntryDestroy (key : Option Bytes) : Except CacheFault Unit :=
  match key with
  | some _ => .ok ()
  | none => .error .nullKey

/-- The entry that is returned, and whether it was there before (`EEXIST`). -/
def References.cacheAddEntry (c : Cache) (key : Bytes) : Except CacheFault (EntryId × Bool × Cache) :=
  match c.find key with
  | some id =>
    match c.heap id with
    | none => .error .dangling
    | some oldEntry => do
        let c := c.setEntry id (some { oldEntry with refCount := oldEntry.refCount + 1 })
        -- the key of the entry that `cache_entry_create` has made is not set yet
        cacheEntryDestroy none
        return (id, true, c)
  | none =>
    let c' := { c with next := c.next + 1, map := c.map ++ [(key, c.next)], lru := c.next :: c.lru }
    .ok (c.next, false,
      c'.setEntry c.next (some { data := [], key := key, isFinished := false, refCount := 2 }))

/-- Who may make the call: the appending side of an entry, once it has been handed out by
    `cache_add_entry` and until it has finished, and a reader, for each reference that it has been
    handed out. -/
def Permitted (u : Usage) : CacheCall → Prop
  | .append id bytes => id ∈ u.appending ∧ bytes.length < 2 ^ 64
  | .finished id => id ∈ u.appending
  | .put id => id ∈ u.readers
  | .add _ | .get _ | .remove _ => True

instance (u : Usage) : (call : CacheCall) → Decidable (Permitted u call)
  | .append id bytes => inferInstanceAs (Decidable (id ∈ u.appending ∧ bytes.length < 2 ^ 64))
  | .finished id => inferInstanceAs (Decidable (id ∈ u.appending))
  | .put id => inferInstanceAs (Decidable (id ∈ u.readers))
  | .add _ | .get _ | .remove _ => isTrue trivial

/-- A permitted call. Whoever adds a key that is in the map becomes a reader of its entry. -/
def Usage.perform (u : Usage) (call : CacheCall) : Except CacheFault Usage :=
  match call with
  | .add key => do
      let (id, existed, c) ← References.cacheAddEntry u.cache key
      if existed then return { u with cache := c, readers := id :: u.readers }
      else return { u with cache := c, appending := id :: u.appending }
  | call =>
    match u.step call with
    | some u => .ok u
    | none => .error .dangling

/-! ### Locks -/

/-- The lock of the cache, and one for each entry. -/
inductive Lock where
  | cache
  | entry (id : EntryId)
deriving DecidableEq

/-- How a call chain goes wrong. -/
inductive Fault where
  /-- The chain acquires a lock that it holds. -/
  | relock (lock : Lock)
  /-- Undefined behaviour: a dangling pointer or a null key. -/
  | undefined
deriving DecidableEq

/-- The cache and the locks that the call chain holds. -/
structure Locked where
  cache : Cache
  held : List Lock

namespace Locking

def acquire (lock : Lock) (s : Locked) : Except Fault Locked :=
  if lock ∈ s.held then .error (.relock lock) else .ok { s with held := lock :: s.held }

def release (lock : Lock) (s : Locked) : Locked := { s with held := s.held.erase lock }

def entryAt (id : EntryId) (s : Locked) : Except Fault CacheEntry :=
  match s.cache.heap id with
  | some entry => .ok entry
  | none => .error .undefined

/-! ### cache.c -/

def cacheRemoveEntry (key : Bytes) (s : Locked) : Except Fault (Bool × Locked) := do
  let s ← acquire .cache s
  match s.cache.find key with
  | none => return (false, release .cache s)
  | some id =>
    let entry ← entryAt id s
    let c := { s.cache with
      map := s.cache.map.eraseP fun slot => slot.1 = key
      lru := s.cache.lru.erase id
      totalSize := s.cache.totalSize - UInt64.ofNat (cacheEntrySize entry) }
    let s ← acquire (.entry id) { s with cache := c }
    -- both locks are released whether or not the entry is destroyed
    let s := { s with cache := s.cache.dropRef id entry }
    return (true, release .cache (release (.entry id) s))

/-- Called with the lock of the cache held. -/
def cacheFreeMemory (size : UInt64) : (fuel : Nat) → (freed : UInt64) → Locked → Except Fault (Bool × Locked)
  | 0, _, _ => .error .undefined
  | fuel + 1, freed, s =>
    if freed < size then
      match s.cache.lru.getLast? with
      | none => return (false, s)
      | some id => do
          let entry ← entryAt id s
          let (_, s) ← cacheRemoveEntry entry.key s
          cacheFreeMemory size fuel (freed + UInt64.ofNat (cacheEntrySize entry)) s
    else return (true, s)

def cacheEnsureMemory (size : UInt64) (s : Locked) : Except Fault (Bool × Locked) := do
  let s ← acquire .cache s
  match s.cache.neededMemory size with
  | some neededMemory =>
    let (ok, s) ← cacheFreeMemory neededMemory (s.cache.lru.length + 1) 0 s
    return (ok, release .cache s)
  | none => return (true, release .cache s)

def cacheAddEntry (key : Bytes) (s : Locked) : Except Fault (EntryId × Locked) := do
  let s ← acquire .cache s
  match HttpProxy.cacheAddEntry s.cache key with
  | some (id, c) => return (id, release .cache { s with cache := c })
  | none => .error .undefined

def cacheGetEntry (key : Bytes) (s : Locked) : Except Fault (Option EntryId × Locked) := do
  let s ← acquire .cache s
  match s.cache.find key with
  | none => return (none, release .cache s)
  | some id =>
    let entry ← entryAt id s
    let s ← acquire (.entry id) s
    let c := { s.cache with lru := id :: s.cache.lru.erase id }
    let s := { s with cache := c.setEntry id (some { entry with refCount := entry.refCount + 1 }) }
    return (some id, release .cache (release (.entry id) s))

def cacheEntryPut (id : EntryId) (s : Locked) : Except Fault Locked := do
  let entry ← entryAt id s
  let s ← acquire (.entry id) s
  return release (.entry id) { s with cache := s.cache.dropRef id entry }

def cacheEntryAppendData (id : EntryId) (bytes : Bytes) (s : Locked) : Except Fault Locked := do
  let (_, s) ← cacheEnsureMemory (UInt64.ofNat bytes.length) s
  let entry ← entryAt id s
  let s ← acquire (.entry id) s
  let c := { s.cache with totalSize := s.cache.totalSize + UInt64.ofNat bytes.length }
  return release (.entry id)
    { s with cache := c.setEntry id (some { entry with data := entry.data ++ bytes }) }

def cacheEntryFinished (id : EntryId) (s : Locked) : Except Fault Locked := do
  let entry ← entryAt id s
  let s ← acquire (.entry id) s
  return release (.entry id) { s with cache := s.cache.dropRef id { entry with isFinished := true } }

def cacheEntryReadBegin (id : EntryId) (s : Locked) : Except Fault Locked := acquire (.entry id) s

def cacheEntryReadEnd (id : EntryId) (s : Locked) : Locked := release (.entry id) s

/-- Whether more data may come, and the size of the data. `woken` is the cache when
    `client_cond_wait` returns. -/
def cacheEntryWait (id : EntryId) (woken : Cache) (s : Locked) : Except Fault (Bool × Nat × Locked) := do
  let s ← acquire (.entry id) s
  let entry ← entryAt id s
  if entry.isFinished then return (false, entry.data.length, release (.entry id) s)
  else
    let s ← acquire (.entry id) { release (.entry id) s with cache := woken }
    let entry ← entryAt id s
    return (true, entry.data.length, release (.entry id) s)

/-! ### proxy_send_response_from_cache -/

/-- How `proxy_send_all` ends: with everything sent, with 0 (socket closed) or with -1. -/
inductive SendResult where
  | all
  | closed
  | failed
deriving DecidableEq

/-- One round of the loop: how its send ends, if it has something to send, and the cache when the
    coroutine goes on after it has waited for more data. -/
structure Round where
  sent : SendResult
  woken : Cache

/-- The loop over the rounds: `none` if it goes on behind the last of them, `some true` for `OK` and
    `some false` for `ERROR`. -/
def proxySendResponseFromCache (id : EntryId) :
    (sentTotal : Nat) → List Round → Locked → Except Fault (Option Bool × Locked)
  | _, [], s => return (none, s)
  | sentTotal, round :: rounds, s => do
      let s ← cacheEntryReadBegin id s
      let entry ← entryAt id s
      -- data is only ever appended
      if entry.data.length < sentTotal then .error .undefined
      else if sentTotal ≠ entry.data.length ∧ round.sent ≠ .all then
        return (some false, s)
      else
        let s := cacheEntryReadEnd id s
        let (more, totalDataLen, s) ← cacheEntryWait id round.woken s
        if ¬ more ∧ entry.data.length = totalDataLen then return (some true, s)
        else proxySendResponseFromCache id entry.data.length rounds s

end Locking

/-- The call chains of `proxy_main` and of the functions that it forwards a response with. -/
inductive Chain where
  | get (key : Bytes)
  | add (key : Bytes)
  | append (id : EntryId) (bytes : Bytes)
  | finished (id : EntryId)
  | remove (key : Bytes)
  /-- `proxy_send_response_from_cache` and, when it has returned, `cache_entry_put`. -/
  | serve (id : EntryId) (rounds : List Locking.Round)

def Chain.run : Chain → Locked → Except Fault Locked
  | get key, s => (Locking.cacheGetEntry key s).map Prod.snd
  | add key, s => (Locking.cacheAddEntry key s).map Prod.snd
  | append id bytes, s => Locking.cacheEntryAppendData id bytes s
  | finished id, s => Locking.cacheEntryFinished id s
  | remove key, s => (Locking.cacheRemoveEntry key s).map Prod.snd
  | serve id rounds, s => do
      match ← Locking.proxySendResponseFromCache id 0 rounds s with
      | (none, s) => return s
      | (some _, s) => Locking.cacheEntryPut id s

end NsuLabs.HttpProxy

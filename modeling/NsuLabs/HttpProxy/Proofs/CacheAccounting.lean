/-
Module: NsuLabs.HttpProxy.Proofs.CacheAccounting
Purpose: What holds of the cache in every history of calls: the LRU list, the byte count, the reference
  counts.
Trusted boundary: none
Main exports: Usage.Steps, totalSize_exact_iff
-/
import NsuLabs.HttpProxy.Cache

namespace NsuLabs.HttpProxy

open Lib List Option

variable {ok : Bool} {size freed : UInt64} {fuel : Nat} {P : Cache → Prop} {bytes : Bytes} {u u' : Usage}

/-! ### Well-formed caches -/

/-- The addresses of the entries in the map. -/
def Cache.ids (c : Cache) : List EntryId := c.map.map Prod.snd

def Cache.refCountAt (c : Cache) (id : EntryId) : Nat := ((c.heap id).map CacheEntry.refCount).getD 0

/-- The cache where `outside id` references to the entry `id` are held outside of the map. -/
structure WellFormed (c : Cache) (outside : EntryId → Nat) : Prop where
  keys : (c.map.map Prod.fst).Nodup
  ids : c.ids.Nodup
  lru : c.lru.Perm c.ids
  entries : ∀ key id, (key, id) ∈ c.map → ∃ entry, c.heap id = some entry ∧ entry.key = key
  refs : ∀ id, c.refCountAt id = c.ids.count id + outside id
  positive : ∀ id entry, c.heap id = some entry → 0 < entry.refCount
  fresh : ∀ id, c.next ≤ id → c.heap id = none

/-- One reference more to the entry `id`. -/
def oneMore (outside : EntryId → Nat) (id : EntryId) : EntryId → Nat :=
  fun other => outside other + if other = id then 1 else 0

variable {entry' : CacheEntry} {id : EntryId}

section

variable {c c' : Cache} {outside : EntryId → Nat} {key : Bytes} {id : EntryId} {entry : CacheEntry}

theorem find_mem (h : c.find key = some id) : (key, id) ∈ c.map := by
  obtain ⟨slot, hslot, rfl⟩ := map_eq_some_iff.mp h
  have hkey : slot.1 = key := by simpa using find?_some hslot
  rw [← hkey]
  exact mem_of_find?_eq_some hslot

theorem find_none (h : c.find key = none) : key ∉ c.map.map Prod.fst := by
  rw [Cache.find, map_eq_none_iff, find?_eq_none] at h
  intro hmem
  obtain ⟨slot, hslot, rfl⟩ := List.mem_map.mp hmem
  exact h slot hslot (by simp)

theorem map_perm_of_find (h : c.find key = some id) :
    c.map.Perm ((key, id) :: c.map.eraseP fun slot => slot.1 = key) := by
  obtain ⟨slot, hslot, rfl⟩ := map_eq_some_iff.mp h
  obtain ⟨hkey, before, after, hmap, hbefore⟩ := find?_eq_some_iff_append.mp hslot
  have hslotKey : slot.1 = key := by simpa using hkey
  have hskip : ∀ other ∈ before, ¬ (decide (other.1 = key) = true) := by
    intro other hother
    have := hbefore other hother
    simpa using this
  rw [hmap, eraseP_append_right _ hskip, eraseP_cons_of_pos (by simpa using hslotKey), ← hslotKey]
  exact perm_middle

/-! ### Changes of one entry -/

theorem count_cons_eq (xs : List EntryId) (id other : EntryId) :
    (id :: xs).count other = xs.count other + if other = id then 1 else 0 := by
  rw [count_cons]
  simp only [beq_iff_eq, eq_comm (a := id)]

theorem count_erase_of_mem {xs : List EntryId} (h : id ∈ xs) (other : EntryId) :
    xs.count other = (xs.erase id).count other + if other = id then 1 else 0 := by
  rw [(perm_cons_erase h).count_eq other, count_cons_eq]

theorem heap_setEntry (c : Cache) (id : EntryId) (x : Option CacheEntry) (other : EntryId) :
    (c.setEntry id x).heap other = if other = id then x else c.heap other :=
  Function.update_apply c.heap id x other

theorem refCountAt_setEntry (c : Cache) (id : EntryId) (x : Option CacheEntry) (other : EntryId) :
    (c.setEntry id x).refCountAt other =
      if other = id then (x.map CacheEntry.refCount).getD 0 else c.refCountAt other := by
  rw [Cache.refCountAt, heap_setEntry]
  split_ifs <;> rfl

/-- An entry is overwritten or freed, and its references with it. -/
theorem wellFormed_setEntry {before : EntryId → Nat} (h : WellFormed c before) {x : Option CacheEntry}
    (hallocated : id < c.next) (hrefs : (x.map CacheEntry.refCount).getD 0 = c.ids.count id + outside id)
    (hothers : ∀ other, other ≠ id → outside other = before other)
    (hkey : ∀ key, (key, id) ∈ c.map → ∃ entry, x = some entry ∧ entry.key = key)
    (hpositive : ∀ entry, x = some entry → 0 < entry.refCount) : WellFormed (c.setEntry id x) outside where
  keys := h.keys
  ids := h.ids
  lru := h.lru
  entries := by
    intro key other hmem
    by_cases hid : other = id
    · subst hid
      obtain ⟨entry, hx, hentry⟩ := hkey key hmem
      exact ⟨entry, by rw [heap_setEntry, if_pos rfl, hx], hentry⟩
    · obtain ⟨entry, hheap, hentry⟩ := h.entries key other hmem
      exact ⟨entry, by rw [heap_setEntry, if_neg hid, hheap], hentry⟩
  refs := by
    intro other
    rw [refCountAt_setEntry]
    split_ifs with hid
    · rw [hid]
      exact hrefs
    · rw [hothers other hid]
      exact h.refs other
  positive := by
    intro other entry hheap
    rw [heap_setEntry] at hheap
    split_ifs at hheap
    · exact hpositive entry hheap
    · exact h.positive other entry hheap
  fresh := by
    intro other hnext
    have hne : other ≠ id := Nat.ne_of_gt (Nat.lt_of_lt_of_le hallocated hnext)
    rw [heap_setEntry, if_neg hne]
    exact h.fresh other hnext

theorem WellFormed.allocated (h : WellFormed c outside) (hentry : c.heap id = some entry) : id < c.next := by
  by_contra hnext
  rw [h.fresh id (Nat.le_of_not_lt hnext)] at hentry
  cases hentry

theorem WellFormed.refCount_eq (h : WellFormed c outside) (hentry : c.heap id = some entry) :
    entry.refCount = c.ids.count id + outside id := by
  rw [← h.refs id, Cache.refCountAt, hentry]
  rfl

/-- An entry that somebody holds a reference to has not been freed. -/
theorem WellFormed.alive (h : WellFormed c outside) (hheld : 0 < outside id) :
    ∃ entry, c.heap id = some entry := by
  have hrefs := h.refs id
  cases hentry : c.heap id with
  | some entry => exact ⟨entry, rfl⟩
  | none =>
    rw [Cache.refCountAt, hentry, map_none, getD_none] at hrefs
    omega

theorem WellFormed.key_eq (h : WellFormed c outside) (hentry : c.heap id = some entry)
    (hmem : (key, id) ∈ c.map) : entry.key = key := by
  obtain ⟨entry', hheap, hkey⟩ := h.entries key id hmem
  rw [hentry] at hheap
  cases hheap
  exact hkey

/-- A reference is given back. -/
theorem wellFormed_dropRef (h : WellFormed c (oneMore outside id)) (hentry : c.heap id = some entry)
    (hkey : entry'.key = entry.key) (hcount : entry'.refCount = entry.refCount) :
    WellFormed (c.dropRef id entry') outside := by
  have hrefs : entry.refCount = c.ids.count id + outside id + 1 := by
    rw [h.refCount_eq hentry, oneMore, if_pos rfl, Nat.add_assoc]
  have hothers : ∀ other, other ≠ id → outside other = oneMore outside id other := by
    intro other hne
    rw [oneMore, if_neg hne, Nat.add_zero]
  rw [Cache.dropRef, hcount, hrefs, Nat.add_sub_cancel]
  split_ifs with hzero
  · refine wellFormed_setEntry h (h.allocated hentry) hzero.symm hothers ?_ ?_
    · intro key hmem
      -- the map holds a reference of its own
      have : 0 < c.ids.count id := count_pos_iff.mpr (List.mem_map_of_mem hmem)
      omega
    · exact fun entry hnone => nomatch hnone
  · refine wellFormed_setEntry h (h.allocated hentry) rfl hothers ?_ ?_
    · intro key hmem
      exact ⟨_, rfl, hkey.trans (h.key_eq hentry hmem)⟩
    · intro entry hsome
      cases hsome
      exact Nat.pos_of_ne_zero hzero

/-! ### cache_remove_entry -/

/-- The cache without the slot of the key; the reference of the map is still counted. -/
def Cache.unlinked (c : Cache) (key : Bytes) (id : EntryId) (entry : CacheEntry) : Cache :=
  { c with
    map := c.map.eraseP fun slot => slot.1 = key
    lru := c.lru.erase id
    totalSize := c.totalSize - UInt64.ofNat (cacheEntrySize entry) }

theorem cacheRemoveEntry_cases (h : cacheRemoveEntry c key = some (ok, c')) :
    c.find key = none ∧ c' = c ∨ ∃ id entry, c.find key = some id ∧ c.heap id = some entry ∧
      c' = (c.unlinked key id entry).dropRef id entry := by
  rw [cacheRemoveEntry] at h
  split at h
  case h_1 hfind =>
    cases h
    exact .inl ⟨hfind, rfl⟩
  case h_2 id hfind =>
    split at h
    case h_1 => cases h
    case h_2 entry hentry =>
      cases h
      exact .inr ⟨id, entry, hfind, hentry, rfl⟩

theorem ids_perm_unlinked (hfind : c.find key = some id) (entry : CacheEntry) :
    c.ids.Perm (id :: (c.unlinked key id entry).ids) :=
  (map_perm_of_find hfind).map Prod.snd

theorem wellFormed_unlinked (h : WellFormed c outside) (hfind : c.find key = some id) :
    WellFormed (c.unlinked key id entry) (oneMore outside id) := by
  have hperm := map_perm_of_find hfind
  have hids := ids_perm_unlinked hfind entry
  constructor
  · exact ((hperm.map Prod.fst).nodup_iff.mp h.keys).of_cons
  · exact (hids.nodup_iff.mp h.ids).of_cons
  · have := (h.lru.trans hids).erase id
    rwa [erase_cons_head] at this
  · intro key' id' hmem
    exact h.entries key' id' (mem_of_mem_eraseP hmem)
  · intro other
    have hrefs := h.refs other
    rw [hids.count_eq other, count_cons_eq] at hrefs
    exact hrefs.trans (by rw [oneMore]; omega)
  · exact h.positive
  · exact h.fresh

theorem wellFormed_remove (h : WellFormed c outside) (hremove : cacheRemoveEntry c key = some (ok, c')) :
    WellFormed c' outside := by
  rcases cacheRemoveEntry_cases hremove with ⟨-, rfl⟩ | ⟨id, entry, hfind, hentry, rfl⟩
  · exact h
  · exact wellFormed_dropRef (wellFormed_unlinked h hfind) hentry rfl rfl

/-! ### The other calls -/

/-- The entry gets a slot in the map, for one of the references to it. -/
theorem wellFormed_linked (h : WellFormed c (oneMore outside id)) (hkey : key ∉ c.map.map Prod.fst)
    (hid : id ∉ c.ids) (hentry : c.heap id = some entry) (hentryKey : entry.key = key) :
    WellFormed { c with map := c.map ++ [(key, id)], lru := id :: c.lru } outside := by
  have hids : Cache.ids { c with map := c.map ++ [(key, id)], lru := id :: c.lru } = c.ids ++ [id] :=
    map_append
  constructor
  · rw [map_append, map_singleton]
    exact nodup_append_comm.mp (nodup_cons.mpr ⟨hkey, h.keys⟩)
  · rw [hids]
    exact nodup_append_comm.mp (nodup_cons.mpr ⟨hid, h.ids⟩)
  · rw [hids]
    exact (h.lru.cons id).trans (perm_append_singleton id _).symm
  · intro key' id' hmem
    rcases mem_append.mp hmem with hmem | hmem
    · exact h.entries key' id' hmem
    · cases mem_singleton.mp hmem
      exact ⟨entry, hentry, hentryKey⟩
  · intro other
    have hrefs := h.refs other
    rw [oneMore] at hrefs
    rw [hids, (perm_append_singleton id c.ids).count_eq, count_cons_eq]
    exact hrefs.trans (by omega)
  · exact h.positive
  · exact h.fresh

/-- The cache with a slot for the new entry. -/
def Cache.linked (c : Cache) (key : Bytes) : Cache :=
  { c with next := c.next + 1, map := c.map ++ [(key, c.next)], lru := c.next :: c.lru }

theorem WellFormed.next_not_mem (h : WellFormed c outside) :
    c.ids.count c.next + outside c.next = 0 ∧ c.next ∉ c.ids := by
  have hnoref : c.ids.count c.next + outside c.next = 0 := by
    rw [← h.refs, Cache.refCountAt, h.fresh c.next (Nat.le_refl _)]
    rfl
  exact ⟨hnoref, count_eq_zero.mp (Nat.eq_zero_of_add_eq_zero_right hnoref)⟩

theorem wellFormed_add (h : WellFormed c outside) (hfind : c.find key = none) :
    WellFormed ((c.linked key).setEntry c.next (some ⟨[], key, false, 2⟩)) (oneMore outside c.next) := by
  obtain ⟨hnoref, hnotin⟩ := h.next_not_mem
  have hnext : WellFormed { c with next := c.next + 1 } outside :=
    ⟨h.keys, h.ids, h.lru, h.entries, h.refs, h.positive, fun id hid => h.fresh id (Nat.le_of_succ_le hid)⟩
  -- the new entry is held by the appending side and, in a moment, by the map
  have hset : WellFormed ({ c with next := c.next + 1 }.setEntry c.next (some ⟨[], key, false, 2⟩))
      (oneMore (oneMore outside c.next) c.next) := by
    refine wellFormed_setEntry hnext (Nat.lt_succ_self _) ?_ ?_ ?_ ?_
    · rw [oneMore, oneMore, if_pos rfl, ← Nat.add_assoc, ← Nat.add_assoc]
      exact congrArg (· + 1 + 1) hnoref.symm
    · intro other hne
      rw [oneMore, oneMore, if_neg hne, Nat.add_zero]
    · exact fun key hmem => absurd (List.mem_map_of_mem hmem) hnotin
    · intro entry hsome
      cases hsome
      exact Nat.two_pos
  exact wellFormed_linked hset (find_none hfind) hnotin ((heap_setEntry ..).trans (if_pos rfl)) rfl

theorem wellFormed_get (h : WellFormed c outside) (hfind : c.find key = some id)
    (hentry : c.heap id = some entry) :
    WellFormed ({ c with lru := id :: c.lru.erase id }.setEntry id
      (some { entry with refCount := entry.refCount + 1 })) (oneMore outside id) := by
  have hmem : id ∈ c.ids := List.mem_map_of_mem (find_mem hfind)
  have hfront : WellFormed { c with lru := id :: c.lru.erase id } outside :=
    ⟨h.keys, h.ids, (perm_cons_erase (h.lru.mem_iff.mpr hmem)).symm.trans h.lru, h.entries, h.refs,
      h.positive, h.fresh⟩
  refine wellFormed_setEntry hfront (h.allocated hentry) ?_ ?_ ?_ ?_
  · rw [oneMore, if_pos rfl, ← Nat.add_assoc]
    exact congrArg (· + 1) (h.refCount_eq hentry)
  · intro other hne
    rw [oneMore, if_neg hne, Nat.add_zero]
  · exact fun key' hmem' => ⟨_, rfl, (h.key_eq hentry hmem' :)⟩
  · intro entry' hsome
    cases hsome
    exact Nat.succ_pos _

/-! ### cache_free_memory -/

theorem WellFormed.find_of_mem (h : WellFormed c outside) (hmem : (key, id) ∈ c.map) :
    c.find key = some id := by
  cases hfind : c.find key with
  | none => exact absurd (List.mem_map_of_mem hmem) (find_none hfind)
  | some other =>
    have hslots := inj_on_of_nodup_map h.keys (find_mem hfind) hmem rfl
    rw [(Prod.mk.inj hslots).2]

/-- An entry of the LRU list is found under its key. -/
theorem WellFormed.find_of_lru (h : WellFormed c outside) (hlru : id ∈ c.lru) :
    ∃ entry, c.heap id = some entry ∧ c.find entry.key = some id := by
  obtain ⟨⟨key, id'⟩, hmem, rfl⟩ := List.mem_map.mp (h.lru.mem_iff.mp hlru)
  obtain ⟨entry, hentry, rfl⟩ := h.entries key id' hmem
  exact ⟨entry, hentry, h.find_of_mem hmem⟩

/-- The loop ends: each round shortens the LRU list. -/
theorem cacheFreeMemory_isSome (h : WellFormed c outside) (hfuel : c.lru.length < fuel) :
    (cacheFreeMemory size fuel freed c).isSome := by
  induction fuel generalizing c freed with
  | zero => exact absurd hfuel (Nat.not_lt_zero _)
  | succ fuel ih =>
    rw [cacheFreeMemory]
    split_ifs
    · split
      case h_1 => rfl
      case h_2 id hlast =>
        have hlru := mem_of_getLast? hlast
        obtain ⟨entry, hentry, hfind⟩ := h.find_of_lru hlru
        have hremove : cacheRemoveEntry c entry.key =
            some (true, (c.unlinked entry.key id entry).dropRef id entry) := by
          simp only [cacheRemoveEntry, hfind, hentry]
          rfl
        simp only [hentry, hremove]
        apply ih (wellFormed_remove h hremove)
        have hlength : ((c.unlinked entry.key id entry).dropRef id entry).lru = c.lru.erase id := by
          rw [Cache.dropRef]
          split_ifs <;> rfl
        rw [hlength, length_erase_of_mem hlru]
        have := length_pos_of_mem hlru
        omega
    · rfl

/-- One round of the loop. -/
theorem cacheFreeMemory_cases (h : cacheFreeMemory size (fuel + 1) freed c = some (ok, c')) :
    c' = c ∨ ∃ entry done c₁, cacheRemoveEntry c entry.key = some (done, c₁) ∧
      cacheFreeMemory size fuel (freed + UInt64.ofNat (cacheEntrySize entry)) c₁ = some (ok, c') := by
  rw [cacheFreeMemory] at h
  split_ifs at h
  · split at h
    case h_1 =>
      cases h
      exact .inl rfl
    case h_2 id hlast =>
      split at h
      case h_1 => cases h
      case h_2 entry hentry =>
        split at h
        case h_1 => cases h
        case h_2 done c₁ hremove => exact .inr ⟨entry, done, c₁, hremove, h⟩
  · cases h
    exact .inl rfl

/-- What every removal keeps, `cache_free_memory` keeps. -/
theorem cacheFreeMemory_keeps
    (hremove : ∀ c key done c', P c → cacheRemoveEntry c key = some (done, c') → P c')
    (hP : P c) (h : cacheFreeMemory size fuel freed c = some (ok, c')) : P c' := by
  induction fuel generalizing c freed with
  | zero => cases h
  | succ fuel ih =>
    rcases cacheFreeMemory_cases h with rfl | ⟨entry, done, c₁, hone, hmore⟩
    · exact hP
    · exact ih (hremove c entry.key done c₁ hP hone) hmore

theorem cacheEnsureMemory_keeps
    (hremove : ∀ c key done c', P c → cacheRemoveEntry c key = some (done, c') → P c')
    (hP : P c) (h : cacheEnsureMemory c size = some (ok, c')) : P c' := by
  rw [cacheEnsureMemory] at h
  split at h
  · exact cacheFreeMemory_keeps hremove hP h
  · cases h
    exact hP

theorem wellFormed_ensureMemory (h : WellFormed c outside)
    (hensure : cacheEnsureMemory c size = some (ok, c')) : WellFormed c' outside := by
  exact cacheEnsureMemory_keeps (fun _ _ _ _ h hremove => wellFormed_remove h hremove) h hensure

theorem wellFormed_append (h : WellFormed c outside) (hentry : c.heap id = some entry) (bytes : Bytes) :
    WellFormed ({ c with totalSize := c.totalSize + UInt64.ofNat bytes.length }.setEntry id
      (some { entry with data := entry.data ++ bytes })) outside := by
  have hcounted : WellFormed { c with totalSize := c.totalSize + UInt64.ofNat bytes.length } outside :=
    ⟨h.keys, h.ids, h.lru, h.entries, h.refs, h.positive, h.fresh⟩
  have hrefs := h.refCount_eq hentry
  refine wellFormed_setEntry hcounted (h.allocated hentry) hrefs (fun _ _ => rfl) ?_ ?_
  · exact fun key hmem => ⟨_, rfl, (h.key_eq hentry hmem :)⟩
  · intro entry' hsome
    cases hsome
    exact h.positive id entry hentry

end

/-! ### What a call does -/

/-- The calls that go through, with all that they change. -/
inductive Usage.Steps (u : Usage) : CacheCall → Usage → Prop where
  | add {key : Bytes} (hfind : u.cache.find key = none) :
      Steps u (.add key) { u with
        cache := (u.cache.linked key).setEntry u.cache.next (some ⟨[], key, false, 2⟩)
        appending := u.cache.next :: u.appending }
  | getNone {key : Bytes} (hfind : u.cache.find key = none) : Steps u (.get key) u
  | get {key : Bytes} {id : EntryId} {entry : CacheEntry} (hfind : u.cache.find key = some id)
      (hentry : u.cache.heap id = some entry) :
      Steps u (.get key) { u with
        cache := { u.cache with lru := id :: u.cache.lru.erase id }.setEntry id
          (some { entry with refCount := entry.refCount + 1 })
        readers := id :: u.readers }
  | append {id : EntryId} {bytes : Bytes} {ok : Bool} {c : Cache} {entry : CacheEntry}
      (hmem : id ∈ u.appending) (hlength : bytes.length < 2 ^ 64)
      (hensure : cacheEnsureMemory u.cache (UInt64.ofNat bytes.length) = some (ok, c))
      (hentry : c.heap id = some entry) :
      Steps u (.append id bytes) { u with
        cache := { c with totalSize := c.totalSize + UInt64.ofNat bytes.length }.setEntry id
          (some { entry with data := entry.data ++ bytes }) }
  | finished {id : EntryId} {entry : CacheEntry} (hmem : id ∈ u.appending)
      (hentry : u.cache.heap id = some entry) : Steps u (.finished id) { u with
        cache := u.cache.dropRef id { entry with isFinished := true }
        appending := u.appending.erase id }
  | put {id : EntryId} {entry : CacheEntry} (hmem : id ∈ u.readers) (hentry : u.cache.heap id = some entry) :
      Steps u (.put id) { u with cache := u.cache.dropRef id entry, readers := u.readers.erase id }
  | removeNone {key : Bytes} (hfind : u.cache.find key = none) : Steps u (.remove key) u
  | remove {key : Bytes} {id : EntryId} {entry : CacheEntry} (hfind : u.cache.find key = some id)
      (hentry : u.cache.heap id = some entry) :
      Steps u (.remove key) { u with cache := (u.cache.unlinked key id entry).dropRef id entry }

theorem Usage.steps {call : CacheCall} (hstep : u.step call = some u') : u.Steps call u' := by
  cases call with
  | add key =>
    obtain ⟨⟨id, c'⟩, hadd, rfl⟩ := map_eq_some_iff.mp hstep
    rw [cacheAddEntry] at hadd
    split at hadd
    case h_1 => cases hadd
    case h_2 hfind =>
      cases hadd
      exact .add hfind
  | get key =>
    obtain ⟨⟨found, c'⟩, hget, rfl⟩ := map_eq_some_iff.mp hstep
    rw [cacheGetEntry] at hget
    split at hget
    case h_1 hfind =>
      cases hget
      exact .getNone hfind
    case h_2 id hfind =>
      split at hget
      case h_1 => cases hget
      case h_2 entry hentry =>
        cases hget
        exact .get hfind hentry
  | append id bytes =>
    rw [Usage.step] at hstep
    split_ifs at hstep with hcaller
    obtain ⟨c', happend, rfl⟩ := map_eq_some_iff.mp hstep
    rw [cacheEntryAppendData] at happend
    split at happend
    case h_1 => cases happend
    case h_2 ok c hensure =>
      split at happend
      case h_1 => cases happend
      case h_2 entry hentry =>
        cases happend
        exact .append hcaller.1 hcaller.2 hensure hentry
  | finished id =>
    rw [Usage.step] at hstep
    split_ifs at hstep with hmem
    obtain ⟨c', hfinished, rfl⟩ := map_eq_some_iff.mp hstep
    obtain ⟨entry, hentry, rfl⟩ := map_eq_some_iff.mp hfinished
    exact .finished hmem hentry
  | put id =>
    rw [Usage.step] at hstep
    split_ifs at hstep with hmem
    obtain ⟨c', hput, rfl⟩ := map_eq_some_iff.mp hstep
    obtain ⟨entry, hentry, rfl⟩ := map_eq_some_iff.mp hput
    exact .put hmem hentry
  | remove key =>
    obtain ⟨⟨ok, c'⟩, hremove, rfl⟩ := map_eq_some_iff.mp hstep
    rcases cacheRemoveEntry_cases hremove with ⟨hfind, rfl⟩ | ⟨id, entry, hfind, hentry, rfl⟩
    · exact .removeNone hfind
    · exact .remove hfind hentry

/-! ### Histories of calls -/

/-- The references outside of the map are those of the appending sides and of the readers. -/
def Usage.outside (u : Usage) : EntryId → Nat := fun id => u.appending.count id + u.readers.count id

def Usage.WellFormed (u : Usage) : Prop := HttpProxy.WellFormed u.cache u.outside

theorem usage_wellFormed_initial (maxSizeBytes : UInt64) : (Usage.initial maxSizeBytes).WellFormed := by
  constructor
  · exact nodup_nil
  · exact nodup_nil
  · exact List.Perm.nil
  · exact fun key id h => nomatch h
  · exact fun id => rfl
  · exact fun id entry h => nomatch h
  · exact fun id h => rfl

theorem WellFormed.congr {c : Cache} {outside outside' : EntryId → Nat} (h : WellFormed c outside)
    (heq : ∀ id, outside id = outside' id) : WellFormed c outside' :=
  funext heq ▸ h

/-- The reference of an appending side, set apart. -/
theorem Usage.wellFormed_finishing (u : Usage) (h : u.WellFormed) (hmem : id ∈ u.appending) :
    HttpProxy.WellFormed u.cache (oneMore { u with appending := u.appending.erase id }.outside id) := by
  apply h.congr
  intro other
  simp only [oneMore, Usage.outside, count_erase_of_mem hmem other]
  omega

/-- The reference of a reader, set apart. -/
theorem Usage.wellFormed_putting (u : Usage) (h : u.WellFormed) (hmem : id ∈ u.readers) :
    HttpProxy.WellFormed u.cache (oneMore { u with readers := u.readers.erase id }.outside id) := by
  apply h.congr
  intro other
  simp only [oneMore, Usage.outside, count_erase_of_mem hmem other]
  omega

theorem usage_wellFormed_step (u : Usage) (call : CacheCall) (u' : Usage) (h : u.WellFormed)
    (hstep : u.step call = some u') : u'.WellFormed := by
  cases Usage.steps hstep with
  | add hfind =>
    apply (wellFormed_add h hfind).congr
    intro other
    simp only [oneMore, Usage.outside, count_cons_eq]
    omega
  | getNone | removeNone => exact h
  | get hfind hentry =>
    apply (wellFormed_get h hfind hentry).congr
    intro other
    simp only [oneMore, Usage.outside, count_cons_eq]
    omega
  | append hmem hlength hensure hentry =>
      exact wellFormed_append (wellFormed_ensureMemory h hensure) hentry _
  | finished hmem hentry => exact wellFormed_dropRef (u.wellFormed_finishing h hmem) hentry rfl rfl
  | put hmem hentry => exact wellFormed_dropRef (u.wellFormed_putting h hmem) hentry rfl rfl
  | remove hfind hentry => exact wellFormed_dropRef (wellFormed_unlinked h hfind) hentry rfl rfl

/-! ### The byte count -/

def Cache.sizeAt (c : Cache) (id : EntryId) : Nat := ((c.heap id).map cacheEntrySize).getD 0

/-- The sum of the sizes of the entries in the map. -/
def Cache.sizeSum (c : Cache) : Nat := (c.ids.map c.sizeAt).sum

def SizeExact (c : Cache) : Prop := c.totalSize.toNat = c.sizeSum

section Sizes

variable {c c' : Cache} {outside : EntryId → Nat} {key : Bytes} {id : EntryId} {entry : CacheEntry}

theorem sizeAt_setEntry (c : Cache) (id : EntryId) (x : Option CacheEntry) (other : EntryId) :
    (c.setEntry id x).sizeAt other = if other = id then (x.map cacheEntrySize).getD 0
      else c.sizeAt other := by
  rw [Cache.sizeAt, heap_setEntry]
  split_ifs <;> rfl

/-- The sum depends on the entries of the map only. -/
theorem sizeSum_congr (hids : c'.ids = c.ids) (hsizes : ∀ id ∈ c.ids, c'.sizeAt id = c.sizeAt id) :
    c'.sizeSum = c.sizeSum := by
  rw [Cache.sizeSum, Cache.sizeSum, hids]
  exact congrArg List.sum (map_congr_left hsizes)

theorem dropRef_eq (c : Cache) (id : EntryId) (entry : CacheEntry) :
    ∃ x, c.dropRef id entry = c.setEntry id x ∧
      ∀ left, x = some left → left = { entry with refCount := entry.refCount - 1 } := by
  rw [Cache.dropRef]
  split_ifs
  · exact ⟨none, rfl, fun left h => nomatch h⟩
  · exact ⟨_, rfl, fun left h => (some.inj h).symm⟩

theorem sizeAt_dropRef_of_ne (c : Cache) (entry : CacheEntry) {other : EntryId} (hne : other ≠ id) :
    (c.dropRef id entry).sizeAt other = c.sizeAt other := by
  obtain ⟨x, hdrop, -⟩ := dropRef_eq c id entry
  rw [hdrop, sizeAt_setEntry, if_neg hne]

theorem ids_dropRef (c : Cache) (id : EntryId) (entry : CacheEntry) : (c.dropRef id entry).ids = c.ids := by
  obtain ⟨x, hdrop, -⟩ := dropRef_eq c id entry
  rw [hdrop]
  rfl

theorem totalSize_dropRef (c : Cache) (id : EntryId) (entry : CacheEntry) :
    (c.dropRef id entry).totalSize = c.totalSize := by
  obtain ⟨x, hdrop, -⟩ := dropRef_eq c id entry
  rw [hdrop]
  rfl

/-- The size that `cache_remove_entry` subtracts is what the entry has contributed. -/
theorem sizeExact_remove (h : WellFormed c outside) (hexact : SizeExact c) (hfind : c.find key = some id)
    (hentry : c.heap id = some entry) : SizeExact ((c.unlinked key id entry).dropRef id entry) := by
  have hperm := ids_perm_unlinked hfind entry
  have hnotin : id ∉ (c.unlinked key id entry).ids := (nodup_cons.mp (hperm.nodup_iff.mp h.ids)).1
  have hsize : c.sizeAt id = cacheEntrySize entry := by
    rw [Cache.sizeAt, hentry]
    rfl
  have hsum : c.sizeSum = cacheEntrySize entry + (c.unlinked key id entry).sizeSum := by
    rw [Cache.sizeSum, (hperm.map c.sizeAt).sum_eq, map_cons, sum_cons, hsize]
    rfl
  have hleft : ((c.unlinked key id entry).dropRef id entry).sizeSum = (c.unlinked key id entry).sizeSum := by
    apply sizeSum_congr (ids_dropRef _ _ _)
    intro other hother
    apply sizeAt_dropRef_of_ne
    rintro rfl
    exact hnotin hother
  rw [SizeExact] at hexact ⊢
  have hbound := c.totalSize.toNat_lt
  have hofNat : (UInt64.ofNat (cacheEntrySize entry)).toNat = cacheEntrySize entry := by
    rw [UInt64.toNat_ofNat', Nat.mod_eq_of_lt (by omega)]
  have hle : UInt64.ofNat (cacheEntrySize entry) ≤ c.totalSize := UInt64.le_iff_toNat_le.mpr (by omega)
  have htotal : (c.unlinked key id entry).totalSize.toNat = c.totalSize.toNat - cacheEntrySize entry := by
    rw [Cache.unlinked, UInt64.toNat_sub_of_le _ _ hle, hofNat]
  rw [hleft, totalSize_dropRef, htotal]
  omega

theorem sizeExact_ensureMemory (h : WellFormed c outside) (hexact : SizeExact c)
    (hensure : cacheEnsureMemory c size = some (ok, c')) : SizeExact c' := by
  refine (cacheEnsureMemory_keeps (P := fun c => WellFormed c outside ∧ SizeExact c)
    (fun c key done c' hboth hremove => ?_) ⟨h, hexact⟩ hensure).2
  refine ⟨wellFormed_remove hboth.1 hremove, ?_⟩
  rcases cacheRemoveEntry_cases hremove with ⟨-, rfl⟩ | ⟨id, entry, hfind, hentry, rfl⟩
  · exact hboth.2
  · exact sizeExact_remove hboth.1 hboth.2 hfind hentry

/-- The key of a new entry is in the sum and not in the count. -/
theorem sizeSum_add (h : WellFormed c outside) (key : Bytes) :
    ((c.linked key).setEntry c.next (some ⟨[], key, false, 2⟩)).sizeSum = c.sizeSum + key.length := by
  rw [Cache.sizeSum, Cache.ids, Cache.setEntry, Cache.linked, map_append, map_append, sum_append,
    map_singleton, map_singleton, sum_singleton]
  congr 1
  · apply congrArg List.sum
    apply map_congr_left
    intro other hother
    have hne : other ≠ c.next := fun heq => h.next_not_mem.2 (heq ▸ hother)
    exact (sizeAt_setEntry _ _ _ _).trans (if_neg hne)
  · refine (sizeAt_setEntry _ _ _ _).trans ((if_pos rfl).trans ?_)
    exact Nat.zero_add _

theorem sizeSum_setEntry_same (hentry : c.heap id = some entry)
    (hsize : cacheEntrySize entry' = cacheEntrySize entry) : (c.setEntry id (some entry')).sizeSum =
      c.sizeSum := by
  refine sizeSum_congr rfl fun other _ => ?_
  rw [sizeAt_setEntry]
  split_ifs with hid
  · rw [hid, Cache.sizeAt, hentry]
    exact hsize
  · rfl

theorem sizeSum_setEntry_of_mem (h : WellFormed c outside) (hmem : id ∈ c.ids)
    (hentry : c.heap id = some entry) (entry' : CacheEntry) :
    (c.setEntry id (some entry')).sizeSum + cacheEntrySize entry = c.sizeSum + cacheEntrySize entry' := by
  have hperm := perm_cons_erase hmem
  have hnotin : id ∉ c.ids.erase id := (nodup_cons.mp (hperm.nodup_iff.mp h.ids)).1
  have hids : (c.setEntry id (some entry')).ids = c.ids := rfl
  have hself : (c.setEntry id (some entry')).sizeAt id = cacheEntrySize entry' := by
    rw [sizeAt_setEntry, if_pos rfl]
    rfl
  have hold : c.sizeAt id = cacheEntrySize entry := by
    rw [Cache.sizeAt, hentry]
    rfl
  have hothers : (c.ids.erase id).map (c.setEntry id (some entry')).sizeAt =
      (c.ids.erase id).map c.sizeAt := by
    apply map_congr_left
    intro other hother
    have hne : other ≠ id := fun heq => hnotin (heq ▸ hother)
    rw [sizeAt_setEntry, if_neg hne]
  rw [Cache.sizeSum, Cache.sizeSum, hids, (hperm.map _).sum_eq, (hperm.map c.sizeAt).sum_eq, map_cons,
    map_cons, sum_cons, sum_cons, hself, hold, hothers]
  omega

/-- The bytes that are appended to an entry in the map are in the sum and in the count; to an entry
    outside of the map, in the count only. -/
theorem sizeExact_append_iff (h : WellFormed c outside) (hexact : SizeExact c)
    (hlength : bytes.length < 2 ^ 64) (hentry : c.heap id = some entry) :
    SizeExact ({ c with totalSize := c.totalSize + UInt64.ofNat bytes.length }.setEntry id
        (some { entry with data := entry.data ++ bytes })) ↔
      bytes = [] ∨ id ∈ c.ids ∧ c.sizeSum + bytes.length < 2 ^ 64 := by
  have hbound := c.totalSize.toNat_lt
  have htotal : (c.totalSize + UInt64.ofNat bytes.length).toNat = (c.sizeSum + bytes.length) % 2 ^ 64 := by
    rw [UInt64.toNat_add, UInt64.toNat_ofNat', Nat.add_mod_mod, hexact]
  have hnil : bytes = [] ↔ bytes.length = 0 := length_eq_zero_iff.symm
  have hgrown : cacheEntrySize { entry with data := entry.data ++ bytes } =
      cacheEntrySize entry + bytes.length := by
    simp only [cacheEntrySize, length_append]
    omega
  have hsum : (c.setEntry id (some { entry with data := entry.data ++ bytes })).sizeSum =
      c.sizeSum + if id ∈ c.ids then bytes.length else 0 := by
    split_ifs with hmem
    · have hsum := sizeSum_setEntry_of_mem h hmem hentry { entry with data := entry.data ++ bytes }
      omega
    · refine sizeSum_congr rfl fun other hother => ?_
      rw [sizeAt_setEntry, if_neg fun heq : other = id => hmem (heq ▸ hother)]
  rw [SizeExact] at hexact ⊢
  refine (Eq.congr htotal hsum).trans ?_
  split_ifs with hmem <;> simp only [hmem, true_and, false_and, or_false, hnil] <;> omega

/-- A reference of a reader or of the appending side is given back: an entry that is freed is not in
    the map. -/
theorem sizeExact_dropRef (h : WellFormed c (oneMore outside id)) (hexact : SizeExact c)
    (hentry : c.heap id = some entry) (hsize : cacheEntrySize entry' = cacheEntrySize entry)
    (hcount : entry'.refCount = entry.refCount) : SizeExact (c.dropRef id entry') := by
  have hsum : (c.dropRef id entry').sizeSum = c.sizeSum := by
    apply sizeSum_congr (ids_dropRef _ _ _)
    intro other hother
    by_cases hne : other = id
    · subst hne
      have hrefs := h.refCount_eq hentry
      have hpos : 0 < c.ids.count other := count_pos_iff.mpr hother
      rw [oneMore, if_pos rfl] at hrefs
      rw [Cache.dropRef, hcount, if_neg (by omega), sizeAt_setEntry, if_pos rfl, Cache.sizeAt, hentry]
      exact hsize
    · exact sizeAt_dropRef_of_ne c entry' hne
  rw [SizeExact, totalSize_dropRef, hsum]
  exact hexact

end Sizes

/-- The call adds to the count what it adds to the entries of the map: no key comes with a new
    entry, and data goes to an entry that is in the map once there is room, if the sum fits into the
    count. -/
def Counted (u : Usage) : CacheCall → Prop
  | .add key => key = []
  | .append id bytes => bytes = [] ∨ ∃ room ∈ cacheEnsureMemory u.cache (UInt64.ofNat bytes.length),
      id ∈ room.2.ids ∧ room.2.sizeSum + bytes.length < 2 ^ 64
  | _ => True

instance (u : Usage) : (call : CacheCall) → Decidable (Counted u call)
  | .add key => inferInstanceAs (Decidable (key = []))
  | .append id bytes => inferInstanceAs (Decidable (bytes = [] ∨
      ∃ room ∈ cacheEnsureMemory u.cache (UInt64.ofNat bytes.length),
        id ∈ room.2.ids ∧ room.2.sizeSum + bytes.length < 2 ^ 64))
  | .get _ | .finished _ | .put _ | .remove _ => isTrue trivial

theorem sizeExact_step (u : Usage) (call : CacheCall) (u' : Usage) (h : u.WellFormed)
    (hexact : SizeExact u.cache)
    (hstep : u.step call = some u') : SizeExact u'.cache ↔ Counted u call := by
  cases Usage.steps hstep with
  | @add key hfind =>
    have hlength : key = [] ↔ key.length = 0 := length_eq_zero_iff.symm
    rw [SizeExact, sizeSum_add h, Counted, hlength, ← (hexact : u.cache.totalSize.toNat = _)]
    exact left_eq_add
  | getNone | removeNone => exact iff_of_true hexact trivial
  | @get key id entry hfind hentry =>
    have hsize : cacheEntrySize { entry with refCount := entry.refCount + 1 } = cacheEntrySize entry := rfl
    exact iff_of_true (hexact.trans (sizeSum_setEntry_same hentry hsize).symm) trivial
  | append hmem hlength hensure hentry =>
    rw [sizeExact_append_iff (wellFormed_ensureMemory h hensure) (sizeExact_ensureMemory h hexact hensure)
      hlength hentry, Counted]
    apply or_congr Iff.rfl
    constructor
    · exact fun hin => ⟨_, hensure, hin⟩
    · rintro ⟨room, hroom, hin⟩
      cases hensure.symm.trans hroom
      exact hin
  | finished hmem hentry =>
    exact iff_of_true (sizeExact_dropRef (u.wellFormed_finishing h hmem) hexact hentry rfl rfl) trivial
  | put hmem hentry =>
    exact iff_of_true (sizeExact_dropRef (u.wellFormed_putting h hmem) hexact hentry rfl rfl) trivial
  | remove hfind hentry => exact iff_of_true (sizeExact_remove h hexact hfind hentry) trivial

/-- In every history of calls the LRU list holds the entries of the map, each once; and the byte
    count is the sum of the sizes of these entries throughout if and only if every call of the
    history is counted. -/
theorem totalSize_exact_iff (maxSizeBytes : UInt64) (calls : List CacheCall) (u : Usage)
    (hrun : run Usage.step (.initial maxSizeBytes) calls = some u) :
    (u.cache.lru.Nodup ∧ u.cache.lru.Perm u.cache.ids) ∧
      (EveryState Usage.step (fun u => SizeExact u.cache) (.initial maxSizeBytes) calls ↔
        EveryStep Usage.step Counted (.initial maxSizeBytes) calls) := by
  have hinitial := usage_wellFormed_initial maxSizeBytes
  have h : u.WellFormed := run_preserves usage_wellFormed_step hinitial hrun
  refine ⟨⟨h.lru.nodup_iff.mpr h.ids, h.lru⟩, ?_⟩
  have hadmissible : EveryStep Usage.step (fun _ _ => True) (.initial maxSizeBytes) calls :=
    everyStep_of_forall (fun _ _ _ => trivial) _
  exact everyState_iff_everyStep (fun u call u' h _ => usage_wellFormed_step u call u' h)
    (fun u call u' h hexact _ => sizeExact_step u call u' h hexact) hinitial rfl hadmissible hrun

theorem totalSize_exact_iff_emptyKey :
    EveryState Usage.step (fun u => SizeExact u.cache) (.initial 100)
      [.add [], .append 0 [1, 2, 3], .get [], .finished 0, .put 0, .remove []] := by
  have hrun : run Usage.step (.initial 100)
      [.add [], .append 0 [1, 2, 3], .get [], .finished 0, .put 0, .remove []] = some _ := rfl
  have hcounted : EveryStep Usage.step Counted (.initial 100)
      [.add [], .append 0 [1, 2, 3], .get [], .finished 0, .put 0, .remove []] := by decide +kernel
  exact (totalSize_exact_iff 100 _ _ hrun).2.mpr hcounted

/-- An entry is added and removed: its key is subtracted from a count that it was never added to. -/
theorem totalSize_wraps :
    ∃ u, run Usage.step (.initial 100) [.add [71, 69, 84], .remove [71, 69, 84]] = some u ∧
      u.cache.ids = [] ∧ u.cache.totalSize.toNat = 2 ^ 64 - 3 :=
  ⟨_, rfl, by decide +kernel, by decide +kernel⟩

end NsuLabs.HttpProxy

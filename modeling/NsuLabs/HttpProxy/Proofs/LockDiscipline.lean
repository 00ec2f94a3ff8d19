/-
Module: NsuLabs.HttpProxy.Proofs.LockDiscipline
Purpose: Which call chains never acquire a lock that is held, and hold none at the end.
Trusted boundary: none
Main exports: chain_disciplined_iff
-/
import NsuLabs.HttpProxy.Proofs.CacheAccounting

namespace NsuLabs.HttpProxy

open Lib

variable {α β : Type} {s : Locked} {id : EntryId} {c : Cache} {size : UInt64} {outside : EntryId → Nat}

/-- The chain has not acquired a lock that it holds, and if it has come to its end it holds no lock. -/
def Disciplined : Except Fault Locked → Prop
  | .ok s => s.held = []
  | .error (.relock _) => False
  | .error .undefined => True

/-! ### The functions without a lock held -/

/-- The result of an atomic function for a chain that holds no lock. -/
def atomically {α : Type} : Option (α × Cache) → Except Fault (α × Locked)
  | some (a, c) => .ok (a, ⟨c, []⟩)
  | none => .error .undefined

@[simp] theorem ok_bind (a : α) (f : α → Except Fault β) : (Except.ok a >>= f) = f a := rfl

@[simp] theorem error_bind (fault : Fault) (f : α → Except Fault β) :
    ((Except.error fault : Except Fault α) >>= f) = .error fault := rfl

@[simp] theorem acquire_free (lock : Lock) (c : Cache) : Locking.acquire lock ⟨c, []⟩ = .ok ⟨c, [lock]⟩ :=
  rfl

@[simp] theorem acquire_entry (id : EntryId) (c : Cache) :
    Locking.acquire (.entry id) ⟨c, [.cache]⟩ = .ok ⟨c, [.entry id, .cache]⟩ := by
  simp [Locking.acquire]

@[simp] theorem acquire_held (lock : Lock) (c : Cache) :
    Locking.acquire lock ⟨c, [lock]⟩ = .error (.relock lock) := by
  simp [Locking.acquire]

@[simp] theorem release_head (lock : Lock) (c : Cache) (held : List Lock) :
    Locking.release lock ⟨c, lock :: held⟩ = ⟨c, held⟩ := by
  simp [Locking.release]

@[simp] theorem entryAt_some {entry : CacheEntry} (h : s.cache.heap id = some entry) :
    Locking.entryAt id s = .ok entry := by
  rw [Locking.entryAt, h]

@[simp] theorem entryAt_none (h : s.cache.heap id = none) :
    Locking.entryAt id s = .error .undefined := by
  rw [Locking.entryAt, h]

theorem cacheRemoveEntry_refines (c : Cache) (key : Bytes) :
    Locking.cacheRemoveEntry key ⟨c, []⟩ = atomically (cacheRemoveEntry c key) := by
  cases hfind : c.find key with
  | none =>
    simp [Locking.cacheRemoveEntry, cacheRemoveEntry, hfind, atomically]
    rfl
  | some id =>
    cases hentry : c.heap id with
    | none | some entry => simp [Locking.cacheRemoveEntry, cacheRemoveEntry, hfind, hentry, atomically]

theorem cacheGetEntry_refines (c : Cache) (key : Bytes) :
    Locking.cacheGetEntry key ⟨c, []⟩ = atomically (cacheGetEntry c key) := by
  cases hfind : c.find key with
  | none =>
    simp [Locking.cacheGetEntry, cacheGetEntry, hfind, atomically]
    rfl
  | some id =>
    cases hentry : c.heap id with
    | none | some entry => simp [Locking.cacheGetEntry, cacheGetEntry, hfind, hentry, atomically]

theorem cacheAddEntry_refines (c : Cache) (key : Bytes) :
    Locking.cacheAddEntry key ⟨c, []⟩ = atomically (cacheAddEntry c key) := by
  cases hadd : cacheAddEntry c key with
  | none => simp [Locking.cacheAddEntry, hadd, atomically]
  | some r =>
    simp [Locking.cacheAddEntry, hadd, atomically]
    rfl

/-- The result of an atomic function that returns nothing but the cache. -/
def atomicallyUnit : Option Cache → Except Fault Locked
  | some c => .ok ⟨c, []⟩
  | none => .error .undefined

theorem cacheEntryPut_refines (c : Cache) (id : EntryId) :
    Locking.cacheEntryPut id ⟨c, []⟩ = atomicallyUnit (cacheEntryPut c id) := by
  cases hentry : c.heap id with
  | none | some entry => simp [Locking.cacheEntryPut, cacheEntryPut, hentry, atomicallyUnit]

theorem cacheEntryFinished_refines (c : Cache) (id : EntryId) :
    Locking.cacheEntryFinished id ⟨c, []⟩ = atomicallyUnit (cacheEntryFinished c id) := by
  cases hentry : c.heap id with
  | none | some entry => simp [Locking.cacheEntryFinished, cacheEntryFinished, hentry, atomicallyUnit]

/-! ### cache_entry_append_data -/

theorem neededMemory_pos {needed : UInt64} (h : c.neededMemory size = some needed) : 0 < needed := by
  rw [Cache.neededMemory] at h
  split_ifs at h with hexceeds
  cases h
  rw [UInt64.lt_iff_toNat_lt, UInt64.toNat_sub_of_le _ _ (UInt64.le_of_lt hexceeds)]
  have := UInt64.lt_iff_toNat_lt.mp hexceeds
  exact Nat.sub_pos_of_lt this

/-- Where no entry has to go, `cache_ensure_memory` does nothing. -/
theorem cacheEnsureMemory_of_not_mustEvict (h : ¬ MustEvict c size) :
    ∃ ok, Locking.cacheEnsureMemory size ⟨c, []⟩ = .ok (ok, ⟨c, []⟩) ∧
      cacheEnsureMemory c size = some (ok, c) := by
  cases hneeded : c.neededMemory size with
  | none =>
    refine ⟨true, ?_, ?_⟩
    · simp [Locking.cacheEnsureMemory, hneeded]
      rfl
    · rw [cacheEnsureMemory, hneeded]
  | some needed =>
    have hempty : c.lru = [] := by
      by_contra hlru
      exact h ⟨by rw [hneeded]; exact Option.some_ne_none needed, hlru⟩
    have hpos := neededMemory_pos hneeded
    refine ⟨false, ?_, ?_⟩
    · simp [Locking.cacheEnsureMemory, Locking.cacheFreeMemory, hneeded, hempty, hpos]
      rfl
    · simp [cacheEnsureMemory, cacheFreeMemory, hneeded, hempty, hpos]

/-- The first eviction acquires the lock of the cache once more. -/
theorem cacheEnsureMemory_of_mustEvict (hwf : WellFormed c outside) (h : MustEvict c size) :
    Locking.cacheEnsureMemory size ⟨c, []⟩ = .error (.relock .cache) := by
  obtain ⟨hneeded, hlru⟩ := h
  obtain ⟨needed, hneeded⟩ := Option.ne_none_iff_exists'.mp hneeded
  have hpos := neededMemory_pos hneeded
  obtain ⟨id, hlast⟩ : ∃ id, c.lru.getLast? = some id := ⟨_, List.getLast?_eq_some_getLast hlru⟩
  obtain ⟨entry, hentry, -⟩ := hwf.find_of_lru (List.mem_of_getLast? hlast)
  simp [Locking.cacheEnsureMemory, Locking.cacheFreeMemory, Locking.cacheRemoveEntry, hneeded, hpos,
    hlast, hentry]

theorem cacheEntryAppendData_refines (id : EntryId) {bytes : Bytes}
    (h : ¬ MustEvict c (UInt64.ofNat bytes.length)) :
    Locking.cacheEntryAppendData id bytes ⟨c, []⟩ = atomicallyUnit (cacheEntryAppendData c id bytes) := by
  obtain ⟨ok, hlocked, hatomic⟩ := cacheEnsureMemory_of_not_mustEvict h
  cases hentry : c.heap id with
  | none | some entry =>
    simp [Locking.cacheEntryAppendData, cacheEntryAppendData, hlocked, hatomic, hentry, atomicallyUnit]

theorem disciplined_atomicallyUnit (result : Option Cache) : Disciplined (atomicallyUnit result) := by
  cases result with
  | none => trivial
  | some c => rfl

theorem disciplined_atomically (result : Option (α × Cache)) :
    Disciplined ((atomically result).map Prod.snd) := by
  cases result with
  | none => trivial
  | some r => rfl

theorem append_disciplined_iff (hwf : WellFormed c outside) (id : EntryId) (bytes : Bytes) :
    Disciplined (Locking.cacheEntryAppendData id bytes ⟨c, []⟩) ↔
      ¬ MustEvict c (UInt64.ofNat bytes.length) := by
  constructor
  · intro hdisciplined hevict
    rw [Locking.cacheEntryAppendData, cacheEnsureMemory_of_mustEvict hwf hevict] at hdisciplined
    exact hdisciplined
  · intro hnot
    rw [cacheEntryAppendData_refines id hnot]
    exact disciplined_atomicallyUnit _

/-! ### proxy_send_response_from_cache -/

/-- Every send that the loop makes succeeds; `c` is the cache at its head. -/
def SendsSucceed (id : EntryId) : (sentTotal : Nat) → List Locking.Round → Cache → Prop
  | _, [], _ => True
  | sentTotal, round :: rounds, c =>
    match c.heap id with
    | none => True
    | some entry => (sentTotal < entry.data.length → round.sent = .all) ∧
        (sentTotal ≤ entry.data.length → ¬ entry.isFinished →
          SendsSucceed id entry.data.length rounds round.woken)

theorem sendsSucceed_of_dangling (h : c.heap id = none) (sentTotal : Nat) (rounds : List Locking.Round) :
    SendsSucceed id sentTotal rounds c := by
  cases rounds with
  | nil => trivial
  | cons round rounds =>
    rw [SendsSucceed, h]
    trivial

/-- What `proxy_main` does behind `proxy_send_response_from_cache`. -/
def putBehind (id : EntryId) : Option Bool × Locked → Except Fault Locked
  | (none, s) => .ok s
  | (some _, s) => Locking.cacheEntryPut id s

theorem serve_disciplined_iff (id : EntryId) (rounds : List Locking.Round) (sentTotal : Nat) (c : Cache) :
    Disciplined (Locking.proxySendResponseFromCache id sentTotal rounds ⟨c, []⟩ >>= putBehind id) ↔
      SendsSucceed id sentTotal rounds c := by
  induction rounds generalizing sentTotal c with
  | nil => exact iff_of_true rfl trivial
  | cons round rounds ih =>
    cases hentry : c.heap id with
    | none =>
      apply iff_of_true _ (sendsSucceed_of_dangling hentry _ _)
      simp [Locking.proxySendResponseFromCache, Locking.cacheEntryReadBegin, hentry, Disciplined]
    | some entry =>
      rw [SendsSucceed, hentry]
      by_cases hshrunk : entry.data.length < sentTotal
      · apply iff_of_true
        · simp [Locking.proxySendResponseFromCache, Locking.cacheEntryReadBegin, hentry, hshrunk,
            Disciplined]
        · constructor <;> intro <;> omega
      · by_cases hfails : sentTotal ≠ entry.data.length ∧ round.sent ≠ .all
        · -- the function returns with the lock of the entry held, and `cache_entry_put` acquires it
          apply iff_of_false
          · simp [Locking.proxySendResponseFromCache, Locking.cacheEntryReadBegin, hentry, hshrunk,
              hfails, putBehind, Locking.cacheEntryPut, Disciplined]
          · intro h
            exact hfails.2 (h.1 (by omega))
        · have hsent : sentTotal < entry.data.length → round.sent = .all := by
            intro hlt
            by_contra hnot
            exact hfails ⟨Nat.ne_of_lt hlt, hnot⟩
          by_cases hfinished : entry.isFinished
          · have hput := disciplined_atomicallyUnit (cacheEntryPut c id)
            rw [← cacheEntryPut_refines] at hput
            apply iff_of_true _ ⟨hsent, fun _ h => absurd hfinished h⟩
            simpa [Locking.proxySendResponseFromCache, Locking.cacheEntryReadBegin,
              Locking.cacheEntryReadEnd,
              Locking.cacheEntryWait, hentry, hshrunk, hfails, hfinished, putBehind] using hput
          · cases hwoken : round.woken.heap id with
            | none =>
              apply iff_of_true _ ⟨hsent, fun _ _ => sendsSucceed_of_dangling hwoken _ _⟩
              simp [Locking.proxySendResponseFromCache, Locking.cacheEntryReadBegin,
                Locking.cacheEntryReadEnd,
                Locking.cacheEntryWait, hentry, hshrunk, hfails, hfinished, hwoken, Disciplined]
            | some later =>
              have hnext := ih entry.data.length round.woken
              have hround : Locking.proxySendResponseFromCache id sentTotal (round :: rounds) ⟨c, []⟩ =
                  Locking.proxySendResponseFromCache id entry.data.length rounds ⟨round.woken, []⟩ := by
                simp [Locking.proxySendResponseFromCache, Locking.cacheEntryReadBegin,
                  Locking.cacheEntryReadEnd, Locking.cacheEntryWait, hentry, hshrunk, hfails,
                    hfinished, hwoken]
              rw [hround, hnext]
              constructor
              · exact fun h => ⟨hsent, fun _ _ => h⟩
              · exact fun h => h.2 (Nat.le_of_not_lt hshrunk) hfinished

/-! ### All call chains -/

/-- What a chain needs to keep the discipline. -/
def Chain.Safe (c : Cache) : Chain → Prop
  | append _ bytes => ¬ MustEvict c (UInt64.ofNat bytes.length)
  | serve id rounds => SendsSucceed id 0 rounds c
  | _ => True

/-- In every reachable state of the cache, a chain keeps the lock discipline if and only if it does
    not append data at the expense of an entry and every send of a response from the cache succeeds. -/
theorem chain_disciplined_iff (maxSizeBytes : UInt64) (calls : List CacheCall) (u : Usage)
    (hrun : run Usage.step (.initial maxSizeBytes) calls = some u) (chain : Chain) :
    Disciplined (chain.run ⟨u.cache, []⟩) ↔ chain.Safe u.cache := by
  have hwf : u.WellFormed := run_preserves usage_wellFormed_step (usage_wellFormed_initial maxSizeBytes) hrun
  cases chain with
  | get key =>
    rw [Chain.run, cacheGetEntry_refines]
    exact iff_of_true (disciplined_atomically _) trivial
  | add key =>
    rw [Chain.run, cacheAddEntry_refines]
    exact iff_of_true (disciplined_atomically _) trivial
  | append id bytes => exact append_disciplined_iff hwf id bytes
  | finished id =>
    rw [Chain.run, cacheEntryFinished_refines]
    exact iff_of_true (disciplined_atomicallyUnit _) trivial
  | remove key =>
    rw [Chain.run, cacheRemoveEntry_refines]
    exact iff_of_true (disciplined_atomically _) trivial
  | serve id rounds => exact serve_disciplined_iff id rounds 0 u.cache

theorem chain_disciplined_iff_append :
    ∃ u, run Usage.step (.initial 100) [.add [71, 69, 84]] = some u ∧
      Disciplined ((Chain.append 0 [1, 2, 3]).run ⟨u.cache, []⟩) := by
  have hrun : run Usage.step (.initial 100) [.add [71, 69, 84]] = some _ := rfl
  refine ⟨_, hrun, (chain_disciplined_iff 100 _ _ hrun (.append 0 [1, 2, 3])).mpr ?_⟩
  exact fun hevict => hevict.1 rfl

/-- Data that needs room in a full cache acquires the lock of the cache twice; a response from the
    cache whose send fails keeps the lock of its entry, which `cache_entry_put` acquires again. -/
theorem locks_reacquired :
    (∃ u, run Usage.step (.initial 2) [.add [71, 69, 84]] = some u ∧
      (Chain.append 0 [1, 2, 3]).run ⟨u.cache, []⟩ = .error (.relock .cache)) ∧
    ∃ u, run Usage.step (.initial 100) [.add [71, 69, 84], .append 0 [1], .get [71, 69, 84]] = some u ∧
      (Chain.serve 0 [⟨.failed, u.cache⟩]).run ⟨u.cache, []⟩ = .error (.relock (.entry 0)) :=
  ⟨⟨_, rfl, rfl⟩, ⟨_, rfl, rfl⟩⟩

end NsuLabs.HttpProxy

/-
Module: NsuLabs.HttpProxy.Proofs.ReferenceCounts
Purpose: The reference count of a cache entry is the number of its holders, and the entry is destroyed once.
Trusted boundary: none
Main exports: references_sound_iff
-/
import NsuLabs.HttpProxy.Proofs.EntryLifecycle

namespace NsuLabs.HttpProxy

open Lib List Option

/-- A call that goes through. -/
def Usage.performed (u : Usage) (call : CacheCall) : Option Usage := (u.perform call).toOption

/-- The reference of the map, and those of the appending side and of the readers. -/
def Usage.references (u : Usage) (id : EntryId) : Nat :=
  u.cache.ids.count id + u.appending.count id + u.readers.count id

/-- The key that is added is not in the map. -/
def AddsNew (u : Usage) : CacheCall → Prop
  | .add key => u.cache.find key = none
  | _ => True

instance (u : Usage) : (call : CacheCall) → Decidable (AddsNew u call)
  | .add key => inferInstanceAs (Decidable (u.cache.find key = none))
  | .get _ | .append _ _ | .finished _ | .put _ | .remove _ => isTrue trivial

/-- Whether the entry has not been freed, as a number. -/
def Usage.alive (u : Usage) (id : EntryId) : Nat := if (u.cache.heap id).isSome then 1 else 0

/-- How often the entry is destroyed in a history of calls. -/
def destructions (id : EntryId) : Usage → List CacheCall → Nat
  | _, [] => 0
  | u, call :: calls =>
    match u.performed call with
    | none => 0
    | some u' => (if u.alive id = 1 ∧ u'.alive id = 0 then 1 else 0) + destructions id u' calls

/-! ### The calls that go through -/

section

variable {u u' : Usage} {call : CacheCall} {id : EntryId} {key : Bytes}

/-- `EEXIST` never gets to the caller. -/
theorem performed_eq_step (u : Usage) (call : CacheCall) : u.performed call = u.step call := by
  cases call with
  | add key =>
    rw [Usage.performed, Usage.perform, Usage.step, References.cacheAddEntry, cacheAddEntry]
    cases hfind : u.cache.find key with
    | none => rfl
    | some id =>
      dsimp only
      cases u.cache.heap id with
      | none => rfl
      | some entry => rfl
  | get _ | append _ _ | finished _ | put _ | remove _ =>
    rw [Usage.performed, Usage.perform]
    · split
      case h_1 u' hstep =>
        rw [hstep]
        rfl
      case h_2 hstep =>
        rw [hstep]
        rfl
    · intro key hadd
      cases hadd

theorem cacheEnsureMemory_isSome {c : Cache} {outside : EntryId → Nat} (h : WellFormed c outside)
    (size : UInt64) : ∃ ok c', cacheEnsureMemory c size = some (ok, c') := by
  rw [cacheEnsureMemory]
  split
  case h_1 needed _ =>
    have hends : (cacheFreeMemory needed (c.lru.length + 1) 0 c).isSome :=
      cacheFreeMemory_isSome h (Nat.lt_succ_self _)
    obtain ⟨⟨ok, c'⟩, hfree⟩ := isSome_iff_exists.mp hends
    exact ⟨ok, c', hfree⟩
  case h_2 => exact ⟨true, c, rfl⟩

/-- A permitted call goes through, unless it adds a key that is in the map. -/
theorem step_enabled_iff (u : Usage) (call : CacheCall) (h : u.WellFormed) (hpermitted : Permitted u call) :
    (∃ u', u.step call = some u') ↔ AddsNew u call := by
  cases call with
  | add key =>
    rw [AddsNew, Usage.step, cacheAddEntry]
    cases u.cache.find key with
    | none => exact iff_of_true ⟨_, rfl⟩ rfl
    | some id =>
      apply iff_of_false
      · rintro ⟨u', hstep⟩
        cases hstep
      · exact some_ne_none id
  | get key =>
    refine iff_of_true ?_ trivial
    rw [Usage.step, cacheGetEntry]
    cases hfind : u.cache.find key with
    | none => exact ⟨_, rfl⟩
    | some id =>
      obtain ⟨entry, hentry, -⟩ := h.entries key id (find_mem hfind)
      dsimp only
      rw [hentry]
      exact ⟨_, rfl⟩
  | append id bytes =>
    rw [Permitted] at hpermitted
    refine iff_of_true ?_ trivial
    obtain ⟨ok, c₁, hensure⟩ := cacheEnsureMemory_isSome h (UInt64.ofNat bytes.length)
    -- the appending side keeps its reference while room is made
    have h₁ := wellFormed_ensureMemory h hensure
    obtain ⟨entry, hentry⟩ := h₁.alive (Nat.add_pos_left (count_pos_iff.mpr hpermitted.1) _)
    rw [Usage.step, if_pos hpermitted, cacheEntryAppendData, hensure]
    dsimp only
    rw [hentry]
    exact ⟨_, rfl⟩
  | finished id =>
    rw [Permitted] at hpermitted
    refine iff_of_true ?_ trivial
    obtain ⟨entry, hentry⟩ := h.alive (Nat.add_pos_left (count_pos_iff.mpr hpermitted) _)
    rw [Usage.step, if_pos hpermitted, cacheEntryFinished, hentry]
    exact ⟨_, rfl⟩
  | put id =>
    rw [Permitted] at hpermitted
    refine iff_of_true ?_ trivial
    obtain ⟨entry, hentry⟩ := h.alive (Nat.add_pos_right _ (count_pos_iff.mpr hpermitted))
    rw [Usage.step, if_pos hpermitted, cacheEntryPut, hentry]
    exact ⟨_, rfl⟩
  | remove key =>
    refine iff_of_true ?_ trivial
    rw [Usage.step, cacheRemoveEntry]
    cases hfind : u.cache.find key with
    | none => exact ⟨_, rfl⟩
    | some id =>
      obtain ⟨entry, hentry, -⟩ := h.entries key id (find_mem hfind)
      dsimp only
      rw [hentry]
      exact ⟨_, rfl⟩

end

/-! ### Entries that are freed -/

/-- No entry comes into being. -/
structure Survives (c c' : Cache) : Prop where
  next : c'.next = c.next
  freed : ∀ id, c.heap id = none → c'.heap id = none

section

variable {c c' c'' : Cache} {id : EntryId} {entry : CacheEntry}

theorem Survives.refl (c : Cache) : Survives c c := ⟨rfl, fun _ h => h⟩

theorem Survives.trans (h : Survives c c') (h' : Survives c' c'') : Survives c c'' :=
  ⟨h'.next.trans h.next, fun id hid => h'.freed id (h.freed id hid)⟩

theorem survives_setEntry (hheap : c'.heap = c.heap) (hnext : c'.next = c.next)
    (hentry : c.heap id = some entry) (x : Option CacheEntry) : Survives c (c'.setEntry id x) := by
  refine ⟨hnext, fun other hother => ?_⟩
  rw [heap_setEntry, if_neg, hheap, hother]
  rintro rfl
  cases hentry.symm.trans hother

theorem survives_dropRef (hheap : c'.heap = c.heap) (hnext : c'.next = c.next)
    (hentry : c.heap id = some entry) (left : CacheEntry) : Survives c (c'.dropRef id left) := by
  obtain ⟨x, hdrop, -⟩ := dropRef_eq c' id left
  rw [hdrop]
  exact survives_setEntry hheap hnext hentry x

theorem survives_remove {key : Bytes} {ok : Bool} (hremove : cacheRemoveEntry c key = some (ok, c')) :
    Survives c c' := by
  rcases cacheRemoveEntry_cases hremove with ⟨-, rfl⟩ | ⟨id, entry, -, hentry, rfl⟩
  · exact .refl _
  · exact survives_dropRef (by rfl) (by rfl) hentry entry

end

section

variable {u u' : Usage} {call : CacheCall}

/-- A call other than `cache_add_entry` brings no entry into being, and `cache_add_entry` brings
    one. -/
theorem step_survives (hstep : u.step call = some u') :
    Survives u.cache u'.cache ∨
      u'.cache.next = u.cache.next + 1 ∧ (u'.cache.heap u.cache.next).isSome ∧
        ∀ id, id ≠ u.cache.next → u'.cache.heap id = u.cache.heap id := by
  cases Usage.steps hstep with
  | add hfind =>
    right
    refine ⟨rfl, ?_, fun other hother => ?_⟩
    · rw [heap_setEntry, if_pos rfl]
      rfl
    · rw [heap_setEntry, if_neg hother]
      rfl
  | getNone | removeNone => exact .inl (.refl _)
  | get hfind hentry => exact .inl (survives_setEntry (by rfl) (by rfl) hentry _)
  | @append id bytes ok c₁ entry hmem hlength hensure hentry =>
    have hroom : Survives u.cache c₁ :=
      cacheEnsureMemory_keeps (fun _ _ _ _ h hremove => h.trans (survives_remove hremove))
        (.refl u.cache) hensure
    exact .inl (hroom.trans (survives_setEntry (by rfl) (by rfl) hentry _))
  | finished hmem hentry | put hmem hentry | remove hfind hentry =>
      exact .inl (survives_dropRef (by rfl) (by rfl) hentry _)

/-- Whether the address is one of those from `lo` up to `hi`, as a number. -/
def born (lo hi id : Nat) : Nat := if lo ≤ id ∧ id < hi then 1 else 0

theorem born_self (lo id : Nat) : born lo lo id = 0 := if_neg (by omega)

theorem born_succ (lo id : Nat) : born lo (lo + 1) id = if id = lo then 1 else 0 := by
  simp only [born]
  split_ifs <;> omega

theorem born_add {lo mid hi : Nat} (hlo : lo ≤ mid) (hhi : mid ≤ hi) (id : Nat) :
    born lo mid id + born mid hi id = born lo hi id := by
  simp only [born]
  split_ifs <;> omega

theorem alive_le_one (u : Usage) (id : EntryId) : u.alive id ≤ 1 := by
  rw [Usage.alive]
  split_ifs <;> omega

theorem alive_eq_zero_iff {id : EntryId} : u.alive id = 0 ↔ u.cache.heap id = none := by
  rw [Usage.alive]
  cases u.cache.heap id with
  | none => exact iff_of_true rfl rfl
  | some entry => exact iff_of_false Nat.one_ne_zero (some_ne_none entry)

/-- One call: an entry that was there, or is new, is destroyed or is still there. -/
theorem step_alive (h : u.WellFormed) (hstep : u.step call = some u') (id : EntryId) :
    u.cache.next ≤ u'.cache.next ∧
      (if u.alive id = 1 ∧ u'.alive id = 0 then 1 else 0) + u'.alive id =
        u.alive id + born u.cache.next u'.cache.next id := by
  have hle := alive_le_one u id
  have hle' := alive_le_one u' id
  rcases step_survives hstep with ⟨hnext, hfreed⟩ | ⟨hnext, hnew, hothers⟩
  · have hstays : u.alive id = 0 → u'.alive id = 0 := by
      rw [alive_eq_zero_iff, alive_eq_zero_iff]
      exact hfreed id
    rw [hnext, born_self]
    refine ⟨Nat.le_refl _, ?_⟩
    split_ifs <;> omega
  · rw [hnext, born_succ]
    refine ⟨Nat.le_succ _, ?_⟩
    split_ifs with hdestroyed hid hid
    · subst hid
      have hafter : u'.alive u.cache.next = 1 := if_pos hnew
      omega
    · have hsame : u'.alive id = u.alive id := by rw [Usage.alive, Usage.alive, hothers id hid]
      omega
    · subst hid
      have hbefore : u.alive u.cache.next = 0 := alive_eq_zero_iff.mpr (h.fresh _ (Nat.le_refl _))
      have hafter : u'.alive u.cache.next = 1 := if_pos hnew
      omega
    · have hsame : u'.alive id = u.alive id := by rw [Usage.alive, Usage.alive, hothers id hid]
      omega

/-- A whole history: an entry that was there, or is made in it, is destroyed once in it or is still
    there. -/
theorem destructions_add_alive {calls : List CacheCall} (h : u.WellFormed)
    (hrun : run Usage.performed u calls = some u') (id : EntryId) :
    u.cache.next ≤ u'.cache.next ∧
      destructions id u calls + u'.alive id = u.alive id + born u.cache.next u'.cache.next id := by
  induction calls generalizing u with
  | nil =>
    cases hrun
    rw [destructions, born_self, Nat.zero_add, Nat.add_zero]
    exact ⟨Nat.le_refl _, rfl⟩
  | cons call calls ih =>
    obtain ⟨u₁, hfirst, hrest⟩ := run_cons hrun
    have hstep := (performed_eq_step u call).symm.trans hfirst
    obtain ⟨hnext, halive⟩ := step_alive h hstep id
    obtain ⟨hnext', halive'⟩ := ih (usage_wellFormed_step u call u₁ h hstep) hrest
    have hborn := born_add hnext hnext' id
    refine ⟨hnext.trans hnext', ?_⟩
    rw [destructions, hfirst]
    dsimp only
    omega

end

/-! ### Histories of permitted calls -/

/-- What the references of a history that goes through are counted and kept for. -/
structure ReferencesSound (maxSizeBytes : UInt64) (calls : List CacheCall) (u : Usage) : Prop where
  /-- The count is the number of the holders. -/
  counted : ∀ id entry, u.cache.heap id = some entry → entry.refCount = u.references id
  /-- An entry that has been made is destroyed once when nobody holds it any more, and not before. -/
  destroyed : ∀ id < u.cache.next,
    destructions id (.initial maxSizeBytes) calls = if u.references id = 0 then 1 else 0

theorem references_eq_refCountAt {u : Usage} (h : u.WellFormed) (id : EntryId) :
    u.cache.refCountAt id = u.references id := by
  rw [h.refs id, Usage.outside, Usage.references, Nat.add_assoc]

theorem referencesSound_of_run {maxSizeBytes : UInt64} {calls : List CacheCall} {u : Usage}
    (hrun : run Usage.performed (.initial maxSizeBytes) calls = some u) :
      ReferencesSound maxSizeBytes calls u := by
  have hinitial := usage_wellFormed_initial maxSizeBytes
  have hrun' : run Usage.step (.initial maxSizeBytes) calls = some u := by
    rw [← hrun, funext fun u => funext (performed_eq_step u)]
  have h : u.WellFormed := run_preserves usage_wellFormed_step hinitial hrun'
  constructor
  · intro id entry hentry
    rw [← references_eq_refCountAt h, Cache.refCountAt, hentry]
    rfl
  · intro id hid
    obtain ⟨-, hsum⟩ := destructions_add_alive hinitial hrun id
    have hbefore : (Usage.initial maxSizeBytes).alive id = 0 := rfl
    have hborn : born (Usage.initial maxSizeBytes).cache.next u.cache.next id = 1 :=
      if_pos ⟨Nat.zero_le id, hid⟩
    rw [hbefore, hborn] at hsum
    have hle := alive_le_one u id
    have hrefs := references_eq_refCountAt h id
    split_ifs with hzero
    · -- nobody holds the entry, so it is not there
      have hnone : u.alive id = 0 := by
        rw [alive_eq_zero_iff]
        cases hentry : u.cache.heap id with
        | none => rfl
        | some entry =>
          have hpositive := h.positive id entry hentry
          rw [Cache.refCountAt, hentry, hzero] at hrefs
          exact absurd hrefs hpositive.ne'
      omega
    · have hthere : u.alive id ≠ 0 := by
        rw [Ne, alive_eq_zero_iff]
        intro hnone
        rw [Cache.refCountAt, hnone] at hrefs
        exact hzero hrefs.symm
      omega

/-- In every history of permitted calls: all calls go through, every count is the number of the
    holders, and every entry is destroyed once, when the last holder gives it up, if and only if no
    call adds a key that is in the map. -/
theorem references_sound_iff (maxSizeBytes : UInt64) (calls : List CacheCall)
    (hpermitted : EveryStep Usage.performed Permitted (.initial maxSizeBytes) calls) :
    (∃ u, run Usage.performed (.initial maxSizeBytes) calls = some u ∧
      ReferencesSound maxSizeBytes calls u) ↔
      EveryStep Usage.performed AddsNew (.initial maxSizeBytes) calls := by
  have hends := exists_run_iff_everyStep
    (fun u call u' h hstep =>
      usage_wellFormed_step u call u' h ((performed_eq_step u call).symm.trans hstep))
    (fun u call h hcall => (performed_eq_step u call ▸ step_enabled_iff u call h hcall :))
    (usage_wellFormed_initial maxSizeBytes) hpermitted
  rw [← hends]
  constructor
  · rintro ⟨u, hrun, -⟩
    exact ⟨u, hrun⟩
  · rintro ⟨u, hrun⟩
    exact ⟨u, hrun, referencesSound_of_run hrun⟩

/-- An entry is added, read and removed, and the reader is the last one to give it back. -/
theorem references_sound_reader :
    ∃ u, run Usage.performed (.initial 100)
        [.add [71], .get [71], .append 0 [1, 2], .finished 0, .remove [71], .put 0] = some u ∧
      ReferencesSound 100 [.add [71], .get [71], .append 0 [1, 2], .finished 0, .remove [71], .put 0] u := by
  have hpermitted : EveryStep Usage.performed Permitted (.initial 100)
      [.add [71], .get [71], .append 0 [1, 2], .finished 0, .remove [71], .put 0] := by decide +kernel
  have hnew : EveryStep Usage.performed AddsNew (.initial 100)
      [.add [71], .get [71], .append 0 [1, 2], .finished 0, .remove [71], .put 0] := by decide +kernel
  exact (references_sound_iff 100 _ hpermitted).mpr hnew

/-- Two clients add the same key: the entry of the second one is destroyed through a null pointer. -/
theorem references_duplicate :
    EveryStep Usage.performed Permitted (.initial 100) [.add [71], .add [71]] ∧
      (∃ u, run Usage.performed (.initial 100) [.add [71]] = some u ∧
        u.perform (.add [71]) = .error .nullKey) ∧
      ¬ ∃ u, run Usage.performed (.initial 100) [.add [71], .add [71]] = some u ∧
        ReferencesSound 100 [.add [71], .add [71]] u := by
  refine ⟨by decide +kernel, ⟨_, rfl, rfl⟩, ?_⟩
  rintro ⟨u, hrun, -⟩
  cases hrun

end NsuLabs.HttpProxy

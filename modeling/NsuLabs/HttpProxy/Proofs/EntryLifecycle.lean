/-
Module: NsuLabs.HttpProxy.Proofs.EntryLifecycle
Purpose: What becomes of the cache entry that a client adds, in every run of the proxy: when the client is
  done with a proper response, the entry is closed, and in the cache only with the whole response, exactly if
  the client has got as far as forwarding it.
Trusted boundary: none
Main exports: entry_settled_iff, proxy_entries_owned
-/
import NsuLabs.HttpProxy.Clients
import NsuLabs.HttpProxy.Proofs.ChunkedForwarding
import NsuLabs.HttpProxy.Proofs.LockDiscipline

namespace NsuLabs.HttpProxy

open Lib List Option

variable {client client' : Client} {mode : Mode} {response : Response} {stage : Stage}
  {event : Event} {ending : Ending}
  {i j : Nat} {w : ProxyWorld}

/-! ### What is said about an entry -/

/-- The entry that the client has added. -/
def Client.entry : Client → Option EntryId
  | connecting entry _ | sendingRequest entry _ | receivingHeader entry _ | forwarding entry _ _ _ _
  | finishing entry _ _ _ | removing entry _ _ | done entry _ => entry
  | receivingRequest | lookingUp _ | adding _ | serving _ => none

def Usage.Unfinished (u : Usage) (id : EntryId) : Prop :=
  ∃ entry, u.cache.heap id = some entry ∧ ¬ entry.isFinished

/-- The entry is finished, or freed, and its appending side has given its reference back. -/
def Usage.Closed (u : Usage) (id : EntryId) : Prop :=
  id ∉ u.appending ∧ ∀ entry, u.cache.heap id = some entry → entry.isFinished

/-- What has been received of the body. -/
def Response.body (r : Response) : Bytes := (r.head ++ r.tail).drop r.headerLen

/-- The whole response has been received, as its headers announce it. -/
def Response.Whole (r : Response) : Prop :=
  match announced r.headers with
  | (true, _) => ∃ body : ChunkedBody, r.body = wireBytes body.wire
  | (false, .ok (some contentLength)) => contentLength ≤ r.body.length
  | (false, .ok none) => r.closed
  | (false, .error _) => False

/-- The client that has added the entry is done with it, and it is in the cache only with the whole
    response. -/
def Settled (u : Usage) (id : EntryId) (ending : Ending) : Prop :=
  u.Closed id ∧ (id ∈ u.cache.ids → ∃ response, ending = .forwarded true response ∧ response.Whole)

/-- The headers that delimit the body are spelled as the proxy expects them, and the host sends
    nothing but well-formed chunks where it announces chunks. -/
structure Response.Proper (r : Response) : Prop where
  encoding : Spelled r.headers transferEncoding
  length : Spelled r.headers contentLength
  chunks : (announced r.headers).1 = true →
    ∃ body : ChunkedBody, (wireBytes body.wire).length < 2 ^ 31 ∧ r.body <+: wireBytes body.wire

def Ending.Proper : Ending → Prop
  | forwarded true response => response.Proper
  | _ => True

/-- The entry waits for its appending side, which has one reference to give back. -/
def Usage.Pending (u : Usage) (id : EntryId) : Prop := u.appending.count id = 1 ∧ u.Unfinished id

/-- The appending side is at work, and the entry is in the map. -/
def Usage.Open (u : Usage) (id : EntryId) (key : Bytes) : Prop := u.Pending id ∧ (key, id) ∈ u.cache.map

/-- What holds of the entry of a client, at each place of `proxy_main`. -/
def Client.Holds (u : Usage) : Client → Prop
  | connecting (some id) key | sendingRequest (some id) key | receivingHeader (some id) key
  | forwarding (some id) key _ _ _ | finishing (some id) key _ _ | removing (some id) key .headerFailed =>
    u.Open id key
  | removing (some id) key (.forwarded _ _) => u.Closed id ∧ (key, id) ∈ u.cache.map
  | removing _ _ _ => False
  | done (some id) (.forwarded complete _) => u.Closed id ∧ (id ∈ u.cache.ids → complete)
  | done (some _) .withoutHost => False
  | done (some id) _ => u.Pending id
  | _ => True

/-! ### Calls that leave an entry alone -/

/-- Nothing changes for the appending side of the entry; the entry may be freed. -/
structure Kept (u u' : Usage) (id : EntryId) : Prop where
  appending : u'.appending.count id = u.appending.count id
  flag : ∀ entry', u'.cache.heap id = some entry' → ∃ entry, u.cache.heap id = some entry ∧
    entry.isFinished = entry'.isFinished

/-- Nothing changes for its place in the map either. -/
structure Untouched (u u' : Usage) (id : EntryId) : Prop extends Kept u u' id where
  slots : ∀ key, (key, id) ∈ u'.cache.map ↔ (key, id) ∈ u.cache.map

section

variable {u u' : Usage} {id : EntryId} {key : Bytes}

theorem alive_of_appending (h : u.WellFormed) (hmem : id ∈ u.appending) :
    ∃ entry, u.cache.heap id = some entry :=
  WellFormed.alive h (Nat.add_pos_left (count_pos_iff.mpr hmem) _)

theorem Untouched.mem_ids (h : Untouched u u' id) : id ∈ u'.cache.ids ↔ id ∈ u.cache.ids := by
  simp only [Cache.ids, List.mem_map, Prod.exists, exists_eq_right, h.slots]

theorem Kept.closed (h : Kept u u' id) (hclosed : u.Closed id) : u'.Closed id := by
  refine ⟨?_, fun entry' hentry' => ?_⟩
  · apply count_eq_zero.mp
    rw [h.appending]
    exact count_eq_zero.mpr hclosed.1
  · obtain ⟨entry, hentry, hflag⟩ := h.flag entry' hentry'
    exact hflag ▸ hclosed.2 entry hentry

theorem Kept.pending (h : Kept u u' id) (hwf' : u'.WellFormed) (hpending : u.Pending id) :
    u'.Pending id := by
  have hcount : u'.appending.count id = 1 := h.appending.trans hpending.1
  obtain ⟨entry', hentry'⟩ := alive_of_appending hwf' (count_pos_iff.mp (hcount ▸ Nat.one_pos))
  obtain ⟨entry, hentry, hflag⟩ := h.flag entry' hentry'
  obtain ⟨old, hold, hnot⟩ := hpending.2
  rw [hentry] at hold
  cases hold
  exact ⟨hcount, entry', hentry', hflag ▸ hnot⟩

theorem Untouched.isOpen (h : Untouched u u' id) (hwf' : u'.WellFormed) (hopen : u.Open id key) :
    u'.Open id key :=
  ⟨h.pending hwf' hopen.1, (h.slots key).mpr hopen.2⟩

/-- What a client knows of its entry stays true while others leave the entry alone. -/
theorem Client.Holds.untouched (hholds : client.Holds u) (hwf' : u'.WellFormed)
    (h : ∀ id, client.entry = some id → Untouched u u' id) : client.Holds u' := by
  cases client with
  | receivingRequest | lookingUp | adding | serving => trivial
  | connecting entry key | sendingRequest entry key | receivingHeader entry key | forwarding entry key _ _ _
  | finishing entry key _ _ =>
    cases entry with
    | none => trivial
    | some id => exact (h id rfl).isOpen hwf' hholds
  | removing entry key ending =>
    cases entry with
    | none => exact hholds
    | some id =>
      cases ending with
      | headerFailed => exact (h id rfl).isOpen hwf' hholds
      | forwarded => exact ⟨(h id rfl).closed hholds.1, ((h id rfl).slots key).mpr hholds.2⟩
      | _ => exact hholds
  | done entry ending =>
    cases entry with
    | none => trivial
    | some id =>
      cases ending with
      | forwarded complete =>
        exact ⟨(h id rfl).closed hholds.1, fun hmem => hholds.2 ((h id rfl).mem_ids.mp hmem)⟩
      | withoutHost => exact hholds
      | _ => exact (h id rfl).pending hwf' hholds

theorem Untouched.refl (u : Usage) (id : EntryId) : Untouched u u id :=
  ⟨⟨rfl, fun entry h => ⟨entry, h, rfl⟩⟩, fun _ => Iff.rfl⟩

/-- What a call of the cache does to the entries that it is not about. -/
structure Frame (u u' : Usage) (own : Option EntryId) : Prop where
  untouched : ∀ id, own ≠ some id → Untouched u u' id
  next : u.cache.next ≤ u'.cache.next
  ids : ∀ id ∈ u'.cache.ids, id ∈ u.cache.ids ∨ own = some id

theorem Frame.refl (u : Usage) (own : Option EntryId) : Frame u u own :=
  ⟨fun id _ => Untouched.refl u id, Nat.le_refl _, fun _ h => .inl h⟩

theorem Frame.weaken (h : Frame u u' none) (own : Option EntryId) : Frame u u' own :=
  ⟨fun id _ => h.untouched id nofun, h.next, fun id hid => (h.ids id hid).imp_right fun hnone =>
    nomatch hnone⟩

theorem frame_setEntry {c : Cache} {x : Option CacheEntry} {appending readers : List EntryId}
    {own : Option EntryId}
    (happending : ∀ other, own ≠ some other → appending.count other = u.appending.count other)
    (hheap : c.heap = u.cache.heap) (hnext : u.cache.next ≤ c.next)
    (hflag : own ≠ some id → ∀ left, x = some left →
      ∃ entry, u.cache.heap id = some entry ∧ entry.isFinished = left.isFinished)
    (hslots : ∀ key other, own ≠ some other → ((key, other) ∈ c.map ↔ (key, other) ∈ u.cache.map)) :
    Frame u ⟨c.setEntry id x, appending, readers⟩ own := by
  refine ⟨fun other hown =>
    ⟨⟨happending other hown, fun entry' hentry' => ?_⟩, fun key => hslots key other hown⟩, hnext,
    fun other hother => ?_⟩
  · rw [heap_setEntry] at hentry'
    split_ifs at hentry' with hid
    · subst hid
      exact hflag hown entry' hentry'
    · exact ⟨entry', hheap ▸ hentry', rfl⟩
  · obtain ⟨⟨key, id'⟩, hmem, rfl⟩ := List.mem_map.mp hother
    by_cases hown : own = some id'
    · exact .inr hown
    · exact .inl (List.mem_map_of_mem ((hslots key id' hown).mp hmem))

/-- The entry whose appending side or place in the map changes. -/
def Usage.own (u : Usage) : CacheCall → Option EntryId
  | .add _ => some u.cache.next
  | .finished id => some id
  | .remove key => u.cache.find key
  | .get _ | .append _ _ | .put _ => none

/-- No entry has to be evicted for the call. -/
def Usage.HasRoom (u : Usage) : CacheCall → Prop
  | .append _ bytes => ¬ MustEvict u.cache (UInt64.ofNat bytes.length)
  | _ => True

theorem Usage.Steps.frame {call : CacheCall} (hsteps : u.Steps call u') (hroom : u.HasRoom call) :
    Frame u u' (u.own call) := by
  cases hsteps with
  | add hfind =>
    refine frame_setEntry (fun other hown => ?_) rfl (Nat.le_succ _) (fun hown => absurd rfl hown)
      fun key other hown => ?_
    · exact count_cons_of_ne fun heq => hown (congrArg some heq)
    · rw [Cache.linked, mem_append, mem_singleton, Prod.mk.injEq]
      exact or_iff_left fun h => hown (congrArg some h.2.symm)
  | getNone | removeNone => exact Frame.refl u _
  | get hfind hentry =>
    refine frame_setEntry (fun _ _ => rfl) rfl (Nat.le_refl _) (fun _ left hleft => ?_) fun _ _ _ => Iff.rfl
    exact ⟨_, hentry, (congrArg CacheEntry.isFinished (some.inj hleft) :)⟩
  | append hmem hlength hensure hentry =>
    obtain ⟨ok', -, hsame⟩ := cacheEnsureMemory_of_not_mustEvict hroom
    cases hsame.symm.trans hensure
    refine frame_setEntry (fun _ _ => rfl) rfl (Nat.le_refl _) (fun _ left hleft => ?_) fun _ _ _ => Iff.rfl
    exact ⟨_, hentry, (congrArg CacheEntry.isFinished (some.inj hleft) :)⟩
  | @finished id entry hmem hentry =>
    obtain ⟨x, hdrop, -⟩ := dropRef_eq u.cache id { entry with isFinished := true }
    rw [hdrop]
    refine frame_setEntry (fun other hown => ?_) rfl (Nat.le_refl _) (fun hown => absurd rfl hown)
      fun _ _ _ => Iff.rfl
    exact count_erase_of_ne fun heq => hown (congrArg some heq.symm)
  | @put id entry hmem hentry =>
    obtain ⟨x, hdrop, hx⟩ := dropRef_eq u.cache id entry
    rw [hdrop]
    refine frame_setEntry (fun _ _ => rfl) rfl (Nat.le_refl _) (fun _ left hleft => ?_) fun _ _ _ => Iff.rfl
    exact ⟨_, hentry, (congrArg CacheEntry.isFinished (hx left hleft).symm :)⟩
  | @remove key id entry hfind hentry =>
    obtain ⟨x, hdrop, hx⟩ := dropRef_eq (u.cache.unlinked key id entry) id entry
    rw [hdrop]
    refine frame_setEntry (fun _ _ => rfl) rfl (Nat.le_refl _) (fun _ left hleft => ?_) fun key'
      other hown => ?_
    · exact ⟨_, hentry, (congrArg CacheEntry.isFinished (hx left hleft).symm :)⟩
    · rw [(map_perm_of_find hfind).mem_iff, mem_cons, Prod.mk.injEq]
      exact (or_iff_right fun h => hown (hfind.trans (congrArg some h.2.symm))).symm

theorem isFinished_dropRef {c : Cache} {entry left : CacheEntry}
    (h : (c.dropRef id entry).heap id = some left) :
    left.isFinished = entry.isFinished := by
  obtain ⟨x, hdrop, hx⟩ := dropRef_eq c id entry
  rw [hdrop, heap_setEntry, if_pos rfl] at h
  exact (congrArg CacheEntry.isFinished (hx left h) :)

theorem kept_remove (hwf : u.WellFormed) (hfind : u.cache.find key = some id)
    (hstep : u.step (.remove key) = some u') : Kept u u' id ∧ id ∉ u'.cache.ids := by
  cases Usage.steps hstep with
  | removeNone hnone => cases hfind.symm.trans hnone
  | @remove _ _ entry hsome hentry =>
    cases hfind.symm.trans hsome
    refine ⟨⟨rfl, fun left hleft => ⟨entry, hentry, (isFinished_dropRef hleft).symm⟩⟩, ?_⟩
    rw [ids_dropRef]
    exact (nodup_cons.mp ((ids_perm_unlinked hfind entry).nodup_iff.mp hwf.ids)).1

/-! ### The calls on the entry of the client itself -/

theorem isOpen_add (hwf : u.WellFormed) (hstep : u.step (.add key) = some u') :
    u'.Open u.cache.next key := by
  have hfresh : u.appending.count u.cache.next = 0 :=
    Nat.eq_zero_of_add_eq_zero_right (Nat.eq_zero_of_add_eq_zero_left hwf.next_not_mem.1)
  cases Usage.steps hstep with
  | add hfind =>
    refine ⟨⟨?_, _, if_pos rfl, Bool.false_ne_true⟩, mem_append_right _ (mem_singleton.mpr rfl)⟩
    rw [count_cons_self, hfresh]

theorem closed_finished (hopen : u.Open id key) (hstep : u.step (.finished id) = some u') :
    u'.Closed id ∧ (key, id) ∈ u'.cache.map := by
  obtain ⟨⟨hcount, -⟩, hslot⟩ := hopen
  cases Usage.steps hstep with
  | @finished _ entry hmem hentry =>
    refine ⟨⟨?_, fun left hleft => (isFinished_dropRef hleft :)⟩, ?_⟩
    · apply count_eq_zero.mp
      rw [count_erase_self, hcount]
    · obtain ⟨x, hdrop, -⟩ := dropRef_eq u.cache id { entry with isFinished := true }
      rw [hdrop]
      exact hslot

theorem holds_behindForward (complete : Bool) (h : u.Closed id ∧ (key, id) ∈ u.cache.map) :
    (Client.behindForward (some id) key complete response).Holds u := by
  cases complete with
  | false => exact h
  | true => exact ⟨h.1, fun _ => rfl⟩

theorem entry_behindForward (entry : Option EntryId) (key : Bytes) (complete : Bool) (response : Response) :
    (Client.behindForward entry key complete response).entry = entry := by
  cases entry <;> cases complete <;> rfl

/-! ### What has been received -/

theorem Response.mode_cases (h : response.mode = .ok mode) :
    match mode with
    | .chunked => httpResponseIsChunked response.headers = true
    | .fixedLen len => httpResponseIsChunked response.headers = false ∧
        ∃ contentLength, httpGetContentLength response.headers = .ok (some contentLength) ∧
          len = UInt64.ofNat (wrap (contentLength - (response.head.length - response.headerLen : Nat)))
    | .tillSockClose =>
      httpResponseIsChunked response.headers = false ∧ httpGetContentLength response.headers = .ok none := by
  rw [Response.mode] at h
  split_ifs at h with hchunked
  · cases h
    exact hchunked
  · rw [Bool.not_eq_true] at hchunked
    obtain ⟨contentLength, hlength, hmode⟩ := map_eq_ok h
    cases contentLength with
    | none =>
      cases hmode
      exact ⟨hchunked, hlength⟩
    | some contentLength =>
      cases hmode
      exact ⟨hchunked, contentLength, hlength, rfl⟩

/-- Between two calls of the parser everything up to the end of a chunk has been parsed. -/
structure Response.Tracks (r : Response) (mode : Mode) : Prop where
  mode_eq : r.mode = .ok mode
  header_le : r.headerLen ≤ r.head.length
  parsed : ∀ body : ChunkedBody, (wireBytes body.wire).length < 2 ^ 31 → r.body <+: wireBytes body.wire →
    ∃ k < body.wire.length, r.nParsed = r.headerLen + (wireBytes (body.wire.take k)).length

/-- `totalSize` is at most what has been received behind the head. -/
def Stage.Counts (n : Nat) : Stage → Prop
  | sendingHead => True
  | appending _ totalSize | testing totalSize | receiving totalSize => totalSize.toNat ≤ n
  | sending bytes totalSize => totalSize.toNat + bytes.length ≤ n

/-- What holds of the response of a client, at each place of `proxy_main`. -/
def Client.Tracks : Client → Prop
  | forwarding _ _ mode r stage => r.Tracks mode ∧ stage.Counts r.tail.length
  | finishing _ _ complete r | removing _ _ (.forwarded complete r) | done _ (.forwarded complete r) =>
    complete = true → r.Proper → r.Whole
  | _ => True

/-- What the parser finds behind the chunks that have been parsed: the end of the body, or a chunk
    to go on with. -/
theorem Response.Tracks.parse (h : response.Tracks mode) {body : ChunkedBody} {buf : Nat} {pret : Int}
    {chunks : List Chunk} (hsmall : (wireBytes body.wire).length < 2 ^ 31)
    (hbody : response.body <+: wireBytes body.wire)
    (hinside : response.nParsed ≤ (response.head ++ response.tail).length)
    (hbuf : buf + (response.head ++ response.tail).length ≤ 2 ^ 63)
    (hparse : httpParseChunks 32 (buf + response.nParsed)
      ((response.head ++ response.tail).drop response.nParsed) = .ok (pret, chunks)) :
    (chunks.getLast?.map Chunk.len = some 0 → response.body = wireBytes body.wire) ∧
      (chunks.getLast?.map Chunk.len ≠ some 0 → ∃ k < body.wire.length,
        wrap (response.nParsed + pret) = response.headerLen + (wireBytes (body.wire.take k)).length) := by
  obtain ⟨k, hk, hparsed⟩ := h.parsed body hsmall hbody
  have hlengths := length_wireBytes_take body.wire k
  have hwire := wireBytes_take_drop body.wire k
  -- what is left of the body in the buffer is the start of the remaining chunks
  obtain ⟨rest, hrest⟩ : wireBytes (body.wire.take k) <+: response.body := by
    refine prefix_of_prefix_length_le ⟨_, hwire.symm⟩ hbody ?_
    rw [Response.body, length_drop]
    omega
  have hdrop : (response.head ++ response.tail).drop response.nParsed = rest := by
    rw [hparsed, ← drop_drop]
    exact (congrArg (List.drop _) hrest.symm).trans drop_left
  have hprefix : rest <+: wireBytes (body.wire.drop k) := by
    rw [← hrest, hwire] at hbody
    exact (prefix_append_right_inj _).mp hbody
  have haddr : buf + response.nParsed + rest.length ≤ 2 ^ 63 := by
    rw [← hdrop, length_drop]
    omega
  rw [hdrop] at hparse
  rcases httpParseChunks_wire (fun w hw => body.valid hsmall w (mem_of_mem_drop hw)) hprefix haddr
    (by omega) with
    ⟨hcrash, -⟩ | ⟨chunks', hok, hlen, -⟩
  · cases hcrash.symm.trans hparse
  · cases hok.symm.trans hparse
    have hcount := completeIn_le (body.wire.drop k) rest.length
    have hzero := (body.terminated.drop hk).getLast?_take ((Nat.min_le_right 32 _).trans hcount)
    rw [← hlen, getLast?_map] at hzero
    rw [Ne, hzero]
    constructor
    · intro hall
      have hlast : ¬ rest.length < (wireBytes (body.wire.drop k)).length := fun hlt => by
        have := completeIn_lt hlt
        omega
      rw [← hrest, hwire, hprefix.eq_of_length_le (Nat.not_lt.mp hlast)]
    · intro hmore
      have hless := lt_of_le_of_ne ((Nat.min_le_right 32 _).trans hcount) hmore
      generalize min 32 (completeIn (body.wire.drop k) rest.length) = n at hless
      have hnext := length_wireBytes_take (body.wire.drop k) n
      rw [length_drop] at hless
      refine ⟨k + n, by omega, ?_⟩
      rw [take_add, wireBytes_append, length_append, hparsed]
      refine wrap_of_eq (by omega) ?_
      have := h.header_le
      rw [length_append] at hbuf
      omega

/-- A body of a given length has been received when the loop has counted enough. -/
theorem Response.Tracks.enough {len totalSize : UInt64} (h : response.Tracks (.fixedLen len))
    (hcount : totalSize.toNat ≤ response.tail.length) (henough : ¬ totalSize < len)
    (hproper : response.Proper) : response.Whole := by
  obtain ⟨hchunked, contentLength, hlength, rfl⟩ := mode_cases h.mode_eq
  have hheader := h.header_le
  have hsmall := httpGetContentLength_lt hlength
  rw [Response.Whole, ← framed_eq_announced hproper.encoding hproper.length, hchunked, hlength]
  rw [UInt64.not_lt, UInt64.le_iff_toNat_le, UInt64.toNat_ofNat', Nat.mod_eq_of_lt (wrap_lt _),
    wrap] at henough
  simp only [Response.body, length_drop, length_append]
  omega

theorem Response.Tracks.whole_closed (h : response.Tracks .tillSockClose)
    (hproper : Response.Proper { response with closed := true }) :
      Response.Whole { response with closed := true } := by
  obtain ⟨hchunked, hlength⟩ := mode_cases h.mode_eq
  rw [Response.Whole, ← framed_eq_announced hproper.encoding hproper.length]
  simp only [hchunked, hlength]

/-- A receive adds to what a well-formed body has to start with. -/
theorem Response.Tracks.receive (h : response.Tracks mode) (bytes : Bytes) :
    Response.Tracks { response with tail := response.tail ++ bytes } mode := by
  refine ⟨h.mode_eq, h.header_le, fun body hsmall hbody => h.parsed body hsmall (IsPrefix.trans ?_ hbody)⟩
  simp only [Response.body, ← append_assoc]
  exact (prefix_append _ bytes).drop _

theorem tracks_failed (r : Response) {entry : Option EntryId} {key : Bytes} :
    (Client.finishing entry key false r).Tracks :=
  fun hcomplete => absurd hcomplete Bool.false_ne_true

theorem counts_receive {bytes tail : Bytes} {totalSize : UInt64}
    (h : (Stage.receiving totalSize).Counts tail.length) :
    (Stage.sending bytes totalSize).Counts (tail ++ bytes).length := by
  rw [Stage.Counts, length_append]
  exact Nat.add_le_add_right h _

theorem counts_send {n : Nat} {bytes : Bytes} {totalSize : UInt64}
    (h : (Stage.sending bytes totalSize).Counts n) :
    (Stage.appending bytes (totalSize + UInt64.ofNat bytes.length)).Counts n := by
  simp only [Stage.Counts] at h ⊢
  rw [UInt64.toNat_add, UInt64.toNat_ofNat']
  omega

theorem tracks_afterTest {entry : Option EntryId} {key : Bytes} {totalSize : UInt64} {buf : Nat}
    (h : response.Tracks mode) (hcount : totalSize.toNat ≤ response.tail.length)
    (htest : Stage.afterTest entry key mode response totalSize buf = some client') : client'.Tracks := by
  unfold Stage.afterTest at htest
  split at htest
  · split_ifs at htest with hguard
    obtain ⟨hinside, hbuf⟩ := not_or.mp hguard
    split at htest
    · cases htest
    case h_2 pret chunks hparse =>
      split_ifs at htest with hfailed hzero <;> cases htest
      · exact tracks_failed response
      · rintro - hproper
        have hchunked := framed_eq_announced hproper.encoding hproper.length
        rw [Response.mode_cases h.mode_eq] at hchunked
        obtain ⟨body, hsmall, hbody⟩ := hproper.chunks (congrArg Prod.fst hchunked).symm
        rw [Response.Whole, ← hchunked]
        exact ⟨body, (h.parse hsmall hbody (Nat.not_lt.mp hinside) (Nat.not_lt.mp hbuf) hparse).1 hzero⟩
      · refine ⟨⟨h.mode_eq, h.header_le, fun body hsmall hbody => ?_⟩, hcount⟩
        exact (h.parse hsmall hbody (Nat.not_lt.mp hinside) (Nat.not_lt.mp hbuf) hparse).2 hzero
  · split_ifs at htest with hless <;> cases htest
    · exact ⟨h, hcount⟩
    · exact fun _ => h.enough hcount hless
  · cases htest
    exact ⟨h, hcount⟩

/-! ### The steps of a client -/

/-- What the next step of a client does to its own entry and to the others. -/
structure StepFacts (u u' : Usage) (client client' : Client) : Prop where
  wf : u'.WellFormed
  holds : client'.Holds u'
  frame : Frame u u' client'.entry
  entry : client'.entry = client.entry ∨ client.entry = none ∧ client'.entry = some u.cache.next ∧
    u.cache.next < u'.cache.next
  tracks : client.Tracks → client'.Tracks

theorem StepFacts.same (hwf : u.WellFormed) (hholds : client'.Holds u)
    (hentry : client'.entry = client.entry)
    (htracks : client.Tracks → client'.Tracks) : StepFacts u u client client' :=
  ⟨hwf, hholds, Frame.refl u _, .inl hentry, htracks⟩

/-- A step that makes a call of the cache about no entry, or about the entry of the client. -/
theorem StepFacts.call {call : CacheCall} (hwf : u.WellFormed) (hcall : u.step call = some u')
    (hroom : u.HasRoom call) (hown : u.own call = none ∨ u.own call = client'.entry)
    (hholds : client'.Holds u')
    (hentry : client'.entry = client.entry) (htracks : client.Tracks → client'.Tracks) :
    StepFacts u u' client client' := by
  have hframe := (Usage.steps hcall).frame hroom
  refine ⟨usage_wellFormed_step u call u' hwf hcall, hholds, ?_, .inl hentry, htracks⟩
  rcases hown with hown | hown
  · rw [hown] at hframe
    exact hframe.weaken _
  · rw [hown] at hframe
    exact hframe

/-- A forwarding function goes on, or comes to its end. -/
def Goes (entry : Option EntryId) (key : Bytes) (client' : Client) : Prop :=
  (∃ mode r stage, client' = .forwarding entry key mode r stage) ∨
    ∃ complete r, client' = .finishing entry key complete r

theorem goes_afterTest {entry : Option EntryId} {totalSize : UInt64} {buf : Nat}
    (h : Stage.afterTest entry key mode response totalSize buf = some client') : Goes entry key client' := by
  unfold Stage.afterTest at h
  split at h
  · split_ifs at h
    split at h
    · cases h
    · split_ifs at h <;> cases h
      · exact .inr ⟨_, _, rfl⟩
      · exact .inr ⟨_, _, rfl⟩
      · exact .inl ⟨_, _, _, rfl⟩
  · split_ifs at h <;> cases h
    · exact .inl ⟨_, _, _, rfl⟩
    · exact .inr ⟨_, _, rfl⟩
  · cases h
    exact .inl ⟨_, _, _, rfl⟩

theorem StepFacts.forwarding {entry : Option EntryId} (hwf : u.WellFormed)
    (hholds : (Client.forwarding entry key mode response stage).Holds u) (hgoes : Goes entry key client')
    (htracks : response.Tracks mode ∧ stage.Counts response.tail.length → client'.Tracks) :
    StepFacts u u (.forwarding entry key mode response stage) client' := by
  rcases hgoes with ⟨mode', r', stage', rfl⟩ | ⟨complete, r', rfl⟩ <;> cases entry with
  | none => exact StepFacts.same hwf trivial rfl htracks
  | some id => exact StepFacts.same hwf hholds rfl htracks

end

theorem client_step {u u' : Usage} {client client' : Client} {event : Event} (hwf : u.WellFormed)
    (hholds : client.Holds u) (hstep : client.step u event = some (u', client')) :
      StepFacts u u' client client' := by
  unfold Client.step at hstep
  -- one case for each step of the model, in its order
  split at hstep
  case h_1 request =>
    split at hstep
    · cases hstep
      exact .same hwf trivial rfl id
    · split_ifs at hstep
      all_goals
        cases hstep
        exact .same hwf trivial rfl id
  case h_2 key =>
    split at hstep
    · cases hstep
    case h_2 found c' hget =>
      obtain ⟨u₁, hcall, hpair⟩ := map_eq_some_iff.mp hstep
      cases hpair
      cases found with
      | none | some id => exact .call hwf hcall trivial (.inl rfl) trivial rfl fun _ => trivial
  case h_3 key =>
    obtain ⟨u₁, hcall, hpair⟩ := map_eq_some_iff.mp hstep
    cases hpair
    have hopen := isOpen_add hwf hcall
    have hwf' := usage_wellFormed_step u (.add key) u' hwf hcall
    obtain ⟨entry, hentry, -⟩ := hopen.1.2
    exact ⟨hwf', hopen, (Usage.steps hcall).frame trivial, .inr ⟨rfl, rfl, hwf'.allocated hentry⟩, id⟩
  case h_4 id =>
    obtain ⟨u₁, hcall, hpair⟩ := map_eq_some_iff.mp hstep
    cases hpair
    exact .call hwf hcall trivial (.inl rfl) trivial rfl fun _ => trivial
  case h_5 entry key ok | h_6 entry key ok =>
    cases entry <;> cases ok <;> cases hstep
    · exact .same hwf trivial rfl id
    · exact .same hwf trivial rfl id
    · exact .same hwf hholds.1 rfl id
    · exact .same hwf hholds rfl id
  case h_7 entry key header =>
    split at hstep
    case h_1 headers headerLen head =>
      split_ifs at hstep with hless
      split at hstep <;> cases hstep
      case h_2 mode hmode =>
        have htracks : (Response.read headers headerLen head).Tracks mode :=
          ⟨hmode, Nat.not_lt.mp hless, fun body _ _ => ⟨0, by simp [ChunkedBody.wire], rfl⟩⟩
        cases entry with
        | none => exact .same hwf trivial rfl fun _ => ⟨htracks, trivial⟩
        | some id => exact .same hwf hholds rfl fun _ => ⟨htracks, trivial⟩
    · cases entry <;> cases hstep
      · exact .same hwf trivial rfl id
      · exact .same hwf hholds rfl id
  case h_8 entry key mode r ok =>
    cases ok <;> cases hstep
    · exact .forwarding hwf hholds (.inr ⟨_, _, rfl⟩) fun _ => tracks_failed r
    · exact .forwarding hwf hholds (.inl ⟨_, _, _, rfl⟩) fun h => ⟨h.1, Nat.zero_le _⟩
  case h_9 entry key mode r bytes totalSize =>
    cases entry with
    | none =>
      cases hstep
      exact .forwarding hwf hholds (.inl ⟨_, _, _, rfl⟩) id
    | some id =>
      dsimp only at hstep
      split_ifs at hstep with hroom
      obtain ⟨u₁, hcall, hpair⟩ := map_eq_some_iff.mp hstep
      cases hpair
      have huntouched := ((Usage.steps hcall).frame hroom).untouched id (by rintro ⟨⟩)
      exact .call hwf hcall hroom (.inl rfl)
        (huntouched.isOpen (usage_wellFormed_step u _ u' hwf hcall) hholds) rfl fun h => h
  case h_10 entry key mode r totalSize buf =>
    obtain ⟨client₁, htest, hpair⟩ := map_eq_some_iff.mp hstep
    cases hpair
    exact .forwarding hwf hholds (goes_afterTest htest) fun h => tracks_afterTest h.1 h.2 htest
  case h_11 entry key mode r totalSize result =>
    cases result <;> cases hstep
    · exact .forwarding hwf hholds (.inr ⟨_, _, rfl⟩) fun _ => tracks_failed r
    · refine .forwarding hwf hholds (.inr ⟨_, _, rfl⟩) fun h hcomplete => ?_
      cases of_decide_eq_true hcomplete
      exact h.1.whole_closed
    · exact .forwarding hwf hholds (.inl ⟨_, _, _, rfl⟩) fun h => ⟨h.1.receive _, counts_receive h.2⟩
  case h_12 entry key mode r bytes totalSize ok =>
    cases ok <;> cases hstep
    · exact .forwarding hwf hholds (.inr ⟨_, _, rfl⟩) fun _ => tracks_failed r
    · exact .forwarding hwf hholds (.inl ⟨_, _, _, rfl⟩) fun h => ⟨h.1, counts_send h.2⟩
  case h_13 entry key complete r =>
    have hentry := entry_behindForward entry key complete r
    have htracks : (Client.finishing entry key complete r).Tracks →
        (Client.behindForward entry key complete r).Tracks := by
      intro h
      cases entry <;> cases complete <;> exact h
    cases entry with
    | none =>
      cases hstep
      refine .same hwf ?_ hentry htracks
      cases complete <;> trivial
    | some id =>
      obtain ⟨u₁, hcall, hpair⟩ := map_eq_some_iff.mp hstep
      cases hpair
      exact .call hwf hcall trivial (.inr hentry.symm)
        (holds_behindForward complete (closed_finished hholds hcall)) hentry htracks
  case h_14 entry key ending =>
    obtain ⟨u₁, hcall, hpair⟩ := map_eq_some_iff.mp hstep
    cases hpair
    have hwf' := usage_wellFormed_step u (.remove key) u' hwf hcall
    cases entry with
    | none => exact hholds.elim
    | some id =>
      cases ending with
      | headerFailed =>
        have hfind := hwf.find_of_mem hholds.2
        exact .call hwf hcall trivial (.inr hfind) ((kept_remove hwf hfind hcall).1.pending hwf' hholds.1)
          rfl fun h => h
      | forwarded complete =>
        have hfind := hwf.find_of_mem hholds.2
        obtain ⟨hkept, hgone⟩ := kept_remove hwf hfind hcall
        exact .call hwf hcall trivial (.inr hfind) ⟨hkept.closed hholds.1, fun hmem => absurd hmem hgone⟩ rfl
          fun h => h
      | _ => exact hholds.elim
  case h_15 => cases hstep

/-! ### Whole runs -/

/-- The entries that the clients have added. -/
def ProxyWorld.entries (w : ProxyWorld) : List EntryId := w.clients.filterMap Client.entry

/-- What holds in every state of the proxy. -/
structure ProxyInv (w : ProxyWorld) : Prop where
  wf : w.usage.WellFormed
  holds : ∀ client ∈ w.clients, client.Holds w.usage
  allocated : ∀ id ∈ w.entries, id < w.usage.cache.next
  distinct : w.entries.Nodup
  owned : w.usage.cache.ids ⊆ w.entries
  tracks : ∀ client ∈ w.clients, client.Tracks

theorem proxyInv_initial (maxSizeBytes : UInt64) : ProxyInv (.initial maxSizeBytes) :=
  ⟨usage_wellFormed_initial maxSizeBytes, forall_mem_nil _, forall_mem_nil _, nodup_nil, Subset.refl [],
    forall_mem_nil _⟩

theorem proxyInv_accept (h : ProxyInv w) :
    ProxyInv { w with clients := w.clients ++ [.receivingRequest] } := by
  have hentries : ProxyWorld.entries { w with clients := w.clients ++ [.receivingRequest] } = w.entries :=
    filterMap_append.trans (append_nil _)
  exact ⟨h.wf, forall_mem_append.mpr ⟨h.holds, forall_mem_singleton.mpr trivial⟩,
    hentries.symm ▸ h.allocated, hentries.symm ▸ h.distinct, hentries.symm ▸ h.owned,
    forall_mem_append.mpr ⟨h.tracks, forall_mem_singleton.mpr trivial⟩⟩

variable {id : EntryId}

theorem filterMap_middle (ls rs : List Client) (c : Client) :
    ((ls ++ c :: rs).filterMap Client.entry).Perm (c.entry.toList ++ (ls ++ rs).filterMap Client.entry) := by
  apply (perm_middle.filterMap _).trans
  rw [filterMap_cons]
  cases c.entry <;> rfl

theorem proxyInv_client (h : ProxyInv w) {u' : Usage} (hclient : w.clients[i]? = some client)
    (hfacts : StepFacts w.usage u' client client') :
    ProxyInv { usage := u', clients := w.clients.set i client' } := by
  obtain ⟨hi, hget⟩ := List.getElem?_eq_some_iff.mp hclient
  have hclients : w.clients = w.clients.take i ++ client :: w.clients.drop (i + 1) := by
    rw [← hget, getElem_cons_drop, take_append_drop]
  rw [set_eq_take_append_cons_drop, if_pos hi]
  generalize w.clients.take i = ls at hclients
  generalize w.clients.drop (i + 1) = rs at hclients
  have hold := filterMap_middle ls rs client
  have hnew := filterMap_middle ls rs client'
  rw [← hclients] at hold
  have hallocated : ∀ id ∈ client.entry.toList ++ (ls ++ rs).filterMap Client.entry,
      id < w.usage.cache.next :=
    fun id hid => h.allocated id (hold.mem_iff.mpr hid)
  have hdistinct := hold.nodup_iff.mp h.distinct
  -- the entry of the client is the one it had, or a new one
  have hentries : (∀ id ∈ client'.entry.toList ++ (ls ++ rs).filterMap Client.entry, id < u'.cache.next) ∧
      (client'.entry.toList ++ (ls ++ rs).filterMap Client.entry).Nodup := by
    rcases hfacts.entry with hkept | ⟨hnone, hfresh, hlt⟩
    · rw [hkept]
      exact ⟨fun id hid => (hallocated id hid).trans_le hfacts.frame.next, hdistinct⟩
    · rw [hnone] at hallocated hdistinct
      rw [hfresh]
      refine ⟨forall_mem_cons.mpr ⟨hlt, fun id hid => (hallocated id hid).trans_le hfacts.frame.next⟩, ?_⟩
      exact nodup_cons.mpr ⟨fun hmem => Nat.lt_irrefl _ (hallocated _ hmem), hdistinct⟩
  refine ⟨hfacts.wf, fun other hother => ?_, fun id hid => hentries.1 id (hnew.mem_iff.mp hid),
    hnew.nodup_iff.mpr hentries.2, fun id hid => hnew.mem_iff.mpr ?_, fun other hother => ?_⟩
  · rcases mem_cons.mp (perm_middle.mem_iff.mp hother) with rfl | hother
    · exact hfacts.holds
    · apply (h.holds other (hclients ▸ perm_middle.mem_iff.mpr (mem_cons_of_mem _ hother))).untouched
        hfacts.wf
      intro id hentry
      apply hfacts.frame.untouched id
      intro hsame
      rw [hsame] at hentries
      exact (nodup_cons.mp hentries.2).1 (mem_filterMap.mpr ⟨other, hother, hentry⟩)
  · rcases hfacts.frame.ids id hid with hid | hown
    · rcases mem_append.mp (hold.mem_iff.mp (h.owned hid)) with hmem | hmem
      · rcases hfacts.entry with hkept | ⟨hnone, -⟩
        · exact mem_append_left _ (hkept ▸ hmem)
        · rw [hnone] at hmem
          cases hmem
      · exact mem_append_right _ hmem
    · rw [hown]
      exact mem_cons_self
  · rcases mem_cons.mp (perm_middle.mem_iff.mp hother) with rfl | hother
    · exact hfacts.tracks (h.tracks client (mem_of_getElem? hclient))
    · exact h.tracks other (hclients ▸ perm_middle.mem_iff.mpr (mem_cons_of_mem _ hother))

theorem proxyInv_step (w : ProxyWorld) (action : ProxyAction) (w' : ProxyWorld) (h : ProxyInv w)
    (hstep : w.step action = some w') : ProxyInv w' := by
  cases action with
  | accept =>
    cases hstep
    exact proxyInv_accept h
  | client i event =>
    simp only [ProxyWorld.step] at hstep
    split at hstep
    case h_1 => cases hstep
    case h_2 client hclient =>
      obtain ⟨⟨u', client'⟩, hclientStep, rfl⟩ := map_eq_some_iff.mp hstep
      exact proxyInv_client h hclient
        (client_step h.wf (h.holds client (mem_of_getElem? hclient)) hclientStep)

/-! ### The results -/

/-- A client whose host cannot be reached, and a second one with the same request. -/
def unreachableRun : List ProxyAction :=
  [.accept, .client 0 (.request (some ⟨[1], false, true⟩)), .client 0 .lookUp, .client 0 .add,
    .client 0 (.connect false),
    .accept, .client 1 (.request (some ⟨[1], false, true⟩)), .client 1 .lookUp]

/-- Whatever the clients do, each in its own time: no entry was added by two clients, every entry of
    the map was added by one, and the reference counts and the LRU list agree with the map. -/
theorem proxy_entries_owned (maxSizeBytes : UInt64) (actions : List ProxyAction) (w : ProxyWorld)
    (hrun : run ProxyWorld.step (.initial maxSizeBytes) actions = some w) :
    w.entries.Nodup ∧ w.usage.cache.ids ⊆ w.entries ∧ w.usage.WellFormed := by
  have hinv : ProxyInv w := run_preserves proxyInv_step (proxyInv_initial maxSizeBytes) hrun
  exact ⟨hinv.distinct, hinv.owned, hinv.wf⟩

theorem proxy_entries_owned_unreachableRun :
    ∃ w, run ProxyWorld.step (.initial 100) unreachableRun = some w ∧ w.entries = [0] ∧
      w.usage.cache.ids ⊆ [0] := by
  have hrun : run ProxyWorld.step (.initial 100) unreachableRun = some _ := rfl
  exact ⟨_, hrun, rfl, (proxy_entries_owned 100 unreachableRun _ hrun).2.1⟩

end NsuLabs.HttpProxy

/-
Module: NsuLabs.HttpProxy.Proofs.Serving
Purpose: What a client is sent from a cache entry while the entry is still being appended to.
Trusted boundary: none
Main exports: serving_sends_appended
-/
import NsuLabs.HttpProxy.Proofs.FixedLength

namespace NsuLabs.HttpProxy

open List Lib

variable {reader : Reader} {sentTotal : Nat} {sent : Bytes} {entry' : SharedEntry} {event : ServingEvent}
  {events : List ServingEvent}

/-- The data that an event appends. -/
def ServingEvent.appended : ServingEvent → Bytes
  | .append bytes => bytes
  | _ => []

/-- The data that has been appended, in the order of the events. -/
def appendedBy (events : List ServingEvent) : Bytes := events.flatMap ServingEvent.appended

/-- What has been sent, at each place of the reader. -/
def Reader.Accounts (entry : SharedEntry) (sentTotal : Nat) (sent : Bytes) : Reader → Prop
  | .sending totalDataLen sentSize =>
    totalDataLen = entry.data.bytes.length ∧ sentSize < totalDataLen - sentTotal ∧
      sent = entry.data.bytes.take (sentTotal + sentSize)
  | .returned true => entry.isFinished ∧ sent = entry.data.bytes
  | .returned false => sent <+: entry.data.bytes
  | .reading | .checking | .registering | .waiting | .waking => sent = entry.data.bytes.take sentTotal

/-- What holds between any two events. -/
structure ServingInv (s : Serving) : Prop where
  within : s.sentTotal ≤ s.entry.data.bytes.length
  accounts : s.reader.Accounts s.entry s.sentTotal s.sent
  finished : s.entry.isFinished ↔ s.appender = .signalling true ∨ s.appender = .done
  refs : s.entry.refCount = s.others + 1 + if s.entry.isFinished then 0 else 1
  halted : s.halted ≠ none → ¬ s.entry.isFinished

theorem servingInv_initial (others : Nat) : ServingInv (.initial others) := by
  constructor
  · exact Nat.le_refl 0
  · rfl
  · simp [Serving.initial]
  · rfl
  · exact fun h => absurd rfl h

section

variable {s s' : Serving} {bytes : Bytes} {entry : SharedEntry}

/-- At every place, what has been sent is a prefix of the data. -/
theorem Reader.Accounts.sent_isPrefix (h : reader.Accounts entry sentTotal sent) :
    sent <+: entry.data.bytes := by
  cases reader with
  | sending totalDataLen sentSize =>
    rw [h.2.2]
    exact take_prefix _ _
  | returned ok =>
    cases ok with
    | true =>
      rw [h.2]
    | false => exact h
  | reading | checking | registering | waiting | waking =>
    rw [h]
    exact take_prefix _ _

/-- Data that comes when the reader does not hold the lock does not change what the reader has sent. -/
theorem Reader.Accounts.append (h : reader.Accounts entry sentTotal sent)
    (hwithin : sentTotal ≤ entry.data.bytes.length) (hunlocked : ¬ reader.locks) (hopen : ¬ entry.isFinished)
    (hdata : entry'.data.bytes = entry.data.bytes ++ bytes) :
    reader.Accounts entry' sentTotal sent := by
  cases reader with
  | sending totalDataLen sentSize => exact absurd rfl hunlocked
  | returned ok =>
    cases ok with
    | true => exact absurd h.1 hopen
    | false => exact absurd rfl hunlocked
  | reading | checking | registering | waiting | waking =>
    rw [Reader.Accounts] at h ⊢
    rw [h, hdata, take_append_of_le_length hwithin]

/-! ### The appending side -/

theorem bufferEnsureLen_bytes {buf buf' : Buffer} {len : Nat} (h : bufferEnsureLen buf len = .ok buf') :
    buf'.bytes = buf.bytes := by
  rw [bufferEnsureLen] at h
  split_ifs at h
  · cases h
    rfl
  · exact bufferEnsure_bytes h

theorem appendSection_ok (h : appendSection entry bytes = .ok entry') :
    entry'.data.bytes = entry.data.bytes ++ bytes ∧ entry'.isFinished = entry.isFinished ∧
      entry'.refCount = entry.refCount := by
  rw [appendSection] at h
  cases hdata : bufferEnsureLen entry.data bytes.length with
  | error crash =>
    rw [hdata] at h
    cases h
  | ok data =>
    rw [hdata] at h
    change (if _ then _ else _) = _ at h
    split_ifs at h
    cases h
    exact ⟨congrArg (· ++ bytes) (bufferEnsureLen_bytes hdata), rfl, rfl⟩

/-- The reference that is given back is not the last one. -/
theorem dropRef_of_shared (h : 1 < s.entry.refCount) :
    s.dropRef = { s with entry := { s.entry with refCount := s.entry.refCount - 1 } } :=
  if_neg (Nat.sub_ne_zero_of_lt h)

theorem ServingInv.open_of_calling (h : ServingInv s) (hcalling : s.appender = .calling) :
    ¬ s.entry.isFinished := by
  rw [h.finished, hcalling]
  simp

/-- An append crashes, or the data grows by what is appended. -/
theorem append_cases (s : Serving) (bytes : Bytes) :
    (∃ crash, s.append bytes = { s with halted := some (.crash crash) }) ∨
      ∃ entry, s.append bytes = { s with entry := entry, appender := .signalling false } ∧
        entry.data.bytes = s.entry.data.bytes ++ bytes ∧ entry.isFinished = s.entry.isFinished ∧
        entry.refCount = s.entry.refCount := by
  rw [Serving.append]
  split
  case h_1 crash _ => exact .inl ⟨crash, rfl⟩
  case h_2 entry hsection => exact .inr ⟨entry, rfl, appendSection_ok hsection⟩

theorem servingInv_append (h : ServingInv s) (hcalling : s.appender = .calling)
    (hunlocked : ¬ s.reader.locks) : ServingInv (s.append bytes) := by
  have hopen := h.open_of_calling hcalling
  rcases append_cases s bytes with ⟨crash, happend⟩ | ⟨entry, happend, hdata, hflag, hrefs⟩
  · rw [happend]
    exact ⟨h.within, h.accounts, h.finished, h.refs, fun _ => hopen⟩
  · have hopen' : ¬ entry.isFinished := hflag ▸ hopen
    rw [happend]
    constructor
    · calc s.sentTotal ≤ s.entry.data.bytes.length := h.within
        _ ≤ entry.data.bytes.length := by rw [hdata, length_append]; exact Nat.le_add_right _ _
    · exact h.accounts.append h.within hunlocked hopen hdata
    · exact iff_of_false hopen' (by simp)
    · dsimp only
      rw [hrefs, hflag]
      exact h.refs
    · exact fun _ => hopen'

/-- The reader keeps its reference when the appending side gives back its own. -/
theorem finish_of_calling (h : ServingInv s) (hcalling : s.appender = .calling) :
    s.finish = { s with
      entry := { s.entry with isFinished := true, refCount := s.others + 1 }
      appender := .signalling true } := by
  have hrefs := h.refs
  rw [if_neg (h.open_of_calling hcalling)] at hrefs
  have hshared : 1 < s.entry.refCount := by omega
  have hleft : s.entry.refCount - 1 = s.others + 1 := by omega
  rw [← hleft]
  exact dropRef_of_shared hshared

theorem servingInv_finish (h : ServingInv s) (hcalling : s.appender = .calling)
    (hunlocked : ¬ s.reader.locks) (hrunning : s.halted = none) : ServingInv s.finish := by
  rw [finish_of_calling h hcalling]
  constructor
  · exact h.within
  · exact h.accounts.append h.within hunlocked (h.open_of_calling hcalling) (append_nil _).symm
  · exact iff_of_true rfl (.inl rfl)
  · rfl
  · exact fun hhalted => absurd hrunning hhalted

theorem release_of_others (h : ServingInv s) (hothers : s.others ≠ 0) :
    { s with others := s.others - 1 }.dropRef = { s with
      entry := { s.entry with refCount := s.entry.refCount - 1 }
      others := s.others - 1 } := by
  have hrefs := h.refs
  have hshared : 1 < s.entry.refCount := by omega
  exact dropRef_of_shared hshared

theorem servingInv_release (h : ServingInv s) (hothers : s.others ≠ 0) :
    ServingInv { s with others := s.others - 1 }.dropRef := by
  have hrefs := h.refs
  rw [release_of_others h hothers]
  refine ⟨h.within, h.accounts, h.finished, ?_, h.halted⟩
  dsimp only
  omega

theorem servingInv_retain (h : ServingInv s) :
    ServingInv { s with
      entry := { s.entry with refCount := s.entry.refCount + 1 }, others := s.others + 1 } := by
  have hrefs := h.refs
  refine ⟨h.within, h.accounts, h.finished, ?_, h.halted⟩
  dsimp only
  omega

theorem servingInv_signal (h : ServingInv s) {last : Bool} (hsignal : s.appender = .signalling last) :
    ServingInv (s.signal last) := by
  refine ⟨h.within, ?_, ?_, h.refs, h.halted⟩
  · rw [Serving.signal]
    dsimp only
    split_ifs with hwaiting
    · have haccounts := h.accounts
      rw [hwaiting] at haccounts
      exact haccounts
    · exact h.accounts
  · have hfinished := h.finished
    rw [hsignal] at hfinished
    cases last with
    | true => exact iff_of_true (hfinished.mpr (.inl rfl)) (.inr rfl)
    | false =>
      apply iff_of_false
      · rw [Serving.signal, hfinished]
        simp
      · simp [Serving.signal]

/-! ### The reader -/

theorem ServingInv.goes (h : ServingInv s) (haccounts : reader.Accounts s.entry s.sentTotal s.sent) :
    ServingInv { s with reader := reader } :=
  ⟨h.within, haccounts, h.finished, h.refs, h.halted⟩

/-- The places between two read-locked sections. -/
theorem Reader.accounts_ite (c : Prop) [Decidable c] (h : sent = entry.data.bytes.take sentTotal) :
    (if c then Reader.checking else .reading).Accounts entry sentTotal sent := by
  split_ifs
  · exact h
  · exact h

theorem servingInv_readBegin (h : ServingInv s) (hreading : s.reader = .reading) :
    ServingInv s.readBegin := by
  have hsent := h.accounts
  rw [hreading, Reader.Accounts] at hsent
  rw [Serving.readBegin, if_neg (Nat.not_lt.mpr h.within)]
  split_ifs with hchunk
  · refine h.goes ⟨rfl, Nat.pos_of_ne_zero hchunk, ?_⟩
    rw [Nat.add_zero]
    exact hsent
  · exact h.goes (Reader.accounts_ite _ hsent)

theorem servingInv_clientSend (h : ServingInv s) {totalDataLen sentSize n : Nat}
    (hsending : s.reader = .sending totalDataLen sentSize) (hn : n ≤ totalDataLen - s.sentTotal - sentSize) :
    ServingInv (s.clientSend totalDataLen sentSize n) := by
  have haccounts := h.accounts
  rw [hsending] at haccounts
  obtain ⟨hlen, hsize, hsent⟩ := haccounts
  -- what is taken goes behind what has been sent of the chunk
  have hsent' : s.sent ++ (s.entry.data.bytes.drop (s.sentTotal + sentSize)).take n =
      s.entry.data.bytes.take (s.sentTotal + (sentSize + n)) := by
    rw [← Nat.add_assoc, take_add, ← hsent]
  rw [Serving.clientSend]
  split_ifs with hfailed hmore
  · exact h.goes (hsending ▸ h.accounts).sent_isPrefix
  · exact ⟨h.within, ⟨hlen, hmore, hsent'⟩, h.finished, h.refs, h.halted⟩
  · have hwhole : sentSize + n = totalDataLen - s.sentTotal := by omega
    rw [hwhole] at hsent'
    have hwithin : s.sentTotal + (totalDataLen - s.sentTotal) ≤ s.entry.data.bytes.length := by omega
    exact ⟨hwithin, Reader.accounts_ite _ hsent', h.finished, h.refs, h.halted⟩

theorem servingInv_check (h : ServingInv s) (hchecking : s.reader = .checking) : ServingInv s.check := by
  have hsent := h.accounts
  rw [hchecking, Reader.Accounts] at hsent
  rw [Serving.check]
  split_ifs with hfinished hall
  · refine h.goes ⟨hfinished, ?_⟩
    rw [hsent, hall, take_length]
  · exact h.goes hsent
  · exact h.goes hsent

/-! ### The interleavings -/

/-- What an event does: the data grows by what is appended, unless the program crashes in it. -/
structure Progress (s : Serving) (event : ServingEvent) (s' : Serving) : Prop where
  inv : ServingInv s'
  data : s'.entry.data.bytes = s.entry.data.bytes ++ event.appended ∨
    s'.halted ≠ none ∧ s'.entry.data.bytes = s.entry.data.bytes
  finished : s'.entry.isFinished → s.entry.isFinished ∨ event = .finish

theorem Progress.quiet (h : ServingInv s') (happended : event.appended = []) {refCount : Nat}
    (hentry : s'.entry = { s.entry with refCount }) : Progress s event s' := by
  refine ⟨h, .inl ?_, fun hfinished => .inl (by rwa [hentry] at hfinished)⟩
  rw [hentry, happended, append_nil]

theorem readBegin_entry (s : Serving) : s.readBegin.entry = s.entry := by
  rw [Serving.readBegin]
  split_ifs <;> rfl

theorem clientSend_entry (s : Serving) (totalDataLen sentSize n : Nat) :
    (s.clientSend totalDataLen sentSize n).entry = s.entry := by
  rw [Serving.clientSend]
  split_ifs <;> rfl

theorem check_entry (s : Serving) : s.check.entry = s.entry := by
  rw [Serving.check]
  split_ifs <;> rfl

/-- Nothing happens behind a crash. -/
theorem running_of_step (hstep : s.step event = some s') : s.halted = none := by
  by_contra hhalted
  unfold Serving.step at hstep
  rw [if_pos hhalted] at hstep
  cases hstep

theorem serving_step (h : ServingInv s) (hstep : s.step event = some s') :
    Progress s event s' := by
  have hrunning := running_of_step hstep
  unfold Serving.step at hstep
  rw [if_neg (not_not_intro hrunning)] at hstep
  cases event with
  | append bytes =>
    dsimp only at hstep
    split_ifs at hstep with hcaller
    cases hstep
    have hinv := @servingInv_append s bytes h hcaller.1 hcaller.2
    rcases append_cases s bytes with ⟨crash, happend⟩ | ⟨entry, happend, hdata, hflag, -⟩
    · rw [happend] at hinv ⊢
      exact ⟨hinv, .inr ⟨Option.some_ne_none _, rfl⟩, .inl⟩
    · rw [happend] at hinv ⊢
      exact ⟨hinv, .inl hdata, fun hfinished => .inl (hflag ▸ hfinished)⟩
  | finish =>
    dsimp only at hstep
    split_ifs at hstep with hcaller
    cases hstep
    refine ⟨servingInv_finish h hcaller.1 hcaller.2 hrunning, .inl ?_, fun _ => .inr rfl⟩
    rw [finish_of_calling h hcaller.1]
    exact (append_nil _).symm
  | signal =>
    dsimp only at hstep
    split at hstep
    case h_1 last hsignal =>
      cases hstep
      exact .quiet (servingInv_signal h hsignal) rfl rfl
    case h_2 => cases hstep
  | retain =>
    dsimp only at hstep
    split_ifs at hstep
    cases hstep
    exact .quiet (servingInv_retain h) rfl rfl
  | release =>
    dsimp only at hstep
    split_ifs at hstep with hfree
    cases hstep
    have hothers : s.others ≠ 0 := fun hnone => hfree (.inr hnone)
    exact .quiet (servingInv_release h hothers) rfl (by rw [release_of_others h hothers])
  | readBegin =>
    dsimp only at hstep
    split_ifs at hstep with hreading
    cases hstep
    exact .quiet (servingInv_readBegin h hreading) rfl (readBegin_entry s)
  | send n =>
    dsimp only at hstep
    split at hstep
    case h_1 totalDataLen sentSize hsending =>
      split_ifs at hstep with hn
      cases hstep
      exact .quiet (servingInv_clientSend h hsending hn) rfl (clientSend_entry s ..)
    case h_2 => cases hstep
  | check =>
    dsimp only at hstep
    split_ifs at hstep with hchecking
    cases hstep
    exact .quiet (servingInv_check h hchecking) rfl (check_entry s)
  | register =>
    dsimp only at hstep
    split_ifs at hstep with hregistering
    cases hstep
    have haccounts := h.accounts
    rw [hregistering] at haccounts
    exact .quiet (h.goes haccounts) rfl rfl
  | wakeUp =>
    dsimp only at hstep
    split_ifs at hstep with hwaking
    cases hstep
    have haccounts := h.accounts
    rw [hwaking] at haccounts
    exact .quiet (h.goes haccounts) rfl rfl

theorem run_of_halted (hhalted : s.halted ≠ none) (hrun : run Serving.step s events = some s') : s' = s := by
  cases events with
  | nil => exact (Option.some.inj hrun).symm
  | cons event events =>
    obtain ⟨s₁, hstep, -⟩ := run_cons hrun
    exact absurd (running_of_step hstep) hhalted

theorem serving_run (h : ServingInv s) (hrun : run Serving.step s events = some s') :
    ServingInv s' ∧ s'.entry.data.bytes <+: s.entry.data.bytes ++ appendedBy events ∧
      (s'.halted = none → s'.entry.data.bytes = s.entry.data.bytes ++ appendedBy events) ∧
      (s'.entry.isFinished → s.entry.isFinished ∨ .finish ∈ events) := by
  induction events generalizing s with
  | nil =>
    cases hrun
    rw [show s'.entry.data.bytes ++ appendedBy [] = s'.entry.data.bytes from append_nil _]
    exact ⟨h, prefix_rfl, fun _ => rfl, .inl⟩
  | cons event events ih =>
    obtain ⟨s₁, hstep, hrest⟩ := run_cons hrun
    obtain ⟨hinv₁, hdata₁, hfinished₁⟩ := serving_step h hstep
    obtain ⟨hinv', hinitial', hdata', hfinished'⟩ := ih hinv₁ hrest
    have happended : appendedBy (event :: events) = event.appended ++ appendedBy events := flatMap_cons ..
    have hfinished : s'.entry.isFinished → s.entry.isFinished ∨ .finish ∈ event :: events := by
      intro hflag
      rcases hfinished' hflag with hflag₁ | hmem
      · rcases hfinished₁ hflag₁ with hbefore | rfl
        · exact .inl hbefore
        · exact .inr mem_cons_self
      · exact .inr (mem_cons_of_mem _ hmem)
    rcases hdata₁ with hgrown | ⟨hhalted, hsame⟩
    · rw [hgrown, append_assoc, ← happended] at hinitial' hdata'
      exact ⟨hinv', hinitial', hdata', hfinished⟩
    · -- the append that crashes is the last event
      cases run_of_halted hhalted hrest
      refine ⟨hinv', ?_, fun hrunning => absurd hrunning hhalted, hfinished⟩
      rw [hsame]
      exact prefix_append _ _

end

/-- In every interleaving of the appending side with the reader, and whatever becomes of the sends,
    the client has been sent a prefix of the data that has been appended so far; and if the reader
    has returned `OK`, the data is complete and the client has been sent all of it, each byte once. -/
theorem serving_sends_appended (others : Nat) (events : List ServingEvent) (s : Serving)
    (hrun : run Serving.step (.initial others) events = some s) :
    s.sent <+: appendedBy events ∧
      (s.reader = .returned true → .finish ∈ events ∧ s.sent = appendedBy events) := by
  obtain ⟨hinv, hinitial, hdata, hfinished⟩ := serving_run (servingInv_initial others) hrun
  refine ⟨hinv.accounts.sent_isPrefix.trans hinitial, fun hok => ?_⟩
  have haccounts := hinv.accounts
  rw [hok] at haccounts
  obtain ⟨hflag, hsent⟩ := haccounts
  have hrunning : s.halted = none := by
    by_contra hhalted
    exact hinv.halted hhalted hflag
  constructor
  · rcases hfinished hflag with hbefore | hmem
    · cases hbefore
    · exact hmem
  · rw [hsent]
    exact hdata hrunning

/-- The first read comes before the second append, the client takes the chunks in parts, and the
    last signal finds the reader among the waiters. -/
def splitReading : List ServingEvent :=
  [.append [72, 84], .readBegin, .send 1, .send 1, .signal, .append [84, 80], .check, .register,
    .signal, .wakeUp,
    .readBegin, .send 2, .check, .register, .finish, .signal, .wakeUp, .readBegin, .check]

theorem serving_sends_splitReading :
    ∃ s, run Serving.step (.initial 1) splitReading = some s ∧ s.reader = .returned true ∧
      s.sent = [72, 84, 84, 80] := by
  have hrun : ∃ s, run Serving.step (.initial 1) splitReading = some s ∧
    s.reader = .returned true := by decide +kernel
  obtain ⟨s, hrun, hok⟩ := hrun
  exact ⟨s, hrun, hok, ((serving_sends_appended 1 splitReading s hrun).2 hok).2⟩

end NsuLabs.HttpProxy

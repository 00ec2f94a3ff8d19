/-
Module: NsuLabs.CrackHash.Publisher
Purpose: The task publisher of the manager (manager/internal/mq/publisher.go) and its channel to the broker:
  `Publish` under its mutex, the shared channel of confirmations, and the connection that can be lost and
  made again. Messages are numbered in the order of their publication, which stands for the delivery tags.
Trusted boundary: the broker confirms the messages of a channel in the order of their publication
Main exports: TaskPublisher.step, publish_nil_acknowledged
-/
import NsuLabs.Lib.Runs

namespace NsuLabs.CrackHash

/-- What the broker says about a message. `Publish` reads `ack` only. -/
structure Confirmation where
  message : Nat
  ack : Bool
deriving DecidableEq

/-- A channel in confirm mode. -/
structure Channel where
  /-- The messages that the broker has still to confirm, the oldest first. -/
  unconfirmed : List Nat
  /-- The confirmations that have arrived and that no call has read, the oldest first. The buffer of
      the Go channel has one place; a confirmation behind it waits for its turn in the client
      library. -/
  confirms : List Confirmation
  closed : Bool
deriving DecidableEq

/-- The publisher of the manager and its calls. -/
structure TaskPublisher where
  channel : Option Channel
  /-- The number of the next message. -/
  next : Nat
  /-- The message of the call that holds the mutex and waits for a confirmation. -/
  waiting : Option Nat
  /-- The messages for which `Publish` has returned nil. -/
  returnedNil : List Nat
  /-- The messages that the broker has acknowledged. -/
  acknowledged : List Nat
deriving DecidableEq

/-- `connect` with a new channel. -/
def Channel.open : Channel where
  unconfirmed := []
  confirms := []
  closed := false

def TaskPublisher.initial : TaskPublisher where
  channel := none
  next := 1
  waiting := none
  returnedNil := []
  acknowledged := []

inductive PublisherAction where
  /-- A call of `Publish` gets the mutex; `sent` says whether `PublishWithContext` succeeds. -/
  | publish (sent : Bool)
  /-- The confirmation of the oldest message arrives. -/
  | confirm (ack : Bool)
  /-- The waiting call reads from the channel of confirmations. -/
  | receive
  /-- The context of the waiting call is cancelled. -/
  | cancel
  /-- The connection is lost. -/
  | close
  /-- `handleReconnect` has seen that the connection is lost. -/
  | forget
  /-- `handleReconnect` succeeds with `connect`. -/
  | connect
deriving DecidableEq

def TaskPublisher.step (p : TaskPublisher) : PublisherAction → Option TaskPublisher
  | .publish sent =>
    match p.waiting, p.channel with
    | some _, _ => none
    -- rabbitmq channel not available
    | none, none => some p
    | none, some ch =>
      if sent ∧ ¬ ch.closed then
        some { p with
          channel := some { ch with unconfirmed := ch.unconfirmed ++ [p.next] }
          next := p.next + 1
          waiting := some p.next }
      else some p
  | .confirm ack =>
    match p.channel with
    | some ⟨message :: unconfirmed, confirms, false⟩ =>
      some { p with
        channel := some ⟨unconfirmed, confirms ++ [⟨message, ack⟩], false⟩
        acknowledged := if ack then p.acknowledged ++ [message] else p.acknowledged }
    | _ => none
  | .receive =>
    match p.waiting, p.channel with
    | some message, some ⟨unconfirmed, confirm :: confirms, closed⟩ =>
      some { p with
        channel := some ⟨unconfirmed, confirms, closed⟩
        waiting := none
        returnedNil := if confirm.ack then p.returnedNil ++ [message] else p.returnedNil }
    -- confirm channel closed
    | some _, some ⟨_, [], true⟩ => some { p with waiting := none }
    | _, _ => none
  | .cancel =>
    match p.waiting with
    | some _ => some { p with waiting := none }
    | none => none
  | .close =>
    match p.channel with
    | some ch => some { p with channel := some { ch with unconfirmed := [], closed := true } }
    | none => none
  | .forget =>
    match p.waiting, p.channel with
    | none, some ch => if ch.closed then some { p with channel := none } else none
    | _, _ => none
  | .connect =>
    match p.waiting, p.channel with
    | none, none => some { p with channel := some .open }
    | _, _ => none

open Lib List

/-- A message goes out only on a channel that owes no confirmation. -/
def NothingOutstanding (p : TaskPublisher) : PublisherAction → Prop
  | .publish true => ∀ ch ∈ p.channel, ch.closed = false → ch.unconfirmed = [] ∧ ch.confirms = []
  | _ => True

instance (p : TaskPublisher) : (action : PublisherAction) → Decidable (NothingOutstanding p action)
  | .publish true =>
    inferInstanceAs (Decidable (∀ ch ∈ p.channel, ch.closed = false → ch.unconfirmed = [] ∧
      ch.confirms = []))
  | .publish false | .confirm _ | .receive | .cancel | .close | .forget | .connect => isTrue trivial

/-- Every confirmation that is outstanding while a call waits is that of its message. -/
structure Matched (p : TaskPublisher) : Prop where
  returnedNil : ∀ m ∈ p.returnedNil, m ∈ p.acknowledged
  arrived : ∀ ch, p.channel = some ch → ∀ c ∈ ch.confirms, c.ack → c.message ∈ p.acknowledged
  waiting : ∀ ch m, p.channel = some ch → p.waiting = some m →
    (∀ k ∈ ch.unconfirmed, k = m) ∧ ∀ c ∈ ch.confirms, c.message = m

theorem matched_initial : Matched .initial := by
  constructor
  · exact fun m h => nomatch h
  · exact fun ch h => nomatch h
  · exact fun ch m h => nomatch h

section Steps

/-- What an action can do. -/
inductive TaskPublisher.Steps : TaskPublisher → PublisherAction → TaskPublisher → Prop where
  | unsent (p : TaskPublisher) (sent : Bool) : Steps p (.publish sent) p
  | sent (unconfirmed : List Nat) (confirms : List Confirmation) (next : Nat) (nils acks : List Nat) :
      Steps ⟨some ⟨unconfirmed, confirms, false⟩, next, none, nils, acks⟩ (.publish true)
        ⟨some ⟨unconfirmed ++ [next], confirms, false⟩, next + 1, some next, nils, acks⟩
  | confirmed (m : Nat) (unconfirmed : List Nat) (confirms : List Confirmation) (next : Nat)
      (waiting : Option Nat) (nils acks : List Nat) (ack : Bool) :
      Steps ⟨some ⟨m :: unconfirmed, confirms, false⟩, next, waiting, nils, acks⟩ (.confirm ack)
        ⟨some ⟨unconfirmed, confirms ++ [⟨m, ack⟩], false⟩, next, waiting, nils, if ack then
          acks ++ [m] else acks⟩
  | received (unconfirmed : List Nat) (c : Confirmation) (confirms : List Confirmation)
      (closed : Bool) (m next : Nat) (nils acks : List Nat) :
      Steps ⟨some ⟨unconfirmed, c :: confirms, closed⟩, next, some m, nils, acks⟩ .receive
        ⟨some ⟨unconfirmed, confirms, closed⟩, next, none, if c.ack then nils ++ [m] else nils, acks⟩
  | gaveUp (p : TaskPublisher) (action : PublisherAction) : Steps p action { p with waiting := none }
  | closed (unconfirmed : List Nat) (confirms : List Confirmation) (closed : Bool) (next : Nat)
      (waiting : Option Nat) (nils acks : List Nat) :
      Steps ⟨some ⟨unconfirmed, confirms, closed⟩, next, waiting, nils, acks⟩ .close
        ⟨some ⟨[], confirms, true⟩, next, waiting, nils, acks⟩
  | forgotten (p : TaskPublisher) : Steps p .forget { p with channel := none }
  | connected (p : TaskPublisher) (hwaiting : p.waiting = none) :
      Steps p .connect { p with channel := some .open }

variable {p p' : TaskPublisher} {action : PublisherAction}

theorem TaskPublisher.steps (hstep : p.step action = some p') : p.Steps action p' := by
  obtain ⟨channel, next, waiting, nils, acks⟩ := p
  cases action with
  | publish sent =>
    cases waiting with
    | some m => cases hstep
    | none =>
      rcases channel with _ | ⟨unconfirmed, confirms, closed⟩
      · cases hstep
        exact .unsent _ _
      · simp only [TaskPublisher.step] at hstep
        split_ifs at hstep with hsent
        · cases hstep
          obtain ⟨rfl, hopen⟩ := hsent
          cases Bool.eq_false_of_not_eq_true hopen
          exact .sent unconfirmed confirms next nils acks
        · cases hstep
          exact .unsent _ _
  | confirm ack =>
    rcases channel with _ | ⟨_ | ⟨m, unconfirmed⟩, confirms, _ | _⟩ <;> cases hstep
    exact .confirmed m unconfirmed confirms next waiting nils acks ack
  | receive =>
    rcases waiting with _ | m <;> rcases channel with _ | ⟨unconfirmed, _ | ⟨c, confirms⟩, _ | _⟩
      <;> cases hstep
    · exact .gaveUp _ _
    · exact .received unconfirmed c confirms false m next nils acks
    · exact .received unconfirmed c confirms true m next nils acks
  | cancel =>
    cases waiting <;> cases hstep
    exact .gaveUp _ _
  | close =>
    rcases channel with _ | ⟨unconfirmed, confirms, closed⟩ <;> cases hstep
    exact .closed unconfirmed confirms closed next waiting nils acks
  | forget =>
    rcases waiting with _ | _ <;> rcases channel with _ | ⟨unconfirmed, confirms, _ | _⟩ <;> cases hstep
    exact .forgotten _
  | connect =>
    cases waiting <;> cases channel <;> cases hstep
    exact .connected _ rfl

theorem mem_ite_append {ack : Bool} {m k : Nat} {acks : List Nat} (hk : k ∈ acks) :
    k ∈ if ack then acks ++ [m] else acks := by
  split_ifs
  · exact mem_append_left _ hk
  · exact hk

theorem matched_step (hmatched : Matched p) (hquiet : NothingOutstanding p action)
    (hstep : p.step action = some p') : Matched p' := by
  obtain ⟨hnil, harrived, hwaiting⟩ := hmatched
  cases TaskPublisher.steps hstep with
  | unsent => exact ⟨hnil, harrived, hwaiting⟩
  | sent unconfirmed confirms next =>
    obtain ⟨rfl, rfl⟩ := hquiet _ rfl rfl
    refine ⟨hnil, ?_, ?_⟩
    · rintro _ ⟨⟩ c hc
      cases hc
    · rintro _ _ ⟨⟩ ⟨⟩
      exact ⟨fun k hk => mem_singleton.mp hk, fun c hc => absurd hc not_mem_nil⟩
  | confirmed m unconfirmed confirms =>
    refine ⟨fun k hk => mem_ite_append (hnil k hk), ?_, ?_⟩
    · rintro _ ⟨⟩ c hc hack
      rcases mem_append.mp hc with hc | hc
      · exact mem_ite_append (harrived _ rfl c hc hack)
      · rw [mem_singleton.mp hc] at hack ⊢
        rw [if_pos hack]
        exact mem_append_right _ (mem_singleton_self _)
    · rintro _ k ⟨⟩ hk
      obtain ⟨hunconfirmed, hconfirms⟩ := hwaiting _ k rfl hk
      refine ⟨fun j hj => hunconfirmed j (mem_cons_of_mem _ hj), fun c hc => ?_⟩
      rcases mem_append.mp hc with hc | hc
      · exact hconfirms c hc
      · rw [mem_singleton.mp hc]
        exact hunconfirmed m mem_cons_self
  | received unconfirmed c confirms closed m =>
    refine ⟨fun k hk => ?_, ?_, fun ch m _ hm => nomatch hm⟩
    · split_ifs at hk with hack
      · rcases mem_append.mp hk with hk | hk
        · exact hnil k hk
        · -- the confirmation is that of the message of the call
          rw [mem_singleton.mp hk, ← (hwaiting _ m rfl rfl).2 c mem_cons_self]
          exact harrived _ rfl c mem_cons_self hack
      · exact hnil k hk
    · rintro _ ⟨⟩ d hd
      exact harrived _ rfl d (mem_cons_of_mem _ hd)
  | gaveUp => exact ⟨hnil, harrived, fun ch m _ hm => nomatch hm⟩
  | closed =>
    refine ⟨hnil, ?_, ?_⟩
    · rintro _ ⟨⟩ c hc
      exact harrived _ rfl c hc
    · rintro _ k ⟨⟩ hk
      exact ⟨fun j hj => (nomatch hj), (hwaiting _ k rfl hk).2⟩
  | forgotten => exact ⟨hnil, fun ch hch => (nomatch hch), fun ch m hch => (nomatch hch)⟩
  | connected _ hfree =>
    refine ⟨hnil, ?_, ?_⟩
    · rintro _ ⟨⟩ c hc
      cases hc
    · intro ch m _ hm
      rw [hfree] at hm
      cases hm

end Steps

/-- In a run where every message goes out on a channel that owes no confirmation, nil stands for an
    acknowledgement of the very message. -/
theorem publish_nil_acknowledged {actions : List PublisherAction} {p : TaskPublisher}
    (hquiet : EveryStep TaskPublisher.step NothingOutstanding .initial actions)
    (hrun : run TaskPublisher.step .initial actions = some p) {m : Nat} (hm : m ∈ p.returnedNil) :
    m ∈ p.acknowledged := by
  have hmatched : Matched p := by
    apply run_invariant _ matched_initial hquiet hrun
    exact fun s action s' hinv hadmissible hstep => matched_step hinv hadmissible hstep
  exact hmatched.returnedNil m hm

theorem publish_nil_acknowledged_two_calls :
    ∃ p, run TaskPublisher.step .initial
        [.connect, .publish true, .confirm true, .receive, .publish true, .confirm true, .receive] = some p ∧
      2 ∈ p.returnedNil ∧ 2 ∈ p.acknowledged := by
  have hquiet : EveryStep TaskPublisher.step NothingOutstanding .initial
      [.connect, .publish true, .confirm true, .receive, .publish true, .confirm true, .receive] := by decide
  obtain ⟨p, hrun, hnil⟩ : ∃ p, run TaskPublisher.step .initial
      [.connect, .publish true, .confirm true, .receive, .publish true, .confirm true, .receive] = some p ∧
        2 ∈ p.returnedNil := ⟨_, rfl, by decide⟩
  exact ⟨p, hrun, hnil, publish_nil_acknowledged hquiet hrun hnil⟩

/-! ### A call behind a cancelled one -/

/-- A call waits although an older confirmation is outstanding: the broker and the next calls can
    act in such a way that `Publish` returns nil for a message that is not acknowledged. -/
theorem exists_misread (confirms : List Confirmation) (unconfirmed : List Nat) (m next : Nat)
    (returnedNil acknowledged : List Nat) (houtstanding : confirms ≠ [] ∨ unconfirmed ≠ [])
    (hack : m ∉ acknowledged) (hfresh : m ∉ unconfirmed) (hm : m < next)
    (hacknowledged : ∀ k ∈ acknowledged, k < next) (hunconfirmed : ∀ k ∈ unconfirmed, k < next) :
    ∃ actions p, run TaskPublisher.step
        ⟨some ⟨unconfirmed ++ [m], confirms, false⟩, next, some m, returnedNil, acknowledged⟩ actions =
          some p ∧
      ∃ m ∈ p.returnedNil, m ∉ p.acknowledged := by
  induction confirms generalizing unconfirmed m next with
  | nil =>
    -- the broker acknowledges the oldest message
    obtain ⟨k, unconfirmed, rfl⟩ := exists_cons_of_ne_nil (houtstanding.resolve_left fun h => h rfl)
    refine ⟨[.confirm true, .receive], _, rfl, m, mem_append_right _ mem_cons_self, fun hmem => ?_⟩
    rcases mem_append.mp hmem with hmem | hmem
    · exact hack hmem
    · rw [mem_singleton.mp hmem] at hfresh
      exact hfresh mem_cons_self
  | cons c confirms ih =>
    obtain ⟨k, ack⟩ := c
    cases ack with
    | true => exact ⟨[.receive], _, rfl, m, mem_append_right _ mem_cons_self, hack⟩
    | false =>
      -- the call fails, and the next one takes its place
      obtain ⟨actions, p, hrun, hmisread⟩ := ih (unconfirmed ++ [m]) next (next + 1)
        (.inr (append_ne_nil_of_right_ne_nil _ (cons_ne_nil m [])))
        (fun h => Nat.lt_irrefl _ (hacknowledged _ h))
        (fun h => (mem_append.mp h).elim (fun h => Nat.lt_irrefl _ (hunconfirmed _ h))
          fun h => Nat.ne_of_gt hm (mem_singleton.mp h))
        (Nat.lt_succ_self next) (fun k hk => Nat.lt_succ_of_lt (hacknowledged k hk))
        (fun k hk => (mem_append.mp hk).elim (fun hk => Nat.lt_succ_of_lt (hunconfirmed k hk))
          fun hk => mem_singleton.mp hk ▸ Nat.lt_succ_of_lt hm)
      exact ⟨.receive :: .publish true :: actions, p, hrun, hmisread⟩

/-- The numbers of the messages so far. -/
structure Numbered (p : TaskPublisher) : Prop where
  acknowledged : ∀ k ∈ p.acknowledged, k < p.next
  unconfirmed : ∀ ch ∈ p.channel, ∀ k ∈ ch.unconfirmed, k < p.next

theorem numbered_step {p p' : TaskPublisher} {action : PublisherAction} (hnumbered : Numbered p)
    (hstep : p.step action = some p') : Numbered p' := by
  obtain ⟨hacks, hunconfirmed⟩ := hnumbered
  cases TaskPublisher.steps hstep with
  | unsent => exact ⟨hacks, hunconfirmed⟩
  | sent unconfirmed confirms next =>
    refine ⟨fun k hk => Nat.lt_succ_of_lt (hacks k hk), ?_⟩
    rintro _ ⟨⟩ k hk
    rcases mem_append.mp hk with hk | hk
    · exact Nat.lt_succ_of_lt (hunconfirmed _ rfl k hk)
    · rw [mem_singleton.mp hk]
      exact Nat.lt_succ_self next
  | confirmed m =>
    refine ⟨fun k hk => ?_, ?_⟩
    · change k ∈ if _ then _ else _ at hk
      split_ifs at hk
      · rcases mem_append.mp hk with hk | hk
        · exact hacks k hk
        · rw [mem_singleton.mp hk]
          exact hunconfirmed _ rfl m mem_cons_self
      · exact hacks k hk
    · rintro _ ⟨⟩ k hk
      exact hunconfirmed _ rfl k (mem_cons_of_mem m hk)
  | received unconfirmed c confirms closed =>
    refine ⟨hacks, ?_⟩
    rintro _ ⟨⟩
    exact hunconfirmed ⟨unconfirmed, c :: confirms, closed⟩ rfl
  | gaveUp => exact ⟨hacks, hunconfirmed⟩
  | closed =>
    refine ⟨hacks, ?_⟩
    rintro _ ⟨⟩ k hk
    cases hk
  | forgotten => exact ⟨hacks, fun ch hch => (nomatch hch)⟩
  | connected =>
    refine ⟨hacks, ?_⟩
    rintro _ ⟨⟩ k hk
    cases hk

/-- The condition of `publish_nil_acknowledged` cannot be dropped anywhere: a message that goes out
    on a channel that owes a confirmation can be taken for acknowledged when it is not. -/
theorem misread_of_outstanding {actions : List PublisherAction} {p : TaskPublisher}
    (hrun : run TaskPublisher.step .initial actions = some p) (hfree : p.waiting = none)
    (houtstanding : ¬ NothingOutstanding p (.publish true)) :
    ∃ more p', run TaskPublisher.step p (.publish true :: more) = some p' ∧
      ∃ m ∈ p'.returnedNil, m ∉ p'.acknowledged := by
  have hnumbered : Numbered p := by
    apply run_preserves (fun s action s' hinv hstep => numbered_step hinv hstep) _ hrun
    exact ⟨fun k hk => (nomatch hk), fun ch hch => (nomatch hch)⟩
  obtain ⟨channel, next, waiting, returnedNil, acknowledged⟩ := p
  cases hfree
  rw [NothingOutstanding] at houtstanding
  push Not at houtstanding
  obtain ⟨⟨unconfirmed, confirms, closed⟩, hch, rfl, houtstanding⟩ := houtstanding
  cases hch
  have hunconfirmed := hnumbered.unconfirmed _ rfl
  obtain ⟨more, p', hmore, hmisread⟩ :=
    exists_misread confirms unconfirmed next (next + 1) returnedNil acknowledged
    (by tauto) (fun h => Nat.lt_irrefl _ (hnumbered.acknowledged _ h))
      (fun h => Nat.lt_irrefl _ (hunconfirmed _ h))
    (Nat.lt_succ_self next) (fun k hk => Nat.lt_succ_of_lt (hnumbered.acknowledged k hk))
    (fun k hk => Nat.lt_succ_of_lt (hunconfirmed k hk))
  exact ⟨more, p', hmore, hmisread⟩

/-- The call of message 1 is cancelled while it waits; the call of message 2 reads the confirmation
    of message 1. -/
theorem cancelled_call_misread :
    ∃ p, run TaskPublisher.step .initial
        [.connect, .publish true, .cancel, .publish true, .confirm true, .receive] = some p ∧
      2 ∈ p.returnedNil ∧ 2 ∉ p.acknowledged :=
  ⟨_, rfl, by decide, by decide⟩

theorem misread_of_outstanding_cancelled :
    ∃ p more p', run TaskPublisher.step .initial [.connect, .publish true, .cancel] = some p ∧
      run TaskPublisher.step p (.publish true :: more) = some p' ∧ ∃ m ∈ p'.returnedNil,
        m ∉ p'.acknowledged := by
  have hrun : run TaskPublisher.step .initial [.connect, .publish true, .cancel] = some _ := rfl
  obtain ⟨more, p', hmisread⟩ := misread_of_outstanding hrun rfl (by decide)
  exact ⟨_, more, p', hrun, hmisread⟩

end NsuLabs.CrackHash

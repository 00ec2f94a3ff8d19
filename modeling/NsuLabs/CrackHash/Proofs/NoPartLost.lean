/-
Module: NsuLabs.CrackHash.Proofs.NoPartLost
Purpose: No part of a request is lost, as long as the operations whose errors are only logged do not fail
  where they matter, and neither `Publish` returns without an error for a message that has not reached its
  queue and whose part is nowhere else.
Trusted boundary: none
Main exports: no_part_lost, part_lost
-/
import NsuLabs.CrackHash.Manager

namespace NsuLabs.CrackHash

open Lib List Option

variable {f : CrackRequest → CrackRequest} {i first partCount : Nat} {p : Int32} {ok : Bool} {call : Call}
  {outcome : PublishOutcome}

/-! ### Where a part can be -/

def CrackTaskMessage.key (message : CrackTaskMessage) : Uuid × Int32 :=
  (message.requestId, message.partNumber)

def FoundWordsMessage.key (message : FoundWordsMessage) : Uuid × Int32 :=
  (message.requestId, message.partNumber)

/-- The result whose update is still to come. -/
def beingAdded : Option Handler → List (Uuid × Int32)
  | some ⟨message, .addResults⟩ => [message.key]
  | _ => []

/-- The parts in the task queue, at the workers and in the results queue; a result that is being
    handled is not yet acknowledged. -/
def World.inTransit (w : World) : List (Uuid × Int32) :=
  w.taskQueue.map CrackTaskMessage.key ++ w.workers.map CrackTaskMessage.key ++
    w.resultsQueue.map FoundWordsMessage.key ++ beingAdded w.handler

def World.completed (w : World) (id : Uuid) : List Int32 :=
  match w.get id with
  | some req => req.completedPartNumbers
  | none => []

def World.pending (w : World) (id : Uuid) : List Int32 :=
  match w.get id with
  | some req => req.pendingParts
  | none => []

/-- The part is completed or on its way. -/
def InPipeline (w : World) (id : Uuid) (p : Int32) : Prop := (id, p) ∈ w.inTransit ∨ p ∈ w.completed id

/-! ### Harmless failures -/

/-- The step is not one of the failures that lose a part or the status. -/
def Harmless (w : World) : Action → Prop
  | .publish i (.confirmed false) => ∀ req next, w.calls[i]? = some (.distributing req next) →
      InPipeline w req.id (Int32.ofNat next)
  | .relayPublish (.confirmed false) => ∀ req requests p parts, w.relay = .publishing (req :: requests) →
      req.pendingParts = p :: parts → InPipeline w req.id p
  | .finishTask i _ false => ∀ message, w.workers[i]? = some message →
      InPipeline { w with workers := w.workers.eraseIdx i } message.requestId message.partNumber
  | .savePending i false => ∀ id pending, w.calls[i]? = some (.saving id pending) →
    ∀ p ∈ pending, InPipeline w id p
  | .handle false => ∀ handler req, w.handler = some handler → w.get handler.message.requestId = some req →
      match handler.stage with
      | .addResults => handler.message.partNumber ∈ req.completedPartNumbers
      | .get => (∃ i < req.partCount, Int32.ofNat i ∉ req.completedPartNumbers) ∨ req.status = .ready
      | .markReady => req.status = .ready
  | _ => True

/-! ### The invariant -/

/-- The result that is completed and not yet acknowledged. -/
def beingAcknowledged : Option Handler → List (Uuid × Int32)
  | some ⟨_, .addResults⟩ => []
  | some ⟨message, _⟩ => [message.key]
  | none => []

/-- The requests that a pass of the relay has still to go through. -/
def Relay.requests : Relay → List CrackRequest
  | idle => []
  | publishing requests => requests
  | removing _ _ requests => requests

def Call.id : Call → Uuid
  | distributing req _ => req.id
  | saving id _ => id

/-- The parts that the call has not published. -/
def Call.pending : Call → List Int32
  | distributing req next => partsFrom next req.partCount
  | saving _ pending => pending

/-- The request is on its way, or a call or the relay is busy with it, or its call has returned. -/
def World.Mentions (w : World) (id : Uuid) : Prop :=
  (∃ p, (id, p) ∈ w.inTransit) ∨ (∃ handler, w.handler = some handler ∧ handler.message.requestId = id) ∨
    id ∈ w.relay.requests.map CrackRequest.id ∨ id ∈ w.calls.map Call.id ++ w.returned

/-- The part is one that nobody will publish any more. -/
def Settled (n : Nat) (w : World) (id : Uuid) (p : Int32) : Prop :=
  (∃ requests, w.relay = .removing id p requests) ∨ (∃ i < n, Int32.ofNat i = p) ∧
    ((∃ call ∈ w.calls, call.id = id ∧ p ∉ call.pending) ∨ id ∈ w.returned ∧ p ∉ w.pending id)

/-- A document against the results that have been acknowledged. -/
structure Document (n : Nat) (acknowledged : List (Uuid × Int32)) (req : CrackRequest) : Prop where
  partCount : req.partCount = n
  counted : req.completedParts = req.completedPartNumbers.length
  ready : req.status ≠ .ready → ∃ i < n, (req.id, Int32.ofNat i) ∉ acknowledged

/-- No part of an accepted request is lost on its way. -/
structure Kept (n : Nat) (w : World) : Prop where
  known : ∀ id, w.Mentions id → (w.get id).isSome
  distinct : (w.calls.map Call.id ++ w.returned).Nodup
  settled : ∀ id p, Settled n w id p → InPipeline w id p
  documents : ∀ id req, w.get id = some req → Document n w.acknowledged req
  completed : ∀ id p, p ∈ w.completed id ↔ (id, p) ∈ w.acknowledged ∨ (id, p) ∈ beingAcknowledged w.handler

/-! ### Lookups and updates -/

variable {req : CrackRequest} {w : World}

theorem get_id {id : Uuid} (h : w.get id = some req) : req.id = id := by
  simpa using find?_some h

theorem get_update (w : World) {id : Uuid} (hf : ∀ req, req.id = id → (f req).id = id) (id' : Uuid) :
    (w.update id f).get id' = (w.get id').map fun req => if req.id = id then f req else req := by
  have hsame : ∀ req, (if req.id = id then f req else req).id = req.id := by
    intro req
    split_ifs with h
    · rw [hf req h, h]
    · rfl
  simp [World.get, World.update, find?_map, hsame]

theorem get_update_self {id : Uuid} (hf : ∀ req, req.id = id → (f req).id = id)
    (h : w.get id = some req) : (w.update id f).get id = some (f req) := by
  rw [get_update w hf, h, map_some, if_pos (get_id h)]

theorem get_update_of_ne {id id' : Uuid} (hf : ∀ req, req.id = id → (f req).id = id) (hne : id' ≠ id) :
    (w.update id f).get id' = w.get id' := by
  rw [get_update w hf]
  cases h : w.get id' with
  | none => rfl
  | some req => rw [map_some, if_neg fun hid => hne ((get_id h).symm.trans hid)]

theorem completed_of_get {id : Uuid} (h : w.get id = some req) :
    w.completed id = req.completedPartNumbers := by
  rw [World.completed, h]

theorem pending_of_get {id : Uuid} (h : w.get id = some req) : w.pending id = req.pendingParts := by
  rw [World.pending, h]

theorem mem_map_iff_of_getElem? {α β : Type} {xs : List α} {x : α} (h : xs[i]? = some x) (f : α → β)
    (y : β) : y ∈ xs.map f ↔ y = f x ∨ y ∈ (xs.eraseIdx i).map f := by
  obtain ⟨hi, rfl⟩ := List.getElem?_eq_some_iff.mp h
  rw [← mem_cons, ← map_cons]
  exact ((getElem_cons_eraseIdx_perm hi).map f).mem_iff.symm

section Steps

variable {n : Nat} {w w' : World}

/-! ### Messages on their way -/

/-- A step that only moves messages, or adds one of a known request. -/
theorem Kept.messages (h : Kept n w) {tasks workers : List CrackTaskMessage}
    {results : List FoundWordsMessage}
    (new : List (Uuid × Int32)) (hnew : ∀ key ∈ new, (w.get key.1).isSome) (hkeys : ∀ key, key ∈
      World.inTransit { w with taskQueue := tasks, workers := workers, resultsQueue := results } ↔
      key ∈ w.inTransit ∨ key ∈ new) :
    Kept n { w with taskQueue := tasks, workers := workers, resultsQueue := results } where
  known := by
    rintro id (⟨p, hp⟩ | hother)
    · rcases (hkeys _).mp hp with hp | hp
      · exact h.known id (.inl ⟨p, hp⟩)
      · exact hnew _ hp
    · exact h.known id (.inr hother)
  distinct := h.distinct
  settled := fun id p hp => (h.settled id p hp).imp_left fun htransit => (hkeys _).mpr (.inl htransit)
  documents := h.documents
  completed := h.completed

theorem step_deliverTask (h : Kept n w) (hstep : w.step n (.deliverTask i) = some w') : Kept n w' := by
  rw [World.step] at hstep
  split at hstep
  case h_1 message hget =>
    cases hstep
    have hkeys := mem_map_iff_of_getElem? hget CrackTaskMessage.key
    refine h.messages [] (forall_mem_nil _) fun key => ?_
    simp only [World.inTransit, mem_append, hkeys, map_append, map_cons, map_nil,
      mem_singleton, not_mem_nil]
    tauto
  case h_2 => cases hstep

theorem step_finishTask (h : Kept n w) {answers : List String} {delivered : Bool}
    (hharmless : Harmless w (.finishTask i answers delivered))
    (hstep : w.step n (.finishTask i answers delivered) = some w') : Kept n w' := by
  rw [World.step] at hstep
  split at hstep
  case h_1 message hget =>
    have hkeys := mem_map_iff_of_getElem? hget CrackTaskMessage.key
    cases delivered with
    | true =>
      cases hstep
      have hresult : FoundWordsMessage.key ⟨message.requestId, message.partNumber, answers⟩ = message.key :=
        rfl
      refine h.messages [] (forall_mem_nil _) fun key => ?_
      simp only [World.inTransit, mem_append, hkeys, map_append, map_cons, map_nil,
        mem_singleton, not_mem_nil, hresult]
      tauto
    | false =>
      -- the result is lost, but the part is completed or on its way elsewhere
      cases hstep
      have hless : ∀ key, key ∈ w.inTransit ↔
          key = message.key ∨ key ∈ World.inTransit { w with workers := w.workers.eraseIdx i } := by
        intro key
        simp only [World.inTransit, mem_append, hkeys]
        tauto
      refine ⟨?_, h.distinct, fun id p hp => ?_, h.documents, h.completed⟩
      · rintro id (⟨p, hp⟩ | hother)
        · exact h.known id (.inl ⟨p, (hless _).mpr (.inr hp)⟩)
        · exact h.known id (.inr hother)
      · rcases h.settled id p hp with htransit | hcompleted
        · rcases (hless _).mp htransit with heq | htransit
          · cases heq
            exact hharmless message hget
          · exact .inl htransit
        · exact .inr hcompleted
  case h_2 => cases hstep

theorem step_requeueTask (h : Kept n w) {published : Option (List String)}
    (hstep : w.step n (.requeueTask i published) = some w') : Kept n w' := by
  rw [World.step] at hstep
  split at hstep
  case h_1 message hget =>
    cases hstep
    have hkeys := mem_map_iff_of_getElem? hget CrackTaskMessage.key
    -- a result that the worker has published as well is one of the same part
    have hresult : ∀ key, key ∈ (published.map fun answers =>
        (⟨message.requestId, message.partNumber, answers⟩ : FoundWordsMessage)).toList.map
          FoundWordsMessage.key → key = message.key := by
      cases published with
      | none => simp
      | some answers => simp [FoundWordsMessage.key, CrackTaskMessage.key]
    refine h.messages [] (forall_mem_nil _) fun key => ?_
    have := hresult key
    simp only [World.inTransit, mem_append, hkeys, map_append, map_cons, map_nil,
      mem_singleton, not_mem_nil]
    tauto
  case h_2 => cases hstep

theorem step_redeliverResult (h : Kept n w) (hstep : w.step n .redeliverResult = some w') : Kept n w' := by
  rw [World.step] at hstep
  split at hstep
  case h_1 handler hhandler =>
    cases hstep
    have hknown : (w.get handler.message.key.1).isSome := h.known _ (.inr (.inl ⟨handler, hhandler, rfl⟩))
    refine h.messages [handler.message.key] (by simpa using hknown) fun key => ?_
    simp only [World.inTransit, mem_append, map_append, map_cons, map_nil, mem_singleton]
    tauto
  case h_2 => cases hstep

theorem step_deliverResult (h : Kept n w) (hstep : w.step n (.deliverResult i) = some w') : Kept n w' := by
  rw [World.step] at hstep
  split at hstep
  case h_1 message hhandler hget =>
    cases hstep
    have hkeys := mem_map_iff_of_getElem? hget FoundWordsMessage.key
    have htransit : ∀ key, key ∈ World.inTransit { w with
        resultsQueue := w.resultsQueue.eraseIdx i, handler := some ⟨message, .addResults⟩ } ↔
          key ∈ w.inTransit := by
      intro key
      simp only [World.inTransit, mem_append, hkeys, beingAdded, hhandler, mem_singleton, not_mem_nil]
      tauto
    refine ⟨?_, h.distinct, ?_, h.documents, ?_⟩
    · rintro id (⟨p, hp⟩ | ⟨handler, hsome, rfl⟩ | hother)
      · exact h.known id (.inl ⟨p, (htransit _).mp hp⟩)
      · cases hsome
        exact h.known _ (.inl
          ⟨message.partNumber, (htransit message.key).mp (by simp [World.inTransit, beingAdded])⟩)
      · exact h.known id (.inr (.inr hother))
    · exact fun id p hp => (h.settled id p hp).imp_left (htransit _).mpr
    · -- no result was being handled, so that all completed parts are acknowledged
      have := h.completed
      rw [hhandler] at this
      exact this
  case h_2 => cases hstep

/-! ### Calls of CrackHash -/

theorem advance_id (req : CrackRequest) (next : Nat) : (Call.advance req next).id = req.id := by
  rw [Call.advance]
  split_ifs <;> rfl

theorem advance_pending (req : CrackRequest) (next : Nat) :
    (Call.advance req next).pending = partsFrom next req.partCount := by
  rw [Call.advance]
  split_ifs with hnext
  · rfl
  · rw [partsFrom, Nat.sub_eq_zero_of_le (Nat.le_of_not_lt hnext)]
    rfl

theorem mem_partsFrom (hfirst : first ≤ i) (hi : i < partCount) :
    Int32.ofNat i ∈ partsFrom first partCount := by
  apply List.mem_map_of_mem
  rw [mem_range'_1]
  omega

theorem eq_or_mem_partsFrom_succ (h : p ∈ partsFrom first partCount) :
    p = Int32.ofNat first ∨ p ∈ partsFrom (first + 1) partCount := by
  obtain ⟨i, hi, rfl⟩ := List.mem_map.mp h
  rw [mem_range'_1] at hi
  rcases Nat.eq_or_lt_of_le hi.1 with rfl | hlt
  · exact .inl rfl
  · exact .inr (mem_partsFrom hlt (by omega))

theorem step_create (hn : 0 < n) (h : Kept n w) {id : Uuid} {hash : String} {maxLength : Int}
    (hstep : w.step n (.create id hash maxLength ok) = some w') : Kept n w' := by
  rw [World.step] at hstep
  split_ifs at hstep with hfresh
  swap
  · cases hstep
    exact h
  have hw' := some.inj hstep
  have hnone : w.get id = none := isNone_iff_eq_none.mp hfresh.2
  set req := createRequest id hash maxLength n alphabet with hreq
  have hid : (Call.advance req 0).id = id := advance_id req 0
  have hget : ∀ id', w'.get id' = (w.get id').or (if id = id' then some req else none) := by
    intro id'
    simp only [← hw', World.get, find?_append, find?_singleton, decide_eq_true_eq]
    rfl
  have hold : ∀ id' r, w.get id' = some r → w'.get id' = some r := by
    intro id' r hr
    rw [hget, hr, some_or]
  have hcompleted : ∀ id', w'.completed id' = w.completed id' := by
    intro id'
    rw [World.completed, World.completed, hget]
    cases w.get id' with
    | some r => rfl
    | none =>
      by_cases heq : id = id'
      · rw [none_or, if_pos heq]
        rfl
      · rw [none_or, if_neg heq]
  have hstranger : ¬ w.Mentions id := by
    intro hmentions
    have := h.known id hmentions
    rw [hnone] at this
    cases this
  subst hw'
  refine ⟨?_, ?_, ?_, ?_, ?_⟩
  · intro id' hmentions
    rw [hget]
    by_cases heq : id = id'
    · rw [if_pos heq, isSome_or, isSome_some, Bool.or_true]
    · have : w.Mentions id' := by
        simp only [World.Mentions, map_append, map_singleton, hid, mem_append,
          mem_singleton] at hmentions ⊢
        exact hmentions.imp_right fun hm => hm.imp_right fun hm => hm.imp_right fun hm =>
          hm.imp_left fun hm => hm.resolve_right (Ne.symm heq)
      rw [isSome_or, h.known id' this, Bool.true_or]
  · have hnot : id ∉ w.calls.map Call.id ++ w.returned := fun hmem => hstranger (.inr (.inr (.inr hmem)))
    rw [map_append, map_singleton, hid, append_assoc]
    exact perm_middle.nodup_iff.mpr (nodup_cons.mpr ⟨hnot, h.distinct⟩)
  · rintro id' p hsettled
    have : Settled n w id' p := by
      rcases hsettled with hrelay | ⟨hpart, hcase⟩
      · exact .inl hrelay
      refine .inr ⟨hpart, ?_⟩
      rcases hcase with ⟨call, hcall, hcid, hp⟩ | ⟨hret, hp⟩
      · rcases mem_append.mp hcall with hcall | hcall
        · exact .inl ⟨call, hcall, hcid, hp⟩
        · obtain ⟨i, hi, rfl⟩ := hpart
          rw [mem_singleton.mp hcall, advance_pending] at hp
          exact absurd (mem_partsFrom (Nat.zero_le i) hi) hp
      · obtain ⟨r, hr⟩ := isSome_iff_exists.mp (h.known id' (.inr (.inr (.inr (mem_append_right _ hret)))))
        rw [pending_of_get (hold id' r hr), ← pending_of_get hr] at hp
        exact .inr ⟨hret, hp⟩
    exact (h.settled id' p this).imp_right fun hp => (hcompleted id').symm ▸ hp
  · intro id' r hr
    rw [hget] at hr
    cases hcase : w.get id' with
    | some r' =>
      rw [hcase] at hr
      cases hr
      exact h.documents id' r hcase
    | none =>
      rw [hcase, none_or] at hr
      split_ifs at hr with heq
      cases hr
      -- nothing has been acknowledged for a request that was not there
      refine ⟨rfl, rfl, fun _ => ⟨0, hn, fun hack => ?_⟩⟩
      have hmem := (h.completed id _).mpr (.inl hack)
      rw [World.completed, hnone] at hmem
      cases hmem
  · intro id' p
    rw [hcompleted]
    exact h.completed id' p

theorem kept_enqueueTask (h : Kept n w) (message : CrackTaskMessage)
    (hknown : (w.get message.requestId).isSome)
    (delivered : Bool) : Kept n (w.enqueueTask message delivered) := by
  rw [World.enqueueTask]
  cases delivered with
  | false => exact h
  | true =>
    refine h.messages [message.key] (forall_mem_singleton.mpr hknown) fun key => ?_
    simp only [World.inTransit, mem_append, map_append, map_cons, map_nil, mem_singleton]
    tauto

/-- A part is in the pipeline once it is published. -/
theorem inPipeline_enqueueTask {message : CrackTaskMessage} {delivered : Bool} {id : Uuid}
    (h : InPipeline w id p ∨ delivered ∧ message.key = (id, p)) :
    InPipeline (w.enqueueTask message delivered) id p := by
  rw [World.enqueueTask]
  cases delivered with
  | false => exact h.resolve_right fun hfalse => Bool.false_ne_true hfalse.1
  | true =>
    simp only [InPipeline, if_true, World.inTransit, mem_append, map_append, map_cons, map_nil,
      mem_singleton] at h ⊢
    exact h.elim (fun h => by tauto) fun h => .inl (.inl (.inl (.inl (.inr h.2.symm))))

theorem known_call (h : Kept n w) (hget : w.calls[i]? = some call) : (w.get call.id).isSome :=
  h.known _ (.inr (.inr (.inr (mem_append_left _ (List.mem_map_of_mem (mem_of_getElem? hget))))))

/-- A call goes on. -/
theorem Kept.setCall (h : Kept n w) {call' : Call} (hget : w.calls[i]? = some call)
    (hid : call'.id = call.id)
    (hpending : ∀ p, p ∈ call.pending → p ∈ call'.pending ∨ InPipeline w call.id p) :
    Kept n { w with calls := w.calls.set i call' } := by
  have hids : (w.calls.set i call').map Call.id = w.calls.map Call.id := by
    obtain ⟨hi, hcall⟩ := List.getElem?_eq_some_iff.mp hget
    rw [map_set, hid, ← hcall, ← map_set, set_getElem_self]
  refine ⟨?_, ?_, ?_, h.documents, h.completed⟩
  · intro id hmentions
    rw [World.Mentions, hids] at hmentions
    exact h.known id hmentions
  · rw [hids]
    exact h.distinct
  · rintro id p (hrelay | ⟨hpart, ⟨c, hc, rfl, hp⟩ | hreturned⟩)
    · exact h.settled id p (.inl hrelay)
    · rcases mem_or_eq_of_mem_set hc with hc | rfl
      · exact h.settled _ p (.inr ⟨hpart, .inl ⟨c, hc, rfl, hp⟩⟩)
      · rw [hid]
        by_cases hold : p ∈ call.pending
        · exact (hpending p hold).resolve_left hp
        · exact h.settled _ p (.inr ⟨hpart, .inl ⟨call, mem_of_getElem? hget, rfl, hold⟩⟩)
    · exact h.settled id p (.inr ⟨hpart, .inr hreturned⟩)

@[simp] theorem calls_enqueueTask (message : CrackTaskMessage) (delivered : Bool) :
    (w.enqueueTask message delivered).calls = w.calls := by
  rw [World.enqueueTask]
  split_ifs <;> rfl

theorem step_publish (h : Kept n w) (hharmless : Harmless w (.publish i outcome))
    (hstep : w.step n (.publish i outcome) = some w') : Kept n w' := by
  rw [World.step] at hstep
  split at hstep
  case h_2 => cases hstep
  case h_1 req next hget =>
    have h₁ := kept_enqueueTask h (taskMessage req (Int32.ofNat next)) (known_call h hget) outcome.delivered
    have hget₁ : (w.enqueueTask (taskMessage req (Int32.ofNat next)) outcome.delivered).calls[i]? =
        some (.distributing req next) := by
      rw [calls_enqueueTask, hget]
    cases outcome with
    | failed delivered =>
      cases hstep
      exact h₁.setCall hget₁ rfl fun p hp => .inl hp
    | confirmed delivered =>
      cases hstep
      refine h₁.setCall hget₁ (advance_id req _) fun p hp => ?_
      rw [advance_pending]
      rcases eq_or_mem_partsFrom_succ hp with rfl | hp
      · right
        apply inPipeline_enqueueTask
        cases delivered with
        | true => exact .inr ⟨rfl, rfl⟩
        | false => exact .inl (hharmless req next hget)
      · exact .inl hp

/-! ### Changes of the pending parts -/

/-- The update changes nothing but `pending_parts`. -/
def KeepsParts (f : CrackRequest → CrackRequest) : Prop :=
  ∀ req, ∃ pending, f req = { req with pendingParts := pending }

theorem KeepsParts.id (hf : KeepsParts f) {id : Uuid} (req : CrackRequest) (hid : req.id = id) :
    (f req).id = id := by
  obtain ⟨pending, hpending⟩ := hf req
  rw [hpending]
  exact hid

theorem Kept.update (h : Kept n w) (hf : KeepsParts f) {id : Uuid}
    (hpending : id ∈ w.returned → ∀ p ∈ w.pending id, p ∈ (w.update id f).pending id ∨ InPipeline w id p) :
    Kept n (w.update id f) := by
  have hget : ∀ id', ∃ g, (∀ req, ∃ pending, g req = { req with pendingParts := pending }) ∧
      (w.update id f).get id' = (w.get id').map g := by
    intro id'
    refine ⟨_, fun req => ?_, get_update w hf.id id'⟩
    split_ifs
    · exact hf req
    · exact ⟨req.pendingParts, rfl⟩
  have hcompleted : ∀ id', (w.update id f).completed id' = w.completed id' := by
    intro id'
    obtain ⟨g, hg, heq⟩ := hget id'
    rw [World.completed, World.completed, heq]
    cases w.get id' with
    | none => rfl
    | some req =>
      obtain ⟨pending, hpending⟩ := hg req
      rw [map_some, hpending]
  refine ⟨?_, h.distinct, ?_, ?_, ?_⟩
  · intro id' hmentions
    rw [get_update w hf.id, isSome_map]
    exact h.known id' hmentions
  · intro id' p hsettled
    rw [InPipeline, hcompleted]
    rcases hsettled with hrelay | ⟨hpart, hcall | ⟨hreturned, hp⟩⟩
    · exact h.settled id' p (.inl hrelay)
    · exact h.settled id' p (.inr ⟨hpart, .inl hcall⟩)
    · by_cases hold : p ∈ w.pending id'
      · by_cases heq : id' = id
        · subst heq
          exact (hpending hreturned p hold).resolve_left hp
        · rw [World.pending, get_update_of_ne hf.id heq] at hp
          exact absurd hold hp
      · exact h.settled id' p (.inr ⟨hpart, .inr ⟨hreturned, hold⟩⟩)
  · intro id' req hreq
    obtain ⟨g, hg, heq⟩ := hget id'
    rw [heq] at hreq
    obtain ⟨old, hold, rfl⟩ := map_eq_some_iff.mp hreq
    obtain ⟨pending, hpending⟩ := hg old
    obtain ⟨hcount, hcounted, hready⟩ := h.documents id' old hold
    rw [hpending]
    exact ⟨hcount, hcounted, hready⟩
  · intro id' p
    rw [hcompleted]
    exact h.completed id' p

/-- A call returns: the parts that it leaves behind are stored or in the pipeline. -/
theorem Kept.return (h : Kept n w) {id : Uuid} {pending : List Int32}
    (hget : w.calls[i]? = some (.saving id pending))
    (hstored : ∀ p ∈ pending, p ∈ w.pending id ∨ InPipeline w id p) :
    Kept n { w with calls := w.calls.eraseIdx i, returned := w.returned ++ [id] } := by
  have hperm : ((w.calls.eraseIdx i).map Call.id ++ (w.returned ++ [id])).Perm
      (w.calls.map Call.id ++ w.returned) := by
    obtain ⟨hi, hcall⟩ := List.getElem?_eq_some_iff.mp hget
    have hcons := (getElem_cons_eraseIdx_perm hi).map Call.id
    rw [hcall, map_cons] at hcons
    rw [← append_assoc]
    exact (perm_append_singleton id _).trans (hcons.append_right w.returned)
  refine ⟨?_, hperm.nodup_iff.mpr h.distinct, ?_, h.documents, h.completed⟩
  · intro id' hmentions
    rw [World.Mentions, hperm.mem_iff] at hmentions
    exact h.known id' hmentions
  · rintro id' p (hrelay | ⟨hpart, ⟨c, hc, hcall⟩ | ⟨hreturned, hp⟩⟩)
    · exact h.settled id' p (.inl hrelay)
    · exact h.settled id' p (.inr ⟨hpart, .inl ⟨c, mem_of_mem_eraseIdx hc, hcall⟩⟩)
    · rcases mem_append.mp hreturned with hold | hnew
      · exact h.settled id' p (.inr ⟨hpart, .inr ⟨hold, hp⟩⟩)
      · rw [mem_singleton.mp hnew] at hp ⊢
        by_cases hpending : p ∈ pending
        · exact (hstored p hpending).resolve_left hp
        · exact h.settled id p (.inr ⟨hpart, .inl ⟨_, mem_of_getElem? hget, rfl, hpending⟩⟩)

/-- No call has the identifier of a request that has been returned. -/
theorem Kept.not_returned (h : Kept n w) (hcall : call ∈ w.calls) : call.id ∉ w.returned :=
  fun hreturned => (nodup_append.mp h.distinct).2.2 _ (List.mem_map_of_mem hcall) _ hreturned rfl

theorem step_savePending (h : Kept n w) (hharmless : Harmless w (.savePending i ok))
    (hstep : w.step n (.savePending i ok) = some w') : Kept n w' := by
  rw [World.step] at hstep
  split at hstep
  case h_2 => cases hstep
  case h_1 id pending hget =>
    cases ok with
    | false =>
      cases hstep
      exact h.return hget fun p hp => .inr (hharmless id pending hget p hp)
    | true =>
      cases hstep
      have hf : KeepsParts (setPendingParts pending) := fun req => ⟨pending, rfl⟩
      have hnot := h.not_returned (mem_of_getElem? hget)
      obtain ⟨req, hreq⟩ := isSome_iff_exists.mp (known_call h hget)
      have hstored : (w.update id (setPendingParts pending)).pending id = pending :=
        pending_of_get (get_update_self hf.id hreq)
      exact (h.update hf fun hreturned => absurd hreturned hnot).return hget fun p hp =>
        .inl (hstored.symm ▸ hp)

/-! ### The outbox relay -/

/-- The relay goes on. -/
theorem Kept.setRelay (h : Kept n w) {relay : Relay} (hknown : ∀ req ∈ relay.requests, (w.get req.id).isSome)
    (hremoving : ∀ id p requests, relay = .removing id p requests → InPipeline w id p) :
    Kept n { w with relay := relay } := by
  refine ⟨?_, h.distinct, ?_, h.documents, h.completed⟩
  · rintro id (htransit | hhandler | hrelay | hcall)
    · exact h.known id (.inl htransit)
    · exact h.known id (.inr (.inl hhandler))
    · obtain ⟨req, hreq, rfl⟩ := List.mem_map.mp hrelay
      exact hknown req hreq
    · exact h.known id (.inr (.inr (.inr hcall)))
  · rintro id p (⟨requests, hrelay⟩ | hother)
    · exact hremoving id p requests hrelay
    · exact h.settled id p (.inr hother)

theorem known_relay (h : Kept n w) (hreq : req ∈ w.relay.requests) : (w.get req.id).isSome :=
  h.known _ (.inr (.inr (.inl (List.mem_map_of_mem hreq))))

/-- The relay goes on with the next request that has pending parts. -/
theorem Kept.relayNext (h : Kept n w) {requests : List CrackRequest}
    (hknown : ∀ req ∈ requests, (w.get req.id).isSome) : Kept n { w with relay := Relay.next requests } := by
  induction requests with
  | nil => exact h.setRelay hknown fun _ _ _ hrelay => Relay.noConfusion hrelay
  | cons req requests ih =>
    rw [Relay.next]
    split_ifs
    · exact ih fun r hr => hknown r (mem_cons_of_mem req hr)
    · exact h.setRelay hknown fun _ _ _ hrelay => Relay.noConfusion hrelay

theorem step_relayFind (h : Kept n w) (hstep : w.step n (.relayFind ok) = some w') : Kept n w' := by
  rw [World.step] at hstep
  split at hstep
  case h_2 => cases hstep
  case h_1 =>
    split_ifs at hstep
    · cases hstep
      refine h.relayNext fun req hreq => find?_isSome.mpr ⟨req, (mem_filter.mp hreq).1, ?_⟩
      exact decide_eq_true rfl
    · cases hstep
      exact h

theorem step_relayPublish (h : Kept n w) (hharmless : Harmless w (.relayPublish outcome))
    (hstep : w.step n (.relayPublish outcome) = some w') : Kept n w' := by
  rw [World.step] at hstep
  split at hstep
  case h_2 => cases hstep
  case h_1 req requests hrelay =>
    split at hstep
    case h_1 => cases hstep
    case h_2 p parts hparts =>
      have hknown : ∀ r ∈ req :: requests, (w.get r.id).isSome := fun r hr =>
        known_relay h (by rw [hrelay]; exact hr)
      have h₁ := kept_enqueueTask h (taskMessage req p) (hknown req mem_cons_self) outcome.delivered
      have hknown₁ : ∀ r ∈ req :: requests,
          ((w.enqueueTask (taskMessage req p) outcome.delivered).get r.id).isSome := by
        intro r hr
        rw [World.enqueueTask]
        split_ifs <;> exact hknown r hr
      cases outcome with
      | failed delivered =>
        cases hstep
        exact h₁.relayNext fun r hr => hknown₁ r (mem_cons_of_mem req hr)
      | confirmed delivered =>
        cases hstep
        refine h₁.setRelay ?_ ?_
        · intro r hr
          rcases mem_cons.mp hr with rfl | hr
          · exact hknown₁ req mem_cons_self
          · exact hknown₁ r (mem_cons_of_mem req hr)
        · intro id p' rest heq
          cases heq
          apply inPipeline_enqueueTask
          cases delivered with
          | true => exact .inr ⟨rfl, rfl⟩
          | false => exact .inl (hharmless req requests p parts hrelay hparts)

theorem step_relayRemove (h : Kept n w) (hstep : w.step n (.relayRemove ok) = some w') : Kept n w' := by
  rw [World.step] at hstep
  split at hstep
  case h_2 => cases hstep
  case h_1 id p requests hrelay =>
    have hknown : ∀ r ∈ requests, (w.get r.id).isSome := fun r hr => known_relay h (by rw [hrelay]; exact hr)
    cases ok with
    | false =>
      cases hstep
      exact h.relayNext hknown
    | true =>
      cases hstep
      have hf : KeepsParts (removePendingPart p) := fun req => ⟨_, rfl⟩
      refine (h.update hf fun hreturned q hq => ?_).relayNext fun r hr => ?_
      · by_cases hqp : q = p
        · -- the part that is removed has been published
          exact .inr (hqp ▸ h.settled id p (.inl ⟨requests, hrelay⟩))
        · obtain ⟨req, hreq⟩ := isSome_iff_exists.mp
            (h.known id (.inr (.inr (.inr (mem_append_right _ hreturned)))))
          rw [pending_of_get hreq] at hq
          rw [pending_of_get (get_update_self hf.id hreq)]
          exact .inl (mem_filter.mpr ⟨hq, decide_eq_true hqp⟩)
      · rw [get_update w hf.id, isSome_map]
        exact hknown r hr

/-! ### HandleFoundWords -/

section Handling

variable {message : FoundWordsMessage} {stage : HandlerStage} {req req' : CrackRequest}

theorem eq_of_mem_beingAcknowledged {key : Uuid × Int32}
    (h : key ∈ beingAcknowledged (some ⟨message, stage⟩)) : key = message.key := by
  cases stage with
  | addResults => cases h
  | get | markReady => exact mem_singleton.mp h

/-- An operation of `HandleFoundWords`: behind it the part of the message is completed, and the
    result is acknowledged or about to be. -/
theorem Kept.handle (h : Kept n w) {acknowledged : List (Uuid × Int32)}
    (hdocument : Document n acknowledged req')
    (hhandler : w.handler = some ⟨message, stage⟩) (hget : w.get message.requestId = some req)
    (hid : req'.id = req.id) (hpending : req'.pendingParts = req.pendingParts)
    (hcompleted : ∀ p, p ∈ req'.completedPartNumbers ↔ p ∈ req.completedPartNumbers ∨ p = message.partNumber)
    {next : Option Handler}
    (hnext : ∀ handler, next = some handler → handler.message = message ∧ handler.stage ≠ .addResults)
    (hkeys : ∀ key, key ∈ acknowledged ∨ key ∈ beingAcknowledged next ↔ key ∈ w.acknowledged ∨
      key = message.key) :
    Kept n { w.update message.requestId (fun _ => req') with
      handler := next, acknowledged := acknowledged } := by
  have hf : ∀ r : CrackRequest, r.id = message.requestId → req'.id = message.requestId :=
    fun _ _ => hid.trans (get_id hget)
  have hself : (w.update message.requestId fun _ => req').get message.requestId = some req' :=
    get_update_self hf hget
  have hothers : ∀ id, id ≠ message.requestId → (w.update message.requestId fun _ => req').get id =
      w.get id :=
    fun id => get_update_of_ne hf
  have hcompleted' : ∀ id p, p ∈ (w.update message.requestId fun _ => req').completed id ↔
      p ∈ w.completed id ∨ (id, p) = message.key := by
    intro id p
    by_cases heq : id = message.requestId
    · subst heq
      rw [completed_of_get hself, completed_of_get hget, hcompleted]
      simp [FoundWordsMessage.key]
    · simp [World.completed, hothers id heq, FoundWordsMessage.key, heq]
  have hadded : beingAdded next = [] := by
    cases next with
    | none => rfl
    | some handler =>
      obtain ⟨m, stage'⟩ := handler
      cases stage' with
      | addResults => exact absurd rfl (hnext _ rfl).2
      | get => rfl
      | markReady => rfl
  refine ⟨?_, h.distinct, ?_, ?_, ?_⟩
  · intro id hmentions
    have hknown : (w.get id).isSome := by
      rcases hmentions with ⟨p, hp⟩ | ⟨handler, hsome, rfl⟩ | hother
      · simp only [World.inTransit, hadded, append_nil] at hp
        exact h.known id (.inl ⟨p, mem_append_left _ hp⟩)
      · rw [(hnext handler hsome).1, hget]
        rfl
      · exact h.known id (.inr (.inr hother))
    exact (congrArg Option.isSome (get_update w hf id)).trans (isSome_map.trans hknown)
  · intro id p hsettled
    have hold : Settled n w id p := by
      refine hsettled.imp_right fun hs => hs.imp_right fun hs => hs.imp_right fun hs =>
        hs.imp_right fun hp => ?_
      by_cases heq : id = message.requestId
      · subst heq
        rwa [pending_of_get hget, ← hpending, ← pending_of_get hself]
      · rwa [World.pending, ← hothers id heq]
    rcases h.settled id p hold with htransit | hp
    · simp only [World.inTransit, hhandler, mem_append] at htransit
      rcases htransit with htransit | htransit
      · exact .inl (mem_append_left _ (by simpa only [World.update, mem_append] using htransit))
      · -- the only part that leaves the queues
        cases stage with
        | addResults => exact .inr ((hcompleted' id p).mpr (.inr (mem_singleton.mp htransit)))
        | get | markReady => cases htransit
    · exact .inr ((hcompleted' id p).mpr (.inl hp))
  · intro id r hr
    by_cases heq : id = message.requestId
    · subst heq
      cases hself.symm.trans hr
      exact hdocument
    · have hr' : w.get id = some r := (hothers id heq).symm.trans hr
      obtain ⟨hcount, hcounted, hready⟩ := h.documents id r hr'
      refine ⟨hcount, hcounted, fun hstatus => ?_⟩
      obtain ⟨i, hi, hack⟩ := hready hstatus
      refine ⟨i, hi, fun hmem => ?_⟩
      rcases (hkeys _).mp (.inl hmem) with hmem | hmem
      · exact hack hmem
      · exact heq ((get_id hr').symm.trans (congrArg Prod.fst hmem))
  · intro id p
    refine (hcompleted' id p).trans (Iff.trans ?_ (hkeys (id, p)).symm)
    rw [h.completed, hhandler]
    constructor
    · rintro ((hack | hack) | hkey)
      · exact .inl hack
      · exact .inr (eq_of_mem_beingAcknowledged hack)
      · exact .inr hkey
    · exact Or.imp_left .inl

/-- Fewer completed parts than parts: one of the part numbers is missing. -/
theorem exists_not_completed (hbound : n ≤ 2 ^ 32) {parts : List Int32} (hlength : parts.length < n) :
    ∃ i < n, Int32.ofNat i ∉ parts := by
  by_contra hall
  push Not at hall
  have hnodup : ((List.range n).map Int32.ofNat).Nodup := by
    refine nodup_range.map_on fun i hi j hj hij => ?_
    rw [mem_range] at hi hj
    have hmod : i % 2 ^ 32 = j % 2 ^ 32 := by simpa using congrArg (fun p : Int32 => p.toBitVec.toNat) hij
    omega
  have hsubset : (List.range n).map Int32.ofNat ⊆ parts := by
    intro p hp
    obtain ⟨i, hi, rfl⟩ := List.mem_map.mp hp
    exact hall i (mem_range.mp hi)
  have hlength' := (hnodup.subperm hsubset).length_le
  rw [length_map, length_range] at hlength'
  omega

/-- The call returns without a change of the completed parts, and the message is acknowledged. -/
theorem Kept.handle_return (h : Kept n w) (hhandler : w.handler = some ⟨message, stage⟩)
    (hget : w.get message.requestId = some req) (status : Status)
    (hpart : message.partNumber ∈ req.completedPartNumbers)
    (hready : status ≠ .ready → ∃ i < n, (message.requestId, Int32.ofNat i) ∉ w.acknowledged ∧
      Int32.ofNat i ≠ message.partNumber) :
    Kept n { w.update message.requestId (fun _ => { req with status := status }) with
      handler := none, acknowledged := w.acknowledged ++ [message.key] } := by
  obtain ⟨hcount, hcounted, -⟩ := h.documents _ req hget
  have hdocument : Document n (w.acknowledged ++ [message.key]) { req with status := status } := by
    refine ⟨hcount, hcounted, fun hstatus => ?_⟩
    obtain ⟨i, hi, hack, hne⟩ := hready hstatus
    refine ⟨i, hi, ?_⟩
    simp only [get_id hget, mem_append, mem_singleton, FoundWordsMessage.key, Prod.mk.injEq, not_or]
    exact ⟨hack, fun hmem => hne hmem.2⟩
  refine h.handle hdocument hhandler hget rfl rfl ?_ (fun _ hnone => absurd hnone.symm (some_ne_none _)) ?_
  · exact fun p => ⟨.inl, fun hp => hp.elim (fun hp => hp) fun hp => hp ▸ hpart⟩
  · simp [beingAcknowledged]

/-- A part that is not completed is not acknowledged either, and is not that of the message. -/
theorem not_acknowledged_of_not_completed (h : Kept n w) (hget : w.get message.requestId = some req)
    (hpart : message.partNumber ∈ req.completedPartNumbers)
    (hmissing : ∃ i < n, Int32.ofNat i ∉ req.completedPartNumbers) :
    ∃ i < n, (message.requestId, Int32.ofNat i) ∉ w.acknowledged ∧ Int32.ofNat i ≠ message.partNumber := by
  obtain ⟨i, hi, hnot⟩ := hmissing
  refine ⟨i, hi, fun hack => hnot ?_, fun heq => hnot (heq ▸ hpart)⟩
  rw [← completed_of_get hget]
  exact (h.completed _ _).mpr (.inl hack)

theorem addResults_counted (p : Int32) (answers : List String)
    (h : req.completedParts = req.completedPartNumbers.length) :
    (addResults p answers req).completedParts = (addResults p answers req).completedPartNumbers.length := by
  rw [addResults]
  split_ifs
  · exact h
  · rw [length_append, ← h]
    rfl

theorem step_handle (hbound : n ≤ 2 ^ 32) (h : Kept n w) (hharmless : Harmless w (.handle ok))
    (hstep : w.step n (.handle ok) = some w') : Kept n w' := by
  rw [World.step] at hstep
  split at hstep
  case h_2 => cases hstep
  case h_1 handler hhandler =>
    obtain ⟨message, stage⟩ := handler
    obtain ⟨req, hget⟩ := isSome_iff_exists.mp (h.known _ (.inr (.inl ⟨_, hhandler, rfl⟩)))
    have hdocument := h.documents _ req hget
    have hcompleted := h.completed message.requestId message.partNumber
    rw [completed_of_get hget, hhandler] at hcompleted
    simp only [hget, Handler.step] at hstep
    cases stage with
    | addResults =>
      cases ok with
      | true =>
        cases hstep
        obtain ⟨hstatus, hcount, hpending, hid⟩ := addResults_fields message.partNumber message.answers req
        refine h.handle ⟨hcount.trans hdocument.partCount, addResults_counted _ _ hdocument.counted,
          fun hne => ?_⟩ hhandler hget hid hpending (mem_completed_addResults _ _ req) ?_ ?_
        · rw [hid]
          exact hdocument.ready (hstatus ▸ hne)
        · rintro handler ⟨⟩
          exact ⟨rfl, HandlerStage.noConfusion⟩
        · exact fun key => or_congr_right mem_singleton
      | false =>
        cases hstep
        have hpart : message.partNumber ∈ req.completedPartNumbers := hharmless _ req hhandler hget
        refine h.handle_return hhandler hget req.status hpart fun hstatus => ?_
        -- the result has been acknowledged before, as no other call is between the two
        have hack := (hcompleted.mp hpart).resolve_right not_mem_nil
        obtain ⟨i, hi, hnot⟩ := hdocument.ready hstatus
        rw [get_id hget] at hnot
        exact ⟨i, hi, hnot, fun heq => hnot (heq ▸ hack)⟩
    | get =>
      have hpart := hcompleted.mpr (.inr mem_cons_self)
      cases ok with
      | true =>
        simp only at hstep
        split_ifs at hstep with hall
        · cases hstep
          refine h.handle hdocument hhandler hget rfl rfl ?_ ?_ ?_
          · exact fun p => ⟨.inl, fun hp => hp.elim (fun hp => hp) fun hp => hp ▸ hpart⟩
          · rintro handler ⟨⟩
            exact ⟨rfl, HandlerStage.noConfusion⟩
          · exact fun key => or_congr_right mem_singleton
        · cases hstep
          refine h.handle_return hhandler hget req.status hpart fun _ => ?_
          apply not_acknowledged_of_not_completed h hget hpart
          apply exists_not_completed hbound
          rw [← hdocument.counted, ← hdocument.partCount]
          exact Nat.lt_of_not_le hall
      | false =>
        cases hstep
        refine h.handle_return hhandler hget req.status hpart fun hstatus => ?_
        rcases hharmless _ req hhandler hget with hmissing | hready
        · rw [hdocument.partCount] at hmissing
          exact not_acknowledged_of_not_completed h hget hpart hmissing
        · exact absurd hready hstatus
    | markReady =>
      have hpart := hcompleted.mpr (.inr mem_cons_self)
      cases ok with
      | true =>
        cases hstep
        exact h.handle_return hhandler hget .ready hpart fun hstatus => absurd rfl hstatus
      | false =>
        cases hstep
        exact h.handle_return hhandler hget req.status hpart fun hstatus =>
          absurd (hharmless _ req hhandler hget) hstatus

end Handling

/-! ### Whole runs -/

theorem step_kept (hn : 0 < n) (hbound : n ≤ 2 ^ 32) {action : Action} (h : Kept n w)
    (hharmless : Harmless w action) (hstep : w.step n action = some w') : Kept n w' := by
  cases action with
  | create => exact step_create hn h hstep
  | publish => exact step_publish h hharmless hstep
  | savePending => exact step_savePending h hharmless hstep
  | relayFind => exact step_relayFind h hstep
  | relayPublish => exact step_relayPublish h hharmless hstep
  | relayRemove => exact step_relayRemove h hstep
  | deliverTask => exact step_deliverTask h hstep
  | finishTask => exact step_finishTask h hharmless hstep
  | requeueTask => exact step_requeueTask h hstep
  | deliverResult => exact step_deliverResult h hstep
  | handle => exact step_handle hbound h hharmless hstep
  | redeliverResult => exact step_redeliverResult h hstep

end Steps

theorem kept_initial (n : Nat) : Kept n .initial := by
  constructor <;> simp [World.Mentions, Settled, World.initial, World.inTransit, World.completed,
    World.get, beingAdded, beingAcknowledged, Relay.requests]

/-- In a run whose failures are harmless, each part of a request whose call has returned is
    completed, on its way or pending, and the request is ready once the results of all parts are
    acknowledged. -/
theorem no_part_lost {n : Nat} (hn : 0 < n) (hbound : n ≤ 2 ^ 32) {actions : List Action} {w : World}
    (hharmless : EveryStep (World.step n) Harmless .initial actions)
    (hrun : run (World.step n) .initial actions = some w) {id : Uuid} (hid : id ∈ w.returned) :
    ∃ req, w.get id = some req ∧
      (∀ i < n, Int32.ofNat i ∉ req.completedPartNumbers →
        (id, Int32.ofNat i) ∈ w.inTransit ∨ Int32.ofNat i ∈ req.pendingParts) ∧
      ((∀ i < n, (id, Int32.ofNat i) ∈ w.acknowledged) → req.status = .ready) := by
  have hkept : Kept n w := by
    apply run_invariant _ (kept_initial n) hharmless hrun
    exact fun s action s' hinv hadmissible hstep => step_kept hn hbound hinv hadmissible hstep
  obtain ⟨req, hget⟩ := isSome_iff_exists.mp
    (hkept.known id (.inr (.inr (.inr (mem_append_right _ hid)))))
  refine ⟨req, hget, fun i hi hnot => ?_, fun hall => ?_⟩
  · by_cases hpending : Int32.ofNat i ∈ w.pending id
    · exact .inr (pending_of_get hget ▸ hpending)
    · have hsettled : Settled n w id (Int32.ofNat i) := .inr ⟨⟨i, hi, rfl⟩, .inr ⟨hid, hpending⟩⟩
      rcases hkept.settled id _ hsettled with htransit | hcompleted
      · exact .inl htransit
      · exact absurd (completed_of_get hget ▸ hcompleted) hnot
  · by_contra hstatus
    obtain ⟨i, hi, hack⟩ := (hkept.documents id req hget).ready hstatus
    exact hack (get_id hget ▸ hall i hi)

/-- The publication of the only part fails, the relay publishes it, and its result is handled. -/
def relayedRun : List Action :=
  [.create 7 "" 3 true, .publish 0 (.failed false), .savePending 0 true, .relayFind true,
    .relayPublish (.confirmed true),
    .relayRemove true, .deliverTask 0, .finishTask 0 ["abc"] true, .deliverResult 0, .handle true,
    .handle true, .handle true]

theorem no_part_lost_relayedRun :
    ∃ w req, run (World.step 1) .initial relayedRun = some w ∧ w.get 7 = some req ∧ req.status = .ready := by
  have hharmless : EveryStep (World.step 1) Harmless .initial relayedRun := by
    apply everyStep_of_forall
    intro action haction w
    simp only [relayedRun, mem_cons, not_mem_nil, or_false] at haction
    rcases haction with rfl | rfl | rfl | rfl | rfl | rfl | rfl | rfl | rfl | rfl | rfl | rfl <;> trivial
  obtain ⟨w, hrun⟩ : ∃ w, run (World.step 1) .initial relayedRun = some w :=
    isSome_iff_exists.mp (by decide +kernel)
  have hid : 7 ∈ w.returned := by
    have h : (run (World.step 1) .initial relayedRun).all (fun w => 7 ∈ w.returned) := by decide +kernel
    rw [hrun] at h
    simpa using h
  have hacknowledged : (7, Int32.ofNat 0) ∈ w.acknowledged := by
    have h : (run (World.step 1) .initial relayedRun).all
        (fun w => (7, Int32.ofNat 0) ∈ w.acknowledged) := by
      decide +kernel
    rw [hrun] at h
    simpa using h
  obtain ⟨req, hget, -, hready⟩ := no_part_lost Nat.one_pos (by decide) hharmless hrun hid
  refine ⟨w, req, hrun, hget, hready fun i hi => ?_⟩
  rw [Nat.lt_one_iff.mp hi]
  exact hacknowledged

/-- `AddResults` fails for the only part, and the result is acknowledged all the same. -/
theorem part_lost :
    ∃ w req, run (World.step 1) .initial
        [.create 7 "" 3 true, .publish 0 (.confirmed true), .savePending 0 true, .deliverTask 0,
          .finishTask 0 ["abc"] true, .deliverResult 0, .handle false] = some w ∧
      7 ∈ w.returned ∧ w.get 7 = some req ∧
      Int32.ofNat 0 ∉ req.completedPartNumbers ∧ (7, Int32.ofNat 0) ∉ w.inTransit ∧
      Int32.ofNat 0 ∉ req.pendingParts ∧ (7, Int32.ofNat 0) ∈ w.acknowledged ∧ req.status ≠ .ready := by
  refine ⟨_, _, rfl, ?_, rfl, ?_⟩
  · decide +kernel
  · decide +kernel

end NsuLabs.CrackHash
